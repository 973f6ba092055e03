import Mathlib.Data.List.Forall2
import SealedStream.Batch
import SealedStream.Proofs.Stream.Apart
import SealedStream.Proofs.Stream.RoundTrip

/-!
# Batches in any order

The streams of a batch share the random source and the key wrap of their builder, and are worked on in
any order and at the same time. A stream that is worked on amid others finds a builder with the same
settings, whose key wrap answers as the shared one does in some world (`CipherBuilder.Amid`): be it
that the others made their calls before (`amid_self`), or between any two calls of this stream
(`amid_busy`), or between the draws for a wrapped secret and the rest (`amid_busy_keyWrap`).

A batch in which each stream is worked on amid others, or is left alone once one has failed, is
`Parallel`. One stream after the other is such a batch (`parallel_forEach`). What can be said of all of
them is that the streams are independent (`batches_independent`).
-/

namespace SealedStream

open Scripted

variable {σ τ υ : Type}

/-! ## Amid others -/

/-- A world that others move too: before call number `calls` of a stream, they do to it what
`others calls` says. -/
structure Busy (σ : Type) where
  world : σ
  others : Nat → σ → σ
  calls : Nat := 0

/-- A call in a busy world. -/
def Busy.call {α : Type} (x : Step σ α) : Step (Busy σ) α := fun w =>
  mapState (fun s => { w with world := s, calls := w.calls + 1 }) (x (w.others w.calls w.world))

def RandomSource.busy (random : RandomSource σ) : RandomSource (Busy σ) where
  fill n := Busy.call (random.fill n)

def KeyWrap.busy (wrap : KeyWrap σ) : KeyWrap (Busy σ) where
  wrap plain := Busy.call (wrap.wrap plain)
  unwrap wrapped := Busy.call (wrap.unwrap wrapped)

namespace CipherBuilder

def busy (b : CipherBuilder σ) : CipherBuilder (Busy σ) where
  wrap := b.wrap.busy
  random := b.random.busy
  version := b.version
  checkVersion := b.checkVersion
  rejectZero := b.rejectZero

/-- A stream amid others finds the builder `b` as `b'`, in a world of its own. Whatever its key wrap
answers, the one of `b` answers in some world. What is drawn may be anything. -/
structure Amid (b : CipherBuilder σ) (b' : CipherBuilder τ) : Prop where
  version : b'.version = b.version
  checkVersion : b'.checkVersion = b.checkVersion
  rejectZero : b'.rejectZero = b.rejectZero
  wrap : ∀ plain v, ∃ w, outcome (b'.wrap.wrap plain v) = outcome (b.wrap.wrap plain w)
  unwrap : ∀ wrapped v, ∃ w, outcome (b'.wrap.unwrap wrapped v) = outcome (b.wrap.unwrap wrapped w)

theorem amid_self (b : CipherBuilder σ) : b.Amid b :=
  ⟨rfl, rfl, rfl, fun _ v => ⟨v, rfl⟩, fun _ v => ⟨v, rfl⟩⟩

theorem amid_busy (b : CipherBuilder σ) : b.Amid b.busy :=
  ⟨rfl, rfl, rfl, fun _ _ => ⟨_, outcome_mapState _ _⟩, fun _ _ => ⟨_, outcome_mapState _ _⟩⟩

/-- The bundled key wrap draws an IV for each secret, and others may draw before. -/
theorem amid_busy_keyWrap {b : CipherBuilder σ} {w : AesKeyWrap} {wrapRandom : RandomSource σ}
    (hb : b.wrap = w.keyWrap wrapRandom) :
    b.Amid { b.busy with wrap := w.keyWrap wrapRandom.busy } where
  version := rfl
  checkVersion := rfl
  rejectZero := rfl
  wrap := by
    intro plain v
    refine ⟨v.others v.calls v.world, ?_⟩
    rw [hb]
    simp only [AesKeyWrap.keyWrap, run_bind, RandomSource.busy, Busy.call]
    cases wrapRandom.fill 16 (v.others v.calls v.world) <;> rfl
  unwrap := by
    intro wrapped v
    refine ⟨v.world, ?_⟩
    rw [hb]
    simp only [AesKeyWrap.keyWrap, run_check]
    cases w.unwrap wrapped <;> rfl

namespace Amid

variable {b : CipherBuilder σ} {b' : CipherBuilder τ} {b'' : CipherBuilder υ}

theorem agrees (h : b.Amid b') (h' : b.Amid b'') (hb : b.wrap.Functional) :
    b'.wrap.Agrees b''.wrap := by
  intro wrapped v v'
  obtain ⟨w, hw⟩ := h.unwrap wrapped v
  obtain ⟨w', hw'⟩ := h'.unwrap wrapped v'
  rw [hw, hw']
  exact hb wrapped w w'

theorem functional (h : b.Amid b') (hb : b.wrap.Functional) : b'.wrap.Functional :=
  h.agrees h hb

theorem faithful (h : b.Amid b') (hb : b.wrap.Faithful) : b'.wrap.Faithful where
  unwrap := by
    intro plain wrapped v v' hwrap u
    obtain ⟨w, hw⟩ := h.wrap plain v
    rw [hwrap] at hw
    obtain ⟨w', hw⟩ := outcome_eq_ok.mp hw.symm
    obtain ⟨x, hx⟩ := h.unwrap wrapped u
    rw [hx]
    exact hb.unwrap hw x
  length := by
    intro plain wrapped v v' hwrap hlen
    obtain ⟨w, hw⟩ := h.wrap plain v
    rw [hwrap] at hw
    obtain ⟨w', hw⟩ := outcome_eq_ok.mp hw.symm
    exact hb.length hw hlen

/-- Amid different others, decrypting sessions of the same family are alike. -/
theorem twin (h : b.Amid b') (h' : b.Amid b'') (hb : b.wrap.Functional) (f : BundledFamily) :
    FamilySession.Twin f (b'.familySession f.family .decrypt)
      (b''.familySession f.family .decrypt) where
  mode := rfl
  mode' := rfl
  family := rfl
  family' := rfl
  options := by
    simp only [familySession, h.version, h.checkVersion, h.rejectZero, h'.version,
      h'.checkVersion, h'.rejectZero]
    cases f <;> rfl
  phase := rfl
  wrap := h.agrees h' hb

end Amid

end CipherBuilder

/-! ## Parallel batches -/

namespace Batch

/-- A stream of a batch: where it comes from and where it goes. -/
abbrev Item := ScriptedSource × ScriptedSink

/-- What is done to each stream of a batch, by a session of the builder. -/
abbrev Work := ∀ τ : Type, CipherBuilder τ → EStateM Error (Item × Env τ) Nat

def encrypting (f : BundledFamily) (fuel : Nat) : Work := fun _ b =>
  encrypt fuel (b.familySession f.family .encrypt)

def decrypting (f : BundledFamily) (fuel : Nat) : Work := fun _ b =>
  decrypt fuel (b.familySession f.family .decrypt)

/-- What becomes of a stream in a batch: it is worked on amid the others, with an outcome, or left
alone. -/
inductive Treated (b : CipherBuilder σ) (work : Work) (item : Item) :
    Option (Except Error Nat) × Item → Prop
  | worked {τ : Type} {b' : CipherBuilder τ} (h : b.Amid b') (env : Env τ) :
    Treated b work item
      (some (outcome (work τ b' (item, env))), (reached (work τ b' (item, env))).1)
  | skipped : Treated b work item (none, item)

/-- A batch succeeds if each stream does, and fails as one of its streams. -/
inductive Returns (outcomes : List (Option (Except Error Nat))) : Except Error Unit → Prop
  | ok (h : ∀ o ∈ outcomes, ∃ n, o = some (.ok n)) : Returns outcomes (.ok ())
  | error {e : Error} (h : some (.error e) ∈ outcomes) : Returns outcomes (.error e)

/-- The batch `items` may return `r` and leave its streams as `items'`. -/
def Parallel (b : CipherBuilder σ) (work : Work) (items : List Item) (r : Except Error Unit)
    (items' : List Item) : Prop :=
  ∃ treated, List.Forall₂ (Treated b work) items treated ∧ Returns (treated.map Prod.fst) r ∧
    items' = treated.map Prod.snd

theorem parallel_skipped (b : CipherBuilder σ) (work : Work) (items : List Item) :
    List.Forall₂ (Treated b work) items (items.map (none, ·)) := by
  rw [List.forall₂_map_right_iff, List.forall₂_same]
  exact fun _ _ => .skipped

/-- One stream after the other, up to the first that fails. By induction on the streams. -/
theorem parallel_forEach (b : CipherBuilder σ) (work : Work) : ∀ (items : List Item) (env : Env σ),
    Parallel b work items (outcome (CipherBuilder.forEach (work σ b) items env))
      (reached (CipherBuilder.forEach (work σ b) items env)).1
  | [], env => ⟨[], .nil, .ok fun _ h => (List.not_mem_nil h).elim, rfl⟩
  | item :: items, env => by
    have hitem : Treated b work item _ := .worked b.amid_self env
    simp only [CipherBuilder.forEach]
    cases hrun : work σ b (item, env) with
    | error e s =>
      rw [hrun] at hitem
      refine ⟨_ :: _, .cons hitem (parallel_skipped b work items), .error ?_, ?_⟩
      · exact List.mem_cons_self
      · simp [reached, Function.comp_def]
    | ok n s =>
      rw [hrun] at hitem
      obtain ⟨treated, htreated, hreturns, hitems⟩ := parallel_forEach b work items s.2
      refine ⟨_ :: treated, .cons hitem htreated, ?_, ?_⟩
      · rw [outcome_mapState]
        generalize outcome (CipherBuilder.forEach (work σ b) items s.2) = r at hreturns
        cases hreturns with
        | ok h => exact .ok (List.forall_mem_cons.mpr ⟨⟨n, rfl⟩, h⟩)
        | error h => exact .error (List.mem_cons_of_mem _ h)
      · rw [reached_mapState, List.map_cons, ← hitems]
        rfl

/-! ## Streams on their own -/

variable {b : CipherBuilder σ} {b' : CipherBuilder τ} {b'' : CipherBuilder υ}

/-- Decrypting comes to the same amid different others. -/
theorem decrypting_amid (h : b.Amid b') (h' : b.Amid b'') (hb : b.wrap.Functional)
    (f : BundledFamily) (fuel : Nat) (item : Item) (env : Env τ) (env' : Env υ) :
    outcome (decrypting f fuel τ b' (item, env)) =
        outcome (decrypting f fuel υ b'' (item, env')) ∧
      (reached (decrypting f fuel τ b' (item, env))).1 =
        (reached (decrypting f fuel υ b'' (item, env'))).1 := by
  have halike := decrypt_apart (Scripted.aside τ υ fuel) (h.twin h' hb f) (item, env) (item, env') rfl
  exact ⟨halike.outcome_eq, halike.related⟩

/-- The source gives these bytes and ends, nothing befalls it and the sink, and the sink is empty. -/
structure Ready (bytes : Bytes) (item : Item) : Prop where
  source : item.1.readEvents = [] ∧ item.1.chunk ≠ some 0
  remaining : item.1.data.toList.drop item.1.pos = bytes
  sink : item.2.writeEvents = [] ∧ item.2.flushEvents = [] ∧ item.2.chunk ≠ some 0
  empty : item.2.content = []

/-- What was encrypted amid others is decrypted amid different others. -/
theorem decrypting_encrypted (hfaithful : b.wrap.Faithful) (hfunctional : b.wrap.Functional)
    {f : BundledFamily} {fuel fuel' n : Nat} (h : b.Amid b') (h' : b.Amid b'') {plain : Bytes}
    {item again : Item} {env : Env τ} {t : Item × Env τ} (hready : Ready plain item)
    (hrun : encrypting f fuel τ b' (item, env) = .ok n t) (hagain : Ready t.1.2.content again)
    (hfuel : t.1.2.content.length < fuel') (env' : Env υ) :
    ∃ m t', decrypting f fuel' υ b'' (again, env') = .ok m t' ∧ t'.1.2.content = plain := by
  obtain ⟨-, hdr, body, -, -, hcontent, hdecrypt⟩ :=
    roundTrips_of_faithful ScriptedSource.working ScriptedSink.working ScriptedSource.working
      ScriptedSink.working (h.faithful hfaithful) (h.functional hfunctional) f item.1 item.2 env
      fuel n t hready.source hready.sink hrun
  have hsealed : t.1.2.content = item.2.content ++ ([] ++ hdr.encode ++ body) := hcontent
  rw [hready.empty, List.nil_append] at hsealed
  obtain ⟨source, s, env'', hdec, -, hs⟩ := hdecrypt again.1 again.2 t.2 fuel' hagain.source
    (hagain.remaining.trans hsealed) hagain.sink
    (lt_of_eq_of_lt (congrArg List.length hagain.remaining) hfuel)
  obtain ⟨houtcome, hreached⟩ :=
    decrypting_amid h h' hfunctional f fuel' again t.2 env'
  have hdec : decrypting f fuel' τ b' (again, t.2) = .ok n ((source, s), env'') := hdec
  rw [hdec] at houtcome hreached
  obtain ⟨t', ht'⟩ := outcome_eq_ok.mp houtcome.symm
  rw [ht'] at hreached
  refine ⟨n, t', ht', ?_⟩
  have hs : s.content = again.2.content ++ item.1.data.toList.drop item.1.pos := hs
  rw [hagain.empty, hready.remaining, List.nil_append] at hs
  rw [← hs]
  exact congrArg (fun item : Item => item.2.content) hreached.symm

/-! ## Batches as a whole -/

theorem exists_mem_of_forall₂ {α β : Type} {R : α → β → Prop} {l : List α} {l' : List β}
    (h : List.Forall₂ R l l') : ∀ b ∈ l', ∃ a ∈ l, R a b := by
  induction h with
  | nil => simp
  | cons hab _ ih =>
    simp only [List.forall_mem_cons, List.exists_mem_cons_iff]
    exact ⟨.inl hab, fun b hb => .inr (ih b hb)⟩

/-- A stream of a decrypting batch is left alone, or comes to what it comes to on its own. -/
theorem Treated.alone (hb : b.wrap.Functional) {f : BundledFamily} {fuel : Nat} {item : Item}
    {t : Option (Except Error Nat) × Item} (h : Treated b (decrypting f fuel) item t)
    (env : Env σ) :
    t = (none, item) ∨
      t = (some (outcome (decrypting f fuel σ b (item, env))),
        (reached (decrypting f fuel σ b (item, env))).1) := by
  cases h with
  | skipped => exact .inl rfl
  | worked h env' =>
    obtain ⟨houtcome, hreached⟩ := decrypting_amid h b.amid_self hb f fuel item env' env
    rw [houtcome, hreached]
    exact .inr rfl

/-- If all streams of a decrypting batch succeed, they do on their own, with the same results. By
induction on the streams. -/
theorem alone_of_ok (hb : b.wrap.Functional) {f : BundledFamily} {fuel : Nat} {items : List Item}
    {treated : List (Option (Except Error Nat) × Item)}
    (htreated : List.Forall₂ (Treated b (decrypting f fuel)) items treated)
    (hok : ∀ o ∈ treated.map Prod.fst, ∃ n, o = some (.ok n)) (env : Env σ) :
    (∀ item ∈ items, ∃ n, outcome (decrypting f fuel σ b (item, env)) = .ok n) ∧
      treated.map Prod.snd =
        items.map fun item => (reached (decrypting f fuel σ b (item, env))).1 := by
  induction htreated with
  | nil => exact ⟨nofun, rfl⟩
  | cons htreat _ ih =>
    rw [List.map_cons, List.forall_mem_cons] at hok
    obtain ⟨⟨n, hn⟩, hok⟩ := hok
    obtain ⟨hitems, hmap⟩ := ih hok
    rcases htreat.alone hb env with rfl | rfl
    · cases hn
    · exact ⟨List.forall_mem_cons.mpr ⟨⟨n, Option.some.inj hn⟩, hitems⟩,
        congrArg (List.cons _) hmap⟩

/-- If one of them fails, it does on its own. -/
theorem alone_of_error (hb : b.wrap.Functional) {f : BundledFamily} {fuel : Nat} {items : List Item}
    {treated : List (Option (Except Error Nat) × Item)}
    (htreated : List.Forall₂ (Treated b (decrypting f fuel)) items treated) {e : Error}
    (herror : some (.error e) ∈ treated.map Prod.fst) (env : Env σ) :
    ∃ item ∈ items, outcome (decrypting f fuel σ b (item, env)) = .error e := by
  obtain ⟨t, ht, hte⟩ := List.mem_map.mp herror
  obtain ⟨item, hitem, htreat⟩ := exists_mem_of_forall₂ htreated t ht
  refine ⟨item, hitem, ?_⟩
  rcases htreat.alone hb env with rfl | rfl
  · cases hte
  · exact Option.some.inj hte

/-- On its own in this environment, the stream decrypts to these bytes. -/
def Opens (b : CipherBuilder σ) (f : BundledFamily) (fuel : Nat) (env : Env σ) (plain : Bytes)
    (item : Item) : Prop :=
  ∃ n t, decrypting f fuel σ b (item, env) = .ok n t ∧ t.1.2.content = plain

/-- What a batch encrypted is decrypted stream by stream. By induction on the streams. -/
theorem forall₂_opens (hfaithful : b.wrap.Faithful) (hfunctional : b.wrap.Functional)
    {f : BundledFamily} {fuel fuel' : Nat} {plaintexts : List Bytes} {items again : List Item}
    {treated : List (Option (Except Error Nat) × Item)}
    (hready : List.Forall₂ Ready plaintexts items)
    (htreated : List.Forall₂ (Treated b (encrypting f fuel)) items treated)
    (hok : ∀ o ∈ treated.map Prod.fst, ∃ n, o = some (.ok n))
    (hagain : List.Forall₂
      (fun item item' => Ready item.2.content item' ∧ item.2.content.length < fuel')
      (treated.map Prod.snd) again) (env : Env σ) :
    List.Forall₂ (Opens b f fuel' env) plaintexts again := by
  induction hready generalizing treated again with
  | nil =>
    cases htreated
    cases hagain
    exact .nil
  | cons hplain _ ih =>
    cases htreated with
    | cons htreat htreated =>
      rw [List.map_cons, List.forall_mem_cons] at hok
      obtain ⟨⟨n, hn⟩, hok⟩ := hok
      cases hagain with
      | cons hsealed hagain =>
        refine .cons ?_ (ih htreated hok hagain)
        cases htreat with
        | skipped => cases hn
        | worked h env' =>
          obtain ⟨t, hrun⟩ := outcome_eq_ok.mp (Option.some.inj hn)
          rw [hrun] at hsealed
          exact decrypting_encrypted hfaithful hfunctional h b.amid_self hplain hrun hsealed.1
            hsealed.2 env

end Batch

open Batch in
/-- **The streams of a batch are independent**, in whatever order they are worked on and their draws
come, for a builder whose key wrap unwraps by a function of its input. If the key wrap also takes back
what it wrapped, what a batch encrypted is decrypted by a batch. A decrypting batch succeeds if and
only if each stream does on its own, and with the same results; if it fails, then as one of them does
on its own. -/
theorem batches_independent {b : CipherBuilder σ} (hfunctional : b.wrap.Functional)
    (f : BundledFamily) (env : Env σ) :
    (b.wrap.Faithful →
      ∀ {plaintexts : List Bytes} {items sealed again opened : List Item} {fuel fuel' : Nat}
        {r : Except Error Unit},
        List.Forall₂ Ready plaintexts items →
        Parallel b (encrypting f fuel) items (.ok ()) sealed →
        List.Forall₂ (fun item item' => Ready item.2.content item' ∧ item.2.content.length < fuel')
          sealed again →
        Parallel b (decrypting f fuel') again r opened →
        r = .ok () ∧ opened.map (fun item => item.2.content) = plaintexts) ∧
    (∀ {items opened : List Item} {fuel : Nat} {r : Except Error Unit},
      Parallel b (decrypting f fuel) items r opened →
        (r = .ok () ↔
          ∀ item ∈ items, ∃ n, outcome (decrypting f fuel σ b (item, env)) = .ok n) ∧
        (r = .ok () →
          opened = items.map fun item => (reached (decrypting f fuel σ b (item, env))).1) ∧
        ∀ e, r = .error e →
          ∃ item ∈ items, outcome (decrypting f fuel σ b (item, env)) = .error e) ∧
    (∀ (items : List Item) (fuel : Nat),
      Parallel b (encrypting f fuel) items
          (outcome (b.encryptBatch f.family fuel (items, env)))
          (reached (b.encryptBatch f.family fuel (items, env))).1 ∧
        Parallel b (decrypting f fuel) items
          (outcome (b.decryptBatch f.family fuel (items, env)))
          (reached (b.decryptBatch f.family fuel (items, env))).1) ∧
    b.Amid b.busy ∧
    ∀ (w : AesKeyWrap) (wrapRandom : RandomSource σ), b.wrap = w.keyWrap wrapRandom →
      b.Amid { b.busy with wrap := w.keyWrap wrapRandom.busy } := by
  refine ⟨?_, ?_, fun items fuel => ⟨parallel_forEach b (encrypting f fuel) items env,
    parallel_forEach b (decrypting f fuel) items env⟩, b.amid_busy,
    fun _ _ => CipherBuilder.amid_busy_keyWrap⟩
  · rintro hfaithful plaintexts items _ again _ fuel fuel' r hready
      ⟨treated, htreated, hok, rfl⟩ hagain ⟨treated', htreated', hreturns, rfl⟩
    have hopens : List.Forall₂ (Opens b f fuel' env) plaintexts again := by
      cases hok with
      | ok hok => exact forall₂_opens hfaithful hfunctional hready htreated hok hagain env
    cases hreturns with
    | error herror =>
      obtain ⟨item, hitem, he⟩ := alone_of_error hfunctional htreated' herror env
      obtain ⟨_, _, n, t, hrun, -⟩ := exists_mem_of_forall₂ hopens item hitem
      rw [hrun] at he
      cases he
    | ok hok' =>
      refine ⟨rfl, ?_⟩
      rw [(alone_of_ok hfunctional htreated' hok' env).2, List.map_map, ← List.forall₂_eq_eq_eq,
        List.forall₂_map_left_iff]
      refine List.Forall₂.flip (hopens.imp ?_)
      rintro plain item ⟨n, t, hrun, hplain⟩
      simp only [flip, Function.comp_apply, hrun]
      exact hplain
  · rintro items _ fuel r ⟨treated, htreated, hreturns, rfl⟩
    cases hreturns with
    | ok hok =>
      obtain ⟨hall, hmap⟩ := alone_of_ok hfunctional htreated hok env
      exact ⟨⟨fun _ => hall, fun _ => rfl⟩, fun _ => hmap, nofun⟩
    | @error e herror =>
      obtain ⟨item, hitem, he⟩ := alone_of_error hfunctional htreated herror env
      refine ⟨⟨nofun, fun hall => ?_⟩, nofun, ?_⟩
      · obtain ⟨n, hn⟩ := hall item hitem
        rw [hn] at he
        cases he
      · rintro _ ⟨⟩
        exact ⟨item, hitem, he⟩

section

open Batch

/-- Two streams that move their bytes in pieces. -/
def twoStreams : List Item :=
  [({ data := #[1, 2, 3], chunk := some 2 }, { chunk := some 5 }), ({ data := #[4] }, {})]

/-- Streams from what these streams wrote. -/
def Batch.back (items : List Item) : List Item :=
  items.map fun item => ({ data := item.2.content.toArray }, {})

theorem Batch.forall₂_back {fuel : Nat} {items : List Item}
    (h : ∀ item ∈ items, item.2.content.length < fuel) :
    List.Forall₂ (fun item item' => Ready item.2.content item' ∧ item.2.content.length < fuel)
      items (back items) := by
  rw [back, List.forall₂_map_right_iff, List.forall₂_same]
  exact fun item hitem => ⟨⟨⟨rfl, nofun⟩, List.drop_zero, ⟨rfl, rfl, nofun⟩, rfl⟩, h item hitem⟩

/-- Two streams, one after the other, there and back. -/
theorem batches_independent_twoStreams :
    let sealed := onesBuilder.encryptBatch BundledFamily.aes.family 60 (twoStreams, ⟨[], ()⟩)
    let opened := onesBuilder.decryptBatch BundledFamily.aes.family 400
      (back (reached sealed).1, ⟨[], ()⟩)
    (outcome sealed).toOption = some () ∧ outcome opened = .ok () ∧
      (reached opened).1.map (fun item => item.2.content) = [[1, 2, 3], [4]] := by
  intro sealed opened
  have hok : (outcome sealed).toOption = some () := by decide +kernel
  have hlength : ∀ item ∈ (reached sealed).1, item.2.content.length < 400 := by decide +kernel
  obtain ⟨hthere, -, hbatch, -⟩ :=
    batches_independent (b := onesBuilder) (AesKeyWrap.functional_keyWrap _ _) .aes ⟨[], ()⟩
  have hsealed := (hbatch twoStreams 60).1
  have hready : List.Forall₂ Ready [[1, 2, 3], [4]] twoStreams :=
    .cons ⟨⟨rfl, nofun⟩, rfl, ⟨rfl, rfl, nofun⟩, rfl⟩
      (.cons ⟨⟨rfl, nofun⟩, rfl, ⟨rfl, rfl, nofun⟩, rfl⟩ .nil)
  have hout : outcome sealed = .ok () := by
    generalize outcome sealed = r at hok
    cases r with
    | ok u => rfl
    | error e => cases hok
  rw [show outcome (onesBuilder.encryptBatch BundledFamily.aes.family 60 (twoStreams, ⟨[], ()⟩)) =
    .ok () from hout] at hsealed
  obtain ⟨hopened, hcontents⟩ := hthere (AesKeyWrap.faithful_keyWrap _ _) hready hsealed
    (forall₂_back hlength) (hbatch _ 400).2
  exact ⟨hok, hopened, hcontents⟩

/-- Its key wrap changes nothing. -/
def plainBuilder : CipherBuilder World where
  wrap := identityWrap 0
  random := randomSource 0

/-- Five bytes under an IV and a key that the key wrap left as they are. -/
def plainStream : Item :=
  let head := Header.mk 1 (List.replicate 8 1 ++ List.replicate 4 0 ++ List.replicate 4 1)
    (List.replicate 32 2)
  ({ data := (head.encode ++ [0x28, 0xe6, 0x3f, 0x79, 0x53]).toArray }, {})

/-- A key wrap that gives up at its third secret unwraps those of either stream and not those of
both. And one that does not take back what it wrapped lets a batch succeed that cannot be decrypted. -/
theorem not_batches_independent :
    (outcome (decrypting .aes 100 World plainBuilder
        (plainStream, ⟨[], { wraps := [{ unwraps := ⟨[2], 0⟩ }] }⟩))).toOption = some 5 ∧
      (outcome (plainBuilder.decryptBatch BundledFamily.aes.family 100
        ([plainStream, plainStream], ⟨[], { wraps := [{ unwraps := ⟨[2], 0⟩ }] }⟩))).toOption =
        none ∧
    (let losing : CipherBuilder Unit := { onesBuilder with wrap := ⟨fun _ => pure [], pure⟩ }
    let sealed := losing.encryptBatch BundledFamily.aes.family 60 (twoStreams, ⟨[], ()⟩)
    (outcome sealed).toOption = some () ∧
      (outcome (losing.decryptBatch BundledFamily.aes.family 400
        (back (reached sealed).1, ⟨[], ()⟩))).toOption = none) :=
  ⟨by decide +kernel, by decide +kernel, by decide +kernel, by decide +kernel⟩

end

end SealedStream
