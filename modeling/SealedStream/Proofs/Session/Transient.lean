import SealedStream.Proofs.Session.HeaderFirst
import SealedStream.Proofs.Session.Family

/-!
# Failures that pass

A decrypting session of any family asks collaborators that may fail at one call and not at the next:
the key wrap, the family that makes the content cipher, and that cipher itself. What they say when
they do not fail is a `Reference`. A failed call costs such a session nothing if the bytes of the
failed update stay gathered, and they do until the content cipher refuses the first bytes behind the
header: of an update that fails like this the session keeps the header alone (`Spills`). Without a
spill a caller who goes on gets what a session without failures gives; behind a spill, what such a
session gives for the header and the bytes fed after it (`FamilySession.transient_failures`).
-/

namespace SealedStream

variable {κ σ γ : Type}

namespace Session

/-- The chunks, each fed by an update. -/
def updates (xs : List Bytes) : List Call := xs.map .update

/-- Every chunk of the run is met in a state with `P`; failures are ignored. -/
def Along [Session κ σ] (P : Bytes → κ × σ → Prop) : List Bytes → κ × σ → Prop
  | [], _ => True
  | x :: xs, t => P x t ∧ Along P xs (reached (Session.update x t))

variable [Session κ σ] {P : Bytes → κ × σ → Prop}

instance decidableAlong [∀ x t, Decidable (P x t)] : ∀ xs t, Decidable (Along P xs t)
  | [], _ => .isTrue trivial
  | x :: xs, t => @instDecidableAnd _ _ _ (decidableAlong xs (reached (Session.update x t)))

theorem updates_append (xs ys : List Bytes) : updates (xs ++ ys) = updates xs ++ updates ys :=
  List.map_append

theorem Along.mono {Q : Bytes → κ × σ → Prop} {xs : List Bytes} {t : κ × σ} (h : Along P xs t)
    (hPQ : ∀ x t, P x t → Q x t) : Along Q xs t := by
  induction xs generalizing t with
  | nil => trivial
  | cons x xs ih => exact ⟨hPQ x t h.1, ih h.2⟩

theorem after_updates_snoc (xs : List Bytes) (x : Bytes) (t : κ × σ) :
    after Call.run (updates (xs ++ [x])) t =
      reached (Session.update x (after Call.run (updates xs) t)) := by
  rw [updates_append, after_append]
  rfl

theorem emitted_updates_snoc (xs : List Bytes) (x : Bytes) (t : κ × σ) :
    emitted Call.run (updates (xs ++ [x])) t = emitted Call.run (updates xs) t ++
      given (Session.update x (after Call.run (updates xs) t)) := by
  rw [updates_append, emitted_append]
  exact congrArg _ (List.append_nil _)

theorem along_append {xs ys : List Bytes} {t : κ × σ} :
    Along P (xs ++ ys) t ↔ Along P xs t ∧ Along P ys (after Call.run (updates xs) t) := by
  induction xs generalizing t with
  | nil => exact ⟨fun h => ⟨trivial, h⟩, And.right⟩
  | cons x xs ih => exact (and_congr_right fun _ => ih).trans (and_assoc).symm

end Session

/-- What the collaborators of decrypting sessions say when they do not fail. -/
structure Reference (γ : Type) where
  unwrap : Bytes → Option Bytes
  make : (key iv : Bytes) → Option γ
  apply : γ → Bytes → Bytes × γ

namespace Reference

/-- The content cipher behind a header. -/
def open? (ref : Reference γ) (h : Header) : Option γ := do
  let iv ← ref.unwrap h.wrappedIv
  let key ← ref.unwrap h.wrappedKey
  ref.make key iv

/-- Content ciphers that take a stream in pieces as they take it whole. -/
structure Incremental (ref : Reference γ) : Prop where
  apply_nil : ∀ {key iv c}, ref.make key iv = some c → ref.apply c [] = ([], c)
  apply_append : ∀ c a b, ref.apply c (a ++ b) =
    ((ref.apply c a).1 ++ (ref.apply (ref.apply c a).2 b).1, (ref.apply (ref.apply c a).2 b).2)

theorem make_of_open? {ref : Reference γ} {h : Header} {c : γ} (ho : ref.open? h = some c) :
    ∃ key iv, ref.make key iv = some c := by
  obtain ⟨iv, -, ho⟩ := Option.bind_eq_some_iff.mp ho
  obtain ⟨key, -, ho⟩ := Option.bind_eq_some_iff.mp ho
  exact ⟨key, iv, ho⟩

end Reference

namespace FamilySession

open Session (Call)

/-- Where the session `s` stands if it counts on the bytes `held`, and what it gave for them. -/
inductive Stands (s : FamilySession σ γ) (ref : Reference γ) (held : Bytes) :
    FamilySession σ γ → Bytes → Prop
  | awaiting : Stands s ref held { s with phase := .awaiting held } []
  | ready {h : Header} {n : Nat} {c : γ}
      (hd : Header.decode held s.expectedVersion = .ok (.complete h n))
      (ho : ref.open? h = some c) :
      Stands s ref held { s with phase := .ready (ref.apply c (held.drop n)).2 }
        (ref.apply c (held.drop n)).1

/-- It stands there and has opened its header, if that is complete. -/
def Settled (s : FamilySession σ γ) (ref : Reference γ) (held : Bytes) (k : FamilySession σ γ)
    (out : Bytes) : Prop :=
  Stands s ref held k out ∧
    (k.isReady = false → Header.decode held s.expectedVersion = .ok .needMore)

section

variable {s k : FamilySession σ γ} {ref : Reference γ} {held out : Bytes}

theorem settled_ready {h : Header} {n : Nat} {c : γ}
    (hd : Header.decode held s.expectedVersion = .ok (.complete h n))
    (ho : ref.open? h = some c) :
    Settled s ref held { s with phase := .ready (ref.apply c (held.drop n)).2 }
      (ref.apply c (held.drop n)).1 := by
  refine ⟨.ready hd ho, fun hr => ?_⟩
  cases hr

/-- Two sessions that are settled on the same bytes are the same and gave the same. -/
theorem Settled.unique {k' : FamilySession σ γ} {out' : Bytes} (h : Settled s ref held k out)
    (h' : Settled s ref held k' out') : k = k' ∧ out = out' := by
  obtain ⟨hk, hopen⟩ := h
  obtain ⟨hk', hopen'⟩ := h'
  cases hk with
  | awaiting =>
    cases hk' with
    | awaiting => exact ⟨rfl, rfl⟩
    | ready hd' ho' =>
      rw [hopen rfl] at hd'
      cases hd'
  | ready hd ho =>
    cases hk' with
    | awaiting =>
      rw [hopen' rfl] at hd
      cases hd
    | ready hd' ho' =>
      rw [hd] at hd'
      cases hd'
      rw [ho] at ho'
      cases ho'
      exact ⟨rfl, rfl⟩

/-- Of the bytes that were fed a session counts on all, or on the header and what is left of those
behind it when a piece was lost. -/
inductive Counted (s : FamilySession σ γ) : (fed held : Bytes) → Prop
  | all (fed : Bytes) : Counted s fed fed
  | cut {h : Header} (ha : Header.Admitted s.expectedVersion h) (lost rest : Bytes) :
      Counted s (h.encode ++ (lost ++ rest)) (h.encode ++ rest)

theorem Counted.append {fed : Bytes} (h : Counted s fed held) (x : Bytes) :
    Counted s (fed ++ x) (held ++ x) := by
  cases h with
  | all => exact .all _
  | cut ha lost rest =>
    rw [List.append_assoc, List.append_assoc, List.append_assoc]
    exact .cut ha lost (rest ++ x)

/-- Two headers at the front of the same bytes are the same. -/
theorem encode_append_inj {h h' : Header} {rest rest' : Bytes}
    (ha : Header.Admitted s.expectedVersion h) (ha' : Header.Admitted s.expectedVersion h')
    (heq : h.encode ++ rest = h'.encode ++ rest') : h = h' ∧ rest = rest' := by
  have hd := Header.decode_encode_append ha rest
  rw [heq, Header.decode_encode_append ha' rest'] at hd
  cases hd
  exact ⟨rfl, List.append_cancel_left heq⟩

/-- When the bytes behind the header spill, all of them that were fed are lost. -/
theorem Counted.spill {fed rest : Bytes} {h : Header} (hc : Counted s fed held)
    (ha : Header.Admitted s.expectedVersion h) (hrest : rest ≠ []) (heq : held = h.encode ++ rest) :
    ∃ lost, lost ≠ [] ∧ fed = h.encode ++ lost := by
  cases hc with
  | all => exact ⟨rest, hrest, heq⟩
  | cut ha' lost rest' =>
    obtain ⟨rfl, rfl⟩ := encode_append_inj ha' ha heq
    exact ⟨lost ++ rest', fun h => hrest (List.append_eq_nil_iff.mp h).2, rfl⟩

end

variable [ContentCipher σ γ]

/-- A decrypting session at its beginning whose collaborators fail, call by call, or say what the
reference says. -/
structure Falters (s : FamilySession σ γ) (ref : Reference γ) : Prop where
  mode : s.mode = .decrypt
  phase : s.phase = .awaiting []
  unwrap : ∀ {wrapped v plain v'}, s.wrap.unwrap wrapped v = .ok plain v' →
    ref.unwrap wrapped = some plain
  make : ∀ {key iv v c v'}, s.family.newCipher key iv .decrypt v = .ok c v' →
    ref.make key iv = some c
  apply : ∀ {c input v out t}, ContentCipher.update input ((c, v) : γ × σ) = .ok out t →
    (out, t.1) = ref.apply c input

/-- The content cipher refuses the first bytes behind a header that was opened. -/
def Spills (x : Bytes) (t : FamilySession σ γ × σ) : Prop :=
  ∃ held h n c v e u, t.1.mode = .decrypt ∧ t.1.phase = .awaiting held ∧
    Header.decode (held ++ x) t.1.expectedVersion = .ok (.complete h n) ∧
    openNew t.1 h t.2 = .ok c v ∧ (held ++ x).drop n ≠ [] ∧
    ContentCipher.update ((held ++ x).drop n) (c, v) = .error e u

variable {s k : FamilySession σ γ} {ref : Reference γ} {held x out : Bytes} {v : σ}

theorem Falters.open? (hs : s.Falters ref) {h : Header} {c : γ} {v' : σ}
    (ho : openNew s h v = .ok c v') : ref.open? h = some c := by
  obtain ⟨m, v₁, hm, hc⟩ := exists_of_bind_eq_ok ho
  rw [KeyMaterial.openHeader_eq] at hm
  obtain ⟨iv, v₂, hiv, hm⟩ := exists_of_bind_eq_ok hm
  rw [run_ite] at hm
  split at hm
  · cases hm
  · obtain ⟨key, v₃, hkey, hm⟩ := exists_of_bind_eq_ok hm
    rw [run_ite] at hm
    split at hm
    · cases hm
    · cases hm
      simp only [Reference.open?, hs.unwrap hiv, hs.unwrap hkey, Option.bind_eq_bind,
        Option.bind_some]
      exact hs.make hc

/-! ## One chunk -/

/-- Of a chunk that spills, and of what was gathered before it, the header is all that is kept. -/
theorem update_spills {t : FamilySession σ γ × σ} (hspill : Spills x t) :
    ∃ held h rest e v, t.1.phase = .awaiting held ∧
      Header.Admitted t.1.expectedVersion h ∧ rest ≠ [] ∧ held ++ x = h.encode ++ rest ∧
      Session.update x t = .error e ({ t.1 with phase := .awaiting h.encode }, v) := by
  obtain ⟨held, h, n, c, v, e, u, hm, hp, hd, ho, hne, hu⟩ := hspill
  obtain ⟨hadmitted, hn, hall⟩ := Header.decode_complete hd
  have htake : (held ++ x).take n = h.encode := by
    rw [hall, hn]
    exact List.take_left' rfl
  refine ⟨held, h, _, e, u.2, hp, hadmitted, hne, hall, ?_⟩
  refine (update_awaiting hm hp).trans ?_
  rw [feedHeader_opened hd ho, if_neg (fun h0 => hne (List.isEmpty_iff.mp h0)), hu, ← htake]

theorem failed_of_spills {t : FamilySession σ γ × σ} (hspill : Spills x t) :
    failed (Session.update x t) = true := by
  obtain ⟨held, h, rest, e, v, -, -, -, -, hu⟩ := update_spills hspill
  rw [hu]
  rfl

/-- A chunk that stays gathered did not spill. -/
theorem not_spills_of_gathered {t : FamilySession σ γ × σ} (hp : t.1.phase = .awaiting held)
    (hp' : (reached (Session.update x t)).1.phase = .awaiting (held ++ x)) : ¬ Spills x t := by
  intro hspill
  obtain ⟨held', h, rest, e, v, hheld, -, hne, hall, hu⟩ := update_spills hspill
  rw [hp] at hheld
  cases hheld
  rw [hu, hall] at hp'
  have hencode : h.encode ++ rest = h.encode := (FamilyPhase.awaiting.inj hp').symm
  exact hne (List.append_right_eq_self.mp hencode)

/-- Any other chunk either leaves the session with all its bytes gathered or settles it. -/
theorem Falters.update_held (hs : s.Falters ref) (hinc : ref.Incremental) (held x : Bytes) (v : σ) :
    Spills x (({ s with phase := .awaiting held } : FamilySession σ γ), v) ∨
    (∃ e v', Session.update x (({ s with phase := .awaiting held } : FamilySession σ γ), v) =
      .error e ({ s with phase := .awaiting (held ++ x) }, v')) ∨
    ∃ out k v', Settled s ref (held ++ x) k out ∧
      Session.update x (({ s with phase := .awaiting held } : FamilySession σ γ), v) =
        .ok out (k, v') := by
  rw [show Session.update x _ = _ from
    update_awaiting (s := { s with phase := .awaiting held }) hs.mode rfl]
  cases hd : Header.decode (held ++ x) s.expectedVersion with
  | error e => exact .inr (.inl ⟨e, v, feedHeader_refused hd⟩)
  | ok d =>
    cases d with
    | needMore =>
      exact .inr (.inr ⟨[], _, v, ⟨.awaiting, fun _ => hd⟩, feedHeader_needMore hd⟩)
    | complete h n =>
      cases ho : openNew s h v with
      | error e v' => exact .inr (.inl ⟨e, v', feedHeader_unopened hd ho⟩)
      | ok c v' =>
        have hsettled := settled_ready hd (hs.open? ho)
        rw [feedHeader_opened (s := { s with phase := .awaiting held }) hd ho]
        by_cases hr : (held ++ x).drop n = []
        · obtain ⟨key, iv, hmake⟩ := Reference.make_of_open? (hs.open? ho)
          rw [hr, hinc.apply_nil hmake] at hsettled
          rw [if_pos (List.isEmpty_iff.mpr hr)]
          exact .inr (.inr ⟨_, _, v', hsettled, rfl⟩)
        · rw [if_neg (fun h0 => hr (List.isEmpty_iff.mp h0))]
          cases hu : ContentCipher.update ((held ++ x).drop n) (c, v') with
          | error e t => exact .inl ⟨held, h, n, c, v', e, t, hs.mode, rfl, hd, ho, hr, hu⟩
          | ok out t =>
            rw [← hs.apply hu] at hsettled
            exact .inr (.inr ⟨_, _, t.2, hsettled, rfl⟩)

/-- A session whose header is open takes a chunk as the reference does, if it does not fail. -/
theorem Falters.update_open (hs : s.Falters ref) (hinc : ref.Incremental) {h : Header} {n : Nat}
    {c : γ} (hd : Header.decode held s.expectedVersion = .ok (.complete h n))
    (ho : ref.open? h = some c) {t : FamilySession σ γ × σ}
    (hu : Session.update x
      (({ s with phase := .ready (ref.apply c (held.drop n)).2 } : FamilySession σ γ), v) =
        .ok out t) :
    Settled s ref (held ++ x) t.1 ((ref.apply c (held.drop n)).1 ++ out) := by
  have hne : Header.decode held s.expectedVersion ≠ .ok .needMore := by
    rw [hd]
    simp
  obtain ⟨-, hn, hall⟩ := Header.decode_complete hd
  have hdrop : (held ++ x).drop n = held.drop n ++ x := by
    refine List.drop_append_of_le_length ?_
    rw [hall, List.length_append, hn]
    omega
  have hsettled := settled_ready ((Header.decode_append x hne).trans hd) ho
  rw [hdrop, hinc.apply_append] at hsettled
  rw [show Session.update x _ = _ from update_ready rfl] at hu
  cases hc : ContentCipher.update x ((ref.apply c (held.drop n)).2, v) with
  | error e t =>
    rw [hc] at hu
    cases hu
  | ok out' t' =>
    rw [hc] at hu
    cases hu
    rw [← hs.apply hc] at hsettled
    exact hsettled

/-- A chunk whose update succeeds settles the session on all the bytes that it counts on. -/
theorem Stands.settled (hk : Stands s ref held k out) (hs : s.Falters ref)
    (hinc : ref.Incremental) (hu : failed (Session.update x (k, v)) = false) :
    Settled s ref (held ++ x) (reached (Session.update x (k, v))).1
      (out ++ given (Session.update x (k, v))) := by
  cases hk with
  | awaiting =>
    rcases hs.update_held hinc held x v with hspill | ⟨e, v', hu'⟩ | ⟨out, k, v', hsettled, hu'⟩
    · rw [failed_of_spills hspill] at hu
      cases hu
    · rw [hu'] at hu
      cases hu
    · rw [hu']
      exact hsettled
  | ready hd ho =>
    obtain ⟨t, hu'⟩ := eq_ok_of_given ⟨hu, rfl⟩
    have hsettled := hs.update_open hinc hd ho hu'
    rwa [hu'] at hsettled ⊢

/-- A chunk that does not spill is counted on, also if its update fails, as long as the session takes
what is behind the header. -/
theorem Stands.update (hk : Stands s ref held k out) (hs : s.Falters ref) (hinc : ref.Incremental)
    (hready : k.isReady = true → failed (Session.update x (k, v)) = false)
    (hspill : ¬ Spills x (k, v)) :
    Stands s ref (held ++ x) (reached (Session.update x (k, v))).1
      (out ++ given (Session.update x (k, v))) := by
  cases hf : failed (Session.update x (k, v)) with
  | false => exact (hk.settled hs hinc hf).1
  | true =>
    cases hk with
    | awaiting =>
      rcases hs.update_held hinc held x v with h | ⟨e, v', hu⟩ | ⟨out, k, v', -, hu⟩
      · exact absurd h hspill
      · rw [hu]
        exact .awaiting
      · rw [hu] at hf
        cases hf
    | ready hd ho =>
      rw [hready rfl] at hf
      cases hf

theorem Stands.spills (hk : Stands s ref held k out) (hspill : Spills x (k, v)) :
    ∃ h rest, Header.Admitted s.expectedVersion h ∧ rest ≠ [] ∧ held ++ x = h.encode ++ rest ∧
      Stands s ref h.encode (reached (Session.update x (k, v))).1
        (out ++ given (Session.update x (k, v))) := by
  obtain ⟨held', h, rest, e, v', hp, hadmitted, hne, hall, hu⟩ := update_spills hspill
  cases hk with
  | ready hd ho => cases hp
  | awaiting =>
    cases hp
    rw [hu]
    exact ⟨h, rest, hadmitted, hne, hall, .awaiting⟩

/-! ## Chunk by chunk -/

/-- Every update of a session that is ready succeeds. -/
abbrev TakesPayload (xs : List Bytes) (t : FamilySession σ γ × σ) : Prop :=
  Session.Along (fun x t => t.1.isReady = true → failed (Session.update x t) = false) xs t

/-- No update of the run spills. -/
abbrev Spared (xs : List Bytes) (t : FamilySession σ γ × σ) : Prop :=
  Session.Along (fun x t => ¬ Spills x t) xs t

variable {t : FamilySession σ γ × σ} {xs : List Bytes}

theorem Falters.stands (hs : s.Falters ref) : Stands s ref [] s [] := by
  have hphase : s = { s with phase := .awaiting [] } := by
    rw [← hs.phase]
  rw [hphase]
  exact .awaiting

/-- Without a spill the session counts on every byte that is fed. -/
theorem Stands.run (hk : Stands s ref held t.1 out) (hs : s.Falters ref) (hinc : ref.Incremental)
    (hready : TakesPayload xs t) (hspared : Spared xs t) :
    Stands s ref (held ++ xs.flatten) (Session.after Call.run (Session.updates xs) t).1
      (out ++ Session.emitted Call.run (Session.updates xs) t) := by
  induction xs generalizing held t out with
  | nil =>
    simp only [Session.updates, List.map_nil, Session.after, Session.emitted, List.flatten_nil,
      List.append_nil]
    exact hk
  | cons x xs ih =>
    have hrest := ih (hk.update hs hinc hready.1 hspared.1) hready.2 hspared.2
    rw [List.append_assoc, List.append_assoc] at hrest
    exact hrest

/-- If the last update succeeds, it is settled on them. -/
theorem Stands.run_settled (hk : Stands s ref held t.1 out) (hs : s.Falters ref)
    (hinc : ref.Incremental) (hready : TakesPayload (xs ++ [x]) t)
    (hspared : Spared (xs ++ [x]) t)
    (hlast : failed (Session.update x (Session.after Call.run (Session.updates xs) t)) = false) :
    Settled s ref (held ++ (xs ++ [x]).flatten)
      (Session.after Call.run (Session.updates (xs ++ [x])) t).1
      (out ++ Session.emitted Call.run (Session.updates (xs ++ [x])) t) := by
  have hrun := hk.run hs hinc (Session.along_append.mp hready).1 (Session.along_append.mp hspared).1
  have hsettled := hrun.settled hs hinc hlast
  rw [List.append_assoc, List.append_assoc] at hsettled
  rw [Session.after_updates_snoc, Session.emitted_updates_snoc, List.flatten_append,
    List.flatten_singleton]
  exact hsettled

/-- A run without failures is settled on the bytes that it was fed. -/
theorem Falters.run_smooth (hs : s.Falters ref) (hinc : ref.Incremental) {w : σ}
    (hsmooth : Session.Along (fun x t => failed (Session.update x t) = false) (xs ++ [x]) (s, w)) :
    Settled s ref (xs ++ [x]).flatten
      (Session.after Call.run (Session.updates (xs ++ [x])) (s, w)).1
      (Session.emitted Call.run (Session.updates (xs ++ [x])) (s, w)) := by
  have hready : TakesPayload (xs ++ [x]) (s, w) := hsmooth.mono fun _ _ hu _ => hu
  have hspared : Spared (xs ++ [x]) (s, w) := hsmooth.mono fun _ _ hu hspill => by
    rw [failed_of_spills hspill] at hu
    cases hu
  have hlast := (Session.along_append.mp hsmooth).2.1
  exact Stands.run_settled (t := (s, w)) hs.stands hs hinc hready hspared hlast

/-- However often the payload spills, the session counts on the header and on what was fed behind the
last time. -/
theorem Stands.exists_counted {fed : Bytes} (hk : Stands s ref held t.1 out) (hs : s.Falters ref)
    (hinc : ref.Incremental) (hready : TakesPayload xs t) (hc : Counted s fed held) :
    ∃ held', Stands s ref held' (Session.after Call.run (Session.updates xs) t).1
        (out ++ Session.emitted Call.run (Session.updates xs) t) ∧
      Counted s (fed ++ xs.flatten) held' := by
  induction xs generalizing held t out fed with
  | nil =>
    simp only [Session.updates, List.map_nil, Session.after, Session.emitted, List.flatten_nil,
      List.append_nil]
    exact ⟨held, hk, hc⟩
  | cons x xs ih =>
    have hnext : ∃ held', Stands s ref held' (reached (Session.update x t)).1
        (out ++ given (Session.update x t)) ∧ Counted s (fed ++ x) held' := by
      by_cases hspill : Spills x t
      · obtain ⟨h, rest, ha, hrest, heq, hk'⟩ := hk.spills hspill
        obtain ⟨lost, -, hfed⟩ := (hc.append x).spill ha hrest heq
        have hcut := Counted.cut ha lost []
        rw [List.append_nil, List.append_nil] at hcut
        exact ⟨h.encode, hk', hfed ▸ hcut⟩
      · exact ⟨held ++ x, hk.update hs hinc hready.1 hspill, hc.append x⟩
    obtain ⟨held', hk', hc'⟩ := hnext
    obtain ⟨held'', hrest, hcounted⟩ := ih hk' hready.2 hc'
    rw [List.append_assoc] at hrest hcounted
    exact ⟨held'', hrest, hcounted⟩

/-- Behind the last spill the session is settled on the header and on what was fed from then on. -/
theorem Falters.run_spilled (hs : s.Falters ref) (hinc : ref.Incremental) {w : σ}
    {ys zs : List Bytes} {y : Bytes} (hready : TakesPayload (ys ++ [y] ++ (zs ++ [x])) (s, w))
    (hspill : Spills y (Session.after Call.run (Session.updates ys) (s, w)))
    (hspared : Spared (zs ++ [x]) (Session.after Call.run (Session.updates (ys ++ [y])) (s, w)))
    (hlast : failed (Session.update x
      (Session.after Call.run (Session.updates (ys ++ [y] ++ zs)) (s, w))) = false) :
    ∃ (h : Header) (lost : Bytes), lost ≠ [] ∧ (ys ++ [y]).flatten = h.encode ++ lost ∧
      Settled s ref (h.encode :: zs ++ [x]).flatten
        (Session.after Call.run (Session.updates (ys ++ [y] ++ (zs ++ [x]))) (s, w)).1
        (Session.emitted Call.run (Session.updates (ys ++ [y] ++ (zs ++ [x]))) (s, w)) := by
  obtain ⟨hbefore, hbehind⟩ := Session.along_append.mp hready
  obtain ⟨held, hk, hcounted⟩ := Stands.exists_counted (t := (s, w)) hs.stands hs hinc
    (Session.along_append.mp hbefore).1 (.all [])
  obtain ⟨h, rest, ha, hrest, heq, hk'⟩ := hk.spills hspill
  obtain ⟨lost, hlost, hfed⟩ := (hcounted.append y).spill ha hrest heq
  have hspilled : Stands s ref h.encode
      (Session.after Call.run (Session.updates (ys ++ [y])) (s, w)).1
      (Session.emitted Call.run (Session.updates (ys ++ [y])) (s, w)) := by
    rw [Session.after_updates_snoc, Session.emitted_updates_snoc]
    exact hk'
  rw [Session.updates_append, Session.after_append] at hlast
  have hrun := hspilled.run_settled hs hinc hbehind hspared hlast
  rw [← Session.after_append, ← Session.emitted_append, ← Session.updates_append] at hrun
  refine ⟨h, lost, hlost, ?_, hrun⟩
  rw [List.flatten_append, List.flatten_singleton]
  exact hfed

/-! ## What failures cost -/

/-- **What failures cost a decrypting session whose caller goes on.** The last chunk is one that the
session takes. If no update spilled, the caller has got exactly what a run without failures gives.
If one did, all of the payload that was fed up to then is lost, and the rest of the chunks are
decrypted as if they stood right behind the header. -/
theorem transient_failures (hs : s.Falters ref) (hinc : ref.Incremental) {w : σ}
    (hready : TakesPayload (xs ++ [x]) (s, w))
    (hlast : failed (Session.update x (Session.after Call.run (Session.updates xs) (s, w))) =
      false) :
    let run (chunks : List Bytes) (w : σ) : FamilySession σ γ × Bytes :=
      ((Session.after Call.run (Session.updates chunks) (s, w)).1,
        Session.emitted Call.run (Session.updates chunks) (s, w))
    let smooth (chunks : List Bytes) (w : σ) : Prop :=
      Session.Along (fun x t => failed (Session.update x t) = false) chunks (s, w)
    (Spared (xs ++ [x]) (s, w) → ∀ w₀, smooth (xs ++ [x]) w₀ →
      run (xs ++ [x]) w = run (xs ++ [x]) w₀) ∧
    ∀ ys y zs, xs = ys ++ y :: zs →
      Spills y (Session.after Call.run (Session.updates ys) (s, w)) →
      Spared (zs ++ [x]) (Session.after Call.run (Session.updates (ys ++ [y])) (s, w)) →
      ∃ (h : Header) (lost : Bytes), lost ≠ [] ∧ (ys ++ [y]).flatten = h.encode ++ lost ∧
        ∀ w₀, smooth (h.encode :: zs ++ [x]) w₀ →
          run (xs ++ [x]) w = run (h.encode :: zs ++ [x]) w₀ := by
  intro run smooth
  constructor
  · intro hspared w₀ hsmooth
    have hrun := Stands.run_settled (t := (s, w)) hs.stands hs hinc hready hspared hlast
    obtain ⟨hstate, hout⟩ := hrun.unique (hs.run_smooth hinc hsmooth)
    exact Prod.ext hstate hout
  · rintro ys y zs rfl hspill hspared
    have hchunks : ys ++ y :: zs = ys ++ [y] ++ zs := by
      simp only [List.append_assoc, List.cons_append, List.nil_append]
    rw [hchunks] at hready hlast ⊢
    rw [List.append_assoc (ys ++ [y])] at hready ⊢
    obtain ⟨h, lost, hlost, hfed, hrun⟩ := hs.run_spilled hinc hready hspill hspared hlast
    refine ⟨h, lost, hlost, hfed, fun w₀ hsmooth => ?_⟩
    obtain ⟨hstate, hout⟩ := hrun.unique (hs.run_smooth hinc hsmooth)
    exact Prod.ext hstate hout

end FamilySession

/-! ## Scripted failures -/

section

open Scripted

/-- What scripted collaborators say. -/
def holdReference (cell hold : Nat) (tail : Bytes) : Reference HoldCipher where
  unwrap := some
  make key _ := some { cell, hold, tail, mask := key.headD 0 }
  apply c input :=
    let buffer := c.buffer ++ input.map (· ^^^ c.mask)
    let n := buffer.length - buffer.length % max c.hold 1
    (buffer.take n, { c with buffer := buffer.drop n })

/-- Multiples of `m` may be taken off in two steps. -/
theorem take_multiple_append (m : Nat) (a b : Bytes) :
    let whole (l : Bytes) : Nat := l.length - l.length % m
    let rest := a.drop (whole a) ++ b
    (a ++ b).take (whole (a ++ b)) = a.take (whole a) ++ rest.take (whole rest) ∧
      (a ++ b).drop (whole (a ++ b)) = rest.drop (whole rest) := by
  intro whole rest
  have hle : whole a ≤ a.length := Nat.sub_le _ _
  have htake : (a.take (whole a)).length = whole a := List.length_take_of_le hle
  have hsplit : a ++ b = a.take (whole a) ++ rest := by
    rw [← List.append_assoc, List.take_append_drop]
  have hmod : (a ++ b).length % m = rest.length % m := by
    have hmultiple : whole a = m * (a.length / m) := by
      have := Nat.div_add_mod a.length m
      simp only [whole]
      omega
    rw [hsplit, List.length_append, htake, hmultiple, Nat.mul_add_mod]
  have hwhole : whole (a ++ b) = whole a + whole rest := by
    have hrest : rest.length % m ≤ rest.length := Nat.mod_le _ _
    have hlen : (a ++ b).length = whole a + rest.length := by
      rw [hsplit, List.length_append, htake]
    simp only [whole] at hmod hlen ⊢
    omega
  rw [hwhole, hsplit]
  constructor
  · rw [List.take_append, htake, List.take_of_length_le (by omega), Nat.add_sub_cancel_left]
  · rw [List.drop_append, htake, List.drop_of_length_le (by omega), Nat.add_sub_cancel_left,
      List.nil_append]

theorem incremental_holdReference (cell hold : Nat) (tail : Bytes) :
    (holdReference cell hold tail).Incremental where
  apply_nil := by
    intro key iv c hc
    cases hc
    rfl
  apply_append := by
    intro c a b
    have h := take_multiple_append (max c.hold 1) (c.buffer ++ a.map (· ^^^ c.mask))
      (b.map (· ^^^ c.mask))
    simp only [holdReference, List.map_append, ← List.append_assoc]
    exact Prod.ext h.1 (congrArg (fun buffer => { c with buffer }) h.2)

/-- A decrypting session over scripted collaborators. -/
def holdOpener : FamilySession World HoldCipher := { holdSession with mode := .decrypt }

theorem falters_holdOpener : holdOpener.Falters (holdReference 0 1 []) where
  mode := rfl
  phase := rfl
  unwrap := by
    intro wrapped v plain v' h
    simp only [holdOpener, holdSession, identityWrap] at h
    split at h
    · cases h
    · cases h
      rfl
  make := by
    intro key iv v c v' h
    simp only [holdOpener, holdSession, holdFamily] at h
    split at h
    · cases h
    · cases h
      rfl
  apply := by
    intro c input v out t h
    simp only [ContentCipher.update] at h
    split at h
    · cases h
    · cases h
      rfl

/-- The header of a stream for it. -/
def holdHeader : Header := ⟨7, [1, 1, 1, 1], [2, 2, 2, 2]⟩

/-- Collaborators of which the key wrap and the family fail in the given calls. -/
def openingWorld (unwraps news : List Nat) : World where
  wraps := [{ unwraps := ⟨unwraps, 0⟩ }]
  families := [{ news := ⟨news, 0⟩ }]

/-- The key wrap fails, then the family does, and later chunks bring what both have held up. -/
theorem transient_failures_holdOpener :
    let calls := Session.updates [holdHeader.encode ++ [0x6a, 0x67], [], [0x6e], [0x6e, 0x6d]]
    let gives (w : World) : Bytes := Session.emitted Session.Call.run calls (holdOpener, w)
    gives (openingWorld [0] [0]) = gives {} ∧ gives {} = [0x68, 0x65, 0x6c, 0x6c, 0x6f] := by
  intro calls gives
  have hready : FamilySession.TakesPayload
      ([holdHeader.encode ++ [0x6a, 0x67], [], [0x6e]] ++ [[0x6e, 0x6d]])
      (holdOpener, openingWorld [0] [0]) := by decide
  have hspared : FamilySession.Spared
      ([holdHeader.encode ++ [0x6a, 0x67], [], [0x6e]] ++ [[0x6e, 0x6d]])
      (holdOpener, openingWorld [0] [0]) := by
    refine ⟨?_, ?_, ?_, ?_, trivial⟩
    · exact FamilySession.not_spills_of_gathered rfl rfl
    · exact FamilySession.not_spills_of_gathered rfl rfl
    · intro hspill
      have hfailed := FamilySession.failed_of_spills hspill
      revert hfailed
      decide
    · intro hspill
      have hfailed := FamilySession.failed_of_spills hspill
      revert hfailed
      decide
  have hrun := (FamilySession.transient_failures falters_holdOpener
    (incremental_holdReference 0 1 []) hready rfl).1 hspared {} (by decide)
  exact ⟨congrArg Prod.snd hrun, by decide⟩

/-- The content cipher fails at the first bytes behind the header, and they are lost. -/
theorem payload_lost_holdOpener :
    let xs := [holdHeader.encode ++ [0x6a, 0x67, 0x6e], [0x6e, 0x6d]]
    let gives (w : World) : Bytes :=
      Session.emitted Session.Call.run (Session.updates xs) (holdOpener, w)
    FamilySession.TakesPayload xs (holdOpener, holdWorld [0]) ∧
      gives (holdWorld [0]) = [0x6c, 0x6f] ∧
      gives (holdWorld []) = [0x68, 0x65, 0x6c, 0x6c, 0x6f] := by
  decide

end

end SealedStream
