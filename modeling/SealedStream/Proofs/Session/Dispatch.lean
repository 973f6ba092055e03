import SealedStream.Proofs.Session.Family
import SealedStream.Session.Builder

/-!
# Decrypting sessions chosen by the stream

What a decrypting dispatcher makes of its bytes is what the session chosen by the first four makes
of the others (`Dispatcher.progress`). `Dispatcher.decodes` says that it computes exactly this,
whatever computes its part in the sessions that can be chosen.
-/

namespace SealedStream

namespace Dispatcher

variable {σ κ : Type} [Session κ σ]

/-! ## The operations, case by case -/

section

variable {d : Dispatcher σ κ} {w : σ} {buffered input : Bytes} {id requested : UInt32} {k : κ}

theorem start_selecting (hm : d.context.mode = .decrypt) (hp : d.phase = .selecting buffered) :
    start (d, w) = .ok [] (d, w) := by
  simp only [start, run_bind, run_get, hm, hp, run_pure]

theorem start_selected (hp : d.phase = .selected id k) :
    start (d, w) = match (Session.start : Step (κ × σ) Bytes) (k, w) with
      | .ok out t => .ok out ({ d with phase := .selected id t.1 }, t.2)
      | .error e t => .error e ({ d with phase := .selected id t.1 }, t.2) := by
  simp only [start, run_bind, run_get, hp, onInner, run_zoom]
  cases (Session.start : Step (κ × σ) Bytes) (k, w) <;> rfl

theorem update_selecting (hm : d.context.mode = .decrypt) (hp : d.phase = .selecting buffered) :
    update input (d, w) = feedId buffered input (d, w) := by
  simp only [update, run_bind, run_get, hm, hp]

theorem update_selected (hp : d.phase = .selected id k) :
    update input (d, w) = match Session.update input (k, w) with
      | .ok out t => .ok out ({ d with phase := .selected id t.1 }, t.2)
      | .error e t => .error e ({ d with phase := .selected id t.1 }, t.2) := by
  simp only [update, run_bind, run_get, hp, onInner, run_zoom]
  cases Session.update input (k, w) <;> rfl

theorem feedId_short (hi : Bytes.be32? (buffered ++ input) = none) :
    feedId buffered input (d, w) = .ok [] ({ d with phase := .selecting (buffered ++ input) }, w) := by
  simp only [feedId, setPhase, run_bind, run_get, run_modify, hi, run_pure]

theorem feedId_unknown {e : Error} (hi : Bytes.be32? (buffered ++ input) = some requested)
    (hs : d.select requested d.defaultType = .error e) :
    feedId buffered input (d, w) =
      .error e ({ d with phase := .selecting ((buffered ++ input).take idLen) }, w) := by
  simp only [feedId, setPhase, run_bind, run_get, run_modify, hi, run_check, hs]

/-- The chosen session takes what is behind the id, if that is anything. -/
theorem feedId_known (hi : Bytes.be32? (buffered ++ input) = some requested)
    (hs : d.select requested d.defaultType = .ok (id, k))
    (hstart : (Session.start : Step (κ × σ) Bytes) (k, w) = .ok [] (k, w)) :
    feedId buffered input (d, w) =
      if ((buffered ++ input).drop idLen).isEmpty then .ok [] ({ d with phase := .selected id k }, w)
      else match Session.update ((buffered ++ input).drop idLen) (k, w) with
        | .ok out t => .ok out ({ d with phase := .selected id t.1 }, t.2)
        | .error e t =>
          .error e ({ d with phase := .selecting ((buffered ++ input).take idLen) }, t.2) := by
  simp only [feedId, setPhase, run_bind, run_get, run_modify, hi, run_check, hs, run_onWorld,
    run_runOn, hstart, run_ite, run_pure]
  by_cases hr : ((buffered ++ input).drop idLen).isEmpty
  · rw [if_pos hr, if_pos hr]
  · rw [if_neg hr, if_neg hr]
    cases Session.update ((buffered ++ input).drop idLen) (k, w) <;> rfl

theorem finalize_selecting (hm : d.context.mode = .decrypt) (hp : d.phase = .selecting buffered) :
    finalize (d, w) = .error (.truncatedHeader buffered.length) (d, w) := by
  simp only [finalize, run_bind, run_get, hm, hp, run_throw]

theorem finalize_selected (hp : d.phase = .selected id k) :
    finalize (d, w) = match (Session.finalize : Step (κ × σ) Bytes) (k, w) with
      | .ok out t => .ok out ({ d with phase := .selected id t.1 }, t.2)
      | .error e t => .error e ({ d with phase := .selected id t.1 }, t.2) := by
  simp only [finalize, run_bind, run_get, hp, onInner, run_zoom]
  cases (Session.finalize : Step (κ × σ) Bytes) (k, w) <;> rfl

end

/-! ## What a dispatcher makes of its bytes -/

/-- What a dispatcher makes of the bytes `fed`, the session `k` chosen under `id` making `inner id k`
of those behind the id. -/
def progress (inner : UInt32 → κ → Bytes → Progress) (d : Dispatcher σ κ) (fed : Bytes) : Progress :=
  match Bytes.be32? fed with
  | none => .awaiting fed.length
  | some requested =>
    match d.select requested d.defaultType with
    | .error e => .failed e
    | .ok (id, k) => inner id k (fed.drop idLen)

/-- Where the dispatcher `d` is after the bytes `fed`, if they were no failure. -/
def After (At : UInt32 → κ → Bytes → κ → Prop) (d : Dispatcher σ κ) (fed : Bytes)
    (k : Dispatcher σ κ) : Prop :=
  (Bytes.be32? fed = none ∧ k = { d with phase := .selecting fed }) ∨
    ∃ requested id k₀ k₁, Bytes.be32? fed = some requested ∧
      d.select requested d.defaultType = .ok (id, k₀) ∧ At id k₀ (fed.drop idLen) k₁ ∧
      k = { d with phase := .selected id k₁ }

variable {inner : UInt32 → κ → Bytes → Progress} {At : UInt32 → κ → Bytes → κ → Prop}
  {d : Dispatcher σ κ} {fed whole : Bytes} {requested id : UInt32} {k₀ : κ}

section

omit [Session κ σ]

theorem progress_of_short (hi : Bytes.be32? fed = none) :
    progress inner d fed = .awaiting fed.length := by
  simp only [progress, hi]

theorem progress_of_unknown {e : Error} (hi : Bytes.be32? fed = some requested)
    (hs : d.select requested d.defaultType = .error e) : progress inner d fed = .failed e := by
  simp only [progress, hi, hs]

theorem progress_of_known (hi : Bytes.be32? fed = some requested)
    (hs : d.select requested d.defaultType = .ok (id, k₀)) :
    progress inner d fed = inner id k₀ (fed.drop idLen) := by
  simp only [progress, hi, hs]

theorem progress_eq_ready {p : Bytes} (hD : progress inner d fed = .ready p) :
    ∃ requested id k, Bytes.be32? fed = some requested ∧
      d.select requested d.defaultType = .ok (id, k) ∧ inner id k (fed.drop idLen) = .ready p := by
  cases hi : Bytes.be32? fed with
  | none => rw [progress_of_short hi] at hD; cases hD
  | some requested =>
    cases hs : d.select requested d.defaultType with
    | error e => rw [progress_of_unknown hi hs] at hD; cases hD
    | ok q =>
      rw [progress_of_known hi hs] at hD
      exact ⟨requested, q.1, q.2, rfl, hs, hD⟩

theorem drop_idLen_append (hi : Bytes.be32? fed = some requested) (more : Bytes) :
    (fed ++ more).drop idLen = fed.drop idLen ++ more := by
  have : ¬ fed.length < 4 := by rw [← Bytes.be32?_eq_none_iff, hi]; simp
  exact List.drop_append_of_le_length (by rw [idLen]; omega)

theorem grows_progress (hg : ∀ id k, Progress.Grows (inner id k)) (d : Dispatcher σ κ) :
    Progress.Grows (progress inner d) where
  nil := rfl
  failed := by
    intro fed e hD more
    cases hi : Bytes.be32? fed with
    | none => rw [progress_of_short hi] at hD; cases hD
    | some requested =>
      cases hs : d.select requested d.defaultType with
      | error e' =>
        rw [progress_of_unknown hi hs] at hD
        rw [progress_of_unknown (Bytes.be32?_append hi more) hs, hD]
      | ok p =>
        rw [progress_of_known hi hs] at hD
        rw [progress_of_known (Bytes.be32?_append hi more) hs, drop_idLen_append hi]
        exact (hg _ _).failed hD more
  ready := by
    intro fed p hD more
    obtain ⟨requested, id, k, hi, hs, hready⟩ := progress_eq_ready hD
    rw [progress_of_known (Bytes.be32?_append hi more) hs, drop_idLen_append hi]
    exact (hg id k).ready hready more

end

/-! ## Piece by piece -/

/-- What is asked of the sessions that can be chosen for the stream `whole`: each computes its
part. -/
def Chosen (inner : UInt32 → κ → Bytes → Progress) (At : UInt32 → κ → Bytes → κ → Prop)
    (d : Dispatcher σ κ) (whole : Bytes) : Prop :=
  ∀ requested id k, Bytes.be32? whole = some requested →
    d.select requested d.defaultType = .ok (id, k) →
    Decodes (inner id k) (At id k) (whole.drop idLen) ∧ At id k [] k

/-- The bytes that complete the id and those behind them. -/
theorem update_choosing (hc : Chosen inner At d whole) {more : Bytes}
    (hw : fed ++ more <+: whole) (v : σ) :
    (∃ e t, progress inner d (fed ++ more) = .failed e ∧ feedId fed more (d, v) = .error e t) ∨
    ∃ out k' v', feedId fed more (d, v) = .ok out (k', v') ∧ After At d (fed ++ more) k' ∧
      (progress inner d (fed ++ more)).plain = out := by
  cases hi : Bytes.be32? (fed ++ more) with
  | none =>
    refine .inr ⟨[], _, _, feedId_short hi, .inl ⟨hi, rfl⟩, ?_⟩
    rw [progress_of_short hi]
    rfl
  | some requested =>
    cases hs : d.select requested d.defaultType with
    | error e => exact .inl ⟨e, _, progress_of_unknown hi hs, feedId_unknown hi hs⟩
    | ok p =>
      obtain ⟨id, k⟩ := p
      obtain ⟨rest, rfl⟩ := hw
      obtain ⟨hd, hk⟩ := hc requested id k (Bytes.be32?_append hi rest) hs
      rw [feedId_known hi hs (hd.start hk v), progress_of_known hi hs]
      by_cases hr : ((fed ++ more).drop idLen).isEmpty
      · rw [if_pos hr]
        rw [List.isEmpty_iff] at hr
        refine .inr ⟨[], _, _, rfl, .inr ⟨requested, id, k, k, hi, hs, hr ▸ hk, rfl⟩, ?_⟩
        rw [hr, hd.grows.nil]
        rfl
      · rw [if_neg hr]
        have hpre : [] ++ (fed ++ more).drop idLen <+: (fed ++ more ++ rest).drop idLen :=
          ⟨rest, by rw [drop_idLen_append hi]; rfl⟩
        rcases hd.update hk hpre v with ⟨e, t, hD, hu⟩ | ⟨out, k', v', hu, hk', hplain⟩
        · rw [hu]
          exact .inl ⟨e, _, hD, rfl⟩
        · rw [hu]
          refine .inr ⟨out, _, v', rfl, .inr ⟨requested, id, k, k', hi, hs, hk', rfl⟩, ?_⟩
          rw [hd.grows.nil] at hplain
          exact hplain

theorem update_after (hm : d.context.mode = .decrypt) (hc : Chosen inner At d whole)
    {k : Dispatcher σ κ} (hk : After At d fed k) {more : Bytes} (hw : fed ++ more <+: whole) (v : σ) :
    (∃ e t, progress inner d (fed ++ more) = .failed e ∧ update more (k, v) = .error e t) ∨
    ∃ out k' v', update more (k, v) = .ok out (k', v') ∧ After At d (fed ++ more) k' ∧
      (progress inner d (fed ++ more)).plain = (progress inner d fed).plain ++ out := by
  rcases hk with ⟨hi, rfl⟩ | ⟨requested, id, k₀, k₁, hi, hs, hk, rfl⟩
  · rw [update_selecting (d := { d with phase := .selecting fed }) hm rfl, progress_of_short hi]
    exact update_choosing hc hw v
  · obtain ⟨rest, rfl⟩ := hw
    obtain ⟨hd, -⟩ := hc requested id k₀
      (Bytes.be32?_append (Bytes.be32?_append hi more) rest) hs
    rw [update_selected rfl, progress_of_known (Bytes.be32?_append hi more) hs,
      progress_of_known hi hs, drop_idLen_append hi]
    have hpre : fed.drop idLen ++ more <+: (fed ++ more ++ rest).drop idLen :=
      ⟨rest, by rw [← drop_idLen_append hi, drop_idLen_append (Bytes.be32?_append hi more)]⟩
    rcases hd.update hk hpre v with ⟨e, t, hD, hu⟩ | ⟨out, k', v', hu, hk', hplain⟩
    · rw [hu]
      exact .inl ⟨e, _, hD, rfl⟩
    · rw [hu]
      refine .inr ⟨out, _, v', rfl, .inr ⟨requested, id, k₀, k', ?_, hs, ?_, rfl⟩, hplain⟩
      · exact Bytes.be32?_append hi more
      · rw [drop_idLen_append hi]
        exact hk'

/-- The session chosen for `whole` is the one chosen for its beginning. -/
theorem Chosen.of_beginning (hc : Chosen inner At d whole) (hw : fed <+: whole) {id : UInt32} {k₀ : κ}
    (hi : Bytes.be32? fed = some requested) (hs : d.select requested d.defaultType = .ok (id, k₀)) :
    Decodes (inner id k₀) (At id k₀) (whole.drop idLen) := by
  obtain ⟨rest, rfl⟩ := hw
  exact (hc requested id k₀ (Bytes.be32?_append hi rest) hs).1

/-- **A decrypting dispatcher computes `progress`**, however it is fed, if the sessions that it can
choose compute their part. -/
theorem decodes (hm : d.context.mode = .decrypt) (hg : ∀ id k, Progress.Grows (inner id k))
    (hc : Chosen inner At d whole) :
    Decodes (progress inner d) (fun fed k => fed <+: whole ∧ After At d fed k) whole where
  grows := grows_progress hg d
  mode := by
    rintro fed k ⟨-, ⟨-, rfl⟩ | ⟨requested, id, k₀, k₁, -, -, -, rfl⟩⟩
    · exact hm
    · exact hm
  going := by
    rintro fed k ⟨hw, ⟨hi, rfl⟩ | ⟨requested, id, k₀, k₁, hi, hs, hk, rfl⟩⟩
    · rw [progress_of_short hi]; rfl
    · rw [progress_of_known hi hs]
      exact (hc.of_beginning hw hi hs).going hk
  isReady := by
    rintro fed k ⟨hw, ⟨hi, rfl⟩ | ⟨requested, id, k₀, k₁, hi, hs, hk, rfl⟩⟩
    · rw [progress_of_short hi]; rfl
    · rw [progress_of_known hi hs]
      exact (hc.of_beginning hw hi hs).isReady hk
  start := by
    rintro fed k ⟨hw, ⟨hi, rfl⟩ | ⟨requested, id, k₀, k₁, hi, hs, hk, rfl⟩⟩ v
    · exact start_selecting (d := { d with phase := .selecting fed }) hm rfl
    · refine (start_selected rfl).trans ?_
      rw [(hc.of_beginning hw hi hs).start hk]
  update := by
    rintro fed k more ⟨-, hk⟩ hw v
    rcases update_after hm hc hk hw v with h | ⟨out, k', v', hu, hk', hplain⟩
    · exact .inl h
    · exact .inr ⟨out, k', v', hu, ⟨hw, hk'⟩, hplain⟩
  finalize_awaiting := by
    rintro fed k n ⟨hw, ⟨hi, rfl⟩ | ⟨requested, id, k₀, k₁, hi, hs, hk, rfl⟩⟩ hD v
    · rw [progress_of_short hi] at hD
      cases hD
      exact ⟨_, finalize_selecting (d := { d with phase := .selecting fed }) hm rfl⟩
    · rw [progress_of_known hi hs] at hD
      obtain ⟨t, ht⟩ := (hc.of_beginning hw hi hs).finalize_awaiting hk hD v
      refine ⟨({ d with phase := .selected id t.1 }, t.2), (finalize_selected rfl).trans ?_⟩
      rw [ht]
  finalize_ready := by
    rintro fed k p ⟨hw, ⟨hi, rfl⟩ | ⟨requested, id, k₀, k₁, hi, hs, hk, rfl⟩⟩ hD v
    · rw [progress_of_short hi] at hD
      cases hD
    · rw [progress_of_known hi hs] at hD
      obtain ⟨k', v', ht, hk'⟩ := (hc.of_beginning hw hi hs).finalize_ready hk hD v
      refine ⟨_, v', (finalize_selected rfl).trans ?_, hw, .inr ⟨_, _, _, k', hi, hs, hk', rfl⟩⟩
      rw [ht]

/-! ## Over the bundled families -/

omit [Session κ σ] in
theorem select_eq_ok {fallback : Option UInt32} {k : κ}
    (h : d.select requested fallback = .ok (id, k)) :
    ∃ make, d.registry.get? id = some make ∧ k = make d.context := by
  unfold select at h
  split at h
  · rename_i make hmake
    cases h
    exact ⟨make, hmake, rfl⟩
  · split at h
    · rename_i f make hf
      cases h
      obtain ⟨f', hf', hmap⟩ := Option.bind_eq_some_iff.mp hf
      obtain ⟨make', hmake, hpair⟩ := Option.map_eq_some_iff.mp hmap
      cases hpair
      exact ⟨make, hmake, rfl⟩
    · cases h

/-- A decrypting dispatcher at its beginning, whose registry holds sessions of bundled families: under
each bound id, one of `families id`. -/
structure Opens (families : UInt32 → BundledFamily)
    (d : Dispatcher σ (FamilySession σ CounterStream)) : Prop where
  mode : d.context.mode = .decrypt
  phase : d.phase = .selecting []
  sessions : ∀ {id make}, d.registry.get? id = some make → (make d.context).Opens (families id)

/-- What a dispatcher over the bundled families makes of the bytes `fed`. -/
def familyProgress (families : UInt32 → BundledFamily)
    (d : Dispatcher σ (FamilySession σ CounterStream)) (w : σ) : Bytes → Progress :=
  progress (fun id k => k.progress (families id) w) d

/-- Where such a dispatcher is after the bytes `fed`, as the beginning of `whole`. -/
def FamilyAfter (families : UInt32 → BundledFamily)
    (d : Dispatcher σ (FamilySession σ CounterStream)) (w : σ) (whole fed : Bytes)
    (k : Dispatcher σ (FamilySession σ CounterStream)) : Prop :=
  fed <+: whole ∧ After (fun id k => k.After (families id) w) d fed k

theorem familyAfter_nil {families : UInt32 → BundledFamily}
    {d : Dispatcher σ (FamilySession σ CounterStream)} (ho : Opens families d) (w : σ)
    (whole : Bytes) : FamilyAfter families d w whole [] d :=
  ⟨⟨whole, rfl⟩, .inl ⟨rfl, by rw [← ho.phase]⟩⟩

/-- **A decrypting dispatcher over the bundled families computes `familyProgress`**, however it is
fed. -/
theorem family_decodes {families : UInt32 → BundledFamily}
    {d : Dispatcher σ (FamilySession σ CounterStream)} (ho : Opens families d) (w : σ)
    (whole : Bytes) : Decodes (familyProgress families d w) (FamilyAfter families d w whole) whole := by
  refine decodes ho.mode (fun id k => FamilySession.grows_progress (families id) k w) ?_
  intro requested id k _ hs
  obtain ⟨make, hmake, rfl⟩ := select_eq_ok hs
  have hk := ho.sessions hmake
  exact ⟨FamilySession.decodes hk w _, FamilySession.after_nil hk w⟩

/-- What did not fail has made the dispatcher ready if, and only if, a whole header is behind the
id. -/
theorem isReady_familyProgress_iff {families : UInt32 → BundledFamily}
    {d : Dispatcher σ (FamilySession σ CounterStream)} {w : σ}
    (hf : (familyProgress families d w fed).isFailed = false) :
    (familyProgress families d w fed).isReady = true ↔ Header.AtFront (fed.drop idLen) := by
  unfold familyProgress at hf ⊢
  cases hi : Bytes.be32? fed with
  | none =>
    have hnil : fed.drop idLen = [] :=
      List.drop_eq_nil_of_le (Nat.le_of_lt (Bytes.be32?_eq_none_iff.mp hi))
    rw [progress_of_short hi, hnil]
    constructor
    · intro hr
      cases hr
    · intro hh
      exact absurd hh Header.not_atFront_nil
  | some requested =>
    cases hs : d.select requested d.defaultType with
    | error e =>
      rw [progress_of_unknown hi hs] at hf
      cases hf
    | ok p =>
      rw [progress_of_known hi hs] at hf ⊢
      exact FamilySession.isReady_progress_iff hf

end Dispatcher

/-! ## Sessions of a builder -/

namespace Registry

/-- The bundled registry binds the ids of the bundled families. -/
theorem get?_bundled {σ γ κ : Type} (family : CipherFamily σ CounterStream → CipherFamily σ γ)
    (session : FamilySession σ γ → κ) (id : UInt32) :
    (bundled family session).get? id = (BundledFamily.ofId? id).map fun f c =>
      session (c.familySession (family f.family)) := by
  simp only [bundled, List.foldl_cons, List.foldl_nil, get?_register, BundledFamily.ofId?,
    BundledFamily.id]
  by_cases h2 : id = 2
  · subst h2
    rfl
  · rw [if_neg (fun h => h2 h.symm), if_neg h2]
    by_cases h1 : id = 1
    · subst h1
      rfl
    · rw [if_neg (fun h => h1 h.symm), if_neg h1]
      rfl

end Registry

namespace CipherBuilder

variable {σ : Type}

theorem opens_familySession {b : CipherBuilder σ} (hw : b.wrap.Functional) (f : BundledFamily) :
    (b.familySession f.family .decrypt).Opens f :=
  ⟨rfl, rfl, rfl, hw⟩

/-- The family that an id stands for; ids that stand for none may be given any. -/
def familyOf (id : UInt32) : BundledFamily := (BundledFamily.ofId? id).getD .aes

/-- Under an id that is bound, the bundled registry makes sessions of the family it stands for. -/
theorem eq_familySession_of_bundled {i : UInt32}
    {make : SessionContext σ → FamilySession σ CounterStream}
    (h : (Registry.bundled id id).get? i = some make) :
    make = fun c => c.familySession (familyOf i).family := by
  rw [Registry.get?_bundled] at h
  obtain ⟨f, hf, rfl⟩ := Option.map_eq_some_iff.mp h
  rw [familyOf, hf]
  rfl

theorem opens_dispatcher {b : CipherBuilder σ} (hw : b.wrap.Functional) (encryptType : UInt32)
    (defaultType : Option UInt32) :
    (b.dispatcher .decrypt (Registry.bundled id id) encryptType defaultType).Opens familyOf where
  mode := rfl
  phase := rfl
  sessions := by
    intro id make hmake
    rw [eq_familySession_of_bundled hmake]
    exact ⟨rfl, rfl, rfl, hw⟩

end CipherBuilder

/-- A builder whose key wrap leaves secrets as they are. -/
def bareBuilder : CipherBuilder Unit where
  wrap := ⟨pure, pure⟩
  random := ⟨fun n => pure (.replicate n 1)⟩

/-- A header of an SM4 stream under that key wrap. -/
def bareHeader : Header := ⟨2, .replicate 16 3, .replicate 16 4⟩

end SealedStream
