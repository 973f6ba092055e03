import SealedStream.Proofs.Session.Embedding
import SealedStream.Proofs.Stream.Sticky

/-!
# Where the failure of a read comes from

`Logged` is an object that records what its calls fail with, and otherwise does what the object does.
A reader whose session and whose source do so shows what became of their failures
(`CipherReader.Failed`): a failure of either is what the read fails with, and if neither failed, the
reader was aborted, gave up, or repeats what it has stored. What is no failed transfer is stored, and
no failure makes an end.
-/

namespace SealedStream

variable {ε σ κ κ' ρ ρ' ο α : Type}

/-! ## Records -/

/-- An object with the error that a call of it failed with. -/
structure Logged (ε ο : Type) where
  it : ο
  failure : Option ε := none

namespace Logged

/-- Without the record. -/
def plain (s : Logged ε ο × σ) : ο × σ := (s.1.it, s.2)

/-- Runs a call, and records it if it fails. -/
def run (x : EStateM ε (ο × σ) α) : EStateM ε (Logged ε ο × σ) α := fun s =>
  match x (s.1.it, s.2) with
  | .ok a t => .ok a ({ s.1 with it := t.1 }, t.2)
  | .error e t => .error e (⟨t.1, some e⟩, t.2)

instance [Session κ σ] : Session (Logged Error κ) σ where
  mode k := Session.mode k.it
  version k := Session.version k.it
  isReady k := Session.isReady k.it
  start := run Session.start
  update input := run (Session.update input)
  finalize := run Session.finalize
  restart k := ⟨Session.restart k.it, none⟩

instance [Source σ ρ] : Source σ (Logged IoError ρ) where
  read fuel n := run (Source.read fuel n)

/-- A record changes nothing. -/
theorem plain_run (x : EStateM ε (ο × σ) α) (s : Logged ε ο × σ) :
    x (plain s) = mapState plain (run x s) := by
  unfold plain run
  cases x (s.1.it, s.2) <;> rfl

theorem ensures_run {I : Logged ε ο × σ → Prop} {J : α → Logged ε ο × σ → Prop}
    {Q : ε → Logged ε ο × σ → Prop} {x : EStateM ε (ο × σ) α}
    (h : ∀ s, I s → Meets (fun a t => J a ({ s.1 with it := t.1 }, t.2))
      (fun e t => Q e (⟨t.1, some e⟩, t.2)) (x (s.1.it, s.2))) : Ensures I J Q (run x) := by
  intro s hs
  have hs' := h s hs
  unfold run
  cases hx : x (s.1.it, s.2) with
  | ok a t =>
    rw [hx] at hs'
    exact hs'
  | error e t =>
    rw [hx] at hs'
    exact hs'

theorem embeds [Session κ σ] : Session.Embeds (κ := Logged Error κ) (μ := κ) (·.it) where
  mode _ := rfl
  isReady _ := rfl
  start k w := plain_run Session.start (k, w)
  update input k w := plain_run (Session.update input) (k, w)
  finalize k w := plain_run Session.finalize (k, w)

end Logged

/-- `j` takes each source to one whose reads do the same. -/
def Source.Embeds (σ : Type) [Source σ ρ] [Source σ ρ'] (fuel : Nat) (j : ρ → ρ') : Prop :=
  ∀ (n : Nat) (i : ρ) (env : Env σ), (Source.read fuel n : Transfer σ ρ' Bytes) (j i, env) =
    mapState (fun t => (j t.1, t.2)) ((Source.read fuel n : Transfer σ ρ Bytes) (i, env))

namespace CipherReader

/-! ## Without the records -/

/-- The reader with its session and its source seen through maps. -/
def bimap (ι : κ → κ') (j : ρ → ρ') (r : CipherReader κ ρ) : CipherReader κ' ρ' :=
  { r with session := ι r.session, inner := j r.inner }

section

variable [Session κ σ] [Session κ' σ] [Source σ ρ] [Source σ ρ'] {ι : κ → κ'} {j : ρ → ρ'}
  {fuel : Nat} (hι : Session.Embeds ι) (hj : Source.Embeds σ fuel j)

include hι hj

/-- If the maps change nothing, nor do they for the reader. -/
theorem tandem_bimap :
    Tandem fuel (fun (s : State σ κ ρ) (t : State σ κ' ρ') => t = (s.1.bimap ι j, s.2))
      fun _ _ => False := by
  refine .of_parts ?_ ?_ (fun call => ?_) ?_
  · rintro s _ rfl
    exact ⟨rfl, hι.mode _, hι.isReady _, rfl⟩
  · rintro s _ rfl n
    rfl
  · rintro ⟨r, env⟩ _ rfl
    have hcall : (call.run : Step (κ' × σ) Bytes) (ι r.session, env.world) =
        mapState (fun t => (ι t.1, t.2)) ((call.run : Step (κ × σ) Bytes) (r.session, env.world)) := by
      cases call with
      | start => exact hι.start _ _
      | update input => exact hι.update _ _ _
      | finalize => exact hι.finalize _ _
    simp only [bimap, run_onSession, hcall]
    cases (call.run : Step (κ × σ) Bytes) (r.session, env.world) with
    | ok out t => exact .ok out rfl
    | error e t => exact .error e rfl
  · rintro ⟨r, env⟩ _ rfl
    simp only [bimap, run_readBlock, hj _]
    cases (Source.read fuel r.blockSize : Transfer σ ρ Bytes) (r.inner, env) with
    | error e t => exact .error _ rfl
    | ok block t =>
      simp only [mapState]
      cases r.abort.check t.2 with
      | error e => exact .error _ rfl
      | ok _ => exact .ok _ rfl

theorem readBytes_bimap (n : Nat) (s : State σ κ ρ) :
    (readBytes fuel n : Pull σ κ' ρ' Bytes) (s.1.bimap ι j, s.2) =
      mapState (fun t => (t.1.bimap ι j, t.2)) ((readBytes fuel n : Pull σ κ ρ Bytes) s) := by
  have hpoison : ∀ {s : State σ κ ρ} {t : State σ κ' ρ'} (e : Error), t = (s.1.bimap ι j, s.2) →
      (poison e t.1, t.2) = ((poison e s.1).bimap ι j, s.2) := by
    rintro s _ e rfl
    unfold poison
    split <;> rfl
  have hread := (tandem_bimap hι hj).readBytes hpoison n s _ rfl
  generalize (readBytes fuel n : Pull σ κ ρ Bytes) s = p,
    (readBytes fuel n : Pull σ κ' ρ' Bytes) (s.1.bimap ι j, s.2) = q at hread
  cases hread with
  | ok out h => rw [h]; rfl
  | error e h => rw [h]; rfl
  | cut _ h => exact (h.elim fun _ h => h.1.elim)

theorem read_bimap (n : Nat) (r : CipherReader κ ρ) (env : Env σ) :
    (Source.read fuel n : Transfer σ (CipherReader κ' ρ') Bytes) (r.bimap ι j, env) =
      mapState (fun t => (t.1.bimap ι j, t.2))
        ((Source.read fuel n : Transfer σ (CipherReader κ ρ) Bytes) (r, env)) := by
  simp only [Source.read, run_adaptExcept]
  rw [readBytes_bimap hι hj n (r, env)]
  cases (readBytes fuel n : Pull σ κ ρ Bytes) (r, env) <;> rfl

end

end CipherReader

/-! ## What a reader fails with -/

namespace Error

/-- What a reader stores of an error: nothing of a failed transfer. -/
def kept (e : Error) : Option Error := if e.isIo then none else some e

theorem kept_of_isIo {e : Error} (h : e.isIo = true) : e.kept = none := if_pos h

theorem kept_of_not_isIo {e : Error} (h : e.isIo = false) : e.kept = some e := by
  rw [kept, h, if_neg Bool.false_ne_true]

end Error

namespace CipherReader

/-- Nothing that is stored is a failed transfer. -/
def Tidy (r : CipherReader κ ρ) : Prop := ∀ e, r.failed = some e → e.isIo = false

theorem tidy_of_kept {r : CipherReader κ ρ} {e : Error} (h : r.failed = e.kept) : r.Tidy := by
  intro e' he'
  cases hio : e.isIo with
  | true =>
    rw [h, Error.kept_of_isIo hio] at he'
    cases he'
  | false =>
    rw [h, Error.kept_of_not_isIo hio] at he'
    cases he'
    exact hio

/-- Nor is what a reader refuses to be used with. -/
theorem isIo_of_verdict {s : State σ κ ρ} {e : Error} (h : verdict s = .failed e) (hs : s.1.Tidy) :
    e.isIo = false := by
  cases ha : s.1.abort.isAborted s.2 with
  | true =>
    rw [verdict_of_aborted ha] at h
    cases h
    rfl
  | false =>
    cases hf : s.1.failed with
    | none =>
      have hu : Usable s := ⟨by simp [AbortHandle.check, ha], hf⟩
      rw [hu.verdict] at h
      split at h <;> cases h
    | some e' =>
      rw [verdict_of_stored hf (hs e' hf), ha] at h
      cases h
      exact hs e' hf

/-- What a reader says that gives up: refills gave nothing for too long, or it was given too few
rounds. -/
def exhausted : List Error :=
  [.io (.plain .other "exceeded maximum number of attempts to read next chunk of data"),
    .io .stalled]

variable (A : ρ → Prop) (B : IoError → ρ × Env σ → Prop)

/-- How a read may have come to fail with `e`: its source failed, and is as `B` says; or it did not,
and is as `A` says, and the session did; or neither did, and the reader was aborted, or gave up, or
has repeated an error. What is `stored` depends on the error. -/
inductive Failed (stored : Error → Option Error) : Error → State σ (Logged Error κ) ρ → Prop
  | source {s : State σ (Logged Error κ) ρ} {z : IoError} :
      B z (s.1.inner, s.2) → s.1.session.failure = none → s.1.eof = false →
      s.1.failed = stored (.ofIo z) → Failed stored (.ofIo z) s
  | session {s : State σ (Logged Error κ) ρ} {e : Error} :
      A s.1.inner → s.1.session.failure = some e → s.1.eof = false → s.1.failed = stored e →
      Failed stored e s
  | aborted {s : State σ (Logged Error κ) ρ} :
      A s.1.inner → s.1.session.failure = none → s.1.abort.isAborted s.2 = true → s.1.Tidy →
      Failed stored .aborted s
  | idle {s : State σ (Logged Error κ) ρ} {e : Error} :
      A s.1.inner → s.1.session.failure = none → e ∈ exhausted → s.1.eof = false →
      s.1.failed = none → Failed stored e s
  | repeated {s : State σ (Logged Error κ) ρ} {e : Error} :
      A s.1.inner → s.1.session.failure = none → s.1.failed = some e → e.isIo = false →
      Failed stored e s

/-- Nothing has failed, nor is a failure stored. -/
structure Smooth (s : State σ (Logged Error κ) ρ) : Prop where
  source : A s.1.inner
  session : s.1.session.failure = none
  failed : s.1.failed = none

/-- Nor has the end come. -/
def Going (s : State σ (Logged Error κ) ρ) : Prop := Smooth A s ∧ s.1.eof = false

/-- The failure of a read that has not stored it yet. -/
def Failing (e : Error) (s : State σ (Logged Error κ) ρ) : Prop :=
  Failed A B (fun _ => none) e s ∧ s.1.failed = none

/-- A refill gives nothing only where the end has not come. -/
def Supplied (refill : Refill) (s : State σ (Logged Error κ) ρ) : Prop :=
  Smooth A s ∧ (refill = .empty → s.1.eof = false)

variable {A B} {fuel : Nat}

theorem Smooth.tidy {s : State σ (Logged Error κ) ρ} (h : Smooth A s) : s.1.Tidy := by
  intro e he
  rw [h.failed] at he
  cases he

theorem isIo_of_exhausted {e : Error} (h : e ∈ exhausted) : e.isIo = true := by
  simp only [exhausted, List.mem_cons, List.not_mem_nil, or_false] at h
  rcases h with rfl | rfl <;> rfl

/-! ## One step of a reader after the other -/

theorem ensures_checkAbort {I : State σ (Logged Error κ) ρ → Prop} (hI : ∀ s, I s → Smooth A s) :
    Ensures I (fun _ => I) (Failing A B) (checkAbort : Pull σ (Logged Error κ) ρ Unit) := by
  refine .get_bind fun s hs => ?_
  obtain ⟨r, env⟩ := s
  simp only [run_check, AbortHandle.check]
  cases ha : r.abort.isAborted env with
  | false => exact hs
  | true =>
    have h := hI _ hs
    exact ⟨.aborted h.source h.session ha h.tidy, h.failed⟩

theorem ensures_update {I J : State σ (Logged Error κ) ρ → Prop}
    {f : CipherReader (Logged Error κ) ρ → CipherReader (Logged Error κ) ρ}
    (h : ∀ r env, I (r, env) → J (f r, env)) :
    Ensures I (fun _ => J) (Failing A B) (update f : Pull σ (Logged Error κ) ρ Unit) :=
  .modify fun s hs => h s.1 s.2 hs

theorem ensures_setOutput (bytes : Bytes) {I : State σ (Logged Error κ) ρ → Prop}
    (h : ∀ r env, I (r, env) → Smooth A (r, env) ∧ (bytes = [] → r.eof = false)) :
    Ensures I (Supplied A) (Failing A B) (setOutput bytes) := by
  rintro ⟨r, env⟩ hs
  rw [run_setOutput]
  obtain ⟨⟨hsource, hsession, hfailed⟩, heof⟩ := h r env hs
  refine ⟨⟨hsource, hsession, hfailed⟩, fun hempty => heof ?_⟩
  cases bytes with
  | nil => rfl
  | cons b bs => cases hempty

theorem ensures_setLastOutput (bytes : Bytes) :
    Ensures (Smooth A) (Supplied A) (Failing A B)
      (setLastOutput bytes : Pull σ (Logged Error κ) ρ Refill) := by
  rintro ⟨r, env⟩ ⟨hsource, hsession, hfailed⟩
  simp only [setLastOutput, run_bind, run_setOutput]
  cases bytes with
  | nil => exact ⟨⟨hsource, hsession, hfailed⟩, fun h => by cases h⟩
  | cons b bs => exact ⟨⟨hsource, hsession, hfailed⟩, fun h => by cases h⟩

section

variable [Session κ σ]

/-- A call of the session leaves its record as it is, or it is the call that failed. -/
theorem ensures_onSession (call : Session.Call) :
    Ensures (Going A) (fun _ => Going A) (Failing A B)
      (onSession call.run : Pull σ (Logged Error κ) ρ Bytes) := by
  rintro ⟨r, env⟩ ⟨⟨hsource, hsession, hfailed⟩, heof⟩
  have hcall : Ensures (fun u : Logged Error κ × σ => u.1.failure = none)
      (fun _ u => u.1.failure = none) (fun e u => u.1.failure = some e) call.run := by
    cases call <;> refine Logged.ensures_run fun u hu => ?_
    · cases (Session.start : Step (κ × σ) Bytes) (u.1.it, u.2) <;> first | exact hu | rfl
    · cases (Session.update _ : Step (κ × σ) Bytes) (u.1.it, u.2) <;> first | exact hu | rfl
    · cases (Session.finalize : Step (κ × σ) Bytes) (u.1.it, u.2) <;> first | exact hu | rfl
  have hu := hcall (r.session, env.world) hsession
  rw [run_onSession]
  cases hrun : (call.run : Step (Logged Error κ × σ) Bytes) (r.session, env.world) with
  | ok out u =>
    rw [hrun] at hu
    exact ⟨⟨hsource, hu, hfailed⟩, heof⟩
  | error e u =>
    rw [hrun] at hu
    exact ⟨.session hsource hu heof hfailed, hfailed⟩

/-- Finalizing makes the end only if it succeeds. -/
theorem ensures_finish :
    Ensures (Going A) (fun _ => Smooth A) (Failing A B)
      (finish : Pull σ (Logged Error κ) ρ Bytes) := by
  refine .bind (ensures_onSession .finalize) fun tail =>
    .bind (ensures_update (J := Smooth A) fun r env h => ?_) fun _ => .pure fun _ h => h
  exact ⟨h.1.source, h.1.session, h.1.failed⟩

end

section

variable [Source σ ρ] (hread : ∀ n, Ensures (fun u : ρ × Env σ => A u.1) (fun _ u => A u.1) B
  (Source.read fuel n : Transfer σ ρ Bytes))

include hread

theorem ensures_readBlock :
    Ensures (Going A) (fun _ => Going A) (Failing A B)
      (readBlock fuel : Pull σ (Logged Error κ) ρ Bytes) := by
  rintro ⟨r, env⟩ ⟨⟨hsource, hsession, hfailed⟩, heof⟩
  have hblock := hread r.blockSize (r.inner, env) hsource
  rw [run_readBlock]
  cases hrun : (Source.read fuel r.blockSize : Transfer σ ρ Bytes) (r.inner, env) with
  | error z u =>
    rw [hrun] at hblock
    exact ⟨.source hblock hsession heof hfailed, hfailed⟩
  | ok block u =>
    rw [hrun] at hblock
    simp only [AbortHandle.check]
    cases ha : r.abort.isAborted u.2 with
    | false => exact ⟨⟨hblock, hsession, hfailed⟩, heof⟩
    | true =>
      have hs : Smooth A ({ r with inner := u.1 }, u.2) := ⟨hblock, hsession, hfailed⟩
      exact ⟨.aborted hblock hsession ha hs.tidy, hfailed⟩

variable [Session κ σ]

theorem ensures_pull :
    Ensures (Going A) (fun p s => Smooth A s ∧ (p.2 = false → s.1.eof = false)) (Failing A B)
      (pull fuel : Pull σ (Logged Error κ) ρ (Bytes × Bool)) := by
  refine .bind (ensures_readBlock hread) fun block => .ite _ (fun _ => ?_) fun _ => ?_
  · exact .bind ensures_finish fun _ => .pure fun _ h => ⟨h, nofun⟩
  · exact .bind (ensures_onSession (.update block)) fun _ => .pure fun _ h => ⟨h.1, fun _ => h.2⟩

/-- By induction on the rounds. -/
theorem ensures_assembleHeader : ∀ (rounds : Nat) (out : Bytes),
    Ensures (Going A) (fun _ => Smooth A) (Failing A B)
      (assembleHeader fuel rounds out : Pull σ (Logged Error κ) ρ Bytes)
  | 0, out => by
    refine .get_bind fun s hs => ?_
    refine Ensures.ite _ (fun _ => .pure fun _ h => h.1) (fun _ => .throw fun t ht => ?_) s hs
    exact ⟨.idle ht.1.source ht.1.session (by simp [exhausted]) ht.2 ht.1.failed, ht.1.failed⟩
  | rounds + 1, out => by
    rw [assembleHeader_succ_eq_pull]
    refine .get_bind fun s hs => ?_
    refine Ensures.ite _ (fun _ => .pure fun _ h => h.1) (fun _ => ?_) s hs
    refine .bind (ensures_checkAbort fun _ h => h.1) fun _ => .bind (ensures_pull hread) fun p => ?_
    refine .ite _ (fun _ => .pure fun _ h => h.1) fun hlast => ?_
    refine (ensures_assembleHeader rounds _).mono (fun t ht => ⟨ht.1, ht.2 ?_⟩) (fun _ _ h => h)
      fun _ _ h => h
    exact Bool.eq_false_iff.mpr hlast

theorem ensures_blockRefill :
    Ensures (Going A) (Supplied A) (Failing A B)
      (blockRefill fuel : Pull σ (Logged Error κ) ρ Refill) := by
  rw [blockRefill_eq_pull]
  refine .bind (ensures_pull hread) fun p => .ite _ (fun _ => ?_) fun hlast => ?_
  · exact (ensures_setLastOutput p.1).mono (fun _ h => h.1) (fun _ _ h => h) fun _ _ h => h
  · exact ensures_setOutput p.1 fun r env h => ⟨h.1, fun _ => h.2 (Bool.eq_false_iff.mpr hlast)⟩

theorem ensures_firstRefill :
    Ensures (Going A) (Supplied A) (Failing A B)
      (firstRefill fuel : Pull σ (Logged Error κ) ρ Refill) := by
  refine .bind (ensures_update (J := Going A) fun r env h => ?_) fun _ =>
    .bind (ensures_onSession .start) fun header => .get_bind fun s hs => ?_
  · exact ⟨⟨h.1.source, h.1.session, h.1.failed⟩, h.2⟩
  · refine Ensures.ite _ (fun _ => ?_) (fun _ => .ite _ (fun _ => ?_) fun _ => ?_) s hs
    · exact ensures_setOutput header fun r env h => ⟨h.1, fun _ => h.2⟩
    · refine .bind (ensures_assembleHeader hread fuel []) fun plain => .get_bind fun t ht => ?_
      simp only [run_ite]
      split
      · exact ensures_setLastOutput plain t ht
      · rename_i heof
        have hgoing : Going A t := ⟨ht, Bool.eq_false_iff.mpr heof⟩
        exact ensures_setOutput plain (fun r env h => ⟨h.1, fun _ => h.2⟩) t hgoing
    · exact ensures_blockRefill hread

theorem ensures_refill :
    Ensures (Smooth A) (Supplied A) (Failing A B)
      (refill fuel : Pull σ (Logged Error κ) ρ Refill) := by
  refine .bind (ensures_checkAbort fun _ h => h) fun _ => .get_bind fun s hs => ?_
  simp only [run_ite]
  split
  · exact ⟨hs, nofun⟩
  · rename_i heof
    have hgoing : Going A s := ⟨hs, Bool.eq_false_iff.mpr heof⟩
    split
    · exact ensures_blockRefill hread s hgoing
    · exact ensures_firstRefill hread s hgoing

/-- By induction on the refills that may still give nothing. -/
theorem ensures_refillLoop : ∀ left : Nat,
    Ensures (Smooth A) (fun _ => Smooth A) (Failing A B)
      (refillLoop fuel left : Pull σ (Logged Error κ) ρ Bool)
  | 0 => by
    refine .bind (ensures_refill hread) fun refill => ?_
    cases refill with
    | data => exact .pure fun _ h => h.1
    | done => exact .pure fun _ h => h.1
    | empty =>
      refine .throw fun s h => ⟨?_, h.1.failed⟩
      exact .idle h.1.source h.1.session (by simp [exhausted]) (h.2 rfl) h.1.failed
  | left + 1 => by
    refine .bind (ensures_refill hread) fun refill => ?_
    cases refill with
    | data => exact .pure fun _ h => h.1
    | done => exact .pure fun _ h => h.1
    | empty =>
      exact (ensures_refillLoop left).mono (fun _ h => h.1) (fun _ _ h => h) fun _ _ h => h

theorem ensures_fill :
    Ensures (Smooth A) (fun _ => Smooth A) (Failing A B)
      (fill fuel : Pull σ (Logged Error κ) ρ Bool) := by
  refine .get_bind fun s hs => ?_
  simp only [run_ite]
  split
  · exact ensures_refillLoop hread _ s hs
  · exact hs

/-! ## One read -/

omit hread [Source σ ρ] [Session κ σ] in
/-- Storing what is no failed transfer. -/
theorem Failing.poison {e : Error} {s : State σ (Logged Error κ) ρ} (h : Failing A B e s) :
    Failed A B Error.kept e (poison e s.1, s.2) := by
  obtain ⟨r, env⟩ := s
  obtain ⟨h, hnone⟩ := h
  have hnone : r.failed = none := hnone
  have hpoison : CipherReader.poison e r = { r with failed := e.kept } := by
    unfold CipherReader.poison Error.kept
    cases hio : e.isIo with
    | true => simp only [if_true, ← hnone]
    | false => simp only [Bool.false_eq_true, if_false, Error.recorded_of_not_isIo hio]
  rw [hpoison]
  cases h with
  | source hB hsession heof _ => exact .source hB hsession heof rfl
  | session hA hsession heof _ => exact .session hA hsession heof rfl
  | aborted hA hsession ha _ =>
    refine .aborted hA hsession ha ?_
    rintro e ⟨⟩
    rfl
  | idle hA hsession he heof _ =>
    exact .idle hA hsession he heof (if_pos (isIo_of_exhausted he))
  | repeated _ _ hf _ =>
    rw [hnone] at hf
    cases hf

/-- **What a read fails with.** A read before which nothing has failed does not give anything if
something fails in its course. -/
theorem ensures_readBytes (n : Nat) :
    Ensures (fun s => A s.1.inner ∧ s.1.session.failure = none ∧ s.1.Tidy)
      (fun _ s => A s.1.inner ∧ s.1.session.failure = none ∧ s.1.Tidy) (Failed A B Error.kept)
      (readBytes fuel n : Pull σ (Logged Error κ) ρ Bytes) := by
  rintro s ⟨hA, hsession, htidy⟩
  by_cases hs : Usable s
  · have hsmooth : Smooth A ({ s.1 with accessed := true }, s.2) := ⟨hA, hsession, hs.failed⟩
    rw [readBytes_of_usable hs]
    split
    · exact ⟨hA, hsession, htidy⟩
    · have hfill := ensures_fill hread _ hsmooth
      unfold readFilled
      cases hrun : (fill fuel : Pull σ (Logged Error κ) ρ Bool) ({ s.1 with accessed := true }, s.2) with
      | error e t =>
        rw [hrun] at hfill
        exact hfill.poison
      | ok more t =>
        rw [hrun] at hfill
        have ht : Smooth A t := hfill
        cases more with
        | true => exact ⟨ht.source, ht.session, ht.tidy⟩
        | false => exact ⟨ht.source, ht.session, ht.tidy⟩
  · obtain ⟨e, he⟩ := exists_failed_of_not_usable hs
    rw [readBytes_of_failed he]
    cases ha : s.1.abort.isAborted s.2 with
    | true =>
      rw [verdict_of_aborted ha] at he
      cases he
      exact .aborted hA hsession ha htidy
    | false =>
      cases hf : s.1.failed with
      | none => exact absurd ⟨by simp [AbortHandle.check, ha], hf⟩ hs
      | some e' =>
        rw [verdict_of_stored hf (htidy e' hf), ha] at he
        cases he
        exact .repeated hA hsession hf (htidy e' hf)

end

end CipherReader

end SealedStream
