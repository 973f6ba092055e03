import SealedStream.Proofs.Session.NeverIo
import SealedStream.Proofs.Stream.Journal
import SealedStream.Proofs.Stream.ReadTower
import SealedStream.Proofs.Stream.Recording

/-!
# How a reader calls its session

A reader does in a world that keeps a journal what it does without (`request_unjournaled`,
`close_unjournaled`). Whatever happens to it, there is a phase that its flags and the journal agree in
(`Phase`), as long as nothing has failed that stays; that is what makes each of its calls a proper one
(`standing_records`, `kept_close`). A session that failed with a failed transfer would be called again,
so there must be none (`Session.NeverIo`).
-/

namespace SealedStream

variable {σ κ ρ : Type}

namespace CipherReader

/-- A reader in a world that keeps a journal. -/
abbrev Journaling (σ κ ρ : Type) := State (Journaled σ) (Numbered κ) (Observed ρ)

/-- A step of it. -/
abbrev JournaledPull (σ κ ρ α : Type) := Pull (Journaled σ) (Numbered κ) (Observed ρ) α

/-- The reader without the journal. -/
def unjournaled (s : Journaling σ κ ρ) : State σ κ ρ :=
  (s.1.bimap (·.session) (·.it), s.2.unjournaled)

/-- The reader with an empty journal. -/
def journaled (s : State σ κ ρ) : Journaling σ κ ρ := (s.1.bimap (⟨·, 0⟩) (⟨·⟩), s.2.journaled [])

theorem unjournaled_journaled (s : State σ κ ρ) : unjournaled (journaled s) = s := rfl

section

variable [Session κ σ]

theorem run_onSession_journaled (call : Session.Call) (s : Journaling σ κ ρ) :
    (onSession call.run : JournaledPull σ κ ρ Bytes) s =
      match call.run (s.1.session.session, s.2.world.world) with
      | .ok out t => .ok out ({ s.1 with session := ⟨t.1, s.1.session.number⟩ },
          ⟨s.2.raised, t.2, .called s.1.session.number call (some out) :: s.2.journal⟩)
      | .error e t => .error e ({ s.1 with session := ⟨t.1, s.1.session.number⟩ },
          ⟨s.2.raised, t.2, .called s.1.session.number call none :: s.2.journal⟩) := by
  obtain ⟨r, env⟩ := s
  rw [run_onSession, run_numbered]
  simp only [Session.Call.entered]
  cases call.run (r.session.session, env.world.world) <;> rfl

/-! ## The journal makes no difference -/

theorem onSession_unjournaled (call : Session.Call) (s : Journaling σ κ ρ) :
    (onSession call.run : Pull σ κ ρ Bytes) (unjournaled s) = mapState unjournaled
      ((onSession call.run : JournaledPull σ κ ρ Bytes) s) := by
  rw [run_onSession_journaled]
  simp only [unjournaled, bimap, run_onSession, Env.unjournaled]
  cases call.run (s.1.session.session, s.2.world.world) <;> rfl

variable [Source σ ρ] {fuel : Nat}

theorem tandem_unjournaled :
    Tandem fuel (fun (s : Journaling σ κ ρ) (t : State σ κ ρ) => t = unjournaled s)
      fun _ _ => False := by
  refine .of_parts ?_ ?_ (fun call => ?_) ?_
  · rintro s _ rfl
    exact ⟨check_unjournaled s.1.abort s.2, rfl, rfl, rfl⟩
  · rintro s _ rfl n
    rfl
  · rintro s _ rfl
    rw [onSession_unjournaled]
    cases (onSession call.run : JournaledPull σ κ ρ Bytes) s with
    | ok out t => exact .ok out rfl
    | error e t => exact .error e rfl
  · rintro ⟨r, env⟩ _ rfl
    simp only [unjournaled, bimap, run_readBlock, Source.read, Observed.run, Observed.bare]
    cases (Source.read fuel r.blockSize : Transfer σ ρ Bytes) (r.inner.it, env.unjournaled) with
    | error e t => exact .error _ rfl
    | ok block t =>
      have hcheck : r.abort.check (t.2.journaled env.journal) = r.abort.check t.2 :=
        (check_unjournaled r.abort (t.2.journaled env.journal)).symm
      simp only [mapState, hcheck]
      cases r.abort.check t.2 with
      | error e => exact .error _ rfl
      | ok _ => exact .ok _ rfl

theorem use_unjournaled (use : Use) (s : Journaling σ κ ρ) :
    use.run fuel (unjournaled s) = mapState unjournaled (use.run fuel s) := by
  have hpoison : ∀ {s : Journaling σ κ ρ} {t : State σ κ ρ} (e : Error), t = unjournaled s →
      (poison e t.1, t.2) = unjournaled (poison e s.1, s.2) := by
    rintro s _ e rfl
    unfold poison
    split <;> rfl
  exact ((tandem_unjournaled.use hpoison use).mono fun _ _ ⟨_, hfalse, _⟩ => hfalse).eq_mapState s

/-- What was asked of a reader is asked alike without the journal, -/
theorem request_unjournaled [Seekable σ ρ] [Abortable σ ρ] (request : Request)
    (s : Journaling σ κ ρ) :
    request.run fuel (unjournaled s) = mapState unjournaled (request.run fuel s) := by
  obtain ⟨r, env⟩ := s
  cases request with
  | use use =>
    simp only [Request.run, run_bind, use_unjournaled]
    cases (use.run fuel : JournaledPull σ κ ρ Answer) (r, env) <;> rfl
  | mark =>
    simp only [Request.run, run_bind, run_setMark, Seekable.position, Observed.run, Observed.bare,
      unjournaled, bimap]
    obtain ⟨inner, session, blockSize, output, eof, started, accessed, mark, failed, abort⟩ := r
    cases accessed with
    | true => rfl
    | false => cases (Seekable.position : Transfer σ ρ Nat) (inner.it, env.unjournaled) <;> rfl
  | reset =>
    simp only [Request.run, run_bind, run_reset, unjournaled, bimap, check_unjournaled]
    cases r.abort.check env with
    | error e => rfl
    | ok _ =>
      obtain ⟨inner, session, blockSize, output, eof, started, accessed, mark, failed, abort⟩ := r
      cases mark with
      | none => rfl
      | some p =>
        simp only [Seekable.seek, Observed.run, Observed.bare]
        cases (Seekable.seek p : Transfer σ ρ Unit) (inner.it, env.unjournaled) <;> rfl
  | abort =>
    simp only [Request.run, run_bind, run_modify, run_pure, Abortable.abort, unjournaled, bimap,
      abort_unjournaled, mapState]
    rfl

omit [Source σ ρ] in
/-- and so is closing it. -/
theorem close_unjournaled (s : Journaling σ κ ρ) :
    reached ((close : Pull σ κ ρ ρ) (unjournaled s)) =
      unjournaled (reached ((close : JournaledPull σ κ ρ (Observed ρ)) s)) := by
  have hfinalized : finalized (unjournaled s) = ((finalized s).1.session, (finalized s).2.world) := by
    unfold finalized
    show (if s.1.eof || s.1.failed.isSome then _ else _) = _
    split
    · rfl
    · show reached (Session.finalize (s.1.session.session, s.2.world.world)) =
        ((reached (Session.Call.entered .finalize (s.1.session, s.2.world))).1.session,
          (reached (Session.Call.entered .finalize (s.1.session, s.2.world))).2.world)
      simp only [Session.Call.entered, Session.Call.run]
      cases (Session.finalize : Step (κ × σ) Bytes) (s.1.session.session, s.2.world.world) <;> rfl
  rw [reached_close, reached_close, hfinalized]
  rfl

end

/-! ## Instances and their calls -/

/-- What the journal says of the present instance, which is the latest. -/
structure Tracked (P : κ → Prop) (k : Numbered κ) (journal : Journal) : Prop where
  session : P k.session
  kept : journal.Kept Journal.Unstarted
  called : ∀ number call out, .called number call out ∈ journal → number ≤ k.number
  replaced : ∀ number, .replaced number ∈ journal → number < k.number

variable {P : κ → Prop} {k : Numbered κ} {k' : κ} {journal : Journal}

namespace Tracked

/-- The present instance was not replaced. -/
theorem current (h : Tracked P k journal) : .replaced k.number ∉ journal :=
  fun hmem => Nat.lt_irrefl _ (h.replaced _ hmem)

theorem step (h : Tracked P k journal) {call : Session.Call} {out : Option Bytes}
    (hcall : Journal.Proper Journal.Unstarted k.number call journal) (hk : P k') :
    Tracked P ⟨k', k.number⟩ (.called k.number call out :: journal) where
  session := hk
  kept := h.kept.called hcall
  called := by
    intro number call' out' hmem
    rcases List.mem_cons.mp hmem with heq | hmem
    · cases heq
      exact Nat.le_refl _
    · exact h.called _ _ _ hmem
  replaced := by
    intro number hmem
    rcases List.mem_cons.mp hmem with heq | hmem
    · cases heq
    · exact h.replaced _ hmem

theorem replace (h : Tracked P k journal) (hk : P k') :
    Tracked P ⟨k', k.number + 1⟩ (.replaced k.number :: journal) where
  session := hk
  kept := h.kept.replaced
  called := by
    intro number call out hmem
    rcases List.mem_cons.mp hmem with heq | hmem
    · cases heq
    · exact Nat.le_succ_of_le (h.called _ _ _ hmem)
  replaced := by
    intro number hmem
    rcases List.mem_cons.mp hmem with heq | hmem
    · cases heq
      exact Nat.lt_succ_self _
    · exact Nat.lt_succ_of_lt (h.replaced _ hmem)

end Tracked

/-- How far the present instance is: what the flags `started` and `eof` of a reader and the journal agree
in. -/
inductive Phase (number : Nat) (journal : Journal) : (started eof : Bool) → Prop
  | unbegun : (∀ call out, .called number call out ∉ journal) → Phase number journal false false
  | underway : journal.Begun number → journal.Unended number → Phase number journal true false
  | ended {started : Bool} : Phase number journal started true

/-- A reader nothing of which has failed. -/
def Ordered (P : κ → Prop) (s : Journaling σ κ ρ) : Prop :=
  Tracked P s.1.session s.2.journal ∧
    Phase s.1.session.number s.2.journal s.1.started s.1.eof

/-- A reader that has just failed, and is in order all the same unless it has to store that. -/
def Stopped (P : κ → Prop) (e : Error) (s : Journaling σ κ ρ) : Prop :=
  Tracked P s.1.session s.2.journal ∧
    (e.isIo = true → Phase s.1.session.number s.2.journal s.1.started s.1.eof)

/-- A reader that is in order unless it has stored a failure. -/
def Standing (P : κ → Prop) (s : Journaling σ κ ρ) : Prop :=
  Tracked P s.1.session s.2.journal ∧
    (s.1.failed = none → Phase s.1.session.number s.2.journal s.1.started s.1.eof)

/-- A reader that feeds its session. -/
def Feeding (P : κ → Prop) (s : Journaling σ κ ρ) : Prop :=
  Ordered P s ∧ s.1.started = true ∧ s.1.eof = false

theorem Feeding.phase {s : Journaling σ κ ρ} (h : Feeding P s) :
    s.2.journal.Begun s.1.session.number ∧ s.2.journal.Unended s.1.session.number := by
  obtain ⟨⟨-, hphase⟩, hstarted, heof⟩ := h
  rw [hstarted, heof] at hphase
  cases hphase with
  | underway hbegun hunended => exact ⟨hbegun, hunended⟩

theorem Feeding.of_phase {r : CipherReader (Numbered κ) (Observed ρ)} {env : Env (Journaled σ)}
    (h : Tracked P r.session env.journal) (hbegun : env.journal.Begun r.session.number)
    (hunended : env.journal.Unended r.session.number) (hstarted : r.started = true)
    (heof : r.eof = false) : Feeding P (r, env) := by
  refine ⟨⟨h, ?_⟩, hstarted, heof⟩
  show Phase _ _ r.started r.eof
  rw [hstarted, heof]
  exact .underway hbegun hunended

/-- What is asked of the source is not entered. -/
theorem keeps_observed {α : Type} {I : Journaling σ κ ρ → Prop} (x : Transfer σ ρ α)
    (hI : ∀ r inner env env', env'.journal = env.journal → I (r, env) → I ({ r with inner }, env')) :
    Keeps I (onInner (Observed.run x) : JournaledPull σ κ ρ α) :=
  keeps_onInner fun s hs => hI s.1 _ s.2 _ (Observed.journal_run x (s.1.inner, s.2)) hs

section

variable [Session κ σ] (hP : Session.NeverIo P)

include hP

/-- A call that is a proper one. -/
theorem ensures_call (call : Session.Call) {I : Journaling σ κ ρ → Prop}
    {K : Bytes → Journaling σ κ ρ → Prop}
    (hI : ∀ s, I s → Tracked P s.1.session s.2.journal ∧
      Journal.Proper Journal.Unstarted s.1.session.number call s.2.journal)
    (hK : ∀ r env k w out, I (r, env) →
      Tracked P ⟨k, r.session.number⟩ (.called r.session.number call (some out) :: env.journal) →
        K out ({ r with session := ⟨k, r.session.number⟩ },
          ⟨env.raised, w, .called r.session.number call (some out) :: env.journal⟩)) :
    Ensures I K (Stopped P) (onSession call.run : JournaledPull σ κ ρ Bytes) := by
  rintro ⟨r, env⟩ hs
  obtain ⟨htracked, hproper⟩ := hI _ hs
  have hrun := hP.run htracked.session call env.world.world
  rw [run_onSession_journaled]
  cases hcall : (call.run : Step (κ × σ) Bytes) (r.session.session, env.world.world) with
  | ok out t =>
    rw [hcall] at hrun
    exact hK r env t.1 t.2 out hs (htracked.step hproper hrun)
  | error e t =>
    rw [hcall] at hrun
    refine ⟨htracked.step hproper hrun.1, fun hio => ?_⟩
    rw [hrun.2] at hio
    cases hio

theorem ensures_finalize : Ensures (Feeding P) (fun _ => Ordered P) (Stopped P)
    (finish : JournaledPull σ κ ρ Bytes) := by
  have hcall : Ensures (Feeding P) (fun _ s => Tracked P s.1.session s.2.journal) (Stopped P)
      (onSession Session.finalize : JournaledPull σ κ ρ Bytes) :=
    ensures_call hP .finalize (fun s hs => ⟨hs.1.1, hs.1.1.current, hs.phase.2, nofun, nofun⟩)
      fun _ _ _ _ _ _ h => h
  refine .bind hcall fun tail => .bind (J := fun _ => Ordered P) (.modify fun s hs => ?_) fun _ =>
    .pure fun _ h => h
  exact ⟨hs, .ended⟩

theorem ensures_feed (input : Bytes) : Ensures (Feeding P) (fun _ => Feeding P) (Stopped P)
    (onSession (Session.update input) : JournaledPull σ κ ρ Bytes) := by
  refine ensures_call hP (.update input) (fun s hs => ?_) fun r env k w out hs h => ?_
  · exact ⟨hs.1.1, hs.1.1.current, hs.phase.2, fun _ _ => hs.phase.1, nofun⟩
  · exact .of_phase h (hs.phase.1.cons _) (hs.phase.2.called nofun) hs.2.1 hs.2.2

end

/-! ## One read -/

theorem ensures_check {I : Journaling σ κ ρ → Prop} (hI : ∀ s, I s → Ordered P s) :
    Ensures I (fun _ => I) (Stopped P) (checkAbort : JournaledPull σ κ ρ Unit) :=
  (Keeps.bind .get fun _ => .check _).ensures.mono (fun _ h => h) (fun _ _ h => h)
    fun _ s h => ⟨(hI s h).1, fun _ => (hI s h).2⟩

theorem ensures_output (bytes : Bytes) : Ensures (Ordered P) (fun _ => Ordered P) (Stopped P)
    (setOutput bytes : JournaledPull σ κ ρ Refill) :=
  fun _ hs => hs

theorem ensures_lastOutput (bytes : Bytes) : Ensures (Ordered P) (fun _ => Ordered P) (Stopped P)
    (setLastOutput bytes : JournaledPull σ κ ρ Refill) := by
  refine .bind (ensures_output bytes) fun refill => ?_
  cases refill <;> exact .pure fun _ h => h

section

variable [Source σ ρ] {fuel : Nat}

theorem ensures_block : Ensures (Feeding P) (fun _ => Feeding P) (Stopped P)
    (readBlock fuel : JournaledPull σ κ ρ Bytes) := by
  have hkeeps : Keeps (Feeding P) (readBlock fuel : JournaledPull σ κ ρ Bytes) := by
    refine keeps_readBlock fun n => keeps_observed (Source.read fuel n) fun r inner env env' h hs => ?_
    unfold Feeding Ordered at hs ⊢
    simpa only [h] using hs
  exact hkeeps.ensures.mono (fun _ h => h) (fun _ _ h => h) fun _ _ h => ⟨h.1.1, fun _ => h.1.2⟩

variable [Session κ σ] (hP : Session.NeverIo P)

include hP

theorem ensures_next : Ensures (Feeding P) (fun p s => Ordered P s ∧ (p.2 = false → Feeding P s))
    (Stopped P) (pull fuel : JournaledPull σ κ ρ (Bytes × Bool)) := by
  refine .bind ensures_block fun block => .ite _ (fun _ => ?_) fun _ => ?_
  · exact .bind (ensures_finalize hP) fun _ => .pure fun _ h => ⟨h, nofun⟩
  · exact .bind (ensures_feed hP block) fun _ => .pure fun _ h => ⟨h.1, fun _ => h⟩

/-- By induction on the rounds. -/
theorem ensures_assembled : ∀ (rounds : Nat) (out : Bytes),
    Ensures (Feeding P) (fun _ => Ordered P) (Stopped P)
      (assembleHeader fuel rounds out : JournaledPull σ κ ρ Bytes)
  | 0, out => by
    refine .get_bind fun s hs => ?_
    exact Ensures.ite _ (fun _ => .pure fun _ h => h.1)
      (fun _ => .throw fun _ h => ⟨h.1.1, fun _ => h.1.2⟩) s hs
  | rounds + 1, out => by
    rw [assembleHeader_succ_eq_pull]
    refine .get_bind fun s hs => ?_
    refine Ensures.ite _ (fun _ => .pure fun _ h => h.1) (fun _ => ?_) s hs
    refine .bind (ensures_check fun _ h => h.1) fun _ => .bind (ensures_next hP) fun p => ?_
    refine .ite _ (fun _ => .pure fun _ h => h.1) fun hlast => ?_
    exact (ensures_assembled rounds _).mono (fun t ht => ht.2 (Bool.eq_false_iff.mpr hlast))
      (fun _ _ h => h) fun _ _ h => h

theorem ensures_laterRefill : Ensures (Feeding P) (fun _ => Ordered P) (Stopped P)
    (blockRefill fuel : JournaledPull σ κ ρ Refill) := by
  rw [blockRefill_eq_pull]
  refine .bind (ensures_next hP) fun p => .ite _ (fun _ => ?_) fun _ => ?_
  · exact (ensures_lastOutput p.1).mono (fun _ h => h.1) (fun _ _ h => h) fun _ _ h => h
  · exact (ensures_output p.1).mono (fun _ h => h.1) (fun _ _ h => h) fun _ _ h => h

/-- The instance is started by the first refill only. -/
theorem ensures_startingRefill :
    Ensures (fun s => Ordered P s ∧ s.1.started = false ∧ s.1.eof = false) (fun _ => Ordered P)
      (Stopped P) (firstRefill fuel : JournaledPull σ κ ρ Refill) := by
  have hstart : Ensures (fun s : Journaling σ κ ρ => Tracked P s.1.session s.2.journal ∧
      (∀ call out, .called s.1.session.number call out ∉ s.2.journal) ∧ s.1.started = true ∧
      s.1.eof = false) (fun _ => Feeding P) (Stopped P)
      (onSession Session.start : JournaledPull σ κ ρ Bytes) := by
    refine ensures_call hP .start (fun s hs => ?_) fun r env k w out hs h => ?_
    · exact ⟨hs.1, hs.1.current, fun _ => hs.2.1 _ _, nofun, fun _ _ => hs.2.1 _ _⟩
    · have hunended : env.journal.Unended r.session.number := fun _ => hs.2.1 _ _
      exact .of_phase h ⟨out, List.mem_cons_self⟩ (hunended.called nofun) hs.2.2.1 hs.2.2.2
  refine .bind (.modify fun s hs => ?_) fun _ => .bind hstart fun header => .get_bind fun s hs => ?_
  · obtain ⟨⟨htracked, hphase⟩, hstarted, heof⟩ := hs
    rw [hstarted, heof] at hphase
    cases hphase with
    | unbegun hnone => exact ⟨htracked, hnone, rfl, heof⟩
  · refine Ensures.ite _ (fun _ => ?_) (fun _ => .ite _ (fun _ => ?_) fun _ => ?_) s hs
    · exact (ensures_output header).mono (fun _ h => h.1) (fun _ _ h => h) fun _ _ h => h
    · refine .bind (ensures_assembled hP fuel []) fun plain => .get_bind fun t ht => ?_
      exact Ensures.ite _ (fun _ => ensures_lastOutput plain) (fun _ => ensures_output plain) t ht
    · exact ensures_laterRefill hP

theorem ensures_anyRefill : Ensures (Ordered P) (fun _ => Ordered P) (Stopped P)
    (refill fuel : JournaledPull σ κ ρ Refill) := by
  refine .bind (ensures_check fun _ h => h) fun _ => .get_bind fun s hs => ?_
  simp only [run_ite]
  split
  · exact hs
  · rename_i heof
    split
    · rename_i hstarted
      exact ensures_laterRefill hP s ⟨hs, hstarted, Bool.eq_false_iff.mpr heof⟩
    · rename_i hstarted
      exact ensures_startingRefill hP s
        ⟨hs, Bool.eq_false_iff.mpr hstarted, Bool.eq_false_iff.mpr heof⟩

/-- By induction on the refills that may still give nothing. -/
theorem ensures_refills : ∀ left : Nat, Ensures (Ordered P) (fun _ => Ordered P) (Stopped P)
    (refillLoop fuel left : JournaledPull σ κ ρ Bool)
  | 0 => by
    refine .bind (ensures_anyRefill hP) fun refill => ?_
    cases refill with
    | data => exact .pure fun _ h => h
    | done => exact .pure fun _ h => h
    | empty => exact .throw fun _ h => ⟨h.1, fun _ => h.2⟩
  | left + 1 => by
    refine .bind (ensures_anyRefill hP) fun refill => ?_
    cases refill with
    | data => exact .pure fun _ h => h
    | done => exact .pure fun _ h => h
    | empty => exact ensures_refills left

theorem ensures_filled : Ensures (Ordered P) (fun _ => Ordered P) (Stopped P)
    (fill fuel : JournaledPull σ κ ρ Bool) :=
  .get_bind fun s hs => Ensures.ite _ (fun _ => ensures_refills hP _) (fun _ => .pure fun _ h => h) s hs

/-! ## Uses -/

omit hP [Session κ σ] [Source σ ρ] in
/-- Storing what has to be stored puts no reader out of order. -/
theorem Stopped.poison {e : Error} {s : Journaling σ κ ρ} (h : Stopped P e s) :
    Standing P (poison e s.1, s.2) := by
  unfold CipherReader.poison
  cases hio : e.isIo with
  | true => exact ⟨h.1, fun _ => h.2 hio⟩
  | false => exact ⟨h.1, nofun⟩

omit hP [Session κ σ] [Source σ ρ] in
theorem keeps_checkUsable {I : State σ κ ρ → Prop} :
    Keeps I (checkUsable : Pull σ κ ρ Unit) := by
  intro s hs
  rw [run_checkUsable]
  cases verdict s <;> exact hs

theorem standing_readBytes (n : Nat) :
    Keeps (Standing P) (readBytes fuel n : JournaledPull σ κ ρ Bytes) := by
  intro s hs
  by_cases hu : Usable s
  · rw [readBytes_of_usable hu]
    split
    · exact hs
    · have hordered : Ordered P ({ s.1 with accessed := true }, s.2) := ⟨hs.1, hs.2 hu.failed⟩
      have hfill : Meets (fun _ => Ordered P) (Stopped P)
          ((fill fuel : JournaledPull σ κ ρ Bool) ({ s.1 with accessed := true }, s.2)) :=
        ensures_filled hP _ hordered
      unfold readFilled
      cases hrun : (fill fuel : JournaledPull σ κ ρ Bool) ({ s.1 with accessed := true }, s.2) with
      | error e t =>
        rw [hrun] at hfill
        exact Stopped.poison hfill
      | ok more t =>
        rw [hrun] at hfill
        cases more <;> exact ⟨hfill.1, fun _ => hfill.2⟩
  · obtain ⟨e, he⟩ := exists_failed_of_not_usable hu
    rw [readBytes_of_failed he]
    exact hs

theorem standing_use :
    ∀ use : Use, Keeps (Standing P) (use.run fuel : JournaledPull σ κ ρ Answer)
  | .read n => .bind (standing_readBytes hP n) fun _ => .pure _
  | .skip _ => .bind (.bind keeps_checkUsable fun _ => .bind .get fun _ =>
      .bind (.modify fun _ hs => hs) fun _ => .pure _) fun _ => .pure _
  | .available => .bind (.bind keeps_checkUsable fun _ => .bind .get fun _ => .pure _) fun _ => .pure _

omit hP in
/-- No use replaces the instance. -/
theorem number_use (number : Nat) (use : Use) :
    Keeps (fun s : Journaling σ κ ρ => s.1.session.number = number) (use.run fuel) := by
  refine keeps_use_of_parts (fun hs _ => hs) (fun call => ?_) ?_ use
  · intro s hs
    rw [run_onSession_journaled]
    cases (call.run : Step (κ × σ) Bytes) (s.1.session.session, s.2.world.world) <;> exact hs
  · exact keeps_readBlock fun n => keeps_onInner fun _ hs => hs

end

/-! ## Everything that happens to a reader -/

section

variable [Session κ σ] [Source σ ρ] [Seekable σ ρ] [Abortable σ ρ]

/-- Where a reader is after what happens to it. -/
def happens (fuel : Nat) (s : State σ κ ρ) : Happening Request σ → State σ κ ρ
  | .request request => reached (request.run fuel s)
  | .elsewhere env => (s.1, env)

/-- Enters that the instance of `s` was replaced, unless it is still the one of `t`. -/
def entered (s t : Journaling σ κ ρ) : Journaling σ κ ρ :=
  if t.1.session.number = s.1.session.number then t
  else (t.1, t.2.enter (.replaced s.1.session.number))

/-- Where it is in a world that keeps a journal, which is changed nowhere else. -/
def records (fuel : Nat) (s : Journaling σ κ ρ) : Happening Request σ → Journaling σ κ ρ
  | .request request => entered s (reached (request.run fuel s))
  | .elsewhere env => (s.1, env.journaled s.2.journal)

def recorded (fuel : Nat) (s : State σ κ ρ) (happenings : List (Happening Request σ)) :
    Journaling σ κ ρ :=
  happenings.foldl (records fuel) (journaled s)

variable {fuel : Nat}

omit [Session κ σ] [Source σ ρ] [Seekable σ ρ] [Abortable σ ρ] in
theorem unjournaled_entered (s t : Journaling σ κ ρ) : unjournaled (entered s t) = unjournaled t := by
  unfold entered
  split <;> rfl

theorem records_unjournaled (s : Journaling σ κ ρ) (happening : Happening Request σ) :
    happens fuel (unjournaled s) happening = unjournaled (records fuel s happening) := by
  cases happening with
  | request request =>
    simp only [happens, records, unjournaled_entered, request_unjournaled, reached_mapState]
  | elsewhere env => rfl

theorem records_reset (s : Journaling σ κ ρ) :
    records fuel s (.request .reset) = entered s (reached ((reset : JournaledPull σ κ ρ Unit) s)) :=
  congrArg (entered s) (reached_bind_pure reset (fun _ => none) s)

/-- Whatever happens to a reader happens to it alike without the journal. -/
theorem recorded_unjournaled (fuel : Nat) (s : State σ κ ρ) (happenings : List (Happening Request σ)) :
    happenings.foldl (happens fuel) s = unjournaled (recorded fuel s happenings) :=
  calc happenings.foldl (happens fuel) s
    _ = happenings.foldl (happens fuel) (unjournaled (journaled s)) := by rw [unjournaled_journaled]
    _ = unjournaled (recorded fuel s happenings) := List.foldl_hom unjournaled records_unjournaled

omit [Session κ σ] [Source σ ρ] [Seekable σ ρ] [Abortable σ ρ] in
theorem standing_entered {s t : Journaling σ κ ρ}
    (h : Standing P t ∧ t.1.session.number = s.1.session.number) : Standing P (entered s t) := by
  rw [entered, if_pos h.2]
  exact h.1

variable (hP : Session.NeverIo P)

include hP

omit [Source σ ρ] [Abortable σ ρ] in
/-- A reset that succeeds replaces the instance, and the journal says so. -/
theorem standing_reset {s t : Journaling σ κ ρ} (hs : Standing P s)
    (h : (reset : JournaledPull σ κ ρ Unit) s = .ok () t) :
    t.1.session = ⟨Session.restart s.1.session.session, s.1.session.number + 1⟩ ∧
      (entered s t).2.journal = .replaced s.1.session.number :: s.2.journal ∧
      Standing P (entered s t) := by
  obtain ⟨-, p, u, -, hseek, rfl⟩ := exists_of_reset h
  have hjournal := Observed.journal_run (Seekable.seek p : Transfer σ ρ Unit) (s.1.inner, s.2)
  have hu : u.2.journal = s.2.journal := by
    rw [show Observed.run (Seekable.seek p) (s.1.inner, s.2) = .ok () u from hseek] at hjournal
    exact hjournal
  have hentered : entered s (rewound { s.1 with inner := u.1 }, u.2) =
      (rewound { s.1 with inner := u.1 }, u.2.enter (.replaced s.1.session.number)) :=
    if_neg (Nat.succ_ne_self s.1.session.number)
  have hentry : (u.2.enter (.replaced s.1.session.number)).journal =
      .replaced s.1.session.number :: s.2.journal := congrArg _ hu
  have htracked := hs.1.replace (hP.restart hs.1.session)
  rw [hentered]
  refine ⟨rfl, hentry, ?_⟩
  unfold Standing
  rw [hentry]
  refine ⟨htracked, fun _ => .unbegun fun call out hmem => ?_⟩
  exact absurd (hs.1.called _ _ _ ((List.mem_cons.mp hmem).resolve_left nofun)) (Nat.lt_irrefl _)

/-- **Nothing that happens to a reader puts it out of order.** -/
theorem standing_records {s : Journaling σ κ ρ} (hs : Standing P s)
    (happening : Happening Request σ) : Standing P (records fuel s happening) := by
  have hsame {α : Type} (x : Transfer σ ρ α) : Keeps (fun t : Journaling σ κ ρ =>
      Standing P t ∧ t.1.session.number = s.1.session.number) (onInner (Observed.run x)) := by
    refine keeps_observed x fun r inner env env' h hs => ?_
    unfold Standing at hs ⊢
    simpa only [h] using hs
  cases happening with
  | elsewhere env => exact hs
  | request request =>
    cases request with
    | use use =>
      refine standing_entered ⟨?_, ?_⟩
      · exact Keeps.bind (standing_use hP use) (fun _ => .pure _) s hs
      · exact Keeps.bind (number_use _ use) (fun _ => .pure _) s rfl
    | mark =>
      refine standing_entered (Keeps.bind (keeps_setMark (hsame _) ?_) (fun _ => .pure _) s ⟨hs, rfl⟩)
      exact fun _ _ h => h
    | abort =>
      have hjournal : (Abortable.abort s).2.journal = s.2.journal := journal_abort s.1.abort s.2
      refine standing_entered ⟨?_, rfl⟩
      show Standing P (Abortable.abort s)
      unfold Standing
      rw [hjournal]
      exact hs
    | reset =>
      rw [records_reset]
      cases hrun : (reset : JournaledPull σ κ ρ Unit) s with
      | ok _ t => exact (standing_reset hP hs hrun).2.2
      | error e t =>
        rcases cases_of_reset_error hrun with rfl | ⟨p, e', u, -, hu, rfl⟩
        · exact standing_entered ⟨hs, rfl⟩
        · have ht := hsame (Seekable.seek p : Transfer σ ρ Unit) s ⟨hs, rfl⟩
          rw [run_onInner, show Observed.run (Seekable.seek p) (s.1.inner, s.2) = .error e' u from hu]
            at ht
          exact standing_entered ht

omit [Source σ ρ] [Seekable σ ρ] [Abortable σ ρ] hP in
/-- Closing finalizes the instance only if it was not, and has not failed for good. -/
theorem kept_close {s : Journaling σ κ ρ} (hs : Standing P s) :
    (reached ((close : JournaledPull σ κ ρ (Observed ρ)) s)).2.journal.Kept Journal.Unstarted := by
  rw [reached_close]
  show (finalized s).2.journal.Kept Journal.Unstarted
  unfold finalized
  split
  · exact hs.1.kept
  · rename_i hopen
    obtain ⟨heof, hfailed⟩ : s.1.eof = false ∧ s.1.failed = none := by simpa using hopen
    have hphase := hs.2 hfailed
    rw [heof] at hphase
    have hunended : s.2.journal.Unended s.1.session.number := by
      generalize s.1.started = started at hphase
      cases hphase with
      | unbegun hnone => exact fun _ => hnone _ _
      | underway _ hunended => exact hunended
    have hproper : Journal.Proper Journal.Unstarted s.1.session.number .finalize s.2.journal :=
      ⟨hs.1.current, hunended, nofun, nofun⟩
    obtain ⟨out, hout⟩ := Session.Call.journal_entered .finalize (s.1.session, s.2.world)
    show (reached (Session.Call.entered .finalize (s.1.session, s.2.world))).2.journal.Kept _
    rw [hout]
    exact hs.1.kept.called hproper

omit [Source σ ρ] [Seekable σ ρ] [Abortable σ ρ] [Session κ σ] hP in
/-- A reader that was not read is in order. -/
theorem standing_new {k : κ} (hk : P k) (inner : ρ) (blockSize : Nat) (abort : AbortHandle)
    (env : Env σ) : Standing P (journaled (new inner k blockSize abort, env)) :=
  ⟨⟨hk, Journal.kept_nil, nofun, nofun⟩, fun _ => .unbegun nofun⟩

theorem standing_recorded {s : State σ κ ρ} (hs : Standing P (journaled s))
    (happenings : List (Happening Request σ)) : Standing P (recorded fuel s happenings) :=
  List.foldlRecOn happenings _ hs fun _ ht happening _ => standing_records hP ht happening

end

end CipherReader

end SealedStream
