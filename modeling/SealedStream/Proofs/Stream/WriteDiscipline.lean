import SealedStream.Proofs.Stream.FailedStart
import SealedStream.Proofs.Stream.Journal

/-!
# How a writer calls its session

A writer does in a world that keeps a journal what it does without (`request_unjournaled`). As long as it
is open there is a phase that its flag and the journal agree in (`Phase`): before the header is written,
the session was not started, or could not be, or the sink has not taken all of the header. A writer
counts as closed from the first attempt on, and an attempt makes each call at most once
(`standing_records`).
-/

namespace SealedStream

variable {ε σ κ ς α : Type}

namespace CipherWriter

/-- What a caller asks of a writer. -/
inductive Request
  | write (bytes : Bytes)
  | flush
  | close
  | finish
  | drop
  | abort

/-- Where it leaves the writer, whether it succeeds or not. -/
def Request.run [Session κ σ] [Sink σ ς] [Abortable σ ς] (fuel : Nat) :
    Request → CipherWriter κ ς × Env σ → CipherWriter κ ς × Env σ
  | .write bytes, s => reached (writeBytes fuel bytes s)
  | .flush, s => reached (CipherWriter.flush fuel s)
  | .close, s => reached (CipherWriter.close fuel s)
  | .finish, s => reached (CipherWriter.finish fuel s)
  | .drop, s => CipherWriter.drop fuel s
  | .abort, s => Abortable.abort s

/-- A writer in a world that keeps a journal. -/
abbrev Journaling (σ κ ς : Type) :=
  CipherWriter (Numbered κ) (Observed ς) × Env (Journaled σ)

/-- A step of it. -/
abbrev JournaledPush (σ κ ς α : Type) := Push (Journaled σ) (Numbered κ) (Observed ς) α

/-- A transfer on it. -/
abbrev JournaledTransfer (σ κ ς α : Type) :=
  Transfer (Journaled σ) (CipherWriter (Numbered κ) (Observed ς)) α

/-- The writer without the journal. -/
def unjournaled (s : Journaling σ κ ς) : CipherWriter κ ς × Env σ :=
  ({ s.1 with session := s.1.session.session, inner := s.1.inner.it }, s.2.unjournaled)

/-- The writer with an empty journal. -/
def journaled (s : CipherWriter κ ς × Env σ) : Journaling σ κ ς :=
  ({ s.1 with session := ⟨s.1.session, 0⟩, inner := ⟨s.1.inner⟩ }, s.2.journaled [])

theorem unjournaled_journaled (s : CipherWriter κ ς × Env σ) : unjournaled (journaled s) = s := rfl

/-! ## The journal makes no difference -/

/-- Without the journal, `y` is what `x` does. -/
def Unaware (x : EStateM ε (Journaling σ κ ς) α) (y : EStateM ε (CipherWriter κ ς × Env σ) α) :
    Prop :=
  Alike (fun s t => t = unjournaled s) (fun _ _ => False) x y

namespace Unaware

theorem checkAbort : Unaware (checkAbort : JournaledPush σ κ ς Unit)
    (checkAbort : Push σ κ ς Unit) := by
  refine Alike.get_bind ?_
  rintro s _ rfl
  have hcheck : (unjournaled s).1.abort.check (unjournaled s).2 = s.1.abort.check s.2 :=
    check_unjournaled s.1.abort s.2
  simp only [hcheck]
  exact Alike.check _ s _ rfl

theorem onSink {x : Transfer (Journaled σ) (Observed ς) α} {y : Transfer σ ς α}
    (h : ∀ s, y (Observed.bare s) = mapState Observed.bare (x s)) :
    Unaware (onSink x : JournaledTransfer σ κ ς α)
      (onSink y : Transfer σ (CipherWriter κ ς) α) := by
  rintro ⟨wr, env⟩ _ rfl
  have hy : y (wr.inner.it, env.unjournaled) = mapState Observed.bare (x (wr.inner, env)) :=
    h (wr.inner, env)
  rw [run_onSink, unjournaled, run_onSink, hy]
  cases x (wr.inner, env) with
  | ok a t => exact .ok a rfl
  | error e t => exact .error e rfl

theorem onInner {x : Transfer (Journaled σ) (Observed ς) α} {y : Transfer σ ς α}
    (h : ∀ s, y (Observed.bare s) = mapState Observed.bare (x s)) :
    Unaware (onInner x : JournaledPush σ κ ς α) (onInner y : Push σ κ ς α) :=
  (onSink h).adaptExcept _ fun _ _ hfalse => hfalse

variable [Session κ σ]

theorem onSession (call : Session.Call) :
    Unaware (onSession call.run : JournaledPush σ κ ς Bytes)
      (onSession call.run : Push σ κ ς Bytes) := by
  rintro ⟨wr, env⟩ _ rfl
  rw [run_onSession, run_numbered, unjournaled, run_onSession]
  simp only [Session.Call.entered, Env.unjournaled]
  cases call.run (wr.session.session, env.world.world) with
  | ok out t => exact .ok out rfl
  | error e t => exact .error e rfl

variable [Sink σ ς] {fuel : Nat}

theorem ensureStarted :
    Unaware (ensureStarted fuel : JournaledPush σ κ ς Unit)
      (ensureStarted fuel : Push σ κ ς Unit) := by
  refine Alike.get_bind ?_
  rintro s _ rfl
  refine Alike.ite _ (.bind (onSession .start) fun header => ?_) (.pure _) s _ rfl
  refine .bind (onInner (Observed.bare_writeAllLoop fuel fuel header)) fun _ => .modify ?_
  rintro s _ rfl
  rfl

theorem prepare : Unaware (prepare fuel : JournaledPush σ κ ς Unit)
    (prepare fuel : Push σ κ ς Unit) := by
  refine Alike.bind checkAbort fun _ => .get_bind ?_
  rintro s _ rfl
  exact Alike.ite _ (.bind (.throw _) fun _ => ensureStarted) ensureStarted s _ rfl

theorem writeBytes (bytes : Bytes) :
    Unaware (writeBytes fuel bytes : JournaledTransfer σ κ ς Nat)
      (writeBytes fuel bytes : Transfer σ (CipherWriter κ ς) Nat) := by
  refine Alike.bind (prepare.adaptExcept _ fun _ _ => id) fun _ => .ite _ (.pure _) ?_
  refine .bind ((onSession (.update bytes)).adaptExcept _ fun _ _ => id) fun out => ?_
  exact .bind (onSink (Observed.bare_writeAllLoop fuel fuel out)) fun _ => .pure _

omit [Session κ σ] in
theorem flush :
    Unaware (flush fuel : JournaledTransfer σ κ ς Unit)
      (flush fuel : Transfer σ (CipherWriter κ ς) Unit) :=
  .bind (checkAbort.adaptExcept _ fun _ _ => id) fun _ => onSink (Observed.bare_run (Sink.flush fuel))

theorem writeTail (strict : Bool) :
    Unaware (writeTail fuel strict : JournaledPush σ κ ς Unit)
      (writeTail fuel strict : Push σ κ ς Unit) := by
  intro s t hst
  have hcall := onSession .finalize s t hst
  unfold CipherWriter.writeTail
  simp only [Session.Call.run] at hcall
  generalize (CipherWriter.onSession Session.finalize : JournaledPush σ κ ς Bytes) s = p,
    (CipherWriter.onSession Session.finalize : Push σ κ ς Bytes) t = q at hcall
  cases hcall with
  | ok tail h => exact onInner (Observed.bare_writeAllLoop fuel fuel tail) _ _ h
  | error e h =>
    cases strict with
    | true => exact .error e h
    | false => exact .ok _ h
  | cut _ hfalse => exact hfalse.elim

theorem shutdown (strict : Bool) :
    Unaware (shutdown fuel strict : JournaledPush σ κ ς Unit)
      (shutdown fuel strict : Push σ κ ς Unit) := by
  refine Alike.get_bind ?_
  rintro s _ rfl
  refine Alike.ite _ (.pure _) (.bind (.modify ?_) fun _ => .bind checkAbort fun _ =>
    .bind ensureStarted fun _ => .bind (writeTail strict) fun _ =>
      .bind (onInner (Observed.bare_run (Sink.flush fuel))) fun _ => checkAbort) s _ rfl
  rintro s _ rfl
  rfl

end Unaware

section

variable [Session κ σ] [Sink σ ς] [Abortable σ ς] {fuel : Nat}

/-- What is asked of a writer is asked alike without the journal. -/
theorem request_unjournaled (request : Request) (s : Journaling σ κ ς) :
    request.run fuel (unjournaled s) = unjournaled (request.run fuel s) := by
  have hreached {ε α : Type} {x : EStateM ε (Journaling σ κ ς) α}
      {y : EStateM ε (CipherWriter κ ς × Env σ) α} (h : Unaware x y) :
      reached (y (unjournaled s)) = unjournaled (reached (x s)) := by
    rw [h.eq_mapState s, reached_mapState]
  cases request with
  | write bytes => exact hreached (.writeBytes bytes)
  | flush => exact hreached .flush
  | close => exact hreached (.shutdown false)
  | finish => exact hreached (.shutdown true)
  | drop =>
    simp only [Request.run, drop_eq]
    exact hreached (.shutdown false)
  | abort =>
    simp only [Request.run, Abortable.abort, unjournaled, abort_unjournaled]
    rfl

end

/-! ## The instance and its calls -/

variable {number : Nat} {journal : Journal} {call : Session.Call} {out : Option Bytes}

/-- What the journal says of the instance, which is the only one. -/
structure Tracked (number : Nat) (journal : Journal) : Prop where
  kept : journal.Kept Journal.Unsettled
  current : .replaced number ∉ journal

theorem Tracked.step (h : Tracked number journal)
    (hcall : Journal.Proper Journal.Unsettled number call journal) :
    Tracked number (.called number call out :: journal) where
  kept := h.kept.called hcall
  current hmem := h.current ((List.mem_cons.mp hmem).resolve_left nofun)

theorem Tracked.takes {later : Journal} {total : Nat} (h : Tracked number journal)
    (htakes : journal.Takes total later) : Tracked number later where
  kept := h.kept.takes htakes
  current hmem := h.current ((htakes.mem_iff (by rintro _ ⟨⟩)).mp hmem)

/-- How far the instance is: what the flag `started` of an open writer and the journal agree in. -/
inductive Phase (number : Nat) (journal : Journal) : (started : Bool) → Prop
  | unbegun : journal.Unended number → journal.Unsettled number → Phase number journal false
  | underway : journal.Begun number → journal.Unended number → Phase number journal true

/-- A writer that may still write, and so far counts as closed or not. -/
structure Ordered (closed : Bool) (s : Journaling σ κ ς) : Prop where
  tracked : Tracked s.1.session.number s.2.journal
  phase : Phase s.1.session.number s.2.journal s.1.started
  closed : s.1.closed = closed

/-- A writer that may still write unless it is closed. -/
structure Standing (s : Journaling σ κ ς) : Prop where
  tracked : Tracked s.1.session.number s.2.journal
  phase : s.1.closed = false → Phase s.1.session.number s.2.journal s.1.started

/-- A writer that counts as closed and makes no more calls. -/
structure Closed (s : Journaling σ κ ς) : Prop where
  tracked : Tracked s.1.session.number s.2.journal
  closed : s.1.closed = true

theorem Ordered.standing {closed : Bool} {s : Journaling σ κ ς} (h : Ordered closed s) : Standing s :=
  ⟨h.tracked, fun _ => h.phase⟩

theorem Closed.standing {s : Journaling σ κ ς} (h : Closed s) : Standing s :=
  ⟨h.tracked, fun hopen => absurd (h.closed.symm.trans hopen) nofun⟩

theorem Ordered.closes {s : Journaling σ κ ς} (h : Ordered true s) : Closed s := ⟨h.tracked, h.closed⟩

theorem run_onSession_journaled [Session κ σ] (call : Session.Call) (s : Journaling σ κ ς) :
    (onSession call.run : JournaledPush σ κ ς Bytes) s =
      match call.run (s.1.session.session, s.2.world.world) with
      | .ok out t => .ok out ({ s.1 with session := ⟨t.1, s.1.session.number⟩ },
          ⟨s.2.raised, t.2, .called s.1.session.number call (some out) :: s.2.journal⟩)
      | .error e t => .error e ({ s.1 with session := ⟨t.1, s.1.session.number⟩ },
          ⟨s.2.raised, t.2, .called s.1.session.number call none :: s.2.journal⟩) := by
  obtain ⟨wr, env⟩ := s
  rw [run_onSession, run_numbered]
  simp only [Session.Call.entered]
  cases call.run (wr.session.session, env.world.world) <;> rfl

/-- A call changes nothing of the writer but the session, and is entered with what it gave. -/
theorem ensures_call [Session κ σ] (call : Session.Call) {I : Journaling σ κ ς → Prop}
    {K : Bytes → Journaling σ κ ς → Prop} {Q : Journaling σ κ ς → Prop}
    (hok : ∀ wr env k w out, I (wr, env) → K out ({ wr with session := ⟨k, wr.session.number⟩ },
      ⟨env.raised, w, .called wr.session.number call (some out) :: env.journal⟩))
    (herror : ∀ wr env k w, I (wr, env) → Q ({ wr with session := ⟨k, wr.session.number⟩ },
      ⟨env.raised, w, .called wr.session.number call none :: env.journal⟩)) :
    Ensures I K (fun _ => Q) (onSession call.run : JournaledPush σ κ ς Bytes) := by
  rintro ⟨wr, env⟩ hs
  rw [run_onSession_journaled]
  cases (call.run : Step (κ × σ) Bytes) (wr.session.session, env.world.world) with
  | ok out t => exact hok wr env t.1 t.2 out hs
  | error e t => exact herror wr env t.1 t.2 hs

/-- Writing changes nothing of the writer but the sink, and if it fails, the sink has not taken all. -/
theorem ensures_writeAll [Sink σ ς] (fuel : Nat) (bytes : Bytes) {I J Q : Journaling σ κ ς → Prop}
    (hok : ∀ wr env inner env' total, I (wr, env) → env.journal.Takes total env'.journal →
      J ({ wr with inner }, env'))
    (herror : ∀ wr env inner env' total, I (wr, env) → env.journal.Takes total env'.journal →
      total < bytes.length → Q ({ wr with inner }, env')) :
    Ensures I (fun _ => J) (fun _ => Q)
      (onSink (Sink.writeAll fuel bytes) : JournaledTransfer σ κ ς Unit) := by
  rintro ⟨wr, env⟩ hs
  have hjournal := Observed.journal_writeAllLoop fuel fuel bytes (wr.inner, env)
  rw [run_onSink, Sink.writeAll]
  cases hrun : (Sink.writeAllLoop fuel fuel bytes : Transfer (Journaled σ) (Observed ς) Unit)
      (wr.inner, env) with
  | ok _ t =>
    rw [hrun] at hjournal
    obtain ⟨total, ht⟩ := hjournal
    exact hok wr env t.1 t.2 total hs ht
  | error e t =>
    rw [hrun] at hjournal
    obtain ⟨total, hlt, ht⟩ := hjournal
    exact herror wr env t.1 t.2 total hs ht hlt

theorem ensures_checkAbort {I : Journaling σ κ ς → Prop} :
    Ensures I (fun _ => I) (fun _ => I) (checkAbort : JournaledPush σ κ ς Unit) :=
  (Keeps.bind .get fun _ => .check _).ensures

/-- Nothing is entered of what a sink does other than to take bytes. -/
theorem keeps_observed {I : Journaling σ κ ς → Prop} (x : Transfer σ ς α)
    (hI : ∀ wr inner env env', env'.journal = env.journal → I (wr, env) → I ({ wr with inner }, env')) :
    Keeps I (onSink (Observed.run x) : JournaledTransfer σ κ ς α) := by
  rintro ⟨wr, env⟩ hs
  have hjournal := Observed.journal_run x (wr.inner, env)
  rw [run_onSink]
  cases hrun : Observed.run x (wr.inner, env) with
  | ok a t =>
    rw [hrun] at hjournal
    exact hI wr t.1 env t.2 hjournal hs
  | error e t =>
    rw [hrun] at hjournal
    exact hI wr t.1 env t.2 hjournal hs

/-! ## The header -/

variable {closed : Bool}

/-- The session was started, and the header is still to be written. -/
structure Beginning (closed : Bool) (header : Bytes) (s : Journaling σ κ ς) : Prop where
  tracked : Tracked s.1.session.number s.2.journal
  unended : s.2.journal.Unended s.1.session.number
  latest : ∃ earlier, s.2.journal = .called s.1.session.number .start (some header) :: earlier
  started : s.1.started = false
  closed : s.1.closed = closed

/-- The header is written. -/
structure Headed (closed : Bool) (s : Journaling σ κ ς) : Prop where
  tracked : Tracked s.1.session.number s.2.journal
  begun : s.2.journal.Begun s.1.session.number
  unended : s.2.journal.Unended s.1.session.number
  closed : s.1.closed = closed

/-- A writer that feeds its session. -/
def Feeding (closed : Bool) (s : Journaling σ κ ς) : Prop := Headed closed s ∧ s.1.started = true

theorem Feeding.ordered {s : Journaling σ κ ς} (h : Feeding closed s) : Ordered closed s := by
  refine ⟨h.1.tracked, ?_, h.1.closed⟩
  rw [h.2]
  exact .underway h.1.begun h.1.unended

theorem Ordered.feeding {s : Journaling σ κ ς} (h : Ordered closed s) (hstarted : s.1.started = true) :
    Feeding closed s := by
  have hphase := h.phase
  rw [hstarted] at hphase
  cases hphase with
  | underway hbegun hunended => exact ⟨⟨h.tracked, hbegun, hunended, h.closed⟩, hstarted⟩

theorem Ordered.unbegun {s : Journaling σ κ ς} (h : Ordered closed s) (hstarted : s.1.started = false) :
    s.2.journal.Unended s.1.session.number ∧ s.2.journal.Unsettled s.1.session.number := by
  have hphase := h.phase
  rw [hstarted] at hphase
  cases hphase with
  | unbegun hunended hunsettled => exact ⟨hunended, hunsettled⟩

theorem ensures_begin [Session κ σ] :
    Ensures (fun s => Ordered closed s ∧ s.1.started = false) (Beginning closed)
      (fun _ => Ordered closed)
      (onSession Session.start : JournaledPush σ κ ς Bytes) := by
  have hproper {s : Journaling σ κ ς} (hs : Ordered closed s ∧ s.1.started = false) :
      Journal.Proper Journal.Unsettled s.1.session.number .start s.2.journal :=
    ⟨hs.1.tracked.current, (hs.1.unbegun hs.2).1, nofun, fun _ => (hs.1.unbegun hs.2).2⟩
  refine ensures_call .start (fun wr env k w header hs => ?_) fun wr env k w hs => ?_
  · exact ⟨hs.1.tracked.step (hproper hs), (hs.1.unbegun hs.2).1.called nofun, ⟨_, rfl⟩, hs.2,
      hs.1.closed⟩
  · refine ⟨hs.1.tracked.step (hproper hs), ?_, hs.1.closed⟩
    show Phase _ _ wr.started
    rw [show wr.started = false from hs.2]
    exact .unbegun ((hs.1.unbegun hs.2).1.called nofun) Journal.unsettled_failed

/-- If the header cannot be written, the sink has not taken all of it. -/
theorem ensures_header [Sink σ ς] (fuel : Nat) (header : Bytes) :
    Ensures (Beginning closed header) (fun _ => Headed closed) (fun _ => Ordered closed)
      (onInner (Sink.writeAll fuel header) : JournaledPush σ κ ς Unit) := by
  refine .adaptExcept (ensures_writeAll fuel header (fun wr env inner env' total hs h => ?_)
    fun wr env inner env' total hs h hlt => ?_)
  · obtain ⟨earlier, hlatest⟩ := hs.latest
    have hbegun : env.journal.Begun wr.session.number := by
      rw [show env.journal = _ from hlatest]
      exact ⟨header, List.mem_cons_self⟩
    exact ⟨hs.tracked.takes h, hbegun.takes h, hs.unended.takes h, hs.closed⟩
  · obtain ⟨earlier, hlatest⟩ := hs.latest
    refine ⟨hs.tracked.takes h, ?_, hs.closed⟩
    have hunended : env'.journal.Unended wr.session.number := hs.unended.takes h
    rw [show env.journal = _ from hlatest] at h
    show Phase _ _ wr.started
    rw [show wr.started = false from hs.started]
    exact .unbegun hunended (h.unsettled hlt)

section

variable [Session κ σ] [Sink σ ς] {fuel : Nat}

theorem ensures_ensureStarted :
    Ensures (Ordered closed) (fun _ => Feeding closed) (fun _ => Ordered closed)
      (ensureStarted fuel : JournaledPush σ κ ς Unit) := by
  refine .get_bind fun s hs => ?_
  cases hstarted : s.1.started with
  | true =>
    simp only [hstarted, Bool.not_true, Bool.false_eq_true, if_false]
    exact hs.feeding hstarted
  | false =>
    simp only [hstarted, Bool.not_false, if_true]
    refine Ensures.bind ensures_begin (fun header => .bind (ensures_header fuel header) fun _ => ?_) s
      ⟨hs, hstarted⟩
    exact .modify fun t ht => ⟨⟨ht.tracked, ht.begun, ht.unended, ht.closed⟩, rfl⟩

/-! ## One write -/

theorem ensures_prepare :
    Ensures Standing (fun _ => Feeding false) (fun _ => Standing)
      (prepare fuel : JournaledPush σ κ ς Unit) := by
  refine .bind ensures_checkAbort fun _ => .get_bind fun s hs => ?_
  cases hclosed : s.1.closed with
  | true =>
    simp only [hclosed, if_true]
    exact hs
  | false =>
    simp only [hclosed, Bool.false_eq_true, if_false]
    exact (ensures_ensureStarted s ⟨hs.tracked, hs.phase hclosed, hclosed⟩).mono (fun _ _ h => h)
      fun _ _ h => h.standing

omit [Sink σ ς] in
theorem ensures_update (bytes : Bytes) :
    Ensures (Feeding closed) (fun _ => Feeding closed) (fun _ => Feeding closed)
      (onSession (Session.update bytes) : JournaledPush σ κ ς Bytes) := by
  have hstep {wr : CipherWriter (Numbered κ) (Observed ς)} {env : Env (Journaled σ)} (k : κ) (w : σ)
      (out : Option Bytes) (hs : Feeding closed (wr, env)) :
      Feeding closed ({ wr with session := ⟨k, wr.session.number⟩ },
        ⟨env.raised, w, .called wr.session.number (.update bytes) out :: env.journal⟩) := by
    obtain ⟨hs, hstarted⟩ := hs
    have hproper : Journal.Proper Journal.Unsettled wr.session.number (.update bytes) env.journal :=
      ⟨hs.tracked.current, hs.unended, fun _ _ => hs.begun, nofun⟩
    exact ⟨⟨hs.tracked.step hproper, hs.begun.cons _, hs.unended.called nofun, hs.closed⟩, hstarted⟩
  exact ensures_call (.update bytes) (fun _ _ k w out hs => hstep k w (some out) hs)
    fun _ _ k w hs => hstep k w none hs

omit [Session κ σ] in
theorem ensures_writeOut (bytes : Bytes) :
    Ensures (Feeding closed) (fun _ => Feeding closed) (fun _ => Feeding closed)
      (onSink (Sink.writeAll fuel bytes) : JournaledTransfer σ κ ς Unit) := by
  have hstep {wr : CipherWriter (Numbered κ) (Observed ς)} {env env' : Env (Journaled σ)}
      {total : Nat} (inner : Observed ς) (hs : Feeding closed (wr, env))
      (h : env.journal.Takes total env'.journal) : Feeding closed ({ wr with inner }, env') := by
    obtain ⟨hs, hstarted⟩ := hs
    exact ⟨⟨hs.tracked.takes h, hs.begun.takes h, hs.unended.takes h, hs.closed⟩, hstarted⟩
  exact ensures_writeAll fuel bytes (fun _ _ inner _ _ hs h => hstep inner hs h)
    fun _ _ inner _ _ hs h _ => hstep inner hs h

theorem standing_writeBytes (bytes : Bytes) :
    Keeps Standing (writeBytes fuel bytes : JournaledTransfer σ κ ς Nat) := by
  have hfeed : Ensures (Feeding false) (fun _ => Standing) (fun _ => Standing) (do
      let out ← carried (onSession (Session.update bytes))
      onSink (Sink.writeAll fuel out)
      return bytes.length : JournaledTransfer σ κ ς Nat) :=
    .mono (J := fun _ => Feeding false) (.bind (.adaptExcept (ensures_update bytes)) fun out =>
        .bind (ensures_writeOut out) fun _ => .pure fun _ h => h)
      (fun _ h => h) (fun _ _ h => h.ordered.standing) fun _ _ h => h.ordered.standing
  refine Ensures.keeps (.bind (.adaptExcept ensures_prepare) fun _ => .ite _ (fun _ => ?_) fun _ => hfeed)
  exact .pure fun _ h => h.ordered.standing

omit [Session κ σ] in
theorem standing_flush : Keeps Standing (flush fuel : JournaledTransfer σ κ ς Unit) := by
  refine .bind (Keeps.adaptExcept (.bind .get fun _ => .check _) _) fun _ => ?_
  refine keeps_observed (Sink.flush fuel) fun wr inner env env' h hs => ?_
  exact ⟨h ▸ hs.tracked, fun hopen => h ▸ hs.phase hopen⟩

/-! ## Closing -/

theorem ensures_writeTail (strict : Bool) :
    Ensures (Feeding true) (fun _ => Closed) (fun _ => Closed)
      (writeTail fuel strict : JournaledPush σ κ ς Unit) := by
  have hproper {wr : CipherWriter (Numbered κ) (Observed ς)} {env : Env (Journaled σ)}
      (hs : Feeding true (wr, env)) :
      Journal.Proper Journal.Unsettled wr.session.number .finalize env.journal :=
    ⟨hs.1.tracked.current, hs.1.unended, nofun, nofun⟩
  have hcall : Ensures (Feeding true) (fun _ => Closed) (fun _ => Closed)
      (onSession Session.finalize : JournaledPush σ κ ς Bytes) :=
    ensures_call .finalize (fun _ _ _ _ _ hs => ⟨hs.1.tracked.step (hproper hs), hs.1.closed⟩)
      fun _ _ _ _ hs => ⟨hs.1.tracked.step (hproper hs), hs.1.closed⟩
  intro s hs
  have hs' := hcall s hs
  unfold writeTail
  cases hrun : (onSession Session.finalize : JournaledPush σ κ ς Bytes) s with
  | error e t =>
    rw [hrun] at hs'
    cases strict <;> exact hs'
  | ok tail t =>
    rw [hrun] at hs'
    have hwrite : Ensures Closed (fun _ => Closed) (fun _ => Closed)
        (onSink (Sink.writeAll fuel tail) : JournaledTransfer σ κ ς Unit) :=
      ensures_writeAll fuel tail (fun _ _ _ _ _ h htakes => ⟨h.tracked.takes htakes, h.closed⟩)
        fun _ _ _ _ _ h htakes _ => ⟨h.tracked.takes htakes, h.closed⟩
    exact Ensures.adaptExcept hwrite t hs'

/-- An open writer that is closed counts as such from now on, whatever comes of it. -/
theorem standing_shutdown (strict : Bool) :
    Keeps Standing (shutdown fuel strict : JournaledPush σ κ ς Unit) := by
  have hflush : Keeps Closed (onInner (Sink.flush fuel) : JournaledPush σ κ ς Unit) :=
    (keeps_observed (Sink.flush fuel) fun _ _ _ _ h hs => ⟨h ▸ hs.tracked, hs.closed⟩).adaptExcept _
  have hclose : Ensures (Ordered true) (fun _ => Closed) (fun _ => Closed) (do
      checkAbort
      ensureStarted fuel
      writeTail fuel strict
      onInner (Sink.flush fuel)
      checkAbort : JournaledPush σ κ ς Unit) :=
    .bind (.mono ensures_checkAbort (fun _ h => h) (fun _ _ h => h) fun _ _ h => h.closes) fun _ =>
      .bind (.mono ensures_ensureStarted (fun _ h => h) (fun _ _ h => h) fun _ _ h => h.closes) fun _ =>
        .bind (ensures_writeTail strict) fun _ => .bind hflush.ensures fun _ => ensures_checkAbort
  intro s hs
  cases hclosed : s.1.closed with
  | true =>
    simp only [shutdown, run_bind, run_get, run_ite, hclosed, if_true, run_pure]
    exact hs
  | false =>
    rw [shutdown_eq fuel s.1 hclosed]
    exact (hclose ({ s.1 with closed := true }, s.2)
      ⟨hs.tracked, hs.phase hclosed, rfl⟩).reached.standing

end

/-! ## Everything that happens to a writer -/

section

variable [Session κ σ] [Sink σ ς] [Abortable σ ς]

/-- Where a writer is after what happens to it. -/
def happens (fuel : Nat) (s : CipherWriter κ ς × Env σ) :
    Happening Request σ → CipherWriter κ ς × Env σ
  | .request request => request.run fuel s
  | .elsewhere env => (s.1, env)

/-- Where it is in a world that keeps a journal, which is changed nowhere else. -/
def records (fuel : Nat) (s : Journaling σ κ ς) : Happening Request σ → Journaling σ κ ς
  | .request request => request.run fuel s
  | .elsewhere env => (s.1, env.journaled s.2.journal)

def recorded (fuel : Nat) (s : CipherWriter κ ς × Env σ)
    (happenings : List (Happening Request σ)) : Journaling σ κ ς :=
  happenings.foldl (records fuel) (journaled s)

variable {fuel : Nat}

theorem records_unjournaled (s : Journaling σ κ ς) (happening : Happening Request σ) :
    happens fuel (unjournaled s) happening = unjournaled (records fuel s happening) := by
  cases happening with
  | request request => exact request_unjournaled request s
  | elsewhere env => rfl

/-- Whatever happens to a writer happens to it alike without the journal. -/
theorem recorded_unjournaled (fuel : Nat) (s : CipherWriter κ ς × Env σ)
    (happenings : List (Happening Request σ)) :
    happenings.foldl (happens fuel) s = unjournaled (recorded fuel s happenings) :=
  calc happenings.foldl (happens fuel) s
    _ = happenings.foldl (happens fuel) (unjournaled (journaled s)) := by rw [unjournaled_journaled]
    _ = unjournaled (recorded fuel s happenings) := List.foldl_hom unjournaled records_unjournaled

/-- **Nothing that happens to a writer puts it out of order.** -/
theorem standing_records {s : Journaling σ κ ς} (hs : Standing s) (happening : Happening Request σ) :
    Standing (records fuel s happening) := by
  cases happening with
  | elsewhere env => exact ⟨hs.tracked, hs.phase⟩
  | request request =>
    cases request with
    | write bytes => exact standing_writeBytes bytes s hs
    | flush => exact standing_flush s hs
    | close => exact standing_shutdown false s hs
    | finish => exact standing_shutdown true s hs
    | drop =>
      show Standing (drop fuel s)
      rw [drop_eq]
      exact standing_shutdown false s hs
    | abort =>
      have hjournal : (Abortable.abort s).2.journal = s.2.journal := journal_abort s.1.abort s.2
      exact ⟨hjournal ▸ hs.tracked, fun hopen => hjournal ▸ hs.phase hopen⟩

omit [Session κ σ] [Sink σ ς] [Abortable σ ς] in
/-- A writer that was not written to is in order. -/
theorem standing_new (inner : ς) (session : κ) (abort : AbortHandle) (env : Env σ) :
    Standing (journaled ({ inner, session, abort }, env)) :=
  ⟨⟨Journal.kept_nil, nofun⟩, fun _ => .unbegun nofun nofun⟩

theorem standing_recorded {s : CipherWriter κ ς × Env σ} (hs : Standing (journaled s))
    (happenings : List (Happening Request σ)) : Standing (recorded fuel s happenings) :=
  List.foldlRecOn happenings _ hs fun _ ht happening _ => standing_records ht happening

end

end CipherWriter

end SealedStream
