import SealedStream.Proofs.Session.HeaderFirst
import SealedStream.Proofs.Stream.Encrypt
import SealedStream.Proofs.Stream.Stuttering

/-!
# Ways of ending a stream

Whether a writer is closed, finished or dropped, and however its stream was cut and flushed before,
the sink ends up with what the session gives when it is started, fed the pieces that are not empty
and finalized, each once and in this order. `CipherWriter.Carries` is what every use of a writer
preserves, and `CipherWriter.ends_alike` says so of a session that does not fail over a sink that
stutters at most.
-/

namespace SealedStream

variable {σ κ ς : Type}

/-! ## Sessions in an environment that others move -/

namespace Session

variable [Session κ σ] {moves : Env σ → Env σ → Prop} {s t : κ × Env σ} {calls : List Call}
  {out : Bytes}

/-- The session gives `out` when the calls are made in turn, and gets from `s` to `t`. In between
others move the environment. -/
inductive Delivers (moves : Env σ → Env σ → Prop) (s : κ × Env σ) :
    List Call → Bytes → κ × Env σ → Prop
  | nothing : Delivers moves s [] [] s
  | moved {calls : List Call} {out : Bytes} {t : κ × Env σ} {env : Env σ} :
      Delivers moves s calls out t → Relation.ReflTransGen moves t.2 env →
        Delivers moves s calls out (t.1, env)
  | call {calls : List Call} {out : Bytes} {t : κ × Env σ} {call : Call} {o : Bytes} {u : κ × σ} :
      Delivers moves s calls out t → call.run (t.1, t.2.world) = .ok o u →
        Delivers moves s (calls ++ [call]) (out ++ o) (u.1, { t.2 with world := u.2 })

/-- None of the calls fails, whatever others make of the environment in between. -/
def Succeeds (moves : Env σ → Env σ → Prop) (s : κ × Env σ) (calls : List Call) : Prop :=
  ∀ done call rest out t, calls = done ++ call :: rest → Delivers moves s done out t →
    ∃ o u, call.run (t.1, t.2.world) = .ok o u

/-- If nobody else moves the environment, the session is alone with its world. -/
theorem Delivers.inTurn (h : Delivers Eq s calls out t) :
    inTurn Call.run calls (s.1, s.2.world) = .ok out (t.1, t.2.world) := by
  induction h with
  | nothing => rfl
  | moved _ hmoves ih =>
    rw [Relation.reflTransGen_eq_self] at hmoves
    rw [← hmoves]
    exact ih
  | call _ hcall ih =>
    refine inTurn_append_eq_ok.mpr ⟨_, _, _, ih, ?_, rfl⟩
    exact inTurn_cons_eq_ok.mpr ⟨_, _, [], hcall, rfl, (List.append_nil _).symm⟩

/-- Alone, the calls succeed if they do so in turn. -/
theorem succeeds_of_inTurn {u : κ × σ} (h : inTurn Call.run calls (s.1, s.2.world) = .ok out u) :
    Succeeds Eq s calls := by
  rintro done call rest out' t rfl hdone
  obtain ⟨o, t', more, ho, hmore, -⟩ := inTurn_append_eq_ok.mp h
  rw [hdone.inTurn] at ho
  cases ho
  obtain ⟨o', u', -, hcall, -⟩ := inTurn_cons_eq_ok.mp hmore
  exact ⟨o', u', hcall⟩

end Session

namespace CipherWriter

open Session

variable [Session κ σ] [Sink σ ς]

/-! ## What a caller does -/

/-- What a caller does with a writer before the stream ends. -/
inductive Use
  | write (bytes : Bytes)
  | flush

namespace Use

/-- How many bytes the use hands over. -/
def length : Use → Nat
  | .write bytes => bytes.length
  | .flush => 0

/-- What the use asks of the session, once this is started. -/
def calls : Use → List Call
  | .write bytes => Call.feeding bytes
  | .flush => []

/-- Uses the writer and says how many bytes it took. -/
def run (fuel : Nat) : Use → Transfer σ (CipherWriter κ ς) Nat
  | .write bytes => writeBytes fuel bytes
  | .flush => do
    CipherWriter.flush fuel
    return 0

end Use

/-! ## What every use preserves -/

/-- The calls were made of the session, and the sink holds what it gave, behind the bytes
`before`. -/
structure Carries (K : StutteringSink σ ς) (h : AbortHandle) (before : Bytes) (s₀ : κ × Env σ)
    (calls : List Call) (s : CipherWriter κ ς × Env σ) : Prop where
  works : K.works s.1.inner
  abort : s.1.abort = h
  quiet : h.isAborted s.2 = false
  delivered : ∃ out, Delivers K.moves s₀ calls out (s.1.session, s.2) ∧
    K.content s.1.inner = before ++ out

variable {K : StutteringSink σ ς} {h : AbortHandle} {before : Bytes} {s₀ : κ × Env σ}
  {calls : List Call} {s : CipherWriter κ ς × Env σ}

theorem Carries.run_checkAbort (hs : Carries K h before s₀ calls s) :
    (checkAbort : Push σ κ ς Unit) s = .ok () s := by
  obtain ⟨wr, env⟩ := s
  obtain rfl : wr.abort = h := hs.abort
  have hquiet : wr.abort.isAborted env = false := hs.quiet
  simp only [checkAbort, run_bind, run_get, run_check, AbortHandle.check, hquiet]
  rfl

/-- One call more, of which the sink takes what it gives. -/
theorem Carries.call (hspares : K.Spares h) (hs : Carries K h before s₀ calls s) {call : Call}
    {o : Bytes} {u : κ × σ} (hcall : call.run (s.1.session, s.2.world) = .ok o u) :
    ∃ inner env', ComesTo (Sink.writeAll · o) (s.1.inner, { s.2 with world := u.2 })
        (.ok () (inner, env')) ∧
      Carries K h before s₀ (calls ++ [call]) ({ s.1 with session := u.1, inner }, env') := by
  obtain ⟨out, hdelivers, hcontent⟩ := hs.delivered
  obtain ⟨inner, env', hwrite, hworks, hmoves, hcontent'⟩ :=
    Sink.writeAll_comesTo K o hs.works { s.2 with world := u.2 }
  refine ⟨inner, env', hwrite, hworks, hs.abort, ?_, out ++ o,
    (hdelivers.call hcall).moved hmoves, ?_⟩
  · refine hspares.moved hmoves ?_
    have hquiet := hs.quiet
    cases h <;> exact hquiet
  · rw [hcontent', hcontent, List.append_assoc]

theorem Carries.flush (hspares : K.Spares h) (hs : Carries K h before s₀ calls s) :
    ∃ inner env', ComesTo Sink.flush (s.1.inner, s.2) (.ok () (inner, env')) ∧
      Carries K h before s₀ calls ({ s.1 with inner }, env') := by
  obtain ⟨out, hdelivers, hcontent⟩ := hs.delivered
  obtain ⟨inner, env', hflush, hworks, hmoves, hcontent'⟩ := K.flush hs.works s.2
  exact ⟨inner, env', hflush, hworks, hs.abort, hspares _ _ hmoves hs.quiet, out,
    hdelivers.moved (.single hmoves), hcontent'.trans hcontent⟩

/-- A writer between two uses. Its session was started if it says so, and asked for the calls
then. -/
def Underway (K : StutteringSink σ ς) (h : AbortHandle) (before : Bytes) (s₀ : κ × Env σ)
    (asked : List Call) (s : CipherWriter κ ς × Env σ) : Prop :=
  (s.1.started = false ∧ asked = [] ∧ Carries K h before s₀ [] s) ∨
    (s.1.started = true ∧ Carries K h before s₀ (.start :: asked) s)

namespace Underway

variable {asked rest : List Call}

theorem closing (hs : Underway K h before s₀ asked s) :
    Underway K h before s₀ asked ({ s.1 with closed := true }, s.2) := by
  rcases hs with ⟨hst, hasked, hc⟩ | ⟨hst, hc⟩
  · exact .inl ⟨hst, hasked, hc.works, hc.abort, hc.quiet, hc.delivered⟩
  · exact .inr ⟨hst, hc.works, hc.abort, hc.quiet, hc.delivered⟩

theorem run_checkAbort (hs : Underway K h before s₀ asked s) :
    (checkAbort : Push σ κ ς Unit) s = .ok () s := by
  rcases hs with ⟨-, -, hc⟩ | ⟨-, hc⟩
  · exact hc.run_checkAbort
  · exact hc.run_checkAbort

variable (hspares : K.Spares h) (hs : Underway K h before s₀ asked s)

include hspares hs

theorem ensureStarted (hk : Succeeds K.moves s₀ (.start :: rest)) :
    ∃ t, ComesTo (ensureStarted : Nat → Push σ κ ς Unit) s (.ok () t) ∧ t.1.started = true ∧
      Carries K h before s₀ (.start :: asked) t ∧ t.1.closed = s.1.closed := by
  obtain ⟨wr, env⟩ := s
  rcases hs with ⟨hst, rfl, hc⟩ | ⟨hst, hc⟩
  · obtain ⟨out, hdelivers, -⟩ := hc.delivered
    obtain ⟨o, u, hcall⟩ := hk [] .start rest out _ rfl hdelivers
    obtain ⟨inner, env', ⟨enough, hwrite⟩, hc'⟩ := hc.call hspares hcall
    refine ⟨({ wr with session := u.1, inner, started := true }, env'),
      ⟨enough, fun fuel hfuel => ?_⟩, rfl, ⟨hc'.works, hc'.abort, hc'.quiet, hc'.delivered⟩, rfl⟩
    have hstart : (Session.start : Step (κ × σ) Bytes) (wr.session, env.world) = .ok o u := hcall
    have hst' : wr.started = false := hst
    simp only [CipherWriter.ensureStarted, run_bind, run_get, run_ite, hst', Bool.not_false,
      if_true, run_onSession, hstart, run_onInner, hwrite fuel hfuel, run_update]
  · refine ⟨(wr, env), .of_eq fun fuel => ?_, hst, hc, rfl⟩
    have hst' : wr.started = true := hst
    simp only [CipherWriter.ensureStarted, run_bind, run_get, run_ite, hst']
    rfl

/-- **A write takes its whole buffer**, and adds what the session makes of it. -/
theorem writeBytes (hopen : s.1.closed = false) {bytes : Bytes}
    (hk : Succeeds K.moves s₀ (.start :: (asked ++ (Call.feeding bytes ++ rest)))) :
    ∃ t, ComesTo (writeBytes · bytes : Nat → Transfer σ (CipherWriter κ ς) Nat) s
        (.ok bytes.length t) ∧
      Underway K h before s₀ (asked ++ Call.feeding bytes) t ∧ t.1.closed = false := by
  obtain ⟨t, ⟨enough, hstart⟩, hst, hc, hclosed⟩ := hs.ensureStarted hspares hk
  have hprepare (fuel : Nat) (hfuel : enough ≤ fuel) :
      (prepare fuel : Push σ κ ς Unit) s = .ok () t := by
    obtain ⟨wr, env⟩ := s
    have hopen' : wr.closed = false := hopen
    simp only [prepare, run_bind, hs.run_checkAbort, run_get, hopen', run_ite]
    exact hstart fuel hfuel
  obtain ⟨wr, env⟩ := t
  by_cases hbytes : bytes.isEmpty
  · -- nothing is fed, but the session was started
    obtain rfl := List.isEmpty_iff.mp hbytes
    refine ⟨(wr, env), ⟨enough, fun fuel hfuel => ?_⟩, ?_, hclosed.trans hopen⟩
    · simp only [CipherWriter.writeBytes, run_bind, run_carried, hprepare fuel hfuel]
      rfl
    · rw [Call.feeding, if_pos hbytes, List.append_nil]
      exact .inr ⟨hst, hc⟩
  · rw [Call.feeding, if_neg hbytes] at hk ⊢
    obtain ⟨out, hdelivers, -⟩ := hc.delivered
    obtain ⟨o, u, hcall⟩ := hk (.start :: asked) (.update bytes) rest out _ rfl hdelivers
    obtain ⟨inner, env', ⟨more, hwrite⟩, hc'⟩ := hc.call hspares hcall
    refine ⟨({ wr with session := u.1, inner }, env'), ⟨max enough more, fun fuel hfuel => ?_⟩,
      .inr ⟨hst, hc'⟩, hclosed.trans hopen⟩
    have hupdate : (Session.update bytes : Step (κ × σ) Bytes) (wr.session, env.world) = .ok o u :=
      hcall
    simp only [CipherWriter.writeBytes, run_bind, run_carried, hprepare fuel (by omega), run_ite,
      hbytes, run_onSession, hupdate, run_onSink, hwrite fuel (by omega), run_pure]
    rfl

theorem flush (hopen : s.1.closed = false) :
    ∃ t, ComesTo (CipherWriter.flush : Nat → Transfer σ (CipherWriter κ ς) Unit) s (.ok () t) ∧
      Underway K h before s₀ asked t ∧ t.1.closed = false := by
  have hcheck := hs.run_checkAbort
  obtain ⟨wr, env⟩ := s
  obtain ⟨inner, env', ⟨enough, hflush⟩, hs'⟩ : ∃ inner env',
      ComesTo Sink.flush (wr.inner, env) (.ok () (inner, env')) ∧
        Underway K h before s₀ asked ({ wr with inner }, env') := by
    rcases hs with ⟨hst, hasked, hc⟩ | ⟨hst, hc⟩
    · obtain ⟨inner, env', hflush, hc'⟩ := hc.flush hspares
      exact ⟨inner, env', hflush, .inl ⟨hst, hasked, hc'⟩⟩
    · obtain ⟨inner, env', hflush, hc'⟩ := hc.flush hspares
      exact ⟨inner, env', hflush, .inr ⟨hst, hc'⟩⟩
  refine ⟨({ wr with inner }, env'), ⟨enough, fun fuel hfuel => ?_⟩, hs', hopen⟩
  simp only [CipherWriter.flush, run_bind, run_carried, hcheck, run_onSink, hflush fuel hfuel]

/-- One use of the writer, by cases on what it is. -/
theorem use (hopen : s.1.closed = false) (use : Use)
    (hk : Succeeds K.moves s₀ (.start :: (asked ++ (use.calls ++ rest)))) :
    ∃ t, ComesTo (use.run : Nat → Transfer σ (CipherWriter κ ς) Nat) s (.ok use.length t) ∧
      Underway K h before s₀ (asked ++ use.calls) t ∧ t.1.closed = false := by
  cases use with
  | write bytes => exact hs.writeBytes hspares hopen hk
  | flush =>
    obtain ⟨t, hflush, hs', hopen'⟩ := hs.flush hspares hopen
    refine ⟨t, hflush.bind (.of_eq fun _ => rfl), ?_, hopen'⟩
    rw [Use.calls, List.append_nil]
    exact hs'

/-- By induction on the uses, each of which adds its own calls. -/
theorem uses (hopen : s.1.closed = false) (uses : List Use)
    (hk : Succeeds K.moves s₀ (.start :: (asked ++ (uses.flatMap Use.calls ++ rest)))) :
    ∃ t, ComesTo (fun fuel => (uses.mapM (Use.run fuel) :
        Transfer σ (CipherWriter κ ς) (List Nat))) s (.ok (uses.map Use.length) t) ∧
      Underway K h before s₀ (asked ++ uses.flatMap Use.calls) t ∧ t.1.closed = false := by
  induction uses generalizing s asked with
  | nil =>
    refine ⟨s, .of_eq fun fuel => by rw [List.mapM_nil]; rfl, ?_, hopen⟩
    rw [List.flatMap_nil, List.append_nil]
    exact hs
  | cons use uses ih =>
    rw [List.flatMap_cons, List.append_assoc] at hk
    obtain ⟨t, huse, hs', hopen'⟩ := hs.use hspares hopen use hk
    rw [← List.append_assoc] at hk
    obtain ⟨u, huses, hs'', hopen''⟩ := ih hs' hopen' hk
    refine ⟨u, ?_, ?_, hopen''⟩
    · simp only [List.mapM_cons]
      exact huse.bind (huses.bind (.of_eq fun _ => rfl))
    · rw [List.flatMap_cons, ← List.append_assoc]
      exact hs''

/-- **Ending the stream**, strictly or not, asks the session for its tail and hands this over. -/
theorem shutdown (hopen : s.1.closed = false)
    (hk : Succeeds K.moves s₀ (.start :: (asked ++ [.finalize]))) :
    ∃ t, (∀ strict, ComesTo (shutdown · strict : Nat → Push σ κ ς Unit) s (.ok () t)) ∧
      t.1.closed = true ∧ Carries K h before s₀ (.start :: (asked ++ [.finalize])) t := by
  -- a session that nothing was written through is started now
  obtain ⟨⟨wr, env⟩, ⟨n, hstart⟩, -, hc, hclosed⟩ := hs.closing.ensureStarted hspares hk
  obtain ⟨out, hdelivers, -⟩ := hc.delivered
  obtain ⟨o, u, hcall⟩ := hk (.start :: asked) .finalize [] out _ rfl hdelivers
  obtain ⟨inner, env₁, ⟨m, hwrite⟩, hc₁⟩ := hc.call hspares hcall
  obtain ⟨inner', env₂, ⟨l, hflush⟩, hc₂⟩ := hc₁.flush hspares
  have hfinalize : (Session.finalize : Step (κ × σ) Bytes) (wr.session, env.world) = .ok o u :=
    hcall
  refine ⟨({ wr with session := u.1, inner := inner' }, env₂),
    fun strict => ⟨max n (max m l), fun fuel hfuel => ?_⟩, hclosed, hc₂⟩
  have hcheck := hs.closing.run_checkAbort
  obtain ⟨wr₀, env₀⟩ := s
  have hopen' : wr₀.closed = false := hopen
  simp only [CipherWriter.shutdown, run_bind, run_get, run_ite, hopen', Bool.false_eq_true,
    if_false, run_update, hcheck, hstart fuel (by omega), writeTail, run_onSession, hfinalize,
    run_onInner, hwrite fuel (by omega), hflush fuel (by omega), hc₂.run_checkAbort]

end Underway

/-- A closed writer is left alone. -/
theorem drop_closed {s : CipherWriter κ ς × Env σ} (hclosed : s.1.closed = true) (fuel : Nat) :
    drop fuel s = s := by
  obtain ⟨wr, env⟩ := s
  have hclosed' : wr.closed = true := hclosed
  simp only [drop, shutdown, run_bind, run_get, run_ite, hclosed', if_true, run_pure]

/-- **A stream does not depend on how it ends.** Over a sink that stutters at most, and with an
abort flag that is not raised, let a session not fail when it is started, fed every buffer that is
not empty, and finalized. Then every write takes its whole buffer, and whether the writer is closed,
finished or dropped, the sink has got what the session gave in these calls and nothing else
(`Session.Delivers`, and `Session.Delivers.inTurn` if the sink leaves the environment alone). A
writer that was closed is not closed again when it is dropped. -/
theorem ends_alike (K : StutteringSink σ ς) (h : AbortHandle) (hspares : K.Spares h) (sink : ς)
    (hsink : K.works sink) (k : κ) (env : Env σ) (hquiet : h.isAborted env = false)
    (uses : List Use)
    (hk : Succeeds K.moves (k, env) (.start :: (uses.flatMap Use.calls ++ [.finalize]))) :
    ∃ (s t : CipherWriter κ ς × Env σ) (out : Bytes),
      ComesTo (fun fuel => (uses.mapM (Use.run fuel) : Transfer σ (CipherWriter κ ς) (List Nat)))
        ({ inner := sink, session := k, abort := h }, env) (.ok (uses.map Use.length) s) ∧
      ComesTo (close : Nat → Push σ κ ς Unit) s (.ok () t) ∧
      ComesTo (finish : Nat → Push σ κ ς Unit) s (.ok () t) ∧
      (∃ enough, ∀ fuel, enough ≤ fuel → drop fuel s = t ∧ drop fuel t = t) ∧
      Delivers K.moves (k, env) (.start :: (uses.flatMap Use.calls ++ [.finalize])) out
        (t.1.session, t.2) ∧
      K.content t.1.inner = K.content sink ++ out := by
  have hnew : Underway K h (K.content sink) (k, env) []
      ({ inner := sink, session := k, abort := h }, env) :=
    .inl ⟨rfl, rfl, hsink, rfl, hquiet, [], .nothing, (List.append_nil _).symm⟩
  obtain ⟨s, huses, hs, hopen⟩ := hnew.uses hspares rfl uses hk
  obtain ⟨t, hshutdown, hclosed, hc⟩ := hs.shutdown hspares hopen hk
  obtain ⟨out, hdelivers, hcontent⟩ := hc.delivered
  obtain ⟨enough, hloose⟩ := hshutdown false
  refine ⟨s, t, out, huses, hshutdown false, hshutdown true, ⟨enough, fun fuel hfuel => ⟨?_, ?_⟩⟩,
    hdelivers, hcontent⟩
  · simp only [drop, hloose fuel hfuel]
  · exact drop_closed hclosed fuel

section

open Scripted

/-- A sink that takes three bytes at a time and is interrupted in its first and third call. -/
def stutteringSink : ScriptedSink where
  chunk := some 3
  writeEvents := [(0, .fail (.plain .interrupted "")), (2, .fail (.plain .interrupted ""))]

/-- A stream in two pieces, with a flush before all and nothing written in between. -/
theorem ends_alike_stutteringSink :
    ∃ (s t : CipherWriter (FamilySession World HoldCipher) ScriptedSink × Env World),
      ComesTo (fun fuel =>
          ([.flush, .write [1], .write [], .flush, .write [2, 0]].mapM (Use.run fuel) :
            Transfer World (CipherWriter (FamilySession World HoldCipher) ScriptedSink) (List Nat)))
        ({ inner := stutteringSink, session := holdSession }, ⟨[], holdWorld []⟩)
        (.ok [0, 1, 0, 0, 2] s) ∧
      (∃ enough, ∀ fuel, enough ≤ fuel → drop fuel s = t) ∧
      t.1.inner.content = Header.encode ⟨7, [1, 1, 1, 1], [2, 2, 2, 2]⟩ ++ [3, 0, 2] := by
  have hrun : ∃ u, inTurn Call.run [.start, .update [1], .update [2, 0], .finalize]
      (holdSession, holdWorld []) =
        .ok (Header.encode ⟨7, [1, 1, 1, 1], [2, 2, 2, 2]⟩ ++ [3, 0, 2]) u :=
    eq_ok_of_given (by decide +kernel)
  obtain ⟨u, hrun⟩ := hrun
  have hk : Succeeds Eq (holdSession, (⟨[], holdWorld []⟩ : Env World))
      [.start, .update [1], .update [2, 0], .finalize] :=
    succeeds_of_inTurn (s := (holdSession, ⟨[], holdWorld []⟩)) hrun
  have hworks : ScriptedSink.stuttering (σ := World).works stutteringSink := by
    refine ⟨?_, rfl, by decide⟩
    rintro k event hmem
    simp only [stutteringSink, List.mem_cons, Prod.mk.injEq, List.not_mem_nil, or_false] at hmem
    rcases hmem with ⟨-, rfl⟩ | ⟨-, rfl⟩ <;> exact ⟨_, rfl, rfl⟩
  obtain ⟨s, t, out, huses, -, -, ⟨enough, hdrop⟩, hdelivers, hcontent⟩ :=
    ends_alike ScriptedSink.stuttering (.own false) (fun _ _ _ _ => rfl) stutteringSink hworks
      holdSession ⟨[], holdWorld []⟩ rfl
      [.flush, .write [1], .write [], .flush, .write [2, 0]] hk
  refine ⟨s, t, huses, ⟨enough, fun fuel hfuel => (hdrop fuel hfuel).1⟩, ?_⟩
  have hout := (EStateM.Result.ok.inj (hrun.symm.trans hdelivers.inTurn)).1
  exact hcontent.trans hout.symm

end

end CipherWriter

end SealedStream
