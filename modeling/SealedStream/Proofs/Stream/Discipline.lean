import SealedStream.Proofs.Stream.ReadDiscipline
import SealedStream.Proofs.Stream.Unmistaken
import SealedStream.Proofs.Stream.WriteDiscipline

/-!
# The discipline of the calls

Whatever happens to a reader or a writer, it calls its session properly (`calls_disciplined`): no
instance is fed before it was started, finalized twice, or called at all once it was finalized or
replaced. A reader starts each instance once; a writer starts its own again only as long as the header
has not reached the sink.
-/

namespace SealedStream

variable {σ κ ρ ς : Type}

/-- How a reader stands by the journal after what happened to it. -/
structure CipherReader.Disciplined [Session κ σ] [Source σ ρ] [Seekable σ ρ] [Abortable σ ρ]
    (fuel : Nat) (s : State σ κ ρ) (happenings : List (Happening Request σ)) : Prop where
  /-- Without the journal it is the reader to which all that happened. -/
  faithful : happenings.foldl (happens fuel) s = unjournaled (recorded fuel s happenings)
  kept : (recorded fuel s happenings).2.journal.Kept Journal.Unstarted
  /-- A reset that succeeds goes on with the instance started over, and the old one is replaced. -/
  reset : ∀ t, (CipherReader.reset : JournaledPull σ κ ρ Unit)
      (recorded fuel s happenings) = .ok () t →
    t.1.session = Session.restart (recorded fuel s happenings).1.session ∧
      (records fuel (recorded fuel s happenings) (.request .reset)).2.journal =
        .replaced (recorded fuel s happenings).1.session.number ::
          (recorded fuel s happenings).2.journal
  /-- This is also so of closing it. -/
  closed : reached ((close : Pull σ κ ρ ρ) (happenings.foldl (happens fuel) s)) =
      unjournaled (reached ((close : JournaledPull σ κ ρ (Observed ρ))
        (recorded fuel s happenings))) ∧
    (reached ((close : JournaledPull σ κ ρ (Observed ρ))
      (recorded fuel s happenings))).2.journal.Kept Journal.Unstarted

/-- How a writer stands by the journal after what happened to it. -/
structure CipherWriter.Disciplined [Session κ σ] [Sink σ ς] [Abortable σ ς] (fuel : Nat)
    (s : CipherWriter κ ς × Env σ) (happenings : List (Happening Request σ)) : Prop where
  faithful : happenings.foldl (happens fuel) s = unjournaled (recorded fuel s happenings)
  kept : (recorded fuel s happenings).2.journal.Kept Journal.Unsettled

/-- **Readers and writers keep the discipline of the calls**, whatever is asked of them and whatever
their sources and sinks do; readers, if their session does not fail with a failed transfer. -/
theorem calls_disciplined [Session κ σ] [Source σ ρ] [Seekable σ ρ] [Abortable σ ρ] [Sink σ ς]
    [Abortable σ ς] (fuel : Nat) (k : κ) (abort : AbortHandle) (env : Env σ) :
    (∀ P : κ → Prop, Session.NeverIo P → P k → ∀ (source : ρ) (blockSize : Nat)
        (happenings : List (Happening CipherReader.Request σ)),
      CipherReader.Disciplined fuel (.new source k blockSize abort, env) happenings) ∧
    ∀ (sink : ς) (happenings : List (Happening CipherWriter.Request σ)),
      CipherWriter.Disciplined fuel ({ inner := sink, session := k, abort }, env) happenings := by
  refine ⟨fun P hP hk source blockSize happenings => ?_, fun sink happenings => ?_⟩
  · have hs : CipherReader.Standing P
        (CipherReader.recorded fuel (.new source k blockSize abort, env) happenings) :=
      CipherReader.standing_recorded hP (CipherReader.standing_new hk source blockSize abort env)
        happenings
    have hfaithful := CipherReader.recorded_unjournaled fuel (.new source k blockSize abort, env)
      happenings
    refine ⟨hfaithful, hs.1.kept, fun t ht => ?_, ?_, CipherReader.kept_close hs⟩
    · obtain ⟨hsession, hjournal, -⟩ := CipherReader.standing_reset hP hs ht
      rw [CipherReader.records_reset, ht]
      exact ⟨hsession, hjournal⟩
    · rw [hfaithful]
      exact CipherReader.close_unjournaled _
  · exact ⟨CipherWriter.recorded_unjournaled fuel _ happenings,
      (CipherWriter.standing_recorded (CipherWriter.standing_new sink k abort env)
        happenings).tracked.kept⟩

section

open Scripted

theorem neverIo_randomSource (i n : Nat) : Step.NeverIo ((randomSource i).fill n) := by
  intro w _
  simp only [randomSource]
  cases w.randoms[i]? with
  | none => rfl
  | some cell =>
    simp only
    cases (cell.fill n).1 <;> trivial

/-- Scripted collaborators fail in their own words. -/
theorem neverIo_holdSession : holdSession.NeverIo where
  fill n := neverIo_randomSource 0 n
  generateIv := .bind (neverIo_randomSource 0 4) fun _ => .pure fun _ h => h
  newCipher key iv mode w _ := by
    simp only [holdSession, holdFamily]
    split <;> trivial
  wrap plain w _ := by
    simp only [holdSession, identityWrap]
    split <;> trivial
  unwrap := neverIo_identityWrap 0
  update input u _ := by
    simp only [ContentCipher.update]
    split <;> trivial
  finalize u _ := by
    simp only [ContentCipher.finalize]
    split <;> trivial

/-- A reader that is read, reset and read again. -/
def rereading : List (Happening CipherReader.Request World) :=
  [.request .mark, .request (.use (.read 20)), .request .reset, .request (.use (.read 20))]

/-- A writer to a sink that does not get the header at once. -/
def rewriting : List (Happening CipherWriter.Request World) :=
  [.request (.write [1]), .request (.write [1]), .request .close, .request .drop]

theorem calls_disciplined_scripted :
    let reader : CipherReader.State World (FamilySession World HoldCipher) ScriptedSource :=
      (.new { data := #[1, 2] } holdSession 8, ⟨[], holdWorld []⟩)
    let writer : CipherWriter (FamilySession World HoldCipher) ScriptedSink × Env World :=
      ({ inner := { chunk := some 5, writeEvents := [(1, .fail .stalled)] }, session := holdSession },
        ⟨[], holdWorld []⟩)
    CipherReader.Disciplined 20 reader rereading ∧
      (CipherReader.recorded 20 reader rereading).2.journal =
        [.called 1 .start (some (Header.encode ⟨7, [3, 3, 3, 3], [4, 4, 4, 4]⟩)), .replaced 0,
          .called 0 .start (some (Header.encode ⟨7, [1, 1, 1, 1], [2, 2, 2, 2]⟩))] ∧
      CipherWriter.Disciplined 20 writer rewriting ∧
      (CipherWriter.recorded 20 writer rewriting).2.journal =
        [.called 0 .finalize (some []), .took 1, .called 0 (.update [1]) (some [3]),
          .called 0 .start (some []), .took 5,
          .called 0 .start (some (Header.encode ⟨7, [1, 1, 1, 1], [2, 2, 2, 2]⟩))] := by
  have h := calls_disciplined (ρ := ScriptedSource) (ς := ScriptedSink) 20 holdSession (.own false)
    ⟨[], holdWorld []⟩
  refine ⟨h.1 _ FamilySession.neverIo neverIo_holdSession _ 8 _, ?_, h.2 _ _, ?_⟩
  · decide +kernel
  · decide +kernel

end

end SealedStream
