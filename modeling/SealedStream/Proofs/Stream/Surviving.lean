import SealedStream.Proofs.Stream.Aborting
import SealedStream.Proofs.Stream.Relaying

/-!
# Errors survive towers of readers

What a failed read leaves a cipher reader with (`CipherReader.Retains`): an error that is no failed
transfer is repeated until a reset, unless an abort is in the way, and a failed transfer is not
stored. Every cipher reader that an error comes by on its way out of a tower retains it, and the error
comes out as it was (`errors_survive`).
-/

namespace SealedStream

variable {σ κ γ ρ ρ' : Type}

/-- A source that goes on lowers no flag. -/
theorem Source.Carries.upholds [Source σ ρ] [Seekable σ ρ] [Abortable σ ρ]
    {G : ρ × Env σ → ρ × Env σ → Prop} (hG : Source.Carries G) : Source.Upholds σ ρ where
  position t := hG.below (hG.position t)
  seek p t := hG.below (hG.seek p t)
  abort t := hG.below (hG.abort t)

/-! ## What readers keep of an error -/

namespace CipherReader

variable [Session κ σ] [Source σ ρ] [Seekable σ ρ] [Abortable σ ρ] {s : State σ κ ρ} {e : Error}

/-- Whatever is asked of the reader, until a reset succeeds it refuses every use with `e`, or because
it is aborted. -/
def Repeats (e : Error) (s : State σ κ ρ) : Prop :=
  ∀ fuel u, Leads fuel Onward s u → Refuses fuel (if u.1.abort.isAborted u.2 then .aborted else e) u

theorem repeats_of_stored (hs : s.1.failed = some e) (hio : e.isIo = false) : Repeats e s := by
  intro fuel u hu
  have hverdict := verdict_of_stored (stored_of_leads hu hs) hio
  exact @refuses_of_verdict _ _ _ _ _ _ hverdict

theorem repeats_of_aborted (hup : Source.Upholds σ ρ) (ha : s.1.abort.isAborted s.2 = true) :
    Repeats .aborted s := by
  intro fuel u hu
  have hu := aborted_of_leads hup hu ha
  rw [if_pos hu]
  exact @refuses_of_verdict _ _ _ _ _ _ (verdict_of_aborted hu)

/-- The reader repeats what is no failed transfer, and stores nothing of what is. -/
structure Retains (e : Error) (s : State σ κ ρ) : Prop where
  repeats : e.isIo = false → Repeats e s
  unstored : e.isIo = true → s.1.failed = none

theorem retains_of_kept (hs : s.1.failed = e.kept) : Retains e s where
  repeats hio := repeats_of_stored (hs.trans (Error.kept_of_not_isIo hio)) hio
  unstored hio := hs.trans (Error.kept_of_isIo hio)

end CipherReader

/-- The reader at which an error arises. -/
theorem ReadLayer.Arises.retains [Session κ σ] [Source σ ρ'] [Seekable σ ρ'] [Abortable σ ρ']
    (hup : Source.Upholds σ ρ') {env : Env σ} {e : Error} {r : CipherReader (Logged Error κ) ρ}
    {j : ρ → ρ'} (h : (ReadLayer.cipher r : ReadLayer (Logged Error κ) γ ρ).Arises env e) :
    CipherReader.Retains e (r.bimap (·.it) j, env) := by
  cases h with
  | session _ _ hf => exact CipherReader.retains_of_kept hf
  | aborted ht ha _ _ =>
    cases ht
    exact ⟨fun _ => CipherReader.repeats_of_aborted hup ha, nofun⟩
  | idle he _ _ hf =>
    exact CipherReader.retains_of_kept
      (hf.trans (Error.kept_of_isIo (CipherReader.isIo_of_exhausted he)).symm)
  | repeated _ hf hio =>
    exact CipherReader.retains_of_kept (hf.trans (Error.kept_of_not_isIo hio).symm)

/-! ## In a tower -/

namespace Watched

section

variable [Session κ σ] [Source σ ρ] [Seekable σ ρ] [Abortable σ ρ] [Accumulator γ]
  {token : ρ → Option AbortHandle} (hG : Source.Carries (Goes (σ := σ) token)) {n m level i : Nat}
  {e : Error} {x : IoError} {w : Watched κ γ ρ n × Env σ}
  {r : CipherReader κ (ReadTower κ γ ρ i)}

include hG

/-- Every cipher reader that a failure has come by keeps it. -/
theorem Relayed.retains (h : Relayed n m e x w) (hout : e.Outright) (hm : m ≤ level)
    (hlevel : level ≤ n) (hr : (ReadTower.stack (σ := σ) κ γ token).adapterAt n (plain n w.1) level =
      some ⟨i, .cipher r⟩) :
    CipherReader.Retains e (r, w.2) ∧ (m < level → r.eof = false) := by
  rw [adapterAt_plain] at hr
  obtain ⟨⟨i', layer⟩, hp, hplain⟩ := Option.map_eq_some_iff.mp hr
  cases layer with
  | cipher r' =>
    cases hplain
    by_cases hlt : m < level
    · obtain ⟨heof, hf⟩ := h.passed level i' r' hlt hlevel hp hout
      exact ⟨CipherReader.retains_of_kept hf, fun _ => heof⟩
    · refine ⟨?_, fun h => absurd h hlt⟩
      obtain rfl : m = level := by omega
      cases h.origin with
      | source _ => exact nomatch (layerAt_zero n w.1).symm.trans hp
      | adapter hp' ha =>
        cases hp.symm.trans hp'
        exact ha.retains (ReadTower.carries hG i').upholds
  | _ => cases hplain

end

end Watched

/-- The read of a tower has failed with `x`, as `e` came up from level `m`. The error comes out as it
was, and the cipher readers that it has come by keep it, none of them at an end. -/
structure Watched.Survived [Session κ σ] [Source σ ρ] [Seekable σ ρ] [Abortable σ ρ] [Accumulator γ]
    (token : ρ → Option AbortHandle) (n m : Nat) (e : Error) (x : IoError)
    (w : Watched κ γ ρ n × Env σ) : Prop where
  relayed : Watched.Relayed n m e x w
  intact : e.Outright → Error.ofIo x = e
  retained : e.Outright → ∀ level i r, m ≤ level → level ≤ n →
    (ReadTower.stack (σ := σ) κ γ token).adapterAt n w.1.plain level = some ⟨i, .cipher r⟩ →
      CipherReader.Retains e (r, w.2) ∧ (m < level → r.eof = false)

/-- **Errors survive towers of readers.** Records of what fails make no difference to a read. If
something fails in its course, on whatever level, the read fails; what it fails with is the error that
came up, unless that was a failed transfer which itself carried one. Each cipher reader on the way
repeats what is no failed transfer until it is reset, or says that it is aborted, and stores nothing
of what is. -/
theorem errors_survive [Accumulator γ] [Session κ σ] [Source σ ρ] [Seekable σ ρ] [Abortable σ ρ]
    {token : ρ → Option AbortHandle} (hG : Source.Carries (Goes (σ := σ) token)) (fuel n k : Nat)
    {s : ReadTower κ γ ρ n × Env σ} (hs : s.1.Tidy) :
    (Source.read fuel k : Transfer σ (ReadTower κ γ ρ n) Bytes) s =
        mapState (fun w => (w.1.plain, w.2)) (Watched.watchedRead fuel k s) ∧
      Meets (fun _ w => w.1.Smooth) (fun x w => ∃ m e, Watched.Survived token n m e x w)
        (Watched.watchedRead fuel k s) ∧
      (reached ((Source.read fuel k : Transfer σ (ReadTower κ γ ρ n) Bytes) s)).1.Tidy := by
  have hread := Watched.read_eq_watchedRead fuel k s
  have hmeets : Meets (fun _ w => w.1.Smooth) (fun x w => ∃ m e, Watched.Relayed n m e x w)
      (Watched.watchedRead fuel k s) :=
    Watched.ensures_read fuel n k (.new n s.1, s.2) (Watched.smooth_new hs)
  refine ⟨hread, ?_, ?_⟩
  · cases hrun : Watched.watchedRead fuel k s with
    | ok bytes w =>
      rw [hrun] at hmeets
      exact hmeets
    | error x w =>
      rw [hrun] at hmeets
      obtain ⟨m, e, h⟩ := hmeets
      exact ⟨m, e, h, h.ofIo_eq, fun hout _ _ _ hm hlevel hr => h.retains hG hout hm hlevel hr⟩
  · rw [hread, reached_mapState]
    cases hrun : Watched.watchedRead fuel k s with
    | ok bytes w =>
      rw [hrun] at hmeets
      exact Watched.tidy_plain fun level p hlevel hp => (Watched.Smooth.at hmeets hlevel).2.2 p hp
    | error x w =>
      rw [hrun] at hmeets
      obtain ⟨m, e, h⟩ := hmeets
      exact Watched.tidy_plain h.tidy

section

open Scripted

/-- Decrypts what the source has, which is of a version that the cipher family does not know; and
decrypts what comes of that. -/
def misread : ReadTower (FamilySession World HoldCipher) Checksum ScriptedSource 3 :=
  ReadLayer.cipher (.new (ReadLayer.checked ⟨ReadLayer.cipher (.new { data := #[0, 0, 0, 9] }
    { holdSession with mode := .decrypt } 8), .group []⟩) { holdSession with mode := .decrypt } 8
    (.shared 7))

/-- The version is refused at the bottom, and this is what the tower fails with. -/
theorem errors_survive_misread : ∃ x w, Watched.watchedRead 90 4 (misread, ⟨[], holdWorld []⟩) =
    .error x w ∧ Error.ofIo x = .unsupportedVersion 9 ∧
      Watched.Survived (fun _ => none) 3 1 (.unsupportedVersion 9) x w := by
  have htidy : misread.Tidy := ⟨nofun, trivial, nofun, trivial⟩
  obtain ⟨-, hmeets, -⟩ := errors_survive carries_scriptedSource 90 3 4
    (s := (misread, ⟨[], holdWorld []⟩)) htidy
  have hfails : outcome (Watched.watchedRead 90 4 (misread, ⟨[], holdWorld []⟩)) =
      .error (Error.toIo (.unsupportedVersion 9)) := rfl
  have hsession : Watched.sessionFailureAt 3
      (reached (Watched.watchedRead 90 4 (misread, ⟨[], holdWorld []⟩))).1 1 =
        some (.unsupportedVersion 9) := rfl
  obtain ⟨w, hrun⟩ := outcome_eq_error.mp hfails
  rw [hrun] at hmeets hsession
  obtain ⟨m, e, h⟩ := hmeets
  obtain ⟨rfl, rfl⟩ := h.relayed.session 1 _ (by decide) hsession
  exact ⟨_, w, hrun, rfl, h⟩

/-- A reader that has failed speaks of an abort first, not of its failure. -/
theorem aborted_after_unsupportedVersion :
    let reader : CipherReader.State World (FamilySession World HoldCipher) ScriptedSource :=
      (.new { data := #[0, 0, 0, 9] } { holdSession with mode := .decrypt } 8, ⟨[], holdWorld []⟩)
    let failed := reached (CipherReader.readBytes 90 4 reader)
    outcome (CipherReader.readBytes 90 4 reader) = .error (.unsupportedVersion 9) ∧
      outcome (CipherReader.readBytes 90 4 failed) = .error (.unsupportedVersion 9) ∧
      outcome (CipherReader.readBytes 90 4 (Abortable.abort failed)) = .error .aborted :=
  ⟨rfl, rfl, rfl⟩

end

end SealedStream
