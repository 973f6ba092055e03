import SealedStream.Proofs.Stream.Flaky

/-!
# Failed transfers lose nothing

A caller that reads again after every failed transfer gets from a flaky source the bytes of the
source inside, and the same end or the same failure (`rereads_flaky`): wherever a read fails, the
reader is left as if the read had not been made, and nothing was gathered of the output by then.
-/

namespace SealedStream

namespace CipherReader

variable {σ κ ρ γ : Type} {failure : Nat → Option IoError}

section

variable [Session κ σ] [Source σ ρ]

/-- What a caller gets of a source through a session, into buffers of the sizes `ns`, that reads
again after every failed transfer. -/
def rereads (source : ρ) (session : κ) (blockSize : Nat) (abort : AbortHandle) (fuel : Nat)
    (env : Env σ) (ns : List Nat) : Reading σ κ ρ :=
  reads fuel Error.isIo ns (CipherReader.new source session blockSize abort, env)

/-- With enough buffers, none of them empty, a caller has all bytes of the reading `a`, and is done
if that is over. -/
def Reading.Reached {ρ' : Type} (a : Reading σ κ ρ) (b : List Nat → Reading σ κ ρ') : Prop :=
  ∃ k, ∀ ns : List Nat, (∀ n ∈ ns, n ≠ 0) → k < ns.length →
    a.bytes <+: (b ns).bytes ∧ (a.ending ≠ .going → (b ns).ending ≠ .going)

/-- The failures of the schedule make no difference to a caller that reads a source through a
session: neither to the bytes nor to how they end. What it gets with them it gets without, and the
other way round unless they go on for ever. No failed transfer is stored to be repeated. -/
structure Retryable (failure : Nat → Option IoError) (source : ρ) (session : κ) (blockSize : Nat)
    (abort : AbortHandle) (fuel : Nat) (env : Env σ) : Prop where
  agrees : ∀ ns ms, (rereads source session blockSize abort fuel env ns).Agrees
    (rereads (⟨source, 0⟩ : Flaky failure ρ) session blockSize abort fuel env ms)
  reached : (∀ i, ∃ j, failure (i + j) = none) → ∀ ns,
    (rereads source session blockSize abort fuel env ns).Reached
      (rereads (⟨source, 0⟩ : Flaky failure ρ) session blockSize abort fuel env)
  reachedOnly : ∀ ms,
    (rereads (⟨source, 0⟩ : Flaky failure ρ) session blockSize abort fuel env ms).Reached
      (rereads source session blockSize abort fuel env)
  failed : ∀ ms e,
    (rereads (⟨source, 0⟩ : Flaky failure ρ) session blockSize abort fuel env ms).state.1.failed =
      some e → e.isIo = false

variable {P : κ → Prop} {s : State σ κ ρ} {fuel m n : Nat} {r : Reading σ κ ρ}

theorem Tracks.within (h : Tracks P fuel m s r) : r.Within s.1.output (flow fuel m (drained s)) :=
  ⟨_, h.bytes, h.finished⟩

/-- Whoever has more buffers than there are draws and bytes in a flow has all that flows. -/
theorem reached_of_within {ρ' : Type} (hP : Session.Quiet P) (hs : Sound P s)
    (ho : s.1.output = []) {a : Reading σ κ ρ'} (ha : a.Within [] (flow fuel n (drained s))) :
    a.Reached fun ns => reads fuel Error.isIo ns s := by
  refine ⟨n + (flow fuel n (drained s)).bytes.length, fun ns hns hlen => ?_⟩
  obtain ⟨m, htracks, hle⟩ := reads_follow hP fuel ns hs
  have hwithin := htracks.within
  rw [ho] at hwithin
  cases hgoing : (reads fuel Error.isIo ns s).ending with
  | going =>
    have hle := hle hgoing hns
    have hbytes := htracks.bytes
    have hbefore := htracks.before
    rw [ho, List.nil_append] at hbytes
    have hmn : n < m := by
      refine Nat.lt_of_not_le fun hmn => ?_
      have hpre : (flow fuel m (drained s)).bytes <+: (flow fuel n (drained s)).bytes :=
        flow_mono hmn
      have hlen' := hpre.length_le
      rw [hbytes, List.length_append] at hlen'
      omega
    obtain ⟨rest, hrest, hover⟩ := ha
    have hprefix := hbefore n hmn
    rw [ho, hrest] at hprefix
    refine ⟨List.IsPrefix.trans (List.prefix_append _ _) hprefix, fun h => ?_⟩
    rw [← (hover h).1] at h
    exact absurd (htracks.made n hmn) h
  | ended => exact ⟨ha.prefix_of_over hwithin (by simp [hgoing]), fun _ => by simp⟩
  | failed e => exact ⟨ha.prefix_of_over hwithin (by simp [hgoing]), fun _ => by simp⟩

/-- A reading within a flow over the flaky source is within one over the source inside. -/
theorem Reading.Within.smooth {ρ' : Type} {a : Reading σ κ ρ'} {out : Bytes}
    {t : State σ κ (Flaky failure ρ)} (hf : Transient failure) (h : a.Within out (flow fuel n t)) :
    ∃ m, a.Within out (flow fuel m (CipherReader.smooth t)) := by
  obtain ⟨m, -, hflow⟩ := flow_flaky fuel hf n t
  refine ⟨m, ?_⟩
  rw [hflow]
  exact h

/-- The other way round if the failures do not go on for ever. -/
theorem Reading.Within.rough {ρ' : Type} {a : Reading σ κ ρ'} {out : Bytes}
    {t : State σ κ (Flaky failure ρ)} (hf : Transient failure)
    (hpass : ∀ i, ∃ j, failure (i + j) = none)
    (h : a.Within out (flow fuel m (CipherReader.smooth t))) :
    ∃ n, a.Within out (flow fuel n t) := by
  obtain ⟨n, hflow⟩ := exists_flow_flaky hf hpass m t
  refine ⟨n, ?_⟩
  rw [hflow] at h
  exact h

theorem retryable_of_quiet (hP : Session.Quiet P) (hf : Transient failure) {session : κ}
    (hs : P session) (source : ρ) (blockSize : Nat) (abort : AbortHandle) (fuel : Nat)
    (env : Env σ) : Retryable failure source session blockSize abort fuel env := by
  have hsteady := Sound.new hs source blockSize abort env
  have hflaky := Sound.new hs (⟨source, 0⟩ : Flaky failure ρ) blockSize abort env
  refine ⟨fun ns ms => ?_, fun hpass ns => ?_, fun ms => ?_, fun ms => ?_⟩
  · obtain ⟨m, htracks, -⟩ := reads_follow hP fuel ns hsteady
    obtain ⟨n, htracks', -⟩ := reads_follow hP fuel ms hflaky
    obtain ⟨n', hwithin⟩ := htracks'.within.smooth hf
    exact Reading.agrees_of_within htracks.within hwithin
  · obtain ⟨m, htracks, -⟩ := reads_follow hP fuel ns hsteady
    obtain ⟨n, hwithin⟩ := Reading.Within.rough hf hpass
      (t := drained (CipherReader.new (⟨source, 0⟩ : Flaky failure ρ) session blockSize abort, env))
      htracks.within
    exact reached_of_within hP hflaky rfl hwithin
  · obtain ⟨n, htracks, -⟩ := reads_follow hP fuel ms hflaky
    obtain ⟨m, hwithin⟩ := htracks.within.smooth hf
    exact reached_of_within hP hsteady rfl hwithin
  · obtain ⟨n, htracks, -⟩ := reads_follow hP fuel ms hflaky
    exact htracks.sound.failed

end

/-- **Failed transfers lose nothing**, whatever the source and however its reads fail, as long as
they fail with failed transfers: for sessions of every family, in either mode, and for dispatchers
over such sessions. -/
theorem rereads_flaky [ContentCipher σ γ] [Source σ ρ] (hf : Transient failure) (source : ρ)
    (blockSize : Nat) (abort : AbortHandle) (fuel : Nat) (env : Env σ) :
    (∀ session : FamilySession σ γ, Retryable failure source session blockSize abort fuel env) ∧
    ∀ d : Dispatcher σ (FamilySession σ γ), d.Loyal (fun _ => True) →
      Retryable failure source d blockSize abort fuel env :=
  ⟨fun _ => retryable_of_quiet FamilySession.quiet hf trivial source blockSize abort fuel env,
    fun _ hd => retryable_of_quiet (Dispatcher.quiet FamilySession.quiet) hf hd source blockSize
      abort fuel env⟩

section

open Scripted

/-- The first read and the third fail. -/
def twice (i : Nat) : Option IoError :=
  if i = 0 ∨ i = 2 then some (.plain .timedOut "try again") else none

theorem transient_twice : Transient twice := by
  intro i e h
  unfold twice at h
  split at h
  · cases h
    rfl
  · cases h

/-- Two failures cost a caller two more reads, and no more. -/
theorem rereads_twice :
    (Retryable twice ({ data := #[1, 2, 3] } : ScriptedSource) holdSession 2 (.own false) 20
        ⟨[], holdWorld []⟩ ∧
      Retryable twice ({ data := #[0, 0, 0, 9] } : ScriptedSource)
        (bareBuilder.dispatcher .decrypt (Registry.bundled id id) 1 none) 2 (.own false) 20
        ⟨[], ()⟩) ∧
    (rereads ({ data := #[1, 2, 3] } : ScriptedSource) holdSession 2 (.own false) 20
      ⟨[], holdWorld []⟩ [9, 30, 9, 9]).bytes =
      Header.encode ⟨7, [1, 1, 1, 1], [2, 2, 2, 2]⟩ ++ [3, 0, 1] ∧
    (rereads (⟨{ data := #[1, 2, 3] }, 0⟩ : Flaky twice ScriptedSource) holdSession 2 (.own false)
      20 ⟨[], holdWorld []⟩ [9, 30, 9, 9, 9, 9]).bytes =
      Header.encode ⟨7, [1, 1, 1, 1], [2, 2, 2, 2]⟩ ++ [3, 0, 1] := by
  refine ⟨⟨?_, ?_⟩, by decide +kernel, by decide +kernel⟩
  · exact (rereads_flaky transient_twice _ 2 _ 20 _).1 holdSession
  · exact (rereads_flaky transient_twice _ 2 _ 20 _).2 _
      (bareBuilder.loyal_dispatcher .decrypt 1 none)

end

end CipherReader

end SealedStream
