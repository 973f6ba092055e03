import SealedStream.Proofs.Stream.Flow

/-!
# Sources that fail now and then

A flaky source does what the source inside it does, except that some of its reads fail instead, on a
schedule. A draw from it either fails so, and is as if it had not been made, or is the draw from the
source inside (`draw_flaky`). So over a flaky source flows what flows over the source inside
(`flow_flaky`), and all of it if the failures do not go on for ever (`exists_flow_flaky`).
-/

namespace SealedStream

variable {σ κ ρ : Type} {failure : Nat → Option IoError}

/-- The source `inner` with reads that fail: the `i`-th one as `failure i` says, if it says so. -/
structure Flaky (failure : Nat → Option IoError) (ρ : Type) where
  inner : ρ
  calls : Nat := 0

instance [Source σ ρ] : Source σ (Flaky failure ρ) where
  read fuel n
    | (source, env) =>
      match failure source.calls with
      | some e => .error e ({ source with calls := source.calls + 1 }, env)
      | none => mapState (fun t => (⟨t.1, source.calls + 1⟩, t.2))
          (Source.read fuel n (source.inner, env))

theorem Flaky.read_of_none [Source σ ρ] {source : Flaky failure ρ}
    (h : failure source.calls = none) (fuel n : Nat) (env : Env σ) :
    (Source.read fuel n : Transfer σ (Flaky failure ρ) Bytes) (source, env) =
      mapState (fun t => (⟨t.1, source.calls + 1⟩, t.2))
        (Source.read fuel n (source.inner, env)) := by
  simp only [Source.read, h]

namespace CipherReader

/-- The reader over the source inside. -/
def smooth (s : State σ κ (Flaky failure ρ)) : State σ κ ρ :=
  ({ inner := s.1.inner.inner, session := s.1.session, blockSize := s.1.blockSize
     output := s.1.output, eof := s.1.eof, started := s.1.started, accessed := s.1.accessed
     mark := s.1.mark, failed := s.1.failed, abort := s.1.abort }, s.2)

/-- The reader after a read that the schedule lets fail. -/
def missed (s : State σ κ (Flaky failure ρ)) : State σ κ (Flaky failure ρ) :=
  ({ s.1 with inner := { s.1.inner with calls := s.1.inner.calls + 1 } }, s.2)

theorem smooth_missed (s : State σ κ (Flaky failure ρ)) : smooth (missed s) = smooth s := rfl

/-! ## One draw -/

section

variable [Session κ σ]

theorem feed_smooth (block : Bytes) (s : State σ κ (Flaky failure ρ)) :
    feed block (smooth s) = mapState smooth (feed block s) := by
  obtain ⟨r, env⟩ := s
  unfold feed
  by_cases hb : block.isEmpty = true
  · simp only [hb, if_true, smooth, run_finish]
    cases (Session.finalize : Step (κ × σ) Bytes) (r.session, env.world) <;> rfl
  · simp only [if_neg hb, smooth, run_onSession]
    cases Session.update block (r.session, env.world) <;> rfl

theorem startSession_smooth (s : State σ κ (Flaky failure ρ)) :
    startSession (smooth s) = mapState smooth (startSession s) := by
  obtain ⟨r, env⟩ := s
  simp only [startSession, run_bind, smooth, run_update, run_onSession]
  cases (Session.start : Step (κ × σ) Bytes) (r.session, env.world) <;> rfl

variable [Source σ ρ]

omit [Session κ σ] in
/-- A block is not read, or it is the block of the source inside. -/
theorem readBlock_flaky (fuel : Nat) (s : State σ κ (Flaky failure ρ)) :
    (∃ e, failure s.1.inner.calls = some e ∧
      (readBlock fuel : Pull σ κ (Flaky failure ρ) Bytes) s = .error (.ofIo e) (missed s)) ∨
    failure s.1.inner.calls = none ∧
      (readBlock fuel : Pull σ κ ρ Bytes) (smooth s) = mapState smooth (readBlock fuel s) := by
  simp only [run_readBlock, smooth, Source.read]
  cases hf : failure s.1.inner.calls with
  | some e => exact .inl ⟨e, rfl, rfl⟩
  | none =>
    refine .inr ⟨rfl, ?_⟩
    cases (Source.read fuel s.1.blockSize : Transfer σ ρ Bytes) (s.1.inner.inner, s.2) with
    | error e u => rfl
    | ok block u =>
      simp only [mapState]
      cases s.1.abort.check u.2 <;> rfl

/-- **A draw from a flaky source** fails as if it had not been made, or is the draw from the source
inside. -/
theorem draw_flaky (fuel : Nat) (s : State σ κ (Flaky failure ρ)) :
    (∃ e, failure s.1.inner.calls = some e ∧ draw fuel s = .error (.ofIo e) (missed s)) ∨
      draw fuel (smooth s) = mapState smooth (draw fuel s) := by
  have hsmooth : (smooth s).1.abort.check (smooth s).2 = s.1.abort.check s.2 := rfl
  cases ha : s.1.abort.check s.2 with
  | error e =>
    right
    simp only [draw, checkAbort, run_bind, run_get, run_check, hsmooth, ha]
    rfl
  | ok _ =>
    simp only [draw, run_bind, run_checkAbort_of ha, run_checkAbort_of (hsmooth.trans ha), run_get,
      run_ite]
    by_cases he : s.1.eof = true
    · right
      rw [if_pos he, if_pos (show (smooth s).1.eof = true from he)]
      rfl
    · rw [if_neg he, if_neg (show ¬ (smooth s).1.eof = true from he)]
      by_cases hst : s.1.started = true
      · rw [if_pos hst, if_pos (show (smooth s).1.started = true from hst)]
        rcases readBlock_flaky fuel s with ⟨e, hf, hread⟩ | ⟨-, hread⟩
        · exact .inl ⟨e, hf, by rw [hread]⟩
        · right
          rw [hread]
          cases (readBlock fuel : Pull σ κ (Flaky failure ρ) Bytes) s with
          | error e t => rfl
          | ok block t => exact feed_smooth block t
      · right
        rw [if_neg hst, if_neg (show ¬ (smooth s).1.started = true from hst)]
        exact startSession_smooth s

end

/-! ## What flows -/

/-- All failures of the schedule are failed transfers, so they ask the caller to read again. -/
def Transient (failure : Nat → Option IoError) : Prop :=
  ∀ i e, failure i = some e → (Error.ofIo e).isIo = true

/-- The reading of a flaky source as one of the source inside. -/
def Reading.smooth (r : Reading σ κ (Flaky failure ρ)) : Reading σ κ ρ :=
  ⟨r.bytes, r.ending, CipherReader.smooth r.state⟩

theorem poison_smooth (e : Error) (s : State σ κ (Flaky failure ρ)) :
    (poison e (smooth s).1, (smooth s).2) = smooth (poison e s.1, s.2) := by
  unfold poison
  split <;> rfl

section

variable [Session κ σ] [Source σ ρ] {fuel m : Nat}

/-- What flows over a flaky source flows over the source inside, in no more draws. -/
theorem flow_flaky (fuel : Nat) (hf : Transient failure) :
    ∀ (n : Nat) (s : State σ κ (Flaky failure ρ)),
    ∃ m ≤ n, flow fuel m (smooth s) = (flow fuel n s).smooth
  | 0, s => ⟨0, Nat.le_refl 0, rfl⟩
  | n + 1, s => by
    by_cases hv : verdict s = .going
    · rw [flow_succ_of_going hv]
      rcases draw_flaky fuel s with ⟨e, hfail, hd⟩ | hd
      · obtain ⟨m, hm, hflow⟩ := flow_flaky fuel hf n (missed s)
        refine ⟨m, Nat.le_succ_of_le hm, ?_⟩
        rw [smooth_missed] at hflow
        rw [hd]
        simp only [hf _ _ hfail, if_true]
        exact hflow
      · have hv' : verdict (smooth s) = .going := hv
        cases hrun : draw fuel s with
        | ok out t =>
          obtain ⟨m, hm, hflow⟩ := flow_flaky fuel hf n t
          refine ⟨m + 1, Nat.succ_le_succ hm, ?_⟩
          rw [flow_succ_of_going hv', hd, hrun]
          simp only [mapState, hflow]
          rfl
        | error e t =>
          by_cases hio : e.isIo = true
          · obtain ⟨m, hm, hflow⟩ := flow_flaky fuel hf n t
            refine ⟨m + 1, Nat.succ_le_succ hm, ?_⟩
            rw [flow_succ_of_going hv', hd, hrun]
            simp only [mapState, if_pos hio, hflow]
          · refine ⟨1, Nat.succ_le_succ (Nat.zero_le n), ?_⟩
            rw [flow_succ_of_going hv', hd, hrun]
            simp only [mapState, if_neg hio, poison_smooth]
            rfl
    · rw [flow_of_final hv]
      exact ⟨0, Nat.zero_le _, rfl⟩

/-- What flows after a draw that succeeds. -/
theorem exists_flow_of_draw {s : State σ κ (Flaky failure ρ)} (hv : verdict s = .going)
    (hd : draw fuel (smooth s) = mapState smooth (draw fuel s))
    (ih : ∀ t : State σ κ (Flaky failure ρ), ∃ n,
      flow fuel m (smooth t) = (flow fuel n t).smooth) :
    ∃ n, flow fuel (m + 1) (smooth s) = (flow fuel n s).smooth := by
  rw [flow_succ_of_going (s := smooth s) hv, hd]
  cases hrun : draw fuel s with
  | ok out t =>
    obtain ⟨n, hn⟩ := ih t
    refine ⟨n + 1, ?_⟩
    rw [flow_succ_of_going hv, hrun]
    simp only [mapState, hn]
    rfl
  | error e t =>
    by_cases hio : e.isIo = true
    · obtain ⟨n, hn⟩ := ih t
      refine ⟨n + 1, ?_⟩
      rw [flow_succ_of_going hv, hrun]
      simp only [mapState, if_pos hio, hn]
    · refine ⟨1, ?_⟩
      rw [flow_succ_of_going hv, hrun]
      simp only [mapState, if_neg hio, poison_smooth]
      rfl

/-- Whatever flows over the source inside flows over the flaky source, unless its failures go on for
ever. By induction on the draws, and for each of them on the failures in front of the next read that
succeeds. -/
theorem exists_flow_flaky (hf : Transient failure) (hpass : ∀ i, ∃ j, failure (i + j) = none) :
    ∀ (m : Nat) (s : State σ κ (Flaky failure ρ)), ∃ n,
      flow fuel m (smooth s) = (flow fuel n s).smooth
  | 0, s => ⟨0, rfl⟩
  | m + 1, s => by
    by_cases hv : verdict s = .going
    · have hsteps : ∀ (j : Nat) (t : State σ κ (Flaky failure ρ)), smooth t = smooth s →
          failure (t.1.inner.calls + j) = none → ∃ n,
          flow fuel (m + 1) (smooth s) = (flow fuel n t).smooth := by
        intro j
        induction j with
        | zero =>
          intro t ht hj
          have hvt : verdict t = .going := (congrArg verdict ht).trans hv
          rcases draw_flaky fuel t with ⟨e, hfail, -⟩ | hd
          · rw [Nat.add_zero, hfail] at hj
            cases hj
          · rw [← ht]
            exact exists_flow_of_draw hvt hd (exists_flow_flaky hf hpass m)
        | succ j ih =>
          intro t ht hj
          have hvt : verdict t = .going := (congrArg verdict ht).trans hv
          rcases draw_flaky fuel t with ⟨e, hfail, hd⟩ | hd
          · have hcalls : (missed t).1.inner.calls + j = t.1.inner.calls + (j + 1) :=
              Nat.add_right_comm t.1.inner.calls 1 j
            obtain ⟨n, hn⟩ := ih (missed t) ht (by rw [hcalls]; exact hj)
            refine ⟨n + 1, ?_⟩
            rw [hn, flow_succ_of_going hvt, hd]
            simp only [hf _ _ hfail, if_true]
          · rw [← ht]
            exact exists_flow_of_draw hvt hd (exists_flow_flaky hf hpass m)
      obtain ⟨j, hj⟩ := hpass s.1.inner.calls
      exact hsteps j s rfl hj
    · exact ⟨0, flow_of_final (s := smooth s) hv _⟩

end

end CipherReader

end SealedStream
