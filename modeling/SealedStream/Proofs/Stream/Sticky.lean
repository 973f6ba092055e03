import SealedStream.Proofs.Stream.Requests

/-!
# What a reader keeps saying

A reader that has failed, but not with a failed transfer, refuses every use with the same error until
it is reset, or says that it is aborted (`failure_stays`). One that has come to its end stays there
(`end_stays`). Neither asks its source or its session for anything.
-/

namespace SealedStream

variable {σ κ ρ : Type}

/-- Sources of the type `ρ` lower no flag, whatever is asked of them besides reading. -/
structure Source.Upholds (σ ρ : Type) [Seekable σ ρ] [Abortable σ ρ] : Prop where
  position : ∀ t : ρ × Env σ, t.2.Below (reached ((Seekable.position : Transfer σ ρ Nat) t)).2
  seek : ∀ (p : Nat) (t : ρ × Env σ),
    t.2.Below (reached ((Seekable.seek p : Transfer σ ρ Unit) t)).2
  abort : ∀ t : ρ × Env σ, t.2.Below (Abortable.abort t).2

namespace CipherReader

variable {κ' ρ' : Type} {s t u : State σ κ ρ} {fuel n : Nat} {e : Error}

/-- The reader with another session and another source. -/
def refit (k : κ') (i : ρ') (s : State σ κ ρ) : State σ κ' ρ' :=
  ({ s.1 with session := k, inner := i }, s.2)

/-- Every use is refused with `e`, and nothing happens: neither the session nor the source has a
part in it, whatever they are. -/
def Refuses (fuel : Nat) (e : Error) (s : State σ κ ρ) : Prop :=
  ∀ {κ' ρ' : Type} [Session κ' σ] [Source σ ρ'] (k : κ') (i : ρ') (use : Use),
    use.run fuel (refit k i s) = .error e (refit k i s)

/-- Every read gives nothing, and nothing happens; only an abort can still be reported. -/
def Over (fuel : Nat) (s : State σ κ ρ) : Prop :=
  ∀ {κ' ρ' : Type} [Session κ' σ] [Source σ ρ'] (k : κ') (i : ρ') (n : Nat),
    readBytes fuel n (refit k i s) =
      if s.1.abort.isAborted s.2 then .error .aborted (refit k i s) else .ok [] (refit k i s)

/-- Closing does not finalize the session. -/
def Unfinalized (s : State σ κ ρ) : Prop :=
  ∀ {κ' ρ' : Type} [Session κ' σ] (k : κ') (i : ρ'),
    reached ((close : Pull σ κ' ρ' ρ') (refit k i s)) =
      ({ (refit k i s).1 with output := [] }, s.2)

theorem refuses_of_verdict (h : verdict s = .failed e) : Refuses fuel e s := fun k i use =>
  use_of_failed (s := refit k i s) h use

theorem unfinalized_of_failed (h : s.1.failed ≠ none) : Unfinalized s := by
  intro κ' ρ' _ k i
  obtain ⟨e, he⟩ := Option.ne_none_iff_exists'.mp h
  simp only [close, refit, he, Option.isSome_some, Bool.or_true, if_true, run_bind, run_update,
    checkAbort, run_get, run_check]
  cases s.1.abort.check s.2 <;> rfl

theorem verdict_of_aborted (h : s.1.abort.isAborted s.2 = true) : verdict s = .failed .aborted := by
  simp only [verdict, AbortHandle.check, h, if_true]

theorem verdict_of_stored (hs : s.1.failed = some e) (hio : e.isIo = false) :
    verdict s = .failed (if s.1.abort.isAborted s.2 then .aborted else e) := by
  cases h : s.1.abort.isAborted s.2 with
  | true => exact verdict_of_aborted h
  | false =>
    simp only [verdict, AbortHandle.check, h, hs, Bool.false_eq_true, if_false,
      Error.recorded_of_not_isIo hio]

/-! ## Until a reset succeeds -/

section

variable [Session κ σ] [Source σ ρ] [Seekable σ ρ] [Abortable σ ρ]

/-- An error that is stored stays. -/
theorem stored_of_leads (h : Leads fuel Onward s t) (hs : s.1.failed = some e) :
    t.1.failed = some e := by
  refine keeps_onward (I := fun u => u.1.failed = some e) (fun use u hu => ?_)
    (keeps_setMark (keeps_onInner fun _ hu => hu) fun _ _ hu => hu)
    (fun p => keeps_onInner fun _ hu => hu) (fun _ hu => hu) (fun _ _ _ hu => hu) h hs
  obtain ⟨e', he'⟩ : ∃ e', verdict u = .failed e' :=
    exists_failed_of_not_usable fun husable => by simp [husable.failed] at hu
  rw [use_of_failed he']
  exact hu

/-- A flag that is up stays so. -/
theorem aborted_of_leads (hup : Source.Upholds σ ρ) (h : Leads fuel Onward s t)
    (hs : s.1.abort.isAborted s.2 = true) : t.1.abort.isAborted t.2 = true := by
  refine keeps_onward (I := fun u => u.1.abort.isAborted u.2 = true) (fun use u hu => ?_) ?_
    (fun p => ?_) (fun u hu => ?_) (fun _ _ henv hu => AbortHandle.isAborted_mono henv hu) h hs
  · rw [use_of_failed (verdict_of_aborted hu)]
    exact hu
  · refine keeps_setMark (keeps_onInner fun u hu => ?_) fun _ _ hu => hu
    exact AbortHandle.isAborted_mono (hup.position (u.1.inner, u.2)) hu
  · exact keeps_onInner fun u hu => AbortHandle.isAborted_mono (hup.seek p (u.1.inner, u.2)) hu
  · exact AbortHandle.isAborted_mono (hup.abort _) (AbortHandle.isAborted_abort u.1.abort u.2)

/-! ## Failures -/

omit [Seekable σ ρ] [Abortable σ ρ] in
/-- A read that fails, but not with a failed transfer, has stored the error, unless it was refused
because the flag is up. -/
theorem stored_of_readBytes (h : readBytes fuel n s = .error e t) (hio : e.isIo = false) :
    t.1.failed = some e ∨ (t = s ∧ e = .aborted ∧ s.1.abort.isAborted s.2 = true) := by
  by_cases hs : Usable s
  · rw [readBytes_of_usable hs] at h
    split at h
    · cases h
    · unfold readFilled at h
      split at h
      · cases h
      · cases h
      · cases h
        left
        simp only [poison, hio, Bool.false_eq_true, if_false, Error.recorded_of_not_isIo hio]
  · obtain ⟨e', he⟩ := exists_failed_of_not_usable hs
    rw [readBytes_of_failed he] at h
    cases h
    cases ha : s.1.abort.isAborted s.2 with
    | true =>
      rw [verdict_of_aborted ha] at he
      cases he
      exact .inr ⟨rfl, rfl, rfl⟩
    | false =>
      left
      simp only [verdict, AbortHandle.check, ha, Bool.false_eq_true, if_false] at he
      cases hf : s.1.failed with
      | none =>
        exact absurd ⟨by simp [AbortHandle.check, ha], hf⟩ hs
      | some e' =>
        simp only [hf] at he
        cases he
        rw [Error.isIo_recorded] at hio
        rw [Error.recorded_of_not_isIo hio]

/-- **A failure stays.** Once a read has failed, but not with a failed transfer, every use is refused
with the same error until a reset succeeds, or because the flag is up; nothing is asked of the source
or the session. Nor does closing finalize the session, unless it was only the flag that the read
met. -/
theorem failure_stays (hup : Source.Upholds σ ρ) (h : readBytes fuel n s = .error e t)
    (hio : e.isIo = false) (hu : Leads fuel Onward t u) :
    Refuses fuel (if u.1.abort.isAborted u.2 then .aborted else e) u ∧
      (s.1.abort.check s.2 = .ok () ∨ s.1.failed ≠ none → Unfinalized u) := by
  rcases stored_of_readBytes h hio with hstored | ⟨rfl, rfl, hs⟩
  · have hfailed := stored_of_leads hu hstored
    exact ⟨refuses_of_verdict (verdict_of_stored hfailed hio),
      fun _ => unfinalized_of_failed (by simp [hfailed])⟩
  · have haborted := aborted_of_leads hup hu hs
    rw [if_pos haborted]
    refine ⟨refuses_of_verdict (verdict_of_aborted haborted), ?_⟩
    rintro (hcheck | hfailed)
    · simp [AbortHandle.check, hs] at hcheck
    · obtain ⟨e', he'⟩ := Option.ne_none_iff_exists'.mp hfailed
      exact unfinalized_of_failed (by simp [stored_of_leads hu he'])

end

/-! ## Ends -/

/-- The reader has come to its end. -/
structure Settled (s : State σ κ ρ) : Prop where
  eof : s.1.eof = true
  output : s.1.output = []
  accessed : s.1.accessed = true
  failed : s.1.failed = none

/-- A refill says of the output whether there is any, and `done` only at the end. -/
def Said (refill : Refill) (s : State σ κ ρ) : Prop :=
  (s.1.output ≠ [] ↔ refill = .data) ∧ (refill = .done → s.1.eof = true)

theorem said_setOutput {bytes : Bytes} {refill : Refill}
    (h : (setOutput bytes : Pull σ κ ρ Refill) s = .ok refill t) : Said refill t := by
  obtain ⟨r, env⟩ := s
  rw [run_setOutput] at h
  cases h
  refine ⟨?_, ?_⟩ <;> cases bytes <;> simp

theorem said_setLastOutput {bytes : Bytes} {refill : Refill} (he : s.1.eof = true)
    (h : (setLastOutput bytes : Pull σ κ ρ Refill) s = .ok refill t) : Said refill t := by
  obtain ⟨r, env⟩ := s
  simp only [setLastOutput, run_bind, run_setOutput] at h
  cases bytes with
  | nil =>
    cases h
    exact ⟨by simp, fun _ => he⟩
  | cons b bs =>
    cases h
    exact ⟨by simp, by simp⟩

section

variable [Session κ σ] [Source σ ρ]

theorem eof_of_pull {out : Bytes} (h : (pull fuel : Pull σ κ ρ (Bytes × Bool)) s = .ok (out, true) t) :
    t.1.eof = true := by
  obtain ⟨block, u, -, h⟩ := exists_of_bind_eq_ok h
  rw [run_ite] at h
  split at h
  · obtain ⟨tail, v, hfinish, h⟩ := exists_of_bind_eq_ok h
    obtain ⟨tail', w, -, hfinish⟩ := exists_of_bind_eq_ok hfinish
    cases hfinish
    cases h
    rfl
  · obtain ⟨more, v, -, h⟩ := exists_of_bind_eq_ok h
    cases h

theorem said_blockRefill {refill : Refill}
    (h : (blockRefill fuel : Pull σ κ ρ Refill) s = .ok refill t) : Said refill t := by
  rw [blockRefill_eq_pull] at h
  obtain ⟨⟨out, last⟩, u, hpull, h⟩ := exists_of_bind_eq_ok h
  cases last with
  | true => exact said_setLastOutput (eof_of_pull hpull) h
  | false => exact said_setOutput h

theorem said_firstRefill {refill : Refill}
    (h : (firstRefill fuel : Pull σ κ ρ Refill) s = .ok refill t) : Said refill t := by
  obtain ⟨_, u, -, h⟩ := exists_of_bind_eq_ok h
  obtain ⟨header, v, -, h⟩ := exists_of_bind_eq_ok h
  simp only [run_bind, run_get, run_ite] at h
  split at h
  · exact said_setOutput h
  · split at h
    · cases hplain : (assembleHeader fuel fuel [] : Pull σ κ ρ Bytes) v with
      | error e w =>
        rw [hplain] at h
        cases h
      | ok plain w =>
        simp only [hplain] at h
        split at h
        · rename_i he
          exact said_setLastOutput he h
        · exact said_setOutput h
    · exact said_blockRefill h

theorem said_refill (ho : s.1.output = []) {rf : Refill}
    (h : (refill fuel : Pull σ κ ρ Refill) s = .ok rf t) : Said rf t := by
  obtain ⟨_, u, hcheck, hrest⟩ := exists_of_bind_eq_ok h
  obtain rfl : u = s := by
    simp only [checkAbort, run_bind, run_get, run_check] at hcheck
    split at hcheck
    · cases hcheck
      rfl
    · cases hcheck
  simp only [run_bind, run_get, run_ite] at hrest
  split at hrest
  · rename_i he
    cases hrest
    exact ⟨by simp [ho], fun _ => he⟩
  · split at hrest
    · exact said_blockRefill hrest
    · exact said_firstRefill hrest

/-- By induction on the refills that may still give nothing. -/
theorem said_refillLoop : ∀ (left : Nat) {s : State σ κ ρ} {more : Bool}, s.1.output = [] →
    (refillLoop fuel left : Pull σ κ ρ Bool) s = .ok more t →
    (t.1.output ≠ [] ↔ more = true) ∧ (more = false → t.1.eof = true)
  | left, s, more, ho, h => by
    have hstep : ∃ rf u, (refill fuel : Pull σ κ ρ Refill) s = .ok rf u := by
      cases left <;>
        · obtain ⟨rf, u, hrf, -⟩ := exists_of_bind_eq_ok h
          exact ⟨rf, u, hrf⟩
    obtain ⟨rf, u, hrf⟩ := hstep
    obtain ⟨hdata, heof⟩ := said_refill ho hrf
    cases rf with
    | data =>
      cases left <;> simp only [refillLoop, run_bind, hrf, run_pure] at h <;> cases h <;>
        exact ⟨by simp [hdata], by simp⟩
    | done =>
      cases left <;> simp only [refillLoop, run_bind, hrf, run_pure] at h <;> cases h <;>
        exact ⟨by simp [hdata], fun _ => heof rfl⟩
    | empty =>
      cases left with
      | zero =>
        simp only [refillLoop, run_bind, hrf, run_throw] at h
        cases h
      | succ left =>
        have hnil : u.1.output = [] := Classical.not_not.mp (mt hdata.mp (by simp))
        simp only [refillLoop, run_bind, hrf] at h
        exact said_refillLoop left hnil h

/-- A read that gives nothing to a caller who wants something is the end. -/
theorem settled_of_readBytes (hn : n ≠ 0) (h : readBytes fuel n s = .ok [] t) : Settled t := by
  have hs : Usable s := usable_of_checked h
  by_cases hsettled : n = 0 ∨ s.1.output ≠ [] ∨ s.1.eof = true
  · rw [readBytes_of_settled hs hsettled] at h
    injection h with hout ht
    have ho : s.1.output = [] := (List.take_eq_nil_iff.mp hout).resolve_left hn
    subst ht
    refine ⟨(hsettled.resolve_left hn).resolve_left (absurd ho), ?_, rfl, hs.failed⟩
    simp only [ho, List.drop_nil]
  · rw [not_or, not_or, Classical.not_not] at hsettled
    obtain ⟨-, ho, -⟩ := hsettled
    rw [readBytes_of_usable hs, if_neg hn] at h
    unfold readFilled at h
    cases hfill : (fill fuel : Pull σ κ ρ Bool) ({ s.1 with accessed := true }, s.2) with
    | error e u =>
      rw [hfill] at h
      cases h
    | ok more u =>
      have hkept : u.1.accessed = true ∧ u.1.failed = none := by
        have htandem : Tandem fuel
            (Itself fun s : State σ κ ρ => s.1.accessed = true ∧ s.1.failed = none) fun _ _ => False :=
          tandem_notes (P := fun accessed failed => accessed = true ∧ failed = none)
            fun hP => ⟨rfl, hP.2⟩
        have hkeeps := Alike.keeps htandem.fill (fun _ _ hfalse => hfalse.elim)
          ({ s.1 with accessed := true }, s.2) ⟨rfl, hs.failed⟩
        rw [hfill] at hkeeps
        exact hkeeps
      rw [hfill] at h
      rw [fill_of_nil (s := ({ s.1 with accessed := true }, s.2)) ho] at hfill
      obtain ⟨hmore, heof⟩ := said_refillLoop maxEmptyRefills
        (s := ({ s.1 with accessed := true }, s.2)) ho hfill
      obtain ⟨r, env⟩ := u
      cases more with
      | true =>
        injection h with hout
        exact absurd ((List.take_eq_nil_iff.mp hout).resolve_left hn) (hmore.mpr rfl)
      | false =>
        injection h with _ ht
        subst ht
        exact ⟨heof rfl, Classical.not_not.mp (mt hmore.mp (by simp)), hkept.1, hkept.2⟩

omit [Session κ σ] [Source σ ρ] in
/-- A reader that has come to its end gives nothing, whatever it is asked. -/
theorem Settled.over (hs : Settled s) : Over fuel s := by
  intro κ' ρ' _ _ k i m
  cases ha : s.1.abort.isAborted s.2 with
  | true =>
    rw [if_pos rfl]
    exact readBytes_of_failed (verdict_of_aborted (s := refit k i s) ha)
  | false =>
    have husable : Usable (refit k i s) := ⟨by simp [refit, AbortHandle.check, ha], hs.failed⟩
    rw [if_neg Bool.false_ne_true, readBytes_of_settled husable (.inr (.inr hs.eof))]
    simp only [refit, hs.output, List.take_nil, List.drop_nil]
    rw [← hs.output, ← hs.accessed]

theorem settled_use (use : Use) : Keeps (Settled : State σ κ ρ → Prop) (use.run fuel) := by
  intro s hs
  by_cases hu : Usable s
  · cases use with
    | available =>
      simp only [Use.run, run_bind, available_of_usable hu]
      exact hs
    | skip m =>
      simp only [Use.run, run_bind, skip_of_usable hu]
      exact ⟨hs.eof, by simp [hs.output, run_pure, reached], rfl, hs.failed⟩
    | read m =>
      simp only [Use.run, run_bind, readBytes_of_settled hu (.inr (.inr hs.eof))]
      exact ⟨hs.eof, by simp [hs.output, run_pure, reached], rfl, hs.failed⟩
  · obtain ⟨e, he⟩ := exists_failed_of_not_usable hu
    rw [use_of_failed he]
    exact hs

variable [Seekable σ ρ] [Abortable σ ρ]

/-- **An end stays.** Once a read into a buffer with room for something has given nothing, all reads
do, until a reset succeeds; nothing is asked of the source or the session. -/
theorem end_stays (hn : n ≠ 0) (h : readBytes fuel n s = .ok [] t) (hu : Leads fuel Onward t u) :
    Over fuel u := by
  refine Settled.over (keeps_onward settled_use ?_ ?_ ?_ ?_ hu (settled_of_readBytes hn h))
  · refine keeps_setMark (keeps_onInner fun _ hs => ?_) fun _ _ hs => ?_
    · exact ⟨hs.eof, hs.output, hs.accessed, hs.failed⟩
    · exact ⟨hs.eof, hs.output, hs.accessed, hs.failed⟩
  · exact fun p => keeps_onInner fun _ hs => ⟨hs.eof, hs.output, hs.accessed, hs.failed⟩
  · exact fun _ hs => ⟨hs.eof, hs.output, hs.accessed, hs.failed⟩
  · exact fun _ _ _ hs => ⟨hs.eof, hs.output, hs.accessed, hs.failed⟩

end

end CipherReader

end SealedStream
