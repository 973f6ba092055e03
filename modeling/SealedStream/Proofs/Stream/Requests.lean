import SealedStream.Proofs.Stream.Flags
import SealedStream.Proofs.Stream.Tandem

/-!
# Requests to a reader

All that a caller may ask of a reader over a source that can go back: to read, skip and say what is
available, to mark its position and to reset, and to abort. `Leads` is where requests and what
happens elsewhere may lead a reader, and `served` is what it says to one use after the other.
-/

namespace SealedStream

namespace CipherReader

variable {σ κ ρ ρ' : Type}

/-- What a caller asks of a reader over a source that can go back. -/
inductive Request
  | use (use : Use)
  | mark
  | reset
  | abort

section

variable [Session κ σ] [Source σ ρ] [Seekable σ ρ] [Abortable σ ρ]

/-- What the reader answers, if it has anything to say. -/
def Request.run (fuel : Nat) : Request → Pull σ κ ρ (Option Answer)
  | .use u => return some (← u.run fuel)
  | .mark => do setMark; return none
  | .reset => do CipherReader.reset; return none
  | .abort => do modify Abortable.abort; return none

/-- Where a reader may come from `s` by requests that `may` be made. In between, anything may happen
elsewhere to what the reader shares, except that no flag is lowered. -/
inductive Leads (fuel : Nat) (may : Request → State σ κ ρ → Prop) (s : State σ κ ρ) :
    State σ κ ρ → Prop
  | refl : Leads fuel may s s
  | request {t : State σ κ ρ} (request : Request) :
      Leads fuel may s t → may request t → Leads fuel may s (reached (request.run fuel t))
  | elsewhere {t : State σ κ ρ} {env : Env σ} :
      Leads fuel may s t → t.2.Below env → Leads fuel may s (t.1, env)

/-- What requests keep, and what does not depend on what is shared but for flags going up, is kept
wherever they lead. -/
theorem Leads.keeps {fuel : Nat} {may : Request → State σ κ ρ → Prop} {s t : State σ κ ρ}
    (I : State σ κ ρ → Prop)
    (hrequest : ∀ request t, may request t → I t → I (reached (request.run fuel t)))
    (helsewhere : ∀ t env, t.2.Below env → I t → I (t.1, env)) (h : Leads fuel may s t)
    (hs : I s) : I t := by
  induction h with
  | refl => exact hs
  | request request _ hmay ih => exact hrequest request _ hmay ih
  | elsewhere _ henv ih => exact helsewhere _ _ henv ih

/-- Any request may be made. -/
def Any : Request → State σ κ ρ → Prop := fun _ _ => True

/-- Any request may be made but one: a reset that succeeds. -/
def Onward : Request → State σ κ ρ → Prop := fun request s =>
  request = .reset → ∀ u, (reset : Pull σ κ ρ Unit) s ≠ .ok () u

end

/-! ## Marking and resetting -/

section

variable [Seekable σ ρ]

theorem run_setMark (s : State σ κ ρ) :
    (setMark : Pull σ κ ρ Unit) s =
      if s.1.accessed then .error (.invalidState .markAfterAccess) s
      else match (Seekable.position : Transfer σ ρ Nat) (s.1.inner, s.2) with
        | .ok p u => .ok () ({ s.1 with inner := u.1, mark := some p }, u.2)
        | .error e u => .error (.ofIo e) ({ s.1 with inner := u.1 }, u.2) := by
  obtain ⟨r, env⟩ := s
  simp only [setMark, run_bind, run_get, run_ite, run_throw, run_onInner]
  cases r.accessed with
  | true => rfl
  | false =>
    simp only [Bool.false_eq_true, if_false]
    cases (Seekable.position : Transfer σ ρ Nat) (r.inner, env) <;> rfl

variable [Session κ σ]

/-- The reader with nothing read, and its session started over. -/
def rewound (r : CipherReader κ ρ) : CipherReader κ ρ :=
  { r with
    output := [], eof := false, started := false, accessed := false, failed := none
    session := Session.restart r.session }

theorem run_reset (s : State σ κ ρ) :
    (reset : Pull σ κ ρ Unit) s = match s.1.abort.check s.2 with
      | .error e => .error e s
      | .ok _ => match s.1.mark with
        | none => .error (.invalidState .resetWithoutMark) s
        | some p => match (Seekable.seek p : Transfer σ ρ Unit) (s.1.inner, s.2) with
          | .ok _ u => .ok () (rewound { s.1 with inner := u.1 }, u.2)
          | .error e u => .error (.ofIo e) ({ s.1 with inner := u.1 }, u.2) := by
  obtain ⟨r, env⟩ := s
  simp only [reset, checkAbort, run_bind, run_get, run_check]
  cases r.abort.check env with
  | error e => rfl
  | ok _ =>
    simp only
    cases hm : r.mark with
    | none => simp only [run_throw]
    | some p =>
      simp only [hm, run_bind, run_onInner]
      cases (Seekable.seek p : Transfer σ ρ Unit) (r.inner, env) <;> rfl

/-- A reset that succeeds has found its mark, and has gone back to it. -/
theorem exists_of_reset {s t : State σ κ ρ} (h : (reset : Pull σ κ ρ Unit) s = .ok () t) :
    s.1.abort.check s.2 = .ok () ∧ ∃ p u, s.1.mark = some p ∧
      (Seekable.seek p : Transfer σ ρ Unit) (s.1.inner, s.2) = .ok () u ∧
      t = (rewound { s.1 with inner := u.1 }, u.2) := by
  rw [run_reset] at h
  cases hc : s.1.abort.check s.2 with
  | error e =>
    rw [hc] at h
    cases h
  | ok _ =>
    rw [hc] at h
    cases hm : s.1.mark with
    | none =>
      rw [hm] at h
      cases h
    | some p =>
      rw [hm] at h
      cases hs : (Seekable.seek p : Transfer σ ρ Unit) (s.1.inner, s.2) with
      | error e u =>
        simp only [hs] at h
        cases h
      | ok _ u =>
        simp only [hs] at h
        cases h
        exact ⟨rfl, p, u, rfl, hs, rfl⟩

/-- A reset that fails has changed nothing, but for what the source did when it failed to seek. -/
theorem cases_of_reset_error {s t : State σ κ ρ} {e : Error}
    (h : (reset : Pull σ κ ρ Unit) s = .error e t) : t = s ∨
      ∃ p e' u, s.1.mark = some p ∧
        (Seekable.seek p : Transfer σ ρ Unit) (s.1.inner, s.2) = .error e' u ∧
        t = ({ s.1 with inner := u.1 }, u.2) := by
  rw [run_reset] at h
  cases hc : s.1.abort.check s.2 with
  | error e =>
    rw [hc] at h
    cases h
    exact .inl rfl
  | ok _ =>
    rw [hc] at h
    cases hm : s.1.mark with
    | none =>
      rw [hm] at h
      cases h
      exact .inl rfl
    | some p =>
      rw [hm] at h
      cases hs : (Seekable.seek p : Transfer σ ρ Unit) (s.1.inner, s.2) with
      | error e u =>
        simp only [hs] at h
        cases h
        exact .inr ⟨p, e, u, rfl, hs, rfl⟩
      | ok _ u =>
        simp only [hs] at h
        cases h

omit [Session κ σ] in
theorem keeps_setMark {I : State σ κ ρ → Prop}
    (hposition : Keeps I (onInner Seekable.position : Pull σ κ ρ Nat))
    (hmark : ∀ s p, I s → I ({ s.1 with mark := some p }, s.2)) :
    Keeps I (setMark : Pull σ κ ρ Unit) :=
  .bind .get fun _ => .ite _ (.throw _) (.bind hposition fun p => .modify fun s hs => hmark s p hs)

theorem keeps_reset {I : State σ κ ρ → Prop}
    (hseek : ∀ p, Keeps I (onInner (Seekable.seek p) : Pull σ κ ρ Unit))
    (hback : ∀ s, I s → I (rewound s.1, s.2)) : Keeps I (reset : Pull σ κ ρ Unit) := by
  refine .bind (.bind .get fun _ => .check _) fun _ => .bind .get fun (r, _) => ?_
  dsimp only
  split
  · exact .throw _
  · exact .bind (hseek _) fun _ => .modify hback

/-- What a request keeps that uses, marking, resetting and aborting keep. -/
theorem keeps_request [Source σ ρ] [Abortable σ ρ] {fuel : Nat} {I : State σ κ ρ → Prop}
    (huse : ∀ use : Use, Keeps I (use.run fuel)) (hmark : Keeps I (setMark : Pull σ κ ρ Unit))
    (hreset : Keeps I (reset : Pull σ κ ρ Unit)) (habort : ∀ s, I s → I (Abortable.abort s)) :
    ∀ request : Request, Keeps I (request.run fuel)
  | .use use => .bind (huse use) fun _ => .pure _
  | .mark => .bind hmark fun _ => .pure _
  | .reset => .bind hreset fun _ => .pure _
  | .abort => .bind (.modify habort) fun _ => .pure _

end

section

variable [Session κ σ] [Source σ ρ] {fuel : Nat} {s t : State σ κ ρ}

/-- A reader that is not usable refuses every use, and nothing happens. -/
theorem use_of_failed {e : Error} (h : verdict s = .failed e) (use : Use) :
    use.run fuel s = .error e s := by
  cases use with
  | read n => simp only [Use.run, run_bind, readBytes_of_failed h]
  | skip n => simp only [Use.run, CipherReader.skip, run_bind, run_checkUsable, h]
  | available => simp only [Use.run, CipherReader.available, run_bind, run_checkUsable, h]

omit [Session κ σ] [Source σ ρ] in
theorem exists_failed_of_not_usable (h : ¬ Usable s) : ∃ e, verdict s = .failed e := by
  cases hv : verdict s with
  | failed e => exact ⟨e, rfl⟩
  | going => exact absurd (usable_of_verdict (by simp [hv])) h
  | ended => exact absurd (usable_of_verdict (by simp [hv])) h

variable [Seekable σ ρ] [Abortable σ ρ]

/-- What uses and marking keep, and going to another place of the source and aborting, is kept until a
reset succeeds. -/
theorem keeps_onward {I : State σ κ ρ → Prop} (huse : ∀ use : Use, Keeps I (use.run fuel))
    (hmark : Keeps I (setMark : Pull σ κ ρ Unit))
    (hseek : ∀ p, Keeps I (onInner (Seekable.seek p) : Pull σ κ ρ Unit))
    (habort : ∀ s, I s → I (Abortable.abort s))
    (helsewhere : ∀ s env, s.2.Below env → I s → I (s.1, env)) (h : Leads fuel Onward s t)
    (hs : I s) : I t := by
  refine h.keeps I ?_ helsewhere hs
  intro request u hmay hu
  cases request with
  | use use => exact Keeps.bind (huse use) (fun _ => .pure _) u hu
  | mark => exact Keeps.bind hmark (fun _ => .pure _) u hu
  | abort => exact habort u hu
  | reset =>
    simp only [Request.run, run_bind]
    cases hrun : (CipherReader.reset : Pull σ κ ρ Unit) u with
    | ok _ v => exact absurd hrun (hmay rfl v)
    | error e v =>
      rcases cases_of_reset_error hrun with rfl | ⟨p, e', w, -, hw, rfl⟩
      · exact hu
      · have hv := hseek p u hu
        obtain ⟨r, env⟩ := u
        rw [run_onInner, hw] at hv
        exact hv

end

/-! ## What a reader says -/

section

variable [Session κ σ] [Source σ ρ] [Source σ ρ'] {fuel : Nat}
  {R : State σ κ ρ → State σ κ ρ' → Prop} {s : State σ κ ρ} {t : State σ κ ρ'}

/-- What the reader says to one use after the other, whatever it says. -/
def served (fuel : Nat) : List Use → State σ κ ρ → List (Except Error Answer)
  | [], _ => []
  | use :: uses, s => outcome (use.run fuel s) :: served fuel uses (reached (use.run fuel s))

variable (h : Tandem fuel R fun _ _ => False)
  (hpoison : ∀ {s t} (e : Error), R s t → R (poison e s.1, s.2) (poison e t.1, t.2))

include h hpoison

theorem Tandem.use_whole (use : Use) :
    Alike R (fun _ _ => False) (use.run fuel : Pull σ κ ρ Answer) (use.run fuel) :=
  (h.use hpoison use).mono fun _ _ ⟨_, hfalse, _⟩ => hfalse

/-- **Readers in tandem, neither of which is cut short, say the same to the same uses.** -/
theorem Tandem.served_eq (hst : R s t) (uses : List Use) :
    served fuel uses s = served fuel uses t := by
  induction uses generalizing s t with
  | nil => rfl
  | cons use uses ih =>
    have huse := h.use_whole hpoison use s t hst
    rw [served, served, huse.outcome_eq, ih huse.related]

theorem Tandem.reads_eq (again : Error → Bool) (hst : R s t) (ns : List Nat) :
    (reads fuel again ns s).bytes = (reads fuel again ns t).bytes ∧
      (reads fuel again ns s).ending = (reads fuel again ns t).ending := by
  induction ns generalizing s t with
  | nil => exact ⟨rfl, rfl⟩
  | cons n ns ih =>
    have hread := ((h.readBytes hpoison n).mono fun _ _ ⟨_, hfalse, _⟩ => hfalse) s t hst
    rw [reads, reads]
    generalize CipherReader.readBytes fuel n s = p, CipherReader.readBytes fuel n t = q at hread
    cases hread with
    | ok out huv =>
      obtain ⟨hbytes, hending⟩ := ih huv
      simp only [Reading.after]
      split
      · exact ⟨rfl, rfl⟩
      · exact ⟨congrArg (out ++ ·) hbytes, hending⟩
    | error e huv =>
      simp only
      split
      · exact ih huv
      · exact ⟨rfl, rfl⟩
    | cut _ hfalse => exact hfalse.elim

end

end CipherReader

end SealedStream
