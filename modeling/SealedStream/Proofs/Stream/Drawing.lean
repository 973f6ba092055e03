import SealedStream.Proofs.Session.Quiet
import SealedStream.Proofs.Stream.Reading

/-!
# Reading as a series of draws

Whatever loop of a reader is at work, what it does next is the same: it starts its session, or takes
one block of the source through it, or finalizes it at the end of the source. `draw` is this next
thing. A read draws until it has something to say (`Answers`), and over a quiet session it says just
what the last draw said; or it gives up, after more silent draws than it has patience for
(`fill_cases`).
-/

namespace SealedStream

/-- To be aborted is no failed transfer. -/
theorem AbortHandle.isIo_of_check {σ : Type} {abort : AbortHandle} {env : Env σ} {e : Error}
    (h : abort.check env = .error e) : e.isIo = false := by
  unfold check at h
  split at h
  · cases h
    rfl
  · cases h

namespace CipherReader

variable {σ κ ρ : Type}

/-- A reader with what it shares. -/
abbrev State (σ κ ρ : Type) := CipherReader κ ρ × Env σ

/-- The reader is neither aborted nor failed. -/
structure Usable (s : State σ κ ρ) : Prop where
  abort : s.1.abort.check s.2 = .ok ()
  failed : s.1.failed = none

theorem run_checkAbort_of {s : State σ κ ρ} (h : s.1.abort.check s.2 = .ok ()) :
    (checkAbort : Pull σ κ ρ Unit) s = .ok () s := by
  simp only [checkAbort, run_bind, run_get, run_check, h]

theorem Usable.run_checkUsable {s : State σ κ ρ} (h : Usable s) :
    (checkUsable : Pull σ κ ρ Unit) s = .ok () s := by
  simp only [checkUsable, run_bind, run_checkAbort_of h.abort, run_get, h.failed, run_pure]

theorem Reads.usable [Source σ ρ] {S : WorkingSource σ ρ} {At : Bytes → κ → Prop} {w fed : Bytes}
    {s : State σ κ ρ} (h : Reads S At w fed s.1) : Usable s where
  abort := by
    simp only [AbortHandle.check, AbortHandle.isAborted, h.abort]
    rfl
  failed := h.failed

/-! ## Draws -/

section

variable [Session κ σ]

/-- Takes a block through the session, or finalizes it if there is none. -/
def feed (block : Bytes) : Pull σ κ ρ Bytes :=
  if block.isEmpty then finish else onSession (Session.update block)

def startSession : Pull σ κ ρ Bytes := do
  update fun r => { r with started := true }
  onSession Session.start

/-- What a reader does next for its output. -/
def draw [Source σ ρ] (fuel : Nat) : Pull σ κ ρ Bytes := do
  checkAbort
  let (r, _) ← get
  if r.eof then return []
  else if r.started then readBlock fuel >>= feed
  else startSession

theorem run_finish (r : CipherReader κ ρ) (env : Env σ) :
    (finish : Pull σ κ ρ Bytes) (r, env) =
      match (Session.finalize : Step (κ × σ) Bytes) (r.session, env.world) with
      | .ok out t => .ok out ({ r with session := t.1, eof := true }, { env with world := t.2 })
      | .error e t => .error e ({ r with session := t.1 }, { env with world := t.2 }) := by
  simp only [finish, run_bind, run_onSession]
  cases (Session.finalize : Step (κ × σ) Bytes) (r.session, env.world) <;> rfl

end

/-- What is the same before and after a draw, and what a draw makes of the session. -/
structure Drawn [Session κ σ] (s t : State σ κ ρ) : Prop where
  output : t.1.output = s.1.output
  accessed : t.1.accessed = s.1.accessed
  failed : t.1.failed = s.1.failed
  started : t.1.started = true
  session : t.1.session = s.1.session ∨
    ∃ (call : Session.Call) (w : σ), t.1.session = (reached (call.run (s.1.session, w))).1

section

variable [Session κ σ] {s t : State σ κ ρ} {fuel : Nat} {out : Bytes}

/-- A step of the session changes nothing but the session and the world. -/
theorem drawn_onSession (hs : s.1.started = true) (call : Session.Call) :
    Drawn s (reached ((onSession call.run : Pull σ κ ρ Bytes) s)) := by
  obtain ⟨r, env⟩ := s
  rw [run_onSession]
  cases hrun : (call.run : Step (κ × σ) Bytes) (r.session, env.world) with
  | ok out u => exact ⟨rfl, rfl, rfl, hs, .inr ⟨call, env.world, by rw [hrun]; rfl⟩⟩
  | error e u => exact ⟨rfl, rfl, rfl, hs, .inr ⟨call, env.world, by rw [hrun]; rfl⟩⟩

theorem drawn_feed (hs : s.1.started = true) (block : Bytes) :
    Drawn s (reached (feed block s)) := by
  unfold feed
  split
  · have h := drawn_onSession hs .finalize
    simp only [Session.Call.run] at h
    simp only [finish, run_bind]
    cases hrun : (onSession Session.finalize : Pull σ κ ρ Bytes) s with
    | ok out t =>
      rw [hrun] at h
      exact ⟨h.output, h.accessed, h.failed, h.started, h.session⟩
    | error e t =>
      rw [hrun] at h
      exact h
  · exact drawn_onSession hs (.update block)

omit [Session κ σ] in
/-- Looking at an abort flag does not depend on the world. -/
theorem usable_onSession {x : Step (κ × σ) Bytes} (hs : Usable s)
    (h : (onSession x : Pull σ κ ρ Bytes) s = .ok out t) : Usable t := by
  obtain ⟨r, env⟩ := s
  rw [run_onSession] at h
  cases hx : x (r.session, env.world) with
  | ok out u =>
    rw [hx] at h
    cases h
    exact ⟨hs.abort, hs.failed⟩
  | error e u =>
    rw [hx] at h
    cases h

theorem usable_feed {block : Bytes} (hs : Usable s) (h : feed block s = .ok out t) :
    Usable t := by
  unfold feed at h
  split at h
  · obtain ⟨tail, u, hf, h⟩ := exists_of_bind_eq_ok h
    have hu := usable_onSession hs hf
    cases h
    exact ⟨hu.abort, hu.failed⟩
  · exact usable_onSession hs h

end

section

variable [Source σ ρ] {s t : State σ κ ρ} {fuel : Nat}

theorem run_readBlock (fuel : Nat) (s : State σ κ ρ) :
    (readBlock fuel : Pull σ κ ρ Bytes) s =
      match (Source.read fuel s.1.blockSize : Transfer σ ρ Bytes) (s.1.inner, s.2) with
      | .error e u => .error (.ofIo e) ({ s.1 with inner := u.1 }, u.2)
      | .ok block u =>
        match s.1.abort.check u.2 with
        | .error e => .error e ({ s.1 with inner := u.1 }, u.2)
        | .ok _ => .ok block ({ s.1 with inner := u.1 }, u.2) := by
  obtain ⟨r, env⟩ := s
  simp only [readBlock, run_bind, run_get, run_onInner]
  cases (Source.read fuel r.blockSize : Transfer σ ρ Bytes) (r.inner, env) with
  | error e u => rfl
  | ok block u =>
    simp only [checkAbort, run_bind, run_get, run_check]
    cases r.abort.check u.2 <;> rfl

/-- Reading a block moves the source only; if it succeeds, the reader is not aborted. -/
theorem readBlock_cases (fuel : Nat) (s : State σ κ ρ) :
    (∃ (e : Error) (u : ρ × Env σ),
      (readBlock fuel : Pull σ κ ρ Bytes) s = .error e ({ s.1 with inner := u.1 }, u.2)) ∨
    ∃ (block : Bytes) (u : ρ × Env σ),
      (readBlock fuel : Pull σ κ ρ Bytes) s = .ok block ({ s.1 with inner := u.1 }, u.2) ∧
      s.1.abort.check u.2 = .ok () := by
  rw [run_readBlock]
  cases (Source.read fuel s.1.blockSize : Transfer σ ρ Bytes) (s.1.inner, s.2) with
  | error e u => exact .inl ⟨_, u, rfl⟩
  | ok block u =>
    cases hcheck : s.1.abort.check u.2 with
    | error e => exact .inl ⟨e, u, by simp only [hcheck]⟩
    | ok _ => exact .inr ⟨block, u, by simp only [hcheck], hcheck⟩

variable [Session κ σ] {out : Bytes}

/-- A draw changes nothing, or starts the session, or takes a block through it. -/
theorem draw_cases (fuel : Nat) (s : State σ κ ρ) :
    (given (draw fuel s) = [] ∧ reached (draw fuel s) = s) ∨ draw fuel s = startSession s ∨
      draw fuel s = (readBlock fuel >>= feed : Pull σ κ ρ Bytes) s := by
  simp only [draw, checkAbort, run_bind, run_get, run_check]
  cases s.1.abort.check s.2 with
  | error e => exact .inl ⟨rfl, rfl⟩
  | ok _ =>
    simp only [run_ite]
    split
    · exact .inl ⟨rfl, rfl⟩
    · split
      · exact .inr (.inr rfl)
      · exact .inr (.inl rfl)

theorem draw_of_eof (hs : Usable s) (he : s.1.eof = true) : draw fuel s = .ok [] s := by
  simp only [draw, run_bind, run_checkAbort_of hs.abort, run_get, run_ite, he, if_true, run_pure]

theorem draw_of_started (hs : Usable s) (he : s.1.eof = false) (hst : s.1.started = true) :
    draw fuel s = (readBlock fuel >>= feed : Pull σ κ ρ Bytes) s := by
  simp only [draw, run_bind, run_checkAbort_of hs.abort, run_get, run_ite, he, hst, if_true,
    Bool.false_eq_true, if_false]

theorem draw_of_fresh (hs : Usable s) (he : s.1.eof = false) (hst : s.1.started = false) :
    draw fuel s = startSession s := by
  simp only [draw, run_bind, run_checkAbort_of hs.abort, run_get, run_ite, he, hst,
    Bool.false_eq_true, if_false]

theorem drawn_draw (fuel : Nat) (hs : Usable s) (he : s.1.eof = false) :
    Drawn s (reached (draw fuel s)) := by
  cases hst : s.1.started with
  | false =>
    rw [draw_of_fresh hs he hst]
    have h := drawn_onSession (s := ({ s.1 with started := true }, s.2)) rfl .start
    exact ⟨h.output, h.accessed, h.failed, h.started, h.session⟩
  | true =>
    rw [draw_of_started hs he hst, run_bind]
    rcases readBlock_cases fuel s with ⟨e, u, hr⟩ | ⟨block, u, hr, -⟩
    · rw [hr]
      exact ⟨rfl, rfl, rfl, hst, .inl rfl⟩
    · rw [hr]
      have h := drawn_feed (s := ({ s.1 with inner := u.1 }, u.2)) hst block
      exact ⟨h.output, h.accessed, h.failed, h.started, h.session⟩

theorem usable_draw (hs : Usable s) (h : draw fuel s = .ok out t) : Usable t := by
  cases he : s.1.eof with
  | true =>
    rw [draw_of_eof hs he] at h
    cases h
    exact hs
  | false =>
    cases hst : s.1.started with
    | false =>
      rw [draw_of_fresh hs he hst] at h
      exact usable_onSession (s := ({ s.1 with started := true }, s.2)) ⟨hs.abort, hs.failed⟩ h
    | true =>
      rw [draw_of_started hs he hst, run_bind] at h
      rcases readBlock_cases fuel s with ⟨e, u, hr⟩ | ⟨block, u, hr, hu⟩
      · rw [hr] at h
        cases h
      · rw [hr] at h
        exact usable_feed (s := ({ s.1 with inner := u.1 }, u.2)) ⟨hu, hs.failed⟩ h

end

/-! ## Silent draws -/

/-- The result of a draw that has nothing to say: no bytes, no end and no failure. -/
def IsSilent : EStateM.Result Error (State σ κ ρ) Bytes → Prop
  | .ok [] t => t.1.eof = false
  | _ => False

theorem isSilent_iff {res : EStateM.Result Error (State σ κ ρ) Bytes} :
    IsSilent res ↔ ∃ t, res = .ok [] t ∧ t.1.eof = false := by
  constructor
  · intro h
    match res, h with
    | .ok [] t, h => exact ⟨t, rfl, h⟩
  · rintro ⟨t, rfl, ht⟩
    exact ht

/-- A reader in the middle of a read that has to be refilled, with a session among `P`. -/
structure Idle (P : κ → Prop) (s : State σ κ ρ) : Prop where
  usable : Usable s
  output : s.1.output = []
  accessed : s.1.accessed = true
  eof : s.1.eof = false
  session : P s.1.session

section

variable [Session κ σ] [Source σ ρ] {P : κ → Prop} {s t u : State σ κ ρ} {fuel i j : Nat}

/-- So many silent draws lead from one state to another. -/
inductive Silently (fuel : Nat) : Nat → State σ κ ρ → State σ κ ρ → Prop
  | refl (s : State σ κ ρ) : Silently fuel 0 s s
  | step {s t u : State σ κ ρ} {j : Nat} : draw fuel s = .ok [] t → t.1.eof = false →
      Silently fuel j t u → Silently fuel (j + 1) s u

namespace Silently

theorem trans (h : Silently fuel i s t) (h' : Silently fuel j t u) :
    Silently fuel (i + j) s u := by
  induction h with
  | refl s => rwa [Nat.zero_add]
  | step hd he _ ih =>
    rw [Nat.add_right_comm]
    exact .step hd he (ih h')

/-- Of two series of silent draws from one state the longer goes on where the shorter ends. -/
theorem rest (h : Silently fuel i s t) (h' : Silently fuel (i + j) s u) : Silently fuel j t u := by
  induction h with
  | refl s => rwa [Nat.zero_add] at h'
  | step hd he _ ih =>
    rw [Nat.add_right_comm] at h'
    cases h' with
    | step hd' he' h' =>
      rw [hd] at hd'
      cases hd'
      exact ih h'

theorem length_le (h : Silently fuel i s t) (ht : ¬ IsSilent (draw fuel t))
    (h' : Silently fuel j s u) : j ≤ i := by
  induction h generalizing j with
  | refl s =>
    cases h' with
    | refl => exact Nat.le_refl 0
    | step hd he _ => exact absurd (isSilent_iff.mpr ⟨_, hd, he⟩) ht
  | step hd he _ ih =>
    cases h' with
    | refl => exact Nat.zero_le _
    | step hd' he' h' =>
      rw [hd] at hd'
      cases hd'
      exact Nat.succ_le_succ (ih ht h')

end Silently

/-- What is said after so many silent draws. -/
def Answers (fuel j : Nat) (s : State σ κ ρ)
    (res : EStateM.Result Error (State σ κ ρ) Bytes) : Prop :=
  ∃ t, Silently fuel j s t ∧ draw fuel t = res ∧ ¬ IsSilent res

theorem Answers.now (h : ¬ IsSilent (draw fuel s)) : Answers fuel 0 s (draw fuel s) :=
  ⟨s, .refl s, rfl, h⟩

theorem Answers.after {res : EStateM.Result Error (State σ κ ρ) Bytes}
    (h : Silently fuel i s t) (h' : Answers fuel j t res) : Answers fuel (i + j) s res := by
  obtain ⟨u, hu, hd, hres⟩ := h'
  exact ⟨u, h.trans hu, hd, hres⟩

/-- There is one answer only, and silent draws lead to it. -/
theorem Answers.rest {res : EStateM.Result Error (State σ κ ρ) Bytes}
    (h : Answers fuel j s res) (h' : Silently fuel i s t) :
    ∃ k, j = i + k ∧ Answers fuel k t res := by
  obtain ⟨u, hu, hd, hres⟩ := h
  have hle : i ≤ j := hu.length_le (by rwa [hd]) h'
  obtain ⟨k, rfl⟩ := Nat.exists_eq_add_of_le hle
  exact ⟨k, rfl, u, h'.rest hu, hd, hres⟩

theorem Answers.unique {res res' : EStateM.Result Error (State σ κ ρ) Bytes}
    (h : Answers fuel i s res) (h' : Answers fuel j s res') : res = res' := by
  obtain ⟨u, hu, rfl, hres'⟩ := h'
  obtain ⟨k, -, v, hv, rfl, -⟩ := h.rest hu
  obtain rfl : k = 0 := Nat.le_zero.mp ((Silently.refl u).length_le hres' hv)
  cases hv
  rfl

variable (hP : Session.Quiet P)

include hP

omit [Source σ ρ] in
theorem session_of_drawn (hs : P s.1.session) (hd : Drawn s t) : P t.1.session := by
  rcases hd.session with h | ⟨call, w, h⟩
  · exact h ▸ hs
  · exact h ▸ hP.keeps hs call w

omit [Source σ ρ] in
theorem Idle.of_drawn (hs : Idle P s) (hd : Drawn s t) (ht : Usable t) (he : t.1.eof = false) :
    Idle P t where
  usable := ht
  output := hd.output.trans hs.output
  accessed := hd.accessed.trans hs.accessed
  eof := he
  session := session_of_drawn hP hs.session hd

omit [Source σ ρ] in
theorem mode_of_drawn (hs : P s.1.session) (hd : Drawn s t) :
    Session.mode t.1.session = Session.mode s.1.session := by
  rcases hd.session with h | ⟨call, w, h⟩
  · rw [h]
  · rw [h, hP.mode hs call w]

/-- A reader stays idle as long as its draws are not the last. -/
theorem Idle.draw (hs : Idle P s) {out : Bytes} (h : draw fuel s = .ok out t)
    (he : t.1.eof = false) : Idle P t ∧ t.1.started = true ∧
      Session.mode t.1.session = Session.mode s.1.session := by
  have hd := drawn_draw fuel hs.usable hs.eof
  rw [h] at hd
  exact ⟨hs.of_drawn hP hd (usable_draw hs.usable h) he, hd.started, mode_of_drawn hP hs.session hd⟩

theorem Idle.silently (hs : Idle P s) (h : Silently fuel j s t) : Idle P t := by
  induction h with
  | refl s => exact hs
  | step hd he _ ih => exact ih (hs.draw hP hd he).1

/-- Decrypting, what is drawn before the session is ready is nothing. -/
theorem Idle.silent (hs : Idle P s) (hst : s.1.started = true)
    (hm : Session.mode s.1.session = .decrypt) {out : Bytes}
    (h : CipherReader.draw fuel s = .ok out t)
    (he : t.1.eof = false) (hr : Session.isReady t.1.session = false) : out = [] := by
  rw [draw_of_started hs.usable hs.eof hst] at h
  obtain ⟨block, v, hread, hfeed⟩ := exists_of_bind_eq_ok h
  rcases readBlock_cases fuel s with ⟨e, u, hblock⟩ | ⟨block', u, hblock, -⟩
  · rw [hblock] at hread
    cases hread
  · rw [hblock] at hread
    cases hread
    unfold feed at hfeed
    split at hfeed
    · obtain ⟨tail, v, -, hfeed⟩ := exists_of_bind_eq_ok hfeed
      cases hfeed
      cases he
    · rw [run_onSession] at hfeed
      have hsilent := hP.silent hs.session hm block u.2.world
      cases hu : Session.update block (s.1.session, u.2.world) with
      | error e v =>
        rw [hu] at hfeed
        cases hfeed
      | ok out' v =>
        rw [hu] at hfeed hsilent
        cases hfeed
        exact hsilent hr

end

/-! ## Refills -/

/-- What a refill makes of the last thing drawn. -/
def emit : EStateM.Result Error (State σ κ ρ) Bytes → EStateM.Result Error (State σ κ ρ) Refill
  | .ok out t => .ok (if out.isEmpty then if t.1.eof then .done else .empty else .data)
      ({ t.1 with output := out }, t.2)
  | .error e t => .error e t

/-- What a read makes of it: whether there is output. -/
def conclude : EStateM.Result Error (State σ κ ρ) Bytes → EStateM.Result Error (State σ κ ρ) Bool
  | .ok out t => .ok (!out.isEmpty) ({ t.1 with output := out }, t.2)
  | .error e t => .error e t

theorem emit_output (x : Pull σ κ ρ Bytes) (s : State σ κ ρ) :
    (do
      let plain ← x
      let (r, _) ← get
      if r.eof then setLastOutput plain else setOutput plain : Pull σ κ ρ Refill) s =
      emit (x s) := by
  rw [run_bind]
  cases x s with
  | error e t => rfl
  | ok out t =>
    obtain ⟨r, env⟩ := t
    simp only [run_bind, run_get, run_ite, setLastOutput, run_setOutput, emit]
    cases r.eof <;> cases out.isEmpty <;> rfl

section

variable [Session κ σ] [Source σ ρ] {P : κ → Prop} {s t : State σ κ ρ} {fuel : Nat}

omit [Session κ σ] [Source σ ρ] in
theorem Idle.eta (hs : Idle P s) : (({ s.1 with output := [] }, s.2) : State σ κ ρ) = s := by
  obtain ⟨r, env⟩ := s
  have h : r.output = [] := hs.output
  cases r
  cases h
  rfl

omit [Session κ σ] [Source σ ρ] in
theorem emit_silent (ht : Idle P t) :
    emit (.ok [] t : EStateM.Result Error (State σ κ ρ) Bytes) = .ok .empty t := by
  show EStateM.Result.ok (if t.1.eof then Refill.done else .empty)
    ({ t.1 with output := [] }, t.2) = _
  rw [ht.eta, ht.eof]
  rfl

/-- What is not silent ends the loop. -/
theorem refillLoop_of_answer {res : EStateM.Result Error (State σ κ ρ) Bytes}
    (h : refill fuel s = emit res) (hres : ¬ IsSilent res) (left : Nat) :
    refillLoop fuel left s = conclude res := by
  cases res with
  | error e t => cases left <;> simp only [refillLoop, run_bind, h, emit, conclude]
  | ok out t =>
    cases out with
    | cons b bs =>
      cases left <;> simp only [refillLoop, run_bind, h, emit, List.isEmpty_cons] <;> rfl
    | nil =>
      cases he : t.1.eof with
      | false => exact absurd he hres
      | true =>
        cases left <;> simp only [refillLoop, run_bind, h, emit, List.isEmpty_nil, he] <;>
          simp [conclude, run_pure, he]

/-- A block's worth of refilling is a draw. -/
theorem blockRefill_eq (hs : Usable s) (he : s.1.eof = false) (hst : s.1.started = true) :
    blockRefill fuel s = emit (draw fuel s) := by
  rw [draw_of_started hs he hst, ← emit_output]
  simp only [blockRefill, run_bind]
  rcases readBlock_cases fuel s with ⟨e, u, hr⟩ | ⟨block, u, hr, -⟩
  · rw [hr]
  · rw [hr]
    simp only [feed, run_ite]
    by_cases hb : block.isEmpty = true
    · simp only [hb, if_true, run_bind, run_finish]
      cases (Session.finalize : Step (κ × σ) Bytes) (s.1.session, u.2.world) <;> rfl
    · simp only [if_neg hb, run_bind, run_onSession]
      cases Session.update block (s.1.session, u.2.world) with
      | error e v => rfl
      | ok out v =>
        simp only [run_get, he]
        rfl

/-- A round of assembling the header is a draw. -/
theorem assembleHeader_succ (hs : Usable s) (he : s.1.eof = false) (hst : s.1.started = true)
    (hr : Session.isReady s.1.session = false) (rounds : Nat) (out : Bytes) :
    assembleHeader fuel (rounds + 1) out s = match draw fuel s with
      | .ok more t => if t.1.eof then .ok (out ++ more) t
          else assembleHeader fuel rounds (out ++ more) t
      | .error e t => .error e t := by
  rw [draw_of_started hs he hst]
  rw [assembleHeader]
  simp only [run_bind, run_get, run_ite, hr, Bool.false_eq_true, if_false,
    run_checkAbort_of hs.abort]
  rcases readBlock_cases fuel s with ⟨e, u, hread⟩ | ⟨block, u, hread, -⟩
  · rw [hread]
  · rw [hread]
    simp only [feed, run_ite]
    by_cases hb : block.isEmpty = true
    · simp only [hb, if_true, run_finish]
      cases (Session.finalize : Step (κ × σ) Bytes) (s.1.session, u.2.world) <;> rfl
    · simp only [if_neg hb, run_onSession]
      cases Session.update block (s.1.session, u.2.world) with
      | error e v => rfl
      | ok more v => simp only [he, Bool.false_eq_true, if_false]

theorem assembleHeader_ready (hr : Session.isReady s.1.session = true) (rounds : Nat)
    (out : Bytes) : assembleHeader fuel rounds out s = .ok out s := by
  cases rounds <;> simp only [assembleHeader, run_bind, run_get, run_ite, hr, if_true, run_pure]

/-- A refill of a reader that was started is one draw. -/
theorem refill_of_started (hs : Idle P s) (hst : s.1.started = true) :
    refill fuel s = emit (draw fuel s) := by
  rw [← blockRefill_eq hs.usable hs.eof hst]
  simp only [refill, run_bind, run_checkAbort_of hs.usable.abort, run_get, run_ite, hs.eof, hst,
    if_true, Bool.false_eq_true, if_false]

/-- The first refill starts with a draw, and goes on if that gives nothing. -/
theorem refill_of_fresh (hs : Idle P s) (hst : s.1.started = false) :
    refill fuel s = match draw fuel s with
      | .ok [] t => if Session.mode t.1.session = .decrypt
          then emit (assembleHeader fuel fuel [] t) else blockRefill fuel t
      | .ok (b :: bs) t => .ok .data ({ t.1 with output := b :: bs }, t.2)
      | .error e t => .error e t := by
  have hfirst : refill fuel s = firstRefill fuel s := by
    simp only [refill, run_bind, run_checkAbort_of hs.usable.abort, run_get, run_ite, hs.eof, hst,
      Bool.false_eq_true, if_false]
  rw [hfirst, draw_of_fresh hs.usable hs.eof hst]
  simp only [firstRefill, startSession, run_bind]
  cases (update fun r => { r with started := true } : Pull σ κ ρ Unit) s with
  | error e t => rfl
  | ok a t =>
    simp only
    cases (onSession Session.start : Pull σ κ ρ Bytes) t with
    | error e u => rfl
    | ok head u =>
      cases head with
      | cons b bs => rfl
      | nil =>
        simp only [run_get, run_ite, List.isEmpty_nil, Bool.not_true, Bool.false_eq_true, if_false]
        split
        · rw [← emit_output, run_bind]
        · rfl

omit [Source σ ρ] in
theorem eof_startSession {out : Bytes} (h : startSession s = .ok out t) : t.1.eof = s.1.eof := by
  obtain ⟨r, env⟩ := s
  simp only [startSession, run_bind, run_update, run_onSession] at h
  cases hrun : (Session.start : Step (κ × σ) Bytes) (r.session, env.world) with
  | error e u =>
    rw [hrun] at h
    cases h
  | ok head u =>
    rw [hrun] at h
    cases h
    rfl

/-- How many silent draws in a row a read bears. The one that starts a session that is not ready is
not counted. -/
def patience (s : State σ κ ρ) : Nat :=
  if s.1.started || Session.isReady s.1.session then maxEmptyRefills else maxEmptyRefills + 1

variable (hP : Session.Quiet P)

include hP

/-- Assembling the header comes to an answer, or to a session that is ready and has said nothing, or
runs out of rounds. By induction on the rounds: what is gathered stays empty while the session is
not ready, since it is quiet. -/
theorem assembleHeader_cases : ∀ (rounds : Nat) {s : State σ κ ρ}, Idle P s →
    s.1.started = true → Session.mode s.1.session = .decrypt →
    (∃ j res, Answers fuel j s res ∧ assembleHeader fuel rounds [] s = res) ∨
    (∃ j t, Silently fuel j s t ∧ (Session.isReady s.1.session = false → 0 < j) ∧
      assembleHeader fuel rounds [] s = .ok [] t) ∨
    ∃ t, Silently fuel rounds s t ∧ assembleHeader fuel rounds [] s = .error (.io .stalled) t
  | rounds, s, hs, hst, hm => by
    cases hr : Session.isReady s.1.session with
    | true => exact .inr (.inl ⟨0, s, .refl s, by simp, assembleHeader_ready hr rounds []⟩)
    | false =>
      cases rounds with
      | zero =>
        refine .inr (.inr ⟨s, .refl s, ?_⟩)
        simp only [assembleHeader, run_bind, run_get, run_ite, hr, Bool.false_eq_true, if_false,
          run_throw]
      | succ rounds =>
        rw [assembleHeader_succ hs.usable hs.eof hst hr]
        by_cases hsilent : IsSilent (draw fuel s)
        · obtain ⟨t, hd, he⟩ := isSilent_iff.mp hsilent
          obtain ⟨ht, hst', hm'⟩ := hs.draw hP hd he
          simp only [hd, he, Bool.false_eq_true, if_false, List.nil_append]
          have hstep : Silently fuel 1 s t := .step hd he (.refl t)
          rcases assembleHeader_cases rounds ht hst' (hm'.trans hm) with
            ⟨j, res, ha, hrun⟩ | ⟨j, u, hu, -, hrun⟩ | ⟨u, hu, hrun⟩
          · exact .inl ⟨1 + j, res, .after hstep ha, hrun⟩
          · exact .inr (.inl ⟨1 + j, u, hstep.trans hu, fun _ => by omega, hrun⟩)
          · exact .inr (.inr ⟨u, Nat.add_comm rounds 1 ▸ hstep.trans hu, hrun⟩)
        · refine .inl ⟨0, _, .now hsilent, ?_⟩
          cases hd : draw fuel s with
          | error e t => rfl
          | ok out t =>
            simp only [List.nil_append]
            cases he : t.1.eof with
            | true => rfl
            | false =>
              obtain ⟨-, hst', -⟩ := hs.draw hP hd he
              simp only [Bool.false_eq_true, if_false]
              cases hr' : Session.isReady t.1.session with
              | true => exact assembleHeader_ready hr' rounds out
              | false =>
                have hout := hs.silent hP hst hm hd he hr'
                rw [hd, hout] at hsilent
                exact absurd he hsilent

omit [Source σ ρ] in
/-- Starting a decrypting session leaves it alone. -/
theorem session_startSession (hs : P s.1.session) (hm : Session.mode s.1.session = .decrypt)
    {out : Bytes} (h : startSession s = .ok out t) : t.1.session = s.1.session := by
  obtain ⟨r, env⟩ := s
  simp only [startSession, run_bind, run_update, run_onSession, hP.start hs hm] at h
  cases h
  rfl

/-- A refill draws on until there is an answer, or it draws nothing, or its rounds are used up. A
first refill that draws nothing has drawn twice, unless the session was ready before it. -/
theorem refill_cases (fuel : Nat) (hs : Idle P s) :
    (∃ j res, Answers fuel j s res ∧ refill fuel s = emit res) ∨
    (∃ j t, Silently fuel j s t ∧ 0 < j ∧
      (s.1.started = false → Session.isReady s.1.session = false → 1 < j) ∧
      refill fuel s = .ok .empty t) ∨
    ∃ j t, Silently fuel j s t ∧ fuel < j ∧ refill fuel s = .error (.io .stalled) t := by
  by_cases hsilent : IsSilent (draw fuel s)
  · obtain ⟨t, hd, he⟩ := isSilent_iff.mp hsilent
    obtain ⟨ht, hst', hm⟩ := hs.draw hP hd he
    have hstep : Silently fuel 1 s t := .step hd he (.refl t)
    cases hst : s.1.started with
    | true =>
      refine .inr (.inl ⟨1, t, hstep, by omega, by simp, ?_⟩)
      rw [refill_of_started hs hst, hd, emit_silent ht]
    | false =>
      simp only [refill_of_fresh hs hst, hd]
      by_cases hdec : Session.mode t.1.session = .decrypt
      · have hd' := hd
        rw [draw_of_fresh hs.usable hs.eof hst] at hd'
        have hsession := session_startSession hP hs.session (hm.symm.trans hdec) hd'
        rw [if_pos hdec]
        rcases assembleHeader_cases hP fuel ht hst' hdec with
          ⟨j, res, ha, hrun⟩ | ⟨j, u, hu, hj, hrun⟩ | ⟨u, hu, hrun⟩
        · exact .inl ⟨1 + j, res, .after hstep ha, by rw [hrun]⟩
        · refine .inr (.inl ⟨1 + j, u, hstep.trans hu, by omega, fun _ hr => ?_, ?_⟩)
          · have := hj (hsession ▸ hr)
            omega
          · rw [hrun, emit_silent (ht.silently hP hu)]
        · exact .inr (.inr ⟨1 + fuel, u, hstep.trans hu, by omega, by rw [hrun]; rfl⟩)
      · rw [if_neg hdec, blockRefill_eq ht.usable ht.eof hst']
        by_cases hsilent' : IsSilent (draw fuel t)
        · obtain ⟨u, hd', he'⟩ := isSilent_iff.mp hsilent'
          obtain ⟨hu, -, -⟩ := ht.draw hP hd' he'
          have hstep' : Silently fuel 2 s u := hstep.trans (.step hd' he' (.refl u))
          exact .inr (.inl ⟨2, u, hstep', by omega, by omega, by rw [hd', emit_silent hu]⟩)
        · exact .inl ⟨1 + 0, _, .after hstep (.now hsilent'), rfl⟩
  · refine .inl ⟨0, _, .now hsilent, ?_⟩
    cases hst : s.1.started with
    | true => exact refill_of_started hs hst
    | false =>
      rw [refill_of_fresh hs hst]
      match hd : draw fuel s with
      | .error e t => rfl
      | .ok (b :: bs) t => rfl
      | .ok [] t =>
        rw [draw_of_fresh hs.usable hs.eof hst] at hd hsilent
        rw [hd] at hsilent
        exact absurd ((eof_startSession hd).trans hs.eof) hsilent

/-- A loop of refills comes to the answer, or gives up with a failed transfer after more silent
draws than it allows refills or rounds. -/
theorem refillLoop_cases (fuel : Nat) : ∀ (left : Nat) {s : State σ κ ρ}, Idle P s →
    (∃ j res, Answers fuel j s res ∧ refillLoop fuel left s = conclude res) ∨
    ∃ j t e, Silently fuel j s t ∧ (left < j ∨ fuel < j) ∧
      (s.1.started = false → Session.isReady s.1.session = false → left + 1 < j ∨ fuel < j) ∧
      refillLoop fuel left s = .error (.io e) t
  | left, s, hs => by
    rcases refill_cases hP fuel hs with
      ⟨j, res, ha, hrun⟩ | ⟨j, t, ht, hj, hj', hrun⟩ | ⟨j, t, ht, hj, hrun⟩
    · obtain ⟨u, -, -, hres⟩ := id ha
      exact .inl ⟨j, res, ha, refillLoop_of_answer hrun hres left⟩
    · cases left with
      | zero =>
        have hloop : ∃ e, refillLoop fuel 0 s = .error (.io e) t := by
          simp only [refillLoop, run_bind, hrun]
          exact ⟨_, rfl⟩
        obtain ⟨e, hloop⟩ := hloop
        exact .inr ⟨j, t, e, ht, .inl hj, fun hst hr => .inl (hj' hst hr), hloop⟩
      | succ left =>
        have hloop : refillLoop fuel (left + 1) s = refillLoop fuel left t := by
          rw [refillLoop]
          simp only [run_bind, hrun]
        rw [hloop]
        rcases refillLoop_cases fuel left (hs.silently hP ht) with
          ⟨i, res, ha, hrest⟩ | ⟨i, u, e, hu, hi, -, hrest⟩
        · exact .inl ⟨j + i, res, .after ht ha, hrest⟩
        · refine .inr ⟨j + i, u, e, ht.trans hu, by omega, fun hst hr => ?_, hrest⟩
          have := hj' hst hr
          omega
    · refine .inr ⟨j, t, .stalled, ht, .inr hj, fun _ _ => .inr hj, ?_⟩
      cases left <;> simp only [refillLoop, run_bind, hrun]

omit hP in
theorem fill_of_idle (hs : Idle P s) : fill fuel s = refillLoop fuel maxEmptyRefills s := by
  simp only [fill, run_bind, run_get, run_ite, hs.output, List.isEmpty_nil, if_true]

/-- **A read says what the first draw says that is not silent**, or gives up with a failed transfer
after more silent draws than it bears. -/
theorem fill_cases (fuel : Nat) (hs : Idle P s) :
    (∃ j res, Answers fuel j s res ∧ fill fuel s = conclude res) ∨
    ∃ j t e, Silently fuel j s t ∧ (patience s < j ∨ fuel < j) ∧
      fill fuel s = .error (.io e) t := by
  rw [fill_of_idle hs]
  rcases refillLoop_cases hP fuel maxEmptyRefills hs with h | ⟨j, t, e, ht, hj, hfresh, hrun⟩
  · exact .inl h
  · refine .inr ⟨j, t, e, ht, ?_, hrun⟩
    unfold patience
    split
    · exact hj
    · rename_i hpatient
      rw [Bool.or_eq_true, not_or, Bool.not_eq_true, Bool.not_eq_true] at hpatient
      exact hfresh hpatient.1 hpatient.2

/-- So it says what there is to say if that comes soon enough. -/
theorem fill_of_answer {j : Nat} {res : EStateM.Result Error (State σ κ ρ) Bytes} (hs : Idle P s)
    (h : Answers fuel j s res) (hj : j ≤ patience s) (hfuel : j ≤ fuel) :
    fill fuel s = conclude res := by
  rcases fill_cases hP fuel hs with ⟨i, res', hres', hfill⟩ | ⟨i, t, e, ht, hi, -⟩
  · rw [hfill, hres'.unique h]
  · obtain ⟨k, hk, -⟩ := h.rest ht
    omega

end

end CipherReader

end SealedStream
