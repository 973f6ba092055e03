import SealedStream.Proofs.Stream.ReadTower
import SealedStream.Proofs.Stream.Trailing

/-!
# Streams that give alarm

A stream during one of whose calls a flag goes up. Reading from it is the same but for the one read
(`Alarmed.call_of_calm`, `Alarmed.isRaised_call`). A sink that goes on with a write, whether the flag
is up or not, or refuses it, goes abreast of the same one without the alarm, until a writer has seen
the flag (`Sink.Steady.abreast`).
-/

namespace SealedStream

variable {σ ρ ς α : Type}

/-- A stream during one of whose calls a flag goes up. -/
structure Alarmed (ο : Type) where
  inner : ο
  /-- How many calls come before this one, unless it is over. -/
  calm : Option Nat
  flag : Nat
  /-- Whether the flag goes up after the call was done, and not before. -/
  late : Bool

namespace Alarmed

/-- Raises the flag if the call is the one, and this is the moment. -/
def sound {ο : Type} (a : Alarmed ο) (late : Bool) (env : Env σ) : Env σ :=
  if a.calm = some 0 ∧ a.late = late then env.raise a.flag else env

/-- The stream after a call that left it `inner`. -/
def next {ο : Type} (a : Alarmed ο) (inner : ο) : Alarmed ο :=
  { a with inner, calm := if a.calm = some 0 then none else a.calm.map (· - 1) }

theorem calm_next {ο : Type} {a : Alarmed ο} (h : a.calm = none) (inner : ο) :
    (a.next inner).calm = none := by
  simp [next, h]

def call {ο : Type} (x : Transfer σ ο α) : Transfer σ (Alarmed ο) α := fun (a, env) =>
  mapState (fun t => (a.next t.1, a.sound true t.2)) (x (a.inner, a.sound false env))

/-- A call in which nothing goes up. -/
def through {ο : Type} (x : Transfer σ ο α) : Transfer σ (Alarmed ο) α := fun (a, env) =>
  mapState (fun t => ({ a with inner := t.1 }, t.2)) (x (a.inner, env))

instance [Source σ ρ] : Source σ (Alarmed ρ) where
  read fuel n := call (Source.read fuel n)

instance [Seekable σ ρ] : Seekable σ (Alarmed ρ) where
  position := through Seekable.position
  seek p := through (Seekable.seek p)

instance [Sink σ ς] : Sink σ (Alarmed ς) where
  write fuel bytes := call (Sink.write fuel bytes)
  flush fuel := call (Sink.flush fuel)

instance {ο : Type} [Abortable σ ο] : Abortable σ (Alarmed ο) where
  abort | (a, env) => let (inner, env) := Abortable.abort (a.inner, env); ({ a with inner }, env)

section

variable {ο : Type} {x : Transfer σ ο α}

theorem below_sound (a : Alarmed ο) (late : Bool) (env : Env σ) : env.Below (a.sound late env) := by
  unfold sound
  split
  · exact env.below_raise a.flag
  · exact .refl env

/-- If a call lowers no flag, it does not lower one with an alarm either, -/
theorem below_call (h : ∀ s : ο × Env σ, s.2.Below (reached (x s)).2) (s : Alarmed ο × Env σ) :
    s.2.Below (reached (call x s)).2 := by
  obtain ⟨a, env⟩ := s
  simp only [call, reached_mapState]
  exact ((below_sound a false env).trans (h (_, _))).trans (below_sound a true _)

/-- and the flag is up when the call is over. -/
theorem isRaised_call (h : ∀ s : ο × Env σ, s.2.Below (reached (x s)).2) {a : Alarmed ο}
    (ha : a.calm = some 0) (env : Env σ) : (reached (call x (a, env))).2.isRaised a.flag = true := by
  have hraise (env : Env σ) : (env.raise a.flag).isRaised a.flag = true := by
    simp [Env.isRaised_raise]
  simp only [call, reached_mapState, sound, ha, true_and]
  cases a.late with
  | false => exact h (_, _) a.flag (hraise env)
  | true => exact hraise _

/-- Other calls are what they are without an alarm. -/
theorem call_of_calm {a : Alarmed ο} (ha : a.calm ≠ some 0) (env : Env σ) :
    call x (a, env) = mapState (fun t => (a.next t.1, t.2)) (x (a.inner, env)) := by
  simp only [call, sound, ha, false_and, if_false]

end

theorem carries [Source σ ρ] [Seekable σ ρ] [Abortable σ ρ]
    (h : Source.Carries (Upward : ρ × Env σ → _ → Prop)) :
    Source.Carries (Upward : Alarmed ρ × Env σ → _ → Prop) where
  below h := h
  trans h h' := .trans h h'
  elsewhere h := h
  read fuel n := below_call (h.read fuel n)
  position := by
    rintro ⟨a, env⟩
    simp only [Seekable.position, through, reached_mapState]
    exact h.position (a.inner, env)
  seek p := by
    rintro ⟨a, env⟩
    simp only [Seekable.seek, through, reached_mapState]
    exact h.seek p (a.inner, env)
  abort s := h.abort (s.1.inner, s.2)

end Alarmed

/-! ## Sinks -/

/-- Environments of which the first one is ahead of the other by the flag, if it is not the same. -/
structure Env.Ahead (flag : Nat) (env env' : Env σ) : Prop where
  world : env'.world = env.world
  others : ∀ {flag'}, flag' ≠ flag → env'.isRaised flag' = env.isRaised flag'
  raised : env'.isRaised flag = true → env.isRaised flag = true

namespace Env.Ahead

variable {flag : Nat} {env env' : Env σ}

theorem refl (env : Env σ) : env.Ahead flag env := ⟨rfl, fun _ => rfl, id⟩

theorem raise (h : env.Ahead flag env') : (env.raise flag).Ahead flag env' where
  world := h.world
  others {flag'} hne := by
    have hne' : (flag' == flag) = false := by simpa using hne
    rw [isRaised_raise, hne', Bool.false_or]
    exact h.others hne
  raised _ := by simp [isRaised_raise]

theorem moved (h : env.Ahead flag env') (w : σ) :
    Env.Ahead flag { env with world := w } { env' with world := w } :=
  ⟨rfl, h.others, h.raised⟩

/-- Looked at, the flag is the same, or the first one is up. -/
theorem check (h : env.Ahead flag env') :
    (AbortHandle.shared flag).check env' = (AbortHandle.shared flag).check env ∨
      env.isRaised flag = true := by
  cases hup : env.isRaised flag with
  | true => exact .inr rfl
  | false =>
    have hup' : env'.isRaised flag = false := by
      cases hup' : env'.isRaised flag with
      | false => rfl
      | true => rw [h.raised hup'] at hup; cases hup
    left
    simp only [AbortHandle.check, AbortHandle.isAborted, hup, hup']

end Env.Ahead

theorem Alarmed.ahead_sound {ο : Type} {a : Alarmed ο} {env env' : Env σ}
    (h : env.Ahead a.flag env') (late : Bool) : (a.sound late env).Ahead a.flag env' := by
  unfold sound
  split
  · exact h.raise
  · exact h

namespace Sink

/-- A sink beside itself in environments of which the first one may be ahead by the flag. -/
def Level (flag : Nat) (s t : ς × Env σ) : Prop := t.1 = s.1 ∧ s.2.Ahead flag t.2

/-- Now that the flag is up, the first sink has received the beginning of what the other one has. -/
def Behind {ς' : Type} (flag : Nat) (content : ς → Bytes) (content' : ς' → Bytes) (s : ς × Env σ)
    (t : ς' × Env σ) : Prop :=
  s.2.isRaised flag = true ∧ content s.1 <+: content' t.1

/-- What a sink does for a writer does not depend on whether the flag is up, except that it may refuse
to do it, for good, when it is. It loses nothing that it has received, and an abort gives it nothing. -/
structure Steady [Sink σ ς] [Abortable σ ς] (flag : Nat) (content : ς → Bytes) : Prop where
  write : ∀ (fuel : Nat) (bytes : Bytes),
    Trails (Level flag) Lasting (Behind flag content content)
      (Sink.write fuel bytes : Transfer σ ς Nat) (Sink.write fuel bytes)
  flush : ∀ fuel : Nat, Trails (Level flag) Lasting (Behind flag content content)
    (Sink.flush fuel : Transfer σ ς Unit) (Sink.flush fuel)
  abort : ∀ s : ς × Env σ, s.2.Below (Abortable.abort s).2 ∧ content (Abortable.abort s).1 = content s.1

section

variable {flag : Nat} {content : ς → Bytes} {x : Transfer σ ς α}

/-- What a sink has received is the beginning of what it will have. -/
theorem keeps_prefix (hx : Trails (Level flag) Lasting (Behind flag content content) x x)
    (bytes : Bytes) : Keeps (fun t : ς × Env σ => bytes <+: content t.1) x := by
  intro t ht
  have hup : ((t.2.raise flag).isRaised flag) = true := by simp [Env.isRaised_raise]
  exact ht.trans (hx.keeps (t.1, t.2.raise flag) t ⟨hup, List.prefix_rfl⟩).2

/-- A sink that gives alarm beside the same one without the alarm. -/
def Calm (flag : Nat) (s : Alarmed ς × Env σ) (t : ς × Env σ) : Prop :=
  s.1.flag = flag ∧ Level flag (s.1.inner, s.2) t

/-- A call of which no alarm is to come. -/
theorem alike_call (x : Transfer σ ς α) {P : IoError → Prop} :
    Trails (fun (s : Alarmed ς × Env σ) (t : ς × Env σ) => t = (s.1.inner, s.2) ∧ s.1.calm = none) P
      (fun _ _ => False) (Alarmed.call x) x := by
  refine .of_alike (.of_map (fun s hs => ?_) fun s hs => ?_)
  · have hcalm : s.1.calm ≠ some 0 := by simp [hs]
    rw [Alarmed.call_of_calm hcalm]
    cases x (s.1.inner, s.2) <;> rfl
  · have hcalm : s.1.calm ≠ some 0 := by simp [hs]
    rw [Alarmed.call_of_calm hcalm, reached_mapState]
    exact Alarmed.calm_next hs _

/-- A call with an alarm and without. -/
theorem trails_call (hx : Trails (Level flag) Lasting (Behind flag content content) x x) :
    Trails (Calm flag) Lasting (Behind flag (content ·.inner) content) (Alarmed.call x) x where
  run := by
    rintro ⟨a, env⟩ ⟨_, env'⟩ ⟨rfl, rfl, henv⟩
    have hrun := hx.run (a.inner, a.sound false env) (a.inner, env') ⟨rfl, Alarmed.ahead_sound henv _⟩
    simp only [Alarmed.call]
    generalize x (a.inner, a.sound false env) = p, x (a.inner, env') = q at hrun
    cases hrun with
    | ok b h => exact .ok b ⟨rfl, h.1, Alarmed.ahead_sound h.2 _⟩
    | error e h => exact .error e ⟨rfl, h.1, Alarmed.ahead_sound h.2 _⟩
    | cut _ he h => exact .cut _ he ⟨Alarmed.below_sound a _ _ _ h.1, h.2⟩
  keeps s := fun t ht => hx.keeps (s.1.inner, s.2) t ht

end

section

variable [Sink σ ς] [Abortable σ ς] {flag : Nat} {content : ς → Bytes}

/-- Under the flag that the alarm raises. -/
theorem Steady.abreast (h : Steady (σ := σ) flag content) (fuel : Nat) :
    Abreast (σ := σ) fuel (.shared flag) (.shared flag) (Calm flag)
      (Behind flag (content ·.inner) content) where
  world h := h.2.2.world
  moved h w := ⟨h.1, h.2.1, h.2.2.moved w⟩
  late h _ := h
  check := by
    rintro s ⟨_, env'⟩ ⟨-, rfl, henv⟩
    rcases henv.check with hsame | hup
    · exact .inl hsame
    · exact .inr ⟨if_pos hup, hup, List.prefix_rfl⟩
  write bytes := trails_call (h.write fuel bytes)
  flush := trails_call (h.flush fuel)

/-- Whatever it is beside, the sink loses nothing. -/
theorem Steady.abreast_grown (h : Steady (σ := σ) flag content) (fuel : Nat) (handle : AbortHandle)
    (bytes : Bytes) : Abreast (σ := σ) fuel handle handle (fun _ _ : ς × Env σ => False)
      fun _ t => bytes <+: content t.1 where
  world h := h.elim
  moved h := h.elim
  late h _ := h
  check h := h.elim
  write bs := ⟨fun _ _ h => h.elim, fun _ => keeps_prefix (h.write fuel bs) bytes⟩
  flush := ⟨fun _ _ h => h.elim, fun _ => keeps_prefix (h.flush fuel) bytes⟩

omit [Abortable σ ς] in
/-- With no alarm to come, whatever the flag. -/
theorem abreast_of_calm (fuel : Nat) (handle : AbortHandle) : Abreast (σ := σ) fuel handle handle
    (fun (s : Alarmed ς × Env σ) (t : ς × Env σ) => t = (s.1.inner, s.2) ∧ s.1.calm = none)
    fun _ _ => False where
  world := by
    rintro s _ ⟨rfl, -⟩
    rfl
  moved := by
    rintro s _ ⟨rfl, hs⟩ w
    exact ⟨rfl, hs⟩
  late h := h.elim
  check := by
    rintro s _ ⟨rfl, -⟩
    exact .inl rfl
  write bytes := alike_call _
  flush := alike_call _

end

end Sink

/-! ## Scripted sinks -/

section

open Scripted

namespace Env.Ahead

variable {flag : Nat} {env env' : Env σ}

/-- Other flags may go up in both. -/
theorem raise_both (h : env.Ahead flag env') (flag' : Nat) :
    (env.raise flag').Ahead flag (env'.raise flag') where
  world := h.world
  others hne := by rw [isRaised_raise, isRaised_raise, h.others hne]
  raised hup := by
    rw [isRaised_raise, Bool.or_eq_true] at hup ⊢
    exact hup.imp id h.raised

/-- The events of a call do the same in both. -/
theorem runEvents (h : env.Ahead flag env') (k : Nat) (events : Schedule) :
    (Scripted.runEvents k events env').1 = (Scripted.runEvents k events env).1 ∧
      (Scripted.runEvents k events env).2.Ahead flag (Scripted.runEvents k events env').2 := by
  induction events generalizing env env' with
  | nil => exact ⟨rfl, h⟩
  | cons p events ih =>
    obtain ⟨call, event⟩ := p
    simp only [Scripted.runEvents]
    split
    · cases event with
      | fail e => exact ⟨rfl, h⟩
      | zero => exact ⟨rfl, h⟩
      | raise flag' => exact ih (h.raise_both flag')
    · exact ih h

end Env.Ahead

theorem content_cons (w : ScriptedSink) (part : Bytes) :
    ({ w with parts := part :: w.parts } : ScriptedSink).content = w.content ++ part := by
  simp [ScriptedSink.content]

/-- What scripted sinks do does not depend on flags. -/
theorem steady_scripted {σ : Type} (flag : Nat) :
    Sink.Steady (σ := σ) flag ScriptedSink.content where
  write fuel bytes := by
    constructor
    · rintro ⟨w, env⟩ ⟨w', env'⟩ ⟨hw, h⟩
      obtain rfl : w' = w := hw
      have hevents := h.runEvents w'.writes w'.writeEvents
      simp only [Sink.write]
      rcases hrun : Scripted.runEvents w'.writes w'.writeEvents env with ⟨cut, u⟩
      rcases hrun' : Scripted.runEvents w'.writes w'.writeEvents env' with ⟨cut', u'⟩
      rw [hrun, hrun'] at hevents
      obtain ⟨rfl, hahead⟩ := hevents
      cases cut' with
      | none => exact .ok _ ⟨rfl, hahead⟩
      | some cut =>
        cases cut with
        | fail e => exact .error e ⟨rfl, hahead⟩
        | zero => exact .ok 0 ⟨rfl, hahead⟩
    · rintro s ⟨w, env⟩ ⟨hup, hprefix⟩
      simp only [Sink.write]
      rcases Scripted.runEvents w.writes w.writeEvents env with ⟨_ | _ | _, u⟩
      · refine ⟨hup, hprefix.trans ?_⟩
        simp only [reached]
        exact (content_cons _ _).symm ▸ List.prefix_append _ _
      · exact ⟨hup, hprefix⟩
      · exact ⟨hup, hprefix⟩
  flush fuel := by
    constructor
    · rintro ⟨w, env⟩ ⟨w', env'⟩ ⟨hw, h⟩
      obtain rfl : w' = w := hw
      have hevents := h.runEvents w'.flushes w'.flushEvents
      simp only [Sink.flush]
      rcases hrun : Scripted.runEvents w'.flushes w'.flushEvents env with ⟨cut, u⟩
      rcases hrun' : Scripted.runEvents w'.flushes w'.flushEvents env' with ⟨cut', u'⟩
      rw [hrun, hrun'] at hevents
      obtain ⟨rfl, hahead⟩ := hevents
      cases cut' with
      | none => exact .ok _ ⟨rfl, hahead⟩
      | some cut =>
        cases cut with
        | fail e => exact .error e ⟨rfl, hahead⟩
        | zero => exact .ok _ ⟨rfl, hahead⟩
    · rintro s ⟨w, env⟩ ⟨hup, hprefix⟩
      simp only [Sink.flush]
      rcases Scripted.runEvents w.flushes w.flushEvents env with ⟨_ | _ | _, u⟩ <;>
        exact ⟨hup, hprefix⟩
  abort s := ⟨.refl _, rfl⟩

end

end SealedStream
