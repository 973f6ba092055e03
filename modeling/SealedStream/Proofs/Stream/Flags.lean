import SealedStream.Scripted.Streams

/-!
# Flags that stay up

Flags are raised and never lowered: not in the environment (`Env.Below`), and not in an adapter,
which keeps the flag that it looks at (`AbortHandle.Becomes`) until it goes out of use
(`AbortHandle.Onward`).
-/

namespace SealedStream

variable {σ : Type}

/-- Every flag that is raised in the one environment is raised in the other. -/
def Env.Below (env env' : Env σ) : Prop :=
  ∀ flag, env.isRaised flag = true → env'.isRaised flag = true

namespace Env

theorem Below.refl (env : Env σ) : env.Below env := fun _ h => h

theorem Below.trans {env env' env'' : Env σ} (h : env.Below env') (h' : env'.Below env'') :
    env.Below env'' := fun flag hf => h' flag (h flag hf)

/-- Steps of a session have nothing to do with flags. -/
theorem Below.world (env : Env σ) (w : σ) : env.Below { env with world := w } := fun _ h => h

theorem isRaised_raise (env : Env σ) (flag flag' : Nat) :
    (env.raise flag).isRaised flag' = (flag' == flag || env.isRaised flag') := by
  simp only [isRaised, raise, List.contains_cons]

theorem below_raise (env : Env σ) (flag : Nat) : env.Below (env.raise flag) := by
  intro flag' h
  rw [isRaised_raise, h, Bool.or_true]

end Env

namespace AbortHandle

variable {h h' h'' : AbortHandle} {env env' : Env σ}

/-- A flag that is raised stays so. -/
theorem isAborted_mono (henv : env.Below env') (ha : h.isAborted env = true) :
    h.isAborted env' = true := by
  cases h with
  | own raised => exact ha
  | shared flag => exact henv flag ha

theorem isAborted_abort (h : AbortHandle) (env : Env σ) :
    (h.abort env).1.isAborted (h.abort env).2 = true := by
  cases h with
  | own raised => rfl
  | shared flag => simp [AbortHandle.abort, isAborted, Env.isRaised_raise]

theorem below_abort (h : AbortHandle) (env : Env σ) : env.Below (h.abort env).2 := by
  cases h with
  | own raised => exact .refl env
  | shared flag => exact env.below_raise flag

/-- What an adapter's flag may become: a shared one stays the same, its own may go up. -/
inductive Becomes : AbortHandle → AbortHandle → Prop
  | same (h : AbortHandle) : Becomes h h
  | raised (b : Bool) : Becomes (.own b) (.own true)

theorem Becomes.trans (hh : h.Becomes h') (hh' : h'.Becomes h'') : h.Becomes h'' := by
  cases hh with
  | same => exact hh'
  | raised b =>
    cases hh' with
    | same => exact .raised b
    | raised => exact .raised b

theorem becomes_abort (h : AbortHandle) (env : Env σ) : h.Becomes (h.abort env).1 := by
  cases h with
  | own b => exact .raised b
  | shared flag => exact .same _

theorem Becomes.isAborted (hh : h.Becomes h') (henv : env.Below env')
    (ha : h.isAborted env = true) : h'.isAborted env' = true := by
  cases hh with
  | same => exact isAborted_mono henv ha
  | raised b => rfl

/-- What an adapter looks at, if it does, as it goes on: the same flag, or none when it is out of
use. -/
inductive Onward : Option AbortHandle → Option AbortHandle → Prop
  | gone (token : Option AbortHandle) : Onward token none
  | becomes {h h' : AbortHandle} : h.Becomes h' → Onward (some h) (some h')

theorem Onward.refl : ∀ token : Option AbortHandle, Onward token token
  | none => .gone none
  | some h => .becomes (.same h)

/-- An adapter in use that keeps its flag as it is. -/
theorem Onward.of_eq (hh : h' = h) : Onward (some h) (some h') :=
  hh ▸ .refl _

theorem Onward.trans {token token' token'' : Option AbortHandle} (h : Onward token token')
    (h' : Onward token' token'') : Onward token token'' := by
  cases h' with
  | gone => exact .gone token
  | becomes hb' =>
    cases h with
    | becomes hb => exact .becomes (hb.trans hb')

/-- A flag that is up stays up, as long as the adapter is in use. -/
theorem Onward.isAborted {token token' : Option AbortHandle} (ho : Onward token token')
    (henv : env.Below env') (ha : ∀ h, token = some h → h.isAborted env = true) :
    ∀ h, token' = some h → h.isAborted env' = true := by
  rintro h rfl
  cases ho with
  | becomes hb => exact hb.isAborted henv (ha _ rfl)

end AbortHandle

/-! ## Streams -/

variable {ο : Type}

/-- From `s` to `t` a stream keeps the flag that it looks at, and no flag is lowered. -/
def Goes (token : ο → Option AbortHandle) (s t : ο × Env σ) : Prop :=
  AbortHandle.Onward (token s.1) (token t.1) ∧ s.2.Below t.2

/-- No flag goes down. -/
def Upward (s t : ο × Env σ) : Prop := s.2.Below t.2

/-- The events of a call lower no flag. -/
theorem Scripted.below_runEvents (k : Nat) (events : Schedule) (env : Env σ) :
    env.Below (runEvents k events env).2 := by
  induction events generalizing env with
  | nil => exact .refl env
  | cons p events ih =>
    obtain ⟨call, event⟩ := p
    simp only [runEvents]
    split
    · cases event with
      | fail e => exact .refl env
      | zero => exact .refl env
      | raise flag => exact (env.below_raise flag).trans (ih _)
    · exact ih env

/-- Aborting the stream raises the flag that it looks at. -/
def Raises [Abortable σ ο] (token : ο → Option AbortHandle) : Prop :=
  ∀ (s : ο × Env σ) {h : AbortHandle}, token s.1 = some h →
    ∃ h', token (Abortable.abort s).1 = some h' ∧ h.Becomes h' ∧
      h'.isAborted (Abortable.abort s).2 = true

end SealedStream
