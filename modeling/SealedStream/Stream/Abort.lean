import SealedStream.Step

/-!
# Aborting

An abort flag is raised once and never lowered. An adapter looks at a flag of its own, or at one of
the flags of the environment that several adapters and their callers share.
-/

namespace SealedStream

/-- What streams share: the abort flags that are raised, and the world of the sessions'
collaborators. -/
structure Env (σ : Type) where
  raised : List Nat := []
  world : σ

namespace Env

variable {σ : Type}

def isRaised (env : Env σ) (flag : Nat) : Bool := env.raised.contains flag

def raise (env : Env σ) (flag : Nat) : Env σ := { env with raised := flag :: env.raised }

end Env

/-- The flag that an adapter looks at. -/
inductive AbortHandle
  | own (raised : Bool)
  | shared (flag : Nat)
  deriving DecidableEq, Repr

namespace AbortHandle

variable {σ : Type}

def isAborted (h : AbortHandle) (env : Env σ) : Bool :=
  match h with
  | .own raised => raised
  | .shared flag => env.isRaised flag

/-- Fails once the flag is raised. -/
def check (h : AbortHandle) (env : Env σ) : Except Error Unit :=
  if h.isAborted env then .error .aborted else .ok ()

/-- Raises the flag. -/
def abort (h : AbortHandle) (env : Env σ) : AbortHandle × Env σ :=
  match h with
  | .own _ => (.own true, env)
  | .shared flag => (.shared flag, env.raise flag)

end AbortHandle

/-- Something that can be told to stop. -/
class Abortable (σ ο : Type) where
  abort : ο × Env σ → ο × Env σ

end SealedStream
