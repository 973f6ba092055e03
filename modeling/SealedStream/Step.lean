import SealedStream.Error

/-!
# Steps

An operation is a step over the state that it works on: it gives a result or an error, and in
either case the state it reached. Nothing is rolled back by a failure.
-/

namespace SealedStream

/-- A step over the state `σ`. -/
abbrev Step (σ α : Type) := EStateM Error σ α

/-- The same outcome with its state seen through `f`. -/
def mapState {ε σ τ α : Type} (f : σ → τ) : EStateM.Result ε σ α → EStateM.Result ε τ α
  | .ok a s => .ok a (f s)
  | .error e s => .error e (f s)

/-- Runs `x` on the part of the state that `get` reads and `set` writes back. -/
def zoom {ε σ τ α : Type} (get : τ → σ) (set : σ → τ → τ) (x : EStateM ε σ α) : EStateM ε τ α :=
  fun t => mapState (set · t) (x (get t))

/-- Runs `x` on the object `o` and gives the object back with the result; a failure loses it. -/
def runOn {ε ο σ α : Type} (o : ο) (x : EStateM ε (ο × σ) α) : EStateM ε σ (α × ο) :=
  fun s => match x (o, s) with
    | .ok a (o, s) => .ok (a, o) s
    | .error e (_, s) => .error e s

/-- Runs a step over the world on an object's state, which stays as it is. -/
def onWorld {ε ο σ α : Type} (x : EStateM ε σ α) : EStateM ε (ο × σ) α :=
  zoom (·.2) (fun s t => (t.1, s)) x

/-- A check as a step that changes nothing. -/
def check {ε σ α : Type} : Except ε α → EStateM ε σ α
  | .ok a => pure a
  | .error e => throw e

end SealedStream
