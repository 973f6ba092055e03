import SealedStream.Bytes
import SealedStream.Stream.Abort

/-!
# Sources

A source hands over bytes on request: some, up to the number asked for, or none at its end. Loops
over a source take their number of rounds as `fuel`; one that runs out of it fails as stalled.
-/

namespace SealedStream

/-- A transfer on the stream `ο`. -/
abbrev Transfer (σ ο α : Type) := EStateM IoError (ο × Env σ) α

/-- Something to read from. -/
class Source (σ ρ : Type) where
  read : (fuel n : Nat) → Transfer σ ρ Bytes

/-- A source whose position can be asked and set. -/
class Seekable (σ ρ : Type) where
  position : Transfer σ ρ Nat
  seek : Nat → Transfer σ ρ Unit

namespace Source

variable {σ ρ : Type} [Source σ ρ]

/-- How many bytes a copying loop asks for at a time. -/
def copyLen : Nat := 8192

/-- Reads until `n` bytes are there. An interrupted read is tried again. -/
def readExactLoop (fuel : Nat) : Nat → Nat → Bytes → Transfer σ ρ Bytes
  | _, 0, got => pure got
  | 0, _ + 1, _ => throw .stalled
  | rounds + 1, n + 1, got => fun s =>
    match read fuel (n + 1) s with
    | .ok [] s => .error (.plain .unexpectedEof "failed to fill whole buffer") s
    | .ok bytes s => readExactLoop fuel rounds (n + 1 - bytes.length) (got ++ bytes) s
    | .error e s =>
      if e.isInterrupted then readExactLoop fuel rounds (n + 1) got s else .error e s

def readExact (fuel n : Nat) : Transfer σ ρ Bytes := readExactLoop fuel fuel n []

/-- Reads and drops until `n` bytes are gone or none come, and counts them from `count` on. An
interrupted read is tried again. -/
def discardLoop (fuel : Nat) : Nat → Nat → Nat → Transfer σ ρ Nat
  | _, 0, count => pure count
  | 0, _ + 1, _ => throw .stalled
  | rounds + 1, n + 1, count => fun s =>
    match read fuel (min copyLen (n + 1)) s with
    | .ok [] s => .ok count s
    | .ok bytes s => discardLoop fuel rounds (n + 1 - bytes.length) (count + bytes.length) s
    | .error e s => if e.isInterrupted then discardLoop fuel rounds (n + 1) count s else .error e s

/-- Drops up to `n` bytes and says how many. -/
def discard (fuel n : Nat) : Transfer σ ρ Nat := discardLoop fuel fuel n 0

/-- What reading to the end gave: the bytes, the number of reads, and what stopped it early. -/
structure Drained where
  bytes : Bytes
  reads : Nat
  failure : Option IoError

/-- Reads `n` bytes at a time until none come or a read fails; `parts` were read before, the latest
first. -/
def drainLoop (fuel n : Nat) : Nat → Nat → List Bytes → ρ × Env σ → Drained × (ρ × Env σ)
  | 0, reads, parts, s => (⟨parts.reverse.flatten, reads, some .stalled⟩, s)
  | rounds + 1, reads, parts, s =>
    match read fuel n s with
    | .ok [] s => (⟨parts.reverse.flatten, reads + 1, none⟩, s)
    | .ok bytes s => drainLoop fuel n rounds (reads + 1) (bytes :: parts) s
    | .error e s => (⟨parts.reverse.flatten, reads + 1, some e⟩, s)

/-- Reads to the end, `n` bytes at a time. -/
def drain (fuel n : Nat) (s : ρ × Env σ) : Drained × (ρ × Env σ) := drainLoop fuel n fuel 0 [] s

end Source

end SealedStream
