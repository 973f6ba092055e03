import SealedStream.Checksum.Tree
import SealedStream.Stream.Sink

/-!
# Streams with a checksum

The checksum sees exactly the bytes that pass: those a read or a skip took from the source, and
those that the sink accepted.
-/

namespace SealedStream

/-- A source whose bytes are checked on the way. -/
structure CheckedReader (γ ρ : Type) where
  inner : ρ
  checksum : γ

/-- A sink whose bytes are checked on the way. -/
structure CheckedWriter (γ ς : Type) where
  inner : ς
  checksum : γ

variable {σ γ ρ ς : Type}

namespace CheckedReader

/-- Runs a transfer on the source behind. -/
def onInner {α : Type} (x : Transfer σ ρ α) : Transfer σ (CheckedReader γ ρ) α :=
  zoom (fun t => (t.1.inner, t.2)) (fun u t => ({ t.1 with inner := u.1 }, u.2)) x

instance [Accumulator γ] [Source σ ρ] : Source σ (CheckedReader γ ρ) where
  read fuel n := do
    let bytes ← onInner (Source.read fuel n)
    modify fun (r, env) => ({ r with checksum := Accumulator.update r.checksum bytes }, env)
    return bytes

/-- Reads and drops up to `n` bytes, which the checksum sees. -/
def skip [Accumulator γ] [Source σ ρ] (fuel n : Nat) : Transfer σ (CheckedReader γ ρ) Nat :=
  Source.discard fuel n

instance [Abortable σ ρ] : Abortable σ (CheckedReader γ ρ) where
  abort | (r, env) => let (inner, env) := Abortable.abort (r.inner, env); ({ r with inner }, env)

end CheckedReader

namespace CheckedWriter

/-- Runs a transfer on the sink behind. -/
def onInner {α : Type} (x : Transfer σ ς α) : Transfer σ (CheckedWriter γ ς) α :=
  zoom (fun t => (t.1.inner, t.2)) (fun u t => ({ t.1 with inner := u.1 }, u.2)) x

instance [Accumulator γ] [Sink σ ς] : Sink σ (CheckedWriter γ ς) where
  write fuel bytes := do
    let n ← onInner (Sink.write fuel bytes)
    modify fun (w, env) =>
      ({ w with checksum := Accumulator.update w.checksum (bytes.take n) }, env)
    return n
  flush fuel := onInner (Sink.flush fuel)

instance [Abortable σ ς] : Abortable σ (CheckedWriter γ ς) where
  abort | (w, env) => let (inner, env) := Abortable.abort (w.inner, env); ({ w with inner }, env)

end CheckedWriter

end SealedStream
