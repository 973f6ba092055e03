import SealedStream.Stream.Source

/-!
# Sinks and copying

A sink accepts some of the bytes offered to it. `writeAll` offers the rest again until all are
accepted, and `copy` moves a whole source into a sink.
-/

namespace SealedStream

/-- Something to write to. -/
class Sink (σ ς : Type) where
  /-- Offers bytes and says how many of them were accepted. -/
  write : (fuel : Nat) → Bytes → Transfer σ ς Nat
  flush : (fuel : Nat) → Transfer σ ς Unit

namespace Sink

variable {σ ς : Type} [Sink σ ς]

def writeAllLoop (fuel : Nat) : Nat → Bytes → Transfer σ ς Unit
  | _, [] => pure ()
  | 0, _ :: _ => throw .stalled
  | rounds + 1, b :: bs => fun s =>
    match write fuel (b :: bs) s with
    | .ok 0 s => .error (.plain .writeZero "failed to write whole buffer") s
    | .ok n s => writeAllLoop fuel rounds ((b :: bs).drop n) s
    | .error e s => if e.isInterrupted then writeAllLoop fuel rounds (b :: bs) s else .error e s

/-- Writes all of the bytes. An interrupted write is tried again; a write that accepts nothing is a
failure. -/
def writeAll (fuel : Nat) (bytes : Bytes) : Transfer σ ς Unit := writeAllLoop fuel fuel bytes

end Sink

variable {σ ρ ς : Type} [Source σ ρ] [Sink σ ς]

/-- Copies from a source to a sink, after `count` bytes. -/
def copyLoop (fuel : Nat) : Nat → Nat → Transfer σ (ρ × ς) Nat
  | 0, _ => throw .stalled
  | rounds + 1, count => fun ((source, sink), env) =>
    match Source.read fuel Source.copyLen (source, env) with
    | .ok [] (source, env) => .ok count ((source, sink), env)
    | .ok bytes (source, env) =>
      match Sink.writeAll fuel bytes (sink, env) with
      | .ok () (sink, env) => copyLoop fuel rounds (count + bytes.length) ((source, sink), env)
      | .error e (sink, env) => .error e ((source, sink), env)
    | .error e (source, env) =>
      if e.isInterrupted then copyLoop fuel rounds count ((source, sink), env)
      else .error e ((source, sink), env)

/-- Copies all that a source has into a sink and counts the bytes. An interrupted read is tried
again. -/
def copy (fuel : Nat) : Transfer σ (ρ × ς) Nat := copyLoop fuel fuel 0

end SealedStream
