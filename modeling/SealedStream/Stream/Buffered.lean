import SealedStream.Stream.Sink

/-!
# Buffered streams

A buffered reader fills its buffer with one read and hands out from it; a request that would empty
an empty buffer anyway goes straight through. A buffered writer gathers bytes and passes them on
when they no longer fit.
-/

namespace SealedStream

/-- A source with a buffer in front. -/
structure BufferedReader (ρ : Type) where
  inner : ρ
  capacity : Nat
  buffer : Bytes := []

/-- A sink with a buffer in front. -/
structure BufferedWriter (ς : Type) where
  inner : ς
  capacity : Nat
  buffer : Bytes := []

variable {σ ρ ς : Type}

namespace BufferedReader

/-- Runs a transfer on the source behind. -/
def onInner {α : Type} (x : Transfer σ ρ α) : Transfer σ (BufferedReader ρ) α :=
  zoom (fun t => (t.1.inner, t.2)) (fun u t => ({ t.1 with inner := u.1 }, u.2)) x

def setBuffer (buffer : Bytes) : Transfer σ (BufferedReader ρ) Unit :=
  modify fun (r, env) => ({ r with buffer }, env)

instance [Source σ ρ] : Source σ (BufferedReader ρ) where
  read fuel n := do
    let (r, _) ← get
    if r.buffer.isEmpty && r.capacity ≤ n then onInner (Source.read fuel n)
    else
      let buffer ← if r.buffer.isEmpty then onInner (Source.read fuel r.capacity) else pure r.buffer
      setBuffer (buffer.drop n)
      return buffer.take n

instance [Abortable σ ρ] : Abortable σ (BufferedReader ρ) where
  abort | (r, env) => let (inner, env) := Abortable.abort (r.inner, env); ({ r with inner }, env)

end BufferedReader

namespace BufferedWriter

/-- Runs a transfer on the sink behind. -/
def onInner {α : Type} (x : Transfer σ ς α) : Transfer σ (BufferedWriter ς) α :=
  zoom (fun t => (t.1.inner, t.2)) (fun u t => ({ t.1 with inner := u.1 }, u.2)) x

def setBuffer (buffer : Bytes) : Transfer σ (BufferedWriter ς) Unit :=
  modify fun (w, env) => ({ w with buffer }, env)

variable [Sink σ ς]

/-- Passes the buffered bytes on, write by write; what was accepted leaves the buffer. -/
def emptyLoop (fuel : Nat) : Nat → Transfer σ (BufferedWriter ς) Unit
  | 0 => do
    let (w, _) ← get
    if w.buffer.isEmpty then return () else throw .stalled
  | rounds + 1 => fun (w, env) =>
    if w.buffer.isEmpty then .ok () (w, env)
    else match Sink.write fuel w.buffer (w.inner, env) with
      | .ok 0 (inner, env) =>
        .error (.plain .writeZero "failed to write the buffered data") ({ w with inner }, env)
      | .ok n (inner, env) =>
        emptyLoop fuel rounds ({ w with inner, buffer := w.buffer.drop n }, env)
      | .error e (inner, env) =>
        if e.isInterrupted then emptyLoop fuel rounds ({ w with inner }, env)
        else .error e ({ w with inner }, env)

/-- Passes all buffered bytes on. -/
def empty (fuel : Nat) : Transfer σ (BufferedWriter ς) Unit := emptyLoop fuel fuel

instance : Sink σ (BufferedWriter ς) where
  write fuel bytes := do
    let (w, _) ← get
    -- the length, counted no further than the capacity is passed
    let size := (bytes.take (w.capacity + 1)).length
    if w.capacity - w.buffer.length < size then empty fuel
    if w.capacity ≤ size then onInner (Sink.write fuel bytes)
    else
      modify fun (w, env) => ({ w with buffer := w.buffer ++ bytes }, env)
      return size
  flush fuel := do
    empty fuel
    onInner (Sink.flush fuel)

instance [Abortable σ ς] : Abortable σ (BufferedWriter ς) where
  abort | (w, env) => let (inner, env) := Abortable.abort (w.inner, env); ({ w with inner }, env)

end BufferedWriter

end SealedStream
