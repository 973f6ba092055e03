import SealedStream.Stream.Sink

/-!
# Streams that can be aborted

A reader looks at its flag before and after each read, so a read that was under way when the flag
went up gives nothing away. A writer looks before each write and each flush.
-/

namespace SealedStream

/-- A source behind an abort flag. -/
structure AbortableReader (ρ : Type) where
  inner : ρ
  abort : AbortHandle

/-- A sink behind an abort flag. -/
structure AbortableWriter (ς : Type) where
  inner : ς
  abort : AbortHandle

variable {σ ρ ς : Type}

namespace AbortableReader

/-- Runs a transfer on the source behind. -/
def onInner {α : Type} (x : Transfer σ ρ α) : Transfer σ (AbortableReader ρ) α :=
  zoom (fun t => (t.1.inner, t.2)) (fun u t => ({ t.1 with inner := u.1 }, u.2)) x

def checkAbort : Transfer σ (AbortableReader ρ) Unit := do
  let (r, env) ← get
  (check (r.abort.check env)).adaptExcept Error.toIo

instance [Source σ ρ] : Source σ (AbortableReader ρ) where
  read fuel n := do
    checkAbort
    let bytes ← onInner (Source.read fuel n)
    checkAbort
    return bytes

/-- Raises the flag; the source behind is not told. -/
instance : Abortable σ (AbortableReader ρ) where
  abort | (r, env) => let (abort, env) := r.abort.abort env; ({ r with abort }, env)

end AbortableReader

namespace AbortableWriter

/-- Runs a transfer on the sink behind. -/
def onInner {α : Type} (x : Transfer σ ς α) : Transfer σ (AbortableWriter ς) α :=
  zoom (fun t => (t.1.inner, t.2)) (fun u t => ({ t.1 with inner := u.1 }, u.2)) x

def checkAbort : Transfer σ (AbortableWriter ς) Unit := do
  let (w, env) ← get
  (check (w.abort.check env)).adaptExcept Error.toIo

instance [Sink σ ς] : Sink σ (AbortableWriter ς) where
  write fuel bytes := do
    checkAbort
    onInner (Sink.write fuel bytes)
  flush fuel := do
    checkAbort
    onInner (Sink.flush fuel)

/-- Raises the flag; the sink behind is not told. -/
instance : Abortable σ (AbortableWriter ς) where
  abort | (w, env) => let (abort, env) := w.abort.abort env; ({ w with abort }, env)

end AbortableWriter

end SealedStream
