import SealedStream.Session.Basic
import SealedStream.Stream.Sink

/-!
# Writing through a session

A `CipherWriter` feeds what it is given to a session and writes what the session gives to a sink.
Closing finishes the stream: header if none was written, the session's tail, and a flush. A writer
that is dropped open is closed as well, as far as that works.
-/

namespace SealedStream

/-- A sink seen through a session. -/
structure CipherWriter (κ ς : Type) where
  inner : ς
  session : κ
  /-- Whether the session's beginning was written. -/
  started : Bool := false
  closed : Bool := false
  abort : AbortHandle := .own false

namespace CipherWriter

variable {σ κ ς : Type}

/-- A step of a writer. -/
abbrev Push (σ κ ς α : Type) := EStateM Error (CipherWriter κ ς × Env σ) α

/-- Runs a step of the session. -/
def onSession {α : Type} (x : Step (κ × σ) α) : Push σ κ ς α :=
  zoom (fun t => (t.1.session, t.2.world))
    (fun u t => ({ t.1 with session := u.1 }, { t.2 with world := u.2 })) x

/-- Runs a transfer on the sink; its failure passes through as it is. -/
def onSink {α : Type} (x : Transfer σ ς α) : Transfer σ (CipherWriter κ ς) α :=
  zoom (fun t => (t.1.inner, t.2)) (fun u t => ({ t.1 with inner := u.1 }, u.2)) x

/-- Runs a transfer on the sink; its failure comes back as the error behind it. -/
def onInner {α : Type} (x : Transfer σ ς α) : Push σ κ ς α := (onSink x).adaptExcept Error.ofIo

/-- A step whose error has to pass through a transfer. -/
def carried {α : Type} (x : Push σ κ ς α) : Transfer σ (CipherWriter κ ς) α :=
  x.adaptExcept Error.toIo

/-- Changes the writer itself. -/
def update (f : CipherWriter κ ς → CipherWriter κ ς) : Push σ κ ς Unit :=
  modify fun (w, env) => (f w, env)

def checkAbort : Push σ κ ς Unit := do
  let (w, env) ← get
  check (w.abort.check env)

section Writing

variable [Session κ σ] [Sink σ ς]

/-- Writes the session's beginning, once. A failure leaves it to be tried again. -/
def ensureStarted (fuel : Nat) : Push σ κ ς Unit := do
  let (w, _) ← get
  if !w.started then
    let header ← onSession Session.start
    onInner (Sink.writeAll fuel header)
    update fun w => { w with started := true }

/-- Fails if aborted, then if closed; otherwise the session's beginning is written. -/
def prepare (fuel : Nat) : Push σ κ ς Unit := do
  checkAbort
  let (w, _) ← get
  if w.closed then throw (.invalidState .writeAfterClose)
  ensureStarted fuel

/-- Feeds all of the bytes and writes what comes of them. A sink that fails here fails in its own
words; one that fails to take the session's beginning does so by the error behind it. -/
def writeBytes (fuel : Nat) (bytes : Bytes) : Transfer σ (CipherWriter κ ς) Nat := do
  carried (prepare fuel)
  if bytes.isEmpty then return 0
  let out ← carried (onSession (Session.update bytes))
  onSink (Sink.writeAll fuel out)
  return bytes.length

def flush (fuel : Nat) : Transfer σ (CipherWriter κ ς) Unit := do
  carried checkAbort
  onSink (Sink.flush fuel)

instance : Sink σ (CipherWriter κ ς) where
  write := writeBytes
  flush := flush

/-- Finalizes the session and writes its tail. Unless `strict`, a session that cannot be finalized
has no tail. -/
def writeTail (fuel : Nat) (strict : Bool) : Push σ κ ς Unit := fun s =>
  match (onSession Session.finalize : Push σ κ ς Bytes) s with
  | .ok tail s => onInner (Sink.writeAll fuel tail) s
  | .error e s => if strict then .error e s else .ok () s

/-- Closes an open writer. It counts as closed from the first attempt on. -/
def shutdown (fuel : Nat) (strict : Bool) : Push σ κ ς Unit := do
  let (w, _) ← get
  if w.closed then return ()
  update fun w => { w with closed := true }
  checkAbort
  ensureStarted fuel
  writeTail fuel strict
  onInner (Sink.flush fuel)
  checkAbort

/-- Closes the writer; a session that cannot be finalized does no harm. -/
def close (fuel : Nat) : Push σ κ ς Unit := shutdown fuel false

/-- Closes the writer and insists on the session's tail. -/
def finish (fuel : Nat) : Push σ κ ς Unit := shutdown fuel true

/-- What is left of a writer that goes out of use: it is closed if it was not, whatever comes of
it. -/
def drop (fuel : Nat) (s : CipherWriter κ ς × Env σ) : CipherWriter κ ς × Env σ :=
  match (shutdown fuel false : Push σ κ ς Unit) s with
  | .ok _ s => s
  | .error _ s => s

end Writing

/-- Raises the flag, then aborts the sink. -/
instance [Abortable σ ς] : Abortable σ (CipherWriter κ ς) where
  abort s :=
    let (w, env) := s
    let (abort, env) := w.abort.abort env
    let (inner, env) := Abortable.abort (w.inner, env)
    ({ w with abort, inner }, env)

def describe [Session κ σ] (w : CipherWriter κ ς) : String :=
  s!"CipherWriter \x7b mode: {(Session.mode w.session).name}, started: {w.started}, " ++
    s!"closed: {w.closed}, .. \x7d"

end CipherWriter

end SealedStream
