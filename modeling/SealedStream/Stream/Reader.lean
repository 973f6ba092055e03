import SealedStream.Session.Basic
import SealedStream.Stream.Source

/-!
# Reading through a session

A `CipherReader` pulls blocks from a source, feeds them to a session and hands out what the session
gives. A decrypting reader assembles the whole header at the first read. Any error that is not a
failed transfer stays: every later read repeats it until the reader is reset to its mark.
-/

namespace SealedStream

/-- A source seen through a session. -/
structure CipherReader (κ ρ : Type) where
  inner : ρ
  session : κ
  /-- How many bytes are asked of the source at a time. -/
  blockSize : Nat
  /-- Session output that was not yet handed out. -/
  output : Bytes := []
  /-- Whether the session was finalized at the end of the source. -/
  eof : Bool := false
  /-- Whether the session was started. -/
  started : Bool := false
  /-- Whether something was read or skipped. -/
  accessed : Bool := false
  /-- The position of the source to go back to. -/
  mark : Option Nat := none
  /-- The error that every read repeats. -/
  failed : Option Error := none
  abort : AbortHandle := .own false

/-- What one refill of the output gave. -/
inductive Refill
  | data | empty | done
  deriving DecidableEq, Repr

namespace CipherReader

variable {σ κ ρ : Type}

/-- How many bytes are asked of the source at a time if nothing else is said. -/
def defaultBlockSize : Nat := 4096

/-- How many refills in a row may give nothing. -/
def maxEmptyRefills : Nat := 1000

/-- A reader that asks for blocks of `blockSize` bytes, but of at least one. -/
def new (inner : ρ) (session : κ) (blockSize : Nat := defaultBlockSize)
    (abort : AbortHandle := .own false) : CipherReader κ ρ :=
  { inner, session, blockSize := max blockSize 1, abort }

/-- A step of a reader. -/
abbrev Pull (σ κ ρ α : Type) := EStateM Error (CipherReader κ ρ × Env σ) α

/-- Runs a step of the session. -/
def onSession {α : Type} (x : Step (κ × σ) α) : Pull σ κ ρ α :=
  zoom (fun t => (t.1.session, t.2.world))
    (fun u t => ({ t.1 with session := u.1 }, { t.2 with world := u.2 })) x

/-- Runs a transfer on the source; its failure comes back as the error behind it. -/
def onInner {α : Type} (x : Transfer σ ρ α) : Pull σ κ ρ α :=
  (zoom (fun t => (t.1.inner, t.2)) (fun u t => ({ t.1 with inner := u.1 }, u.2)) x).adaptExcept
    Error.ofIo

/-- Changes the reader itself. -/
def update (f : CipherReader κ ρ → CipherReader κ ρ) : Pull σ κ ρ Unit :=
  modify fun (r, env) => (f r, env)

def checkAbort : Pull σ κ ρ Unit := do
  let (r, env) ← get
  check (r.abort.check env)

/-- Fails if aborted, then if an error is stored. -/
def checkUsable : Pull σ κ ρ Unit := do
  checkAbort
  let (r, _) ← get
  match r.failed with
  | some e => throw e.recorded
  | none => return ()

/-- Makes `bytes` the output. -/
def setOutput (bytes : Bytes) : Pull σ κ ρ Refill := do
  update fun r => { r with output := bytes }
  return if bytes.isEmpty then .empty else .data

/-- Makes `bytes` the output if nothing comes after it. -/
def setLastOutput (bytes : Bytes) : Pull σ κ ρ Refill := do
  match ← setOutput bytes with
  | .empty => return .done
  | refill => return refill

/-- What can be handed out without reading. -/
def available : Pull σ κ ρ Nat := do
  checkUsable
  let (r, _) ← get
  return r.output.length

/-- Drops up to `n` bytes of what can be handed out without reading. -/
def skip (n : Nat) : Pull σ κ ρ Nat := do
  checkUsable
  let (r, _) ← get
  update fun r => { r with accessed := true, output := r.output.drop n }
  return min n r.output.length

section Reading

variable [Session κ σ] [Source σ ρ]

/-- One block of the source, given away only if no abort came meanwhile. -/
def readBlock (fuel : Nat) : Pull σ κ ρ Bytes := do
  let (r, _) ← get
  let block ← onInner (Source.read fuel r.blockSize)
  checkAbort
  return block

/-- Finalizes the session at the end of the source. -/
def finish : Pull σ κ ρ Bytes := do
  let tail ← onSession Session.finalize
  update fun r => { r with eof := true }
  return tail

/-- Feeds blocks until the header is behind, and gathers the output. -/
def assembleHeader (fuel : Nat) : Nat → Bytes → Pull σ κ ρ Bytes
  | 0, out => do
    let (r, _) ← get
    if Session.isReady r.session then return out else throw (.io .stalled)
  | rounds + 1, out => do
    let (r, _) ← get
    if Session.isReady r.session then return out
    checkAbort
    let block ← readBlock fuel
    if block.isEmpty then return out ++ (← finish)
    let more ← onSession (Session.update block)
    assembleHeader fuel rounds (out ++ more)

/-- Feeds one block, or finalizes the session at the end of the source. -/
def blockRefill (fuel : Nat) : Pull σ κ ρ Refill := do
  let block ← readBlock fuel
  if block.isEmpty then setLastOutput (← finish)
  else setOutput (← onSession (Session.update block))

/-- Starts the session. A header that it gives is the first output; a decrypting session is fed
until its header is behind. -/
def firstRefill (fuel : Nat) : Pull σ κ ρ Refill := do
  update fun r => { r with started := true }
  let header ← onSession Session.start
  let (r, _) ← get
  if !header.isEmpty then setOutput header
  else if Session.mode r.session = .decrypt then
    let plain ← assembleHeader fuel fuel []
    let (r, _) ← get
    if r.eof then setLastOutput plain else setOutput plain
  else blockRefill fuel

def refill (fuel : Nat) : Pull σ κ ρ Refill := do
  checkAbort
  let (r, _) ← get
  if r.eof then return .done
  else if r.started then blockRefill fuel
  else firstRefill fuel

/-- Refills until there is output (`true`) or the end is reached (`false`); `left` more refills may
give nothing. -/
def refillLoop (fuel : Nat) : Nat → Pull σ κ ρ Bool
  | 0 => do
    match ← refill fuel with
    | .data => return true
    | .done => return false
    | .empty =>
      throw (.io (.plain .other "exceeded maximum number of attempts to read next chunk of data"))
  | left + 1 => do
    match ← refill fuel with
    | .data => return true
    | .done => return false
    | .empty => refillLoop fuel left

/-- Sees to it that there is output, unless the end is reached. -/
def fill (fuel : Nat) : Pull σ κ ρ Bool := do
  let (r, _) ← get
  if r.output.isEmpty then refillLoop fuel maxEmptyRefills else return true

/-- Stores an error that is not a failed transfer. -/
def poison (e : Error) (r : CipherReader κ ρ) : CipherReader κ ρ :=
  if e.isIo then r else { r with failed := some e.recorded }

/-- Fills the output and hands out up to `n` bytes of it; an error that stays is stored. -/
def readFilled (fuel n : Nat) : Pull σ κ ρ Bytes := fun s =>
  match fill fuel s with
  | .ok true (r, env) => .ok (r.output.take n) ({ r with output := r.output.drop n }, env)
  | .ok false s => .ok [] s
  | .error e (r, env) => .error e (poison e r, env)

/-- Hands out up to `n` bytes. -/
def readBytes (fuel n : Nat) : Pull σ κ ρ Bytes := do
  checkUsable
  update fun r => { r with accessed := true }
  if n = 0 then return [] else readFilled fuel n

instance : Source σ (CipherReader κ ρ) where
  read fuel n := (readBytes fuel n).adaptExcept Error.toIo

/-- Finalizes the session unless it was finalized or failed, whatever comes of it. The output is
dropped and the source given back, if not aborted. -/
def close : Pull σ κ ρ ρ := fun (r, env) =>
  let s : CipherReader κ ρ × Env σ :=
    if r.eof || r.failed.isSome then (r, env)
    else match (onSession Session.finalize : Pull σ κ ρ Bytes) (r, env) with
      | .ok _ s => s
      | .error _ s => s
  (do
    update fun r => { r with output := [] }
    checkAbort
    let (r, _) ← get
    return r.inner : Pull σ κ ρ ρ) s

end Reading

section Marking

variable [Seekable σ ρ]

/-- Remembers the position of the source; only before anything was read or skipped. -/
def setMark : Pull σ κ ρ Unit := do
  let (r, _) ← get
  if r.accessed then throw (.invalidState .markAfterAccess)
  let position ← onInner Seekable.position
  update fun r => { r with mark := some position }

/-- Goes back to the mark with a fresh session. -/
def reset [Session κ σ] : Pull σ κ ρ Unit := do
  checkAbort
  let (r, _) ← get
  match r.mark with
  | none => throw (.invalidState .resetWithoutMark)
  | some position =>
    onInner (Seekable.seek position)
    update fun r =>
      { r with
        output := [], eof := false, started := false, accessed := false, failed := none
        session := Session.restart r.session }

end Marking

/-- Raises the flag, then aborts the source. -/
instance [Abortable σ ρ] : Abortable σ (CipherReader κ ρ) where
  abort s :=
    let (r, env) := s
    let (abort, env) := r.abort.abort env
    let (inner, env) := Abortable.abort (r.inner, env)
    ({ r with abort, inner }, env)

def describe [Session κ σ] (r : CipherReader κ ρ) : String :=
  s!"CipherReader \x7b mode: {(Session.mode r.session).name}, block_size: {r.blockSize}, " ++
    s!"buffered: {r.output.length}, eof: {r.eof}, .. \x7d"

end CipherReader

end SealedStream
