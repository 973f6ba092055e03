import SealedStream.Session.Registry

/-!
# Sessions chosen by the stream

A dispatcher puts an id of four bytes in front of a stream when encrypting, and when decrypting
reads it to choose the session for the rest. An id that is not registered goes to the default type,
if there is one and it is registered.
-/

namespace SealedStream

/-- Where a dispatcher stands. -/
inductive DispatchPhase (κ : Type)
  /-- The id is not complete; these bytes have come. -/
  | selecting (buffered : Bytes)
  | selected (id : UInt32) (inner : κ)

/-- A session that chooses another one. -/
structure Dispatcher (σ κ : Type) where
  context : SessionContext σ
  registry : Registry σ κ
  encryptType : UInt32
  defaultType : Option UInt32
  phase : DispatchPhase κ := .selecting []

namespace Dispatcher

variable {σ κ : Type}

/-- Length of the id in front of a stream. -/
def idLen : Nat := 4

def selectedId (d : Dispatcher σ κ) : Option UInt32 :=
  match d.phase with
  | .selected id _ => some id
  | .selecting _ => none

def restart (d : Dispatcher σ κ) : Dispatcher σ κ := { d with phase := .selecting [] }

/-- A new session for `id`, or for the fallback. -/
def select (d : Dispatcher σ κ) (id : UInt32) (fallback : Option UInt32) :
    Except Error (UInt32 × κ) :=
  match d.registry.get? id with
  | some make => .ok (id, make d.context)
  | none =>
    match fallback.bind fun f => (d.registry.get? f).map (f, ·) with
    | some (f, make) => .ok (f, make d.context)
    | none => .error (.unsupportedAlgorithm id)

/-- Moves the dispatcher to another phase. -/
def setPhase (phase : DispatchPhase κ) : Step (Dispatcher σ κ × σ) Unit :=
  modify fun (d, w) => ({ d with phase }, w)

variable [Session κ σ]

/-- Runs a step of the selected session, which keeps the state that it reaches. -/
def onInner (x : Step (κ × σ) Bytes) (id : UInt32) (inner : κ) : Step (Dispatcher σ κ × σ) Bytes :=
  zoom (fun t => (inner, t.2)) (fun u t => ({ t.1 with phase := .selected id u.1 }, u.2)) x

/-- Writes the id and starts the session for it. -/
def beginEncrypt : Step (Dispatcher σ κ × σ) Bytes := do
  let (d, _) ← get
  let (id, inner) ← check (d.select d.encryptType none)
  let (header, inner) ← onWorld (runOn inner Session.start)
  setPhase (.selected id inner)
  return Bytes.be32 id ++ header

/-- Takes bytes until the id is complete, then starts the session for it on the rest. Only the id
stays gathered until that session took the rest. -/
def feedId (buffered input : Bytes) : Step (Dispatcher σ κ × σ) Bytes := do
  let (d, _) ← get
  let all := buffered ++ input
  setPhase (.selecting all)
  match Bytes.be32? all with
  | none => return []
  | some requested =>
    setPhase (.selecting (all.take idLen))
    let (id, inner) ← check (d.select requested d.defaultType)
    let (out, inner) ← onWorld (runOn inner Session.start)
    let rest := all.drop idLen
    if rest.isEmpty then
      setPhase (.selected id inner)
      return out
    let (more, inner) ← onWorld (runOn inner (Session.update rest))
    setPhase (.selected id inner)
    return out ++ more

def start : Step (Dispatcher σ κ × σ) Bytes := do
  let (d, _) ← get
  match d.phase, d.context.mode with
  | .selected id inner, _ => onInner Session.start id inner
  | .selecting _, .encrypt => beginEncrypt
  | .selecting _, .decrypt => return []

def update (input : Bytes) : Step (Dispatcher σ κ × σ) Bytes := do
  let (d, _) ← get
  match d.phase, d.context.mode with
  | .selected id inner, _ => onInner (Session.update input) id inner
  | .selecting buffered, .decrypt => feedId buffered input
  | .selecting _, .encrypt =>
    let header ← beginEncrypt
    let (d, _) ← get
    match d.phase with
    | .selected id inner => return header ++ (← onInner (Session.update input) id inner)
    | .selecting _ => return header

def finalize : Step (Dispatcher σ κ × σ) Bytes := do
  let (d, _) ← get
  match d.phase, d.context.mode with
  | .selected id inner, _ => onInner Session.finalize id inner
  | .selecting _, .encrypt => return []
  | .selecting buffered, .decrypt => throw (.truncatedHeader buffered.length)

instance : Session (Dispatcher σ κ) σ where
  mode d := d.context.mode
  version d := match d.phase with
    | .selected _ inner => Session.version inner
    | .selecting _ => none
  isReady d := match d.phase with
    | .selected _ inner => Session.isReady inner
    | .selecting _ => false
  start := start
  update := update
  finalize := finalize
  restart := restart

end Dispatcher

end SealedStream
