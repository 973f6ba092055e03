import SealedStream.KeyMaterial
import SealedStream.Session.Basic

/-!
# Sessions of one cipher family

Encrypting, the session draws key material at its first use and gives out the sealed header.
Decrypting, it gathers bytes until the header is complete, opens it and goes on with what is left.
-/

namespace SealedStream

/-- What a session of a family may be told. -/
structure SessionOptions where
  /-- The version written, and the one expected. -/
  version : UInt32
  checkVersion : Bool := true
  /-- Whether keys that begin with a zero byte are drawn again. -/
  rejectZero : Bool := true
  deriving DecidableEq, Repr

/-- Where a session stands. -/
inductive FamilyPhase (γ : Type)
  /-- The header is not complete; these bytes of it have come. -/
  | awaiting (buffered : Bytes)
  | ready (cipher : γ)

/-- A session of one cipher family. -/
structure FamilySession (σ γ : Type) where
  mode : Mode
  family : CipherFamily σ γ
  wrap : KeyWrap σ
  random : RandomSource σ
  options : SessionOptions
  phase : FamilyPhase γ := .awaiting []

namespace FamilySession

variable {σ γ : Type}

/-- The options that fit a family. -/
def defaultOptions (family : CipherFamily σ γ) : SessionOptions := { version := family.version }

/-- A session with the options that fit its family. -/
def new (mode : Mode) (family : CipherFamily σ γ) (wrap : KeyWrap σ) (random : RandomSource σ) :
    FamilySession σ γ :=
  { mode, family, wrap, random, options := defaultOptions family }

def isReady (s : FamilySession σ γ) : Bool :=
  match s.phase with
  | .ready _ => true
  | .awaiting _ => false

def restart (s : FamilySession σ γ) : FamilySession σ γ := { s with phase := .awaiting [] }

/-- Moves the session to another phase. -/
def setPhase (phase : FamilyPhase γ) : Step (FamilySession σ γ × σ) Unit :=
  modify fun (s, w) => ({ s with phase }, w)

/-- Draws key material, makes the cipher and seals the header, in this order. -/
def sealNew (s : FamilySession σ γ) : Step σ (γ × Header) := do
  let material ← KeyMaterial.generate s.family s.random s.options.rejectZero
  let cipher ← s.family.newCipher material.key material.iv .encrypt
  let header ← material.sealHeader s.wrap s.options.version
  return (cipher, header)

/-- Opens a header and makes the cipher for what follows it. -/
def openNew (s : FamilySession σ γ) (header : Header) : Step σ γ := do
  let material ← KeyMaterial.openHeader header s.wrap s.family
  s.family.newCipher material.key material.iv .decrypt

/-- The version that a header must carry, if that is checked. -/
def expectedVersion (s : FamilySession σ γ) : Option UInt32 :=
  if s.options.checkVersion then some s.options.version else none

def start : Step (FamilySession σ γ × σ) Bytes := do
  let (s, _) ← get
  match s.mode, s.phase with
  | .encrypt, .awaiting _ =>
    let (cipher, header) ← onWorld (sealNew s)
    setPhase (.ready cipher)
    return header.encode
  | _, _ => return []

variable [ContentCipher σ γ]

/-- Runs a step of the content cipher, which keeps the state that it reaches. -/
def onCipher (x : Step (γ × σ) Bytes) (cipher : γ) : Step (FamilySession σ γ × σ) Bytes :=
  zoom (fun t => (cipher, t.2)) (fun u t => ({ t.1 with phase := .ready u.1 }, u.2)) x

/-- Takes bytes while the header is not complete. The bytes of the header stay gathered until the
first bytes behind it went through the cipher. -/
def feedHeader (buffered input : Bytes) : Step (FamilySession σ γ × σ) Bytes := do
  let (s, _) ← get
  let all := buffered ++ input
  setPhase (.awaiting all)
  match ← check (Header.decode all s.expectedVersion) with
  | .needMore => return []
  | .complete header consumed =>
    let cipher ← onWorld (openNew s header)
    setPhase (.awaiting (all.take consumed))
    let rest := all.drop consumed
    if rest.isEmpty then
      setPhase (.ready cipher)
      return []
    let (out, cipher) ← onWorld (runOn cipher (ContentCipher.update rest))
    setPhase (.ready cipher)
    return out

def update (input : Bytes) : Step (FamilySession σ γ × σ) Bytes := do
  let header ← start
  let (s, _) ← get
  match s.phase with
  | .ready cipher => return header ++ (← onCipher (ContentCipher.update input) cipher)
  | .awaiting buffered => feedHeader buffered input

def finalize : Step (FamilySession σ γ × σ) Bytes := do
  let (s, _) ← get
  match s.phase, s.mode with
  | .ready cipher, _ => onCipher ContentCipher.finalize cipher
  | .awaiting _, .encrypt => return []
  | .awaiting buffered, .decrypt => throw (.truncatedHeader buffered.length)

instance : Session (FamilySession σ γ) σ where
  mode := FamilySession.mode
  version s := some s.options.version
  isReady := isReady
  start := start
  update := update
  finalize := finalize
  restart := restart

end FamilySession

end SealedStream
