import SealedStream.Family
import SealedStream.Header
import SealedStream.KeyWrap

/-!
# Content key material

The IV and the key of one stream: drawn at random when sealing, taken from the header when opening.
-/

namespace SealedStream

/-- IV and content key of one stream. -/
structure KeyMaterial where
  iv : Bytes
  key : Bytes
  deriving DecidableEq, Repr

namespace KeyMaterial

variable {σ γ : Type}

/-- How many keys are drawn before giving up. -/
def maxAttempts : Nat := 9

/-- Draws up to `n` keys of `len` bytes until one may be used: when zeros are refused, a key may not
begin with a zero byte. -/
def drawKey (random : RandomSource σ) (len : Nat) (rejectZero : Bool) : Nat → Step σ Bytes
  | 0 => throw (.keyGenerationExhausted maxAttempts)
  | n + 1 => do
    let key ← random.fill len
    if rejectZero && key.toList.head? == some 0 then drawKey random len rejectZero n
    else return key.toList

/-- Draws an IV, then a key. -/
def generate (family : CipherFamily σ γ) (random : RandomSource σ) (rejectZero : Bool) :
    Step σ KeyMaterial := do
  let iv ← family.generateIv random
  let key ← drawKey random family.keyLen rejectZero maxAttempts
  return ⟨iv, key⟩

/-- The header that carries the material: the IV is wrapped first. -/
def sealHeader (m : KeyMaterial) (wrap : KeyWrap σ) (version : UInt32) : Step σ Header := do
  let wrappedIv ← wrap.wrap m.iv
  let wrappedKey ← wrap.wrap m.key
  return ⟨version, wrappedIv, wrappedKey⟩

/-- The material that a header carries. The IV is unwrapped and measured before the key is. -/
def openHeader (h : Header) (wrap : KeyWrap σ) (family : CipherFamily σ γ) :
    Step σ KeyMaterial := do
  let iv ← wrap.unwrap h.wrappedIv
  if iv.length ≠ family.ivLen then
    throw (.header (.secretLength .iv family.name family.ivLen iv.length))
  let key ← wrap.unwrap h.wrappedKey
  if key.length ≠ family.keyLen then
    throw (.header (.secretLength .key family.name family.keyLen key.length))
  return ⟨iv, key⟩

/-- Shows lengths only. -/
def describe (m : KeyMaterial) : String :=
  s!"ContentKeyMaterial \x7b iv_len: {m.iv.length}, key_len: {m.key.length} \x7d"

end KeyMaterial

end SealedStream
