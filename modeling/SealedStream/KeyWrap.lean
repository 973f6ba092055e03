import SealedStream.Block.Aes
import SealedStream.Block.Chaining
import SealedStream.Hash.Sha256
import SealedStream.Mac
import SealedStream.Padding
import SealedStream.PasswordKey
import SealedStream.Random

/-!
# Wrapping secrets under a master key

`KeyWrap` is the seam: something that turns a secret into bytes that may be stored, and back.
`AesKeyWrap` is the bundled one: `IV | AES-256-CBC of the padded secret | HMAC-SHA-256 of both`,
under two keys derived from the master key. Unwrapping checks length, tag and padding, in this
order.
-/

namespace SealedStream

/-- Protects short secrets. -/
structure KeyWrap (σ : Type) where
  wrap : Bytes → Step σ Bytes
  unwrap : Bytes → Step σ Bytes

/-- The two keys derived from a master key. -/
structure AesKeyWrap where
  schedule : Aes.Schedule
  mac : Mac (Sha256.Chain × Nat)

namespace AesKeyWrap

/-- Length of the tag at the end of a wrapped secret. -/
def tagLen : Nat := 32

/-- Length of a master key. -/
def keyLen : Nat := 32

def encryptionLabel : Bytes := Bytes.ofText "envelope-crypt/wrap/enc"
def tagLabel : Bytes := Bytes.ofText "envelope-crypt/wrap/mac"

/-- The key for one purpose: the tag of its label under the master key. -/
def subKey (master : Key32) (label : Bytes) : Bytes :=
  (Mac.ofKey Sha256.absorber master.toList).tag label

/-- The schedule of a byte string's first two blocks; missing blocks count as zeros. -/
def scheduleOf (key : Bytes) : Aes.Schedule :=
  match Block.ofBytes key with
  | a :: b :: _ => .ofHalves a b
  | [a] => .ofHalves a .zero
  | [] => .ofHalves .zero .zero

def ofMaster (master : Key32) : AesKeyWrap where
  schedule := scheduleOf (subKey master encryptionLabel)
  mac := Mac.ofKey Sha256.absorber (subKey master tagLabel)

/-- A key wrap whose master key is derived from a password. -/
def ofPassword (password : String) (salt : Bytes) (iterations : UInt32) :
    Except Error AesKeyWrap :=
  (PasswordKey.derive (Bytes.ofText password) salt iterations).map ofMaster

/-- Wraps `plain` under the given IV. -/
def wrapUnder (w : AesKeyWrap) (iv : Vector UInt8 16) (plain : Bytes) : Bytes :=
  let ivBytes := iv.toList
  let previous := (Block.ofBytes ivBytes).headD .zero
  let padded := Block.ofBytes (Padding.pad plain)
  let blocks := Chaining.encrypt (Aes.encrypt w.schedule) previous padded
  let body := ivBytes ++ blocks.flatMap Block.toBytes
  body ++ w.mac.tag body

/-- Whether wrapping can produce `n` bytes: at least one block, and whole blocks around the tag. -/
def lengthOk (n : Nat) : Bool := 2 * blockLen + tagLen ≤ n && (n - tagLen) % blockLen == 0

/-- Takes a wrapped secret back. -/
def unwrap (w : AesKeyWrap) (wrapped : Bytes) : Except Error Bytes :=
  if !lengthOk wrapped.length then .error (.crypto (.wrappedLength wrapped.length))
  else
    let body := wrapped.take (wrapped.length - tagLen)
    if wrapped.drop (wrapped.length - tagLen) ≠ w.mac.tag body then .error (.crypto .tagMismatch)
    else
      let previous := (Block.ofBytes body).headD .zero
      let blocks := Block.ofBytes (body.drop blockLen)
      let plain := Chaining.decrypt (Aes.decrypt w.schedule) previous blocks
      Padding.unpad? (plain.flatMap Block.toBytes)

/-- The key wrap that draws its IVs from `random`. -/
def keyWrap {σ : Type} (w : AesKeyWrap) (random : RandomSource σ) : KeyWrap σ where
  wrap plain := do
    let iv ← random.fill 16
    return w.wrapUnder iv plain
  unwrap wrapped := check (w.unwrap wrapped)

/-- Shows no key. -/
def describe (_ : AesKeyWrap) : String := "AesKeyWrap \x7b .. \x7d"

end AesKeyWrap

end SealedStream
