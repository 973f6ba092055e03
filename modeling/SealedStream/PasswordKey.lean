import SealedStream.Error
import SealedStream.Hash.Sha512
import SealedStream.Mac

/-!
# Keys from passwords

PBKDF2 over HMAC-SHA-512, with 32 bytes of output: one block of the tag's 64 bytes, cut short.
-/

namespace SealedStream

/-- A secret of 32 bytes. -/
abbrev Key32 := Vector UInt8 32

namespace PasswordKey

/-- `n` more tags from `u` on, all added to `sum`. -/
def iterate (mac : Mac (Sha512.Chain × Nat)) : Nat → Bytes → Bytes → Bytes
  | 0, _, sum => sum
  | n + 1, u, sum =>
    let v := mac.tag u
    iterate mac n v (Bytes.xor sum v)

/-- The first block of the derived key. -/
def firstBlock (password salt : Bytes) (iterations : Nat) : Bytes :=
  let mac := Mac.ofKey Sha512.absorber password
  let u := mac.tag (salt ++ Bytes.be32 1)
  iterate mac (iterations - 1) u u

/-- Refuses an empty password, then an iteration count outside the allowed range. -/
def derive (password salt : Bytes) (iterations : UInt32) : Except Error Key32 :=
  if password.isEmpty then .error (.crypto .emptyPassword)
  else if iterations < minIterations ∨ maxIterations < iterations then
    .error (.crypto (.iterations iterations))
  else
    let block := firstBlock password salt iterations.toNat
    .ok (Vector.ofFn fun i => block.getD i.val 0)

end PasswordKey

end SealedStream
