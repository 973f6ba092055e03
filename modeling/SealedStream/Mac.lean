import SealedStream.Hash.Absorber

/-!
# HMAC

A keyed tag from any incremental hash.
-/

namespace SealedStream

/-- A keyed hash: the inner and the outer hash after the padded key. -/
structure Mac (χ : Type) where
  hash : Absorber χ
  inner : Running χ
  outer : Running χ

namespace Mac

variable {χ : Type}

/-- A key longer than a block is hashed first; a shorter one is filled up with zeros. -/
def ofKey (h : Absorber χ) (key : Bytes) : Mac χ :=
  let short := if h.blockLen < key.length then h.hash key else key
  let block := short ++ List.replicate (h.blockLen - short.length) 0
  ⟨h, h.update h.new (block.map (· ^^^ 0x36)), h.update h.new (block.map (· ^^^ 0x5c))⟩

def tag (m : Mac χ) (message : Bytes) : Bytes :=
  m.hash.digest (m.hash.update m.outer (m.hash.digest (m.hash.update m.inner message)))

end Mac

end SealedStream
