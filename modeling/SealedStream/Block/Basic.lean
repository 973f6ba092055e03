import SealedStream.Bytes

/-!
# Blocks of sixteen bytes

A block is four words of four bytes, the layout that both block ciphers work on.
-/

namespace SealedStream

/-- Four of a kind. -/
structure Quad (α : Type) where
  x0 : α
  x1 : α
  x2 : α
  x3 : α
  deriving DecidableEq, Repr

namespace Quad

variable {α β γ : Type}

def map (f : α → β) (q : Quad α) : Quad β := ⟨f q.x0, f q.x1, f q.x2, f q.x3⟩

def zipWith (f : α → β → γ) (p : Quad α) (q : Quad β) : Quad γ :=
  ⟨f p.x0 q.x0, f p.x1 q.x1, f p.x2 q.x2, f p.x3 q.x3⟩

def toList (q : Quad α) : List α := [q.x0, q.x1, q.x2, q.x3]

/-- Exclusive or, entry by entry. -/
instance [XorOp α] : XorOp (Quad α) := ⟨zipWith (· ^^^ ·)⟩

end Quad

/-- Four bytes. -/
abbrev Word := Quad UInt8

/-- Four words, in the order of their bytes. -/
abbrev Block := Quad Word

namespace Word

/-- The word as an integer, first byte most significant. -/
def toUInt32 (w : Word) : UInt32 := Bytes.word32 w.x0 w.x1 w.x2 w.x3

def ofUInt32 (n : UInt32) : Word :=
  ⟨(n >>> 24).toUInt8, (n >>> 16).toUInt8, (n >>> 8).toUInt8, n.toUInt8⟩

end Word

namespace Block

def zero : Block := ⟨⟨0, 0, 0, 0⟩, ⟨0, 0, 0, 0⟩, ⟨0, 0, 0, 0⟩, ⟨0, 0, 0, 0⟩⟩

def toBytes (b : Block) : Bytes := b.x0.toList ++ b.x1.toList ++ b.x2.toList ++ b.x3.toList

/-- The complete blocks of a byte string; what is left over is dropped. -/
def ofBytes : Bytes → List Block
  | a0 :: a1 :: a2 :: a3 :: b0 :: b1 :: b2 :: b3 :: c0 :: c1 :: c2 :: c3 :: d0 :: d1 :: d2 :: d3 ::
      rest =>
    ⟨⟨a0, a1, a2, a3⟩, ⟨b0, b1, b2, b3⟩, ⟨c0, c1, c2, c3⟩, ⟨d0, d1, d2, d3⟩⟩ :: ofBytes rest
  | _ => []

/-- The block of an integer, most significant byte first, wrapping around at 128 bits. -/
def ofNat (n : Nat) : Block :=
  let hi := UInt64.ofNat (n >>> 64)
  let lo := UInt64.ofNat n
  ⟨.ofUInt32 (hi >>> 32).toUInt32, .ofUInt32 hi.toUInt32, .ofUInt32 (lo >>> 32).toUInt32,
    .ofUInt32 lo.toUInt32⟩

/-- Writes the sum of the first sixteen bytes of `a` and `b` over the first sixteen of `out`; none
of them may be shorter. -/
def xorInto? (a b out : Bytes) : Option Bytes :=
  if 16 ≤ a.length ∧ 16 ≤ b.length ∧ 16 ≤ out.length then
    some (Bytes.xor (a.take 16) (b.take 16) ++ out.drop 16)
  else none

@[simp] theorem length_toBytes (b : Block) : (toBytes b).length = 16 := rfl

@[simp] theorem ofBytes_toBytes_append (b : Block) (rest : Bytes) :
    ofBytes (toBytes b ++ rest) = b :: ofBytes rest := rfl

/-- Blocks are read back from their bytes. -/
theorem ofBytes_flatMap_toBytes (bs : List Block) : ofBytes (bs.flatMap toBytes) = bs := by
  induction bs with
  | nil => rfl
  | cons b bs ih => rw [List.flatMap_cons, ofBytes_toBytes_append, ih]

/-- Adding the same block twice changes nothing. -/
theorem xor_xor (a k : Block) : a ^^^ k ^^^ k = a := by
  have h (x y : UInt8) : x ^^^ y ^^^ y = x := by
    rw [UInt8.xor_assoc, UInt8.xor_self, UInt8.xor_zero]
  obtain ⟨⟨_, _, _, _⟩, ⟨_, _, _, _⟩, ⟨_, _, _, _⟩, ⟨_, _, _, _⟩⟩ := a
  simp only [HXor.hXor, XorOp.xor, Quad.zipWith] at h ⊢
  simp only [h]

end Block

end SealedStream
