/-!
# Byte strings

Byte strings are lists, so every law of lists speaks about them. This module fixes the integer
layouts that the formats use (big and little endian, without a length) and cutting into pieces.
-/

namespace SealedStream

/-- A byte string. -/
abbrev Bytes := List UInt8

namespace Bytes

/-- The bytes of a text in UTF-8. -/
def ofText (s : String) : Bytes := s.toUTF8.toList

/-- Bytewise exclusive or, as long as the shorter argument. -/
def xor (a b : Bytes) : Bytes := List.zipWith (· ^^^ ·) a b

/-! ## Integers -/

/-- The four bytes of a 32-bit integer, most significant first. -/
def be32 (n : UInt32) : Bytes :=
  [(n >>> 24).toUInt8, (n >>> 16).toUInt8, (n >>> 8).toUInt8, n.toUInt8]

/-- The four bytes of a 32-bit integer, least significant first. -/
def le32 (n : UInt32) : Bytes := (be32 n).reverse

/-- The eight bytes of a 64-bit integer, most significant first. -/
def be64 (n : UInt64) : Bytes := be32 (n >>> 32).toUInt32 ++ be32 n.toUInt32

/-- The eight bytes of a 64-bit integer, least significant first. -/
def le64 (n : UInt64) : Bytes := (be64 n).reverse

/-- The value of a byte string read as one big-endian number. -/
def toNat (bs : Bytes) : Nat := bs.foldl (fun n b => n * 256 + b.toNat) 0

/-- The 32-bit integer of four bytes, most significant first. -/
def word32 (a b c d : UInt8) : UInt32 :=
  UInt32.ofNat (((a.toNat * 256 + b.toNat) * 256 + c.toNat) * 256 + d.toNat)

/-- The 64-bit integer of two halves. -/
def word64 (hi lo : UInt32) : UInt64 := hi.toUInt64 <<< 32 ||| lo.toUInt64

/-- The big-endian 32-bit integer at the front, if four bytes are there. -/
def be32? : Bytes → Option UInt32
  | a :: b :: c :: d :: _ => some (word32 a b c d)
  | _ => none

/-- All complete big-endian 32-bit words. -/
def be32s : Bytes → List UInt32
  | a :: b :: c :: d :: rest => word32 a b c d :: be32s rest
  | _ => []

/-- All complete little-endian 32-bit words. -/
def le32s : Bytes → List UInt32
  | a :: b :: c :: d :: rest => word32 d c b a :: le32s rest
  | _ => []

/-- All complete big-endian 64-bit words. -/
def be64s : Bytes → List UInt64
  | a :: b :: c :: d :: e :: f :: g :: h :: rest =>
    word64 (word32 a b c d) (word32 e f g h) :: be64s rest
  | _ => []

/-! ## Hexadecimal text -/

/-- The lower-case digit of a number below sixteen. -/
def hexDigit (n : Nat) : Char := if n < 10 then Char.ofNat (48 + n) else Char.ofNat (87 + n)

/-- Two lower-case digits for each byte. -/
def toHex (bs : Bytes) : String :=
  bs.foldl (fun s b => (s.push (hexDigit (b.toNat / 16))).push (hexDigit (b.toNat % 16))) ""

/-- The value of a hexadecimal digit. -/
def hexValue? (c : Char) : Option UInt8 :=
  if '0' ≤ c ∧ c ≤ '9' then some (UInt8.ofNat (c.toNat - 48))
  else if 'a' ≤ c ∧ c ≤ 'f' then some (UInt8.ofNat (c.toNat - 87))
  else if 'A' ≤ c ∧ c ≤ 'F' then some (UInt8.ofNat (c.toNat - 55))
  else none

/-- The bytes of hexadecimal digits, after those in `acc`, which stand in reverse. -/
def ofHexDigits? : List Char → Bytes → Option Bytes
  | [], acc => some acc.reverse
  | a :: b :: rest, acc =>
    match hexValue? a, hexValue? b with
    | some x, some y => ofHexDigits? rest ((x * 16 + y) :: acc)
    | _, _ => none
  | [_], _ => none

def ofHex? (s : String) : Option Bytes := ofHexDigits? s.toList []

/-! ## Pieces -/

/-- Pieces of `n` bytes, the last one possibly shorter; pieces of one byte for `n = 0`. -/
def chunks (n : Nat) : Bytes → List Bytes
  | [] => []
  | b :: bs => (b :: bs.take (n - 1)) :: chunks n (bs.drop (n - 1))
termination_by bs => bs.length
decreasing_by simp only [List.length_drop, List.length_cons]; omega

/-! ## Laws -/

@[simp] theorem length_be32 (n : UInt32) : (be32 n).length = 4 := rfl

@[simp] theorem length_be64 (n : UInt64) : (be64 n).length = 8 := rfl

theorem word32_be32 (n : UInt32) :
    word32 (n >>> 24).toUInt8 (n >>> 16).toUInt8 (n >>> 8).toUInt8 n.toUInt8 = n := by
  apply UInt32.toNat_inj.mp
  have h := n.toNat_lt
  simp [word32, Nat.shiftRight_eq_div_pow]
  omega

/-- A number is read back from its bytes, whatever follows. -/
theorem be32?_be32_append (n : UInt32) (rest : Bytes) : be32? (be32 n ++ rest) = some n := by
  simp [be32?, be32, word32_be32]

theorem be32_word32 (a b c d : UInt8) : be32 (word32 a b c d) = [a, b, c, d] := by
  have := a.toNat_lt
  have := b.toNat_lt
  have := c.toNat_lt
  have := d.toNat_lt
  simp only [be32, word32, List.cons.injEq, and_true]
  refine ⟨?_, ?_, ?_, ?_⟩ <;> apply UInt8.toNat_inj.mp <;>
    simp [Nat.shiftRight_eq_div_pow] <;> omega

/-- A number read from the front is written by the bytes there. -/
theorem eq_be32_append_of_be32? {bs : Bytes} {n : UInt32} (h : be32? bs = some n) :
    bs = be32 n ++ bs.drop 4 := by
  match bs, h with
  | a :: b :: c :: d :: rest, h =>
    cases h
    rw [be32_word32]; rfl

theorem be32?_eq_none_iff {bs : Bytes} : be32? bs = none ↔ bs.length < 4 := by
  match bs with
  | [] | [_] | [_, _] | [_, _, _] => simp [be32?]
  | _ :: _ :: _ :: _ :: rest => simp [be32?]

theorem exists_be32? {bs : Bytes} (h : 4 ≤ bs.length) : ∃ x, be32? bs = some x := by
  cases hx : be32? bs with
  | none => exact absurd (be32?_eq_none_iff.mp hx) (Nat.not_lt_of_le h)
  | some x => exact ⟨x, rfl⟩

@[simp] theorem length_xor (a b : Bytes) : (xor a b).length = min a.length b.length := by
  simp [xor]

/-- Adding the same bytes twice changes nothing. -/
theorem xor_xor {a k : Bytes} (h : a.length ≤ k.length) : xor (xor a k) k = a := by
  induction a generalizing k with
  | nil => simp [xor]
  | cons x a ih =>
    cases k with
    | nil => simp at h
    | cons y k =>
      have := ih (k := k) (by simpa using h)
      simp only [xor, List.zipWith_cons_cons, List.cons.injEq] at this ⊢
      exact ⟨by rw [UInt8.xor_assoc, UInt8.xor_self, UInt8.xor_zero], this⟩

theorem xor_append {a b k l : Bytes} (h : a.length = k.length) :
    xor (a ++ b) (k ++ l) = xor a k ++ xor b l := by
  simp [xor, List.zipWith_append h]

@[simp] theorem chunks_nil (n : Nat) : chunks n [] = [] := by rw [chunks]

theorem chunks_cons (n : Nat) (b : UInt8) (bs : Bytes) :
    chunks n (b :: bs) = (b :: bs.take (n - 1)) :: chunks n (bs.drop (n - 1)) := by rw [chunks]

/-- The pieces make up the whole. -/
theorem flatten_chunks (n : Nat) : ∀ bs : Bytes, (chunks n bs).flatten = bs
  | [] => by simp
  | b :: bs => by
    rw [chunks_cons, List.flatten_cons, flatten_chunks n (bs.drop (n - 1)), List.cons_append,
      List.take_append_drop]
termination_by bs => bs.length
decreasing_by simp only [List.length_drop, List.length_cons]; omega

end Bytes

end SealedStream
