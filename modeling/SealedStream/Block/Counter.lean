import SealedStream.Block.Basic

/-!
# Counter mode

The keystream of an IV is the encryption of the IV and its successors, counted as 128-bit integers
that wrap around. Encryption and decryption both add the keystream, so the place in the stream is
all the state there is: the keystream at a byte depends on block cipher, IV and position alone.
-/

namespace SealedStream

/-- A place in a keystream. -/
structure CounterStream where
  encrypt : Block → Block
  /-- The IV as an integer. -/
  start : Nat
  /-- How many bytes of keystream were used. -/
  position : Nat

namespace CounterStream

/-- Counter block number `i` from the IV `start` on. -/
def counterBlock (start i : Nat) : Block := Block.ofNat (start + i)

/-- `n` whole blocks of keystream, from counter block `i` on. -/
def keyBlocks (encrypt : Block → Block) (start : Nat) : Nat → Nat → Bytes
  | _, 0 => []
  | i, n + 1 => (encrypt (counterBlock start i)).toBytes ++ keyBlocks encrypt start (i + 1) n

/-- `n` bytes of keystream, from byte `position` on. -/
def keystream (encrypt : Block → Block) (start position n : Nat) : Bytes :=
  let skip := position % 16
  ((keyBlocks encrypt start (position / 16) ((skip + n + 15) / 16)).drop skip).take n

/-- Byte `j` of the keystream. -/
def keyByte (encrypt : Block → Block) (start j : Nat) : UInt8 :=
  (encrypt (counterBlock start (j / 16))).toBytes.getD (j % 16) 0

/-- Adds the next bytes of the keystream. -/
def apply (c : CounterStream) (input : Bytes) : Bytes × CounterStream :=
  (Bytes.xor input (keystream c.encrypt c.start c.position input.length),
    { c with position := c.position + input.length })

theorem keyBlocks_eq (encrypt : Block → Block) (start i n : Nat) :
    keyBlocks encrypt start i n =
      (List.range (16 * n)).map fun k => keyByte encrypt start (16 * i + k) := by
  induction n generalizing i with
  | zero => rfl
  | succ n ih =>
    rw [keyBlocks, ih, show 16 * (n + 1) = 16 + 16 * n by omega, List.range_add, List.map_append,
      List.map_map]
    congr 1
    · apply List.ext_getElem (by simp)
      intro k h₁ h₂
      have hk : k < 16 := by simpa using h₁
      simp only [keyByte, List.getElem_map, List.getElem_range, Nat.mul_add_mod,
        Nat.mod_eq_of_lt hk, show (16 * i + k) / 16 = i by omega, List.getD_eq_getElem?_getD,
        List.getElem?_eq_getElem h₁, Option.getD_some]
    · apply List.map_congr_left
      intro k _
      simp only [Function.comp, Nat.mul_add, Nat.mul_one, Nat.add_assoc]

/-- The keystream is made of its bytes, wherever it is entered. -/
theorem keystream_eq (encrypt : Block → Block) (start position n : Nat) :
    keystream encrypt start position n =
      (List.range n).map fun k => keyByte encrypt start (position + k) := by
  apply List.ext_getElem
  · simp [keystream, keyBlocks_eq]; omega
  · intro k h₁ h₂
    simp only [List.length_map, List.length_range] at h₂
    simp only [keystream, keyBlocks_eq, List.getElem_take, List.getElem_drop, List.getElem_map,
      List.getElem_range]
    congr 1; omega

@[simp] theorem length_keystream (encrypt : Block → Block) (start position n : Nat) :
    (keystream encrypt start position n).length = n := by simp [keystream_eq]

/-- The keystream of two stretches in a row is that of both at once. -/
theorem keystream_append (encrypt : Block → Block) (start position m n : Nat) :
    keystream encrypt start position m ++ keystream encrypt start (position + m) n =
      keystream encrypt start position (m + n) := by
  simp only [keystream_eq, List.range_add, List.map_append, List.map_map]
  congr 1
  apply List.map_congr_left
  intro k _
  simp [Nat.add_assoc]

/-- Adding the keystream at one place twice changes nothing. -/
theorem apply_apply (c : CounterStream) (input : Bytes) :
    (c.apply (c.apply input).1).1 = input := by
  have h : (Bytes.xor input (keystream c.encrypt c.start c.position input.length)).length =
      input.length := by simp
  simp only [apply, h]
  exact Bytes.xor_xor (by simp)

/-- Two pieces in a row go through as their concatenation does. -/
theorem apply_append (c : CounterStream) (a b : Bytes) :
    c.apply (a ++ b) = ((c.apply a).1 ++ ((c.apply a).2.apply b).1, ((c.apply a).2.apply b).2) := by
  simp only [apply, List.length_append, ← keystream_append, Prod.mk.injEq]
  exact ⟨Bytes.xor_append (by simp), by simp [Nat.add_assoc]⟩

end CounterStream

end SealedStream
