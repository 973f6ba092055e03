import SealedStream.Proofs.Checksum.Concatenation

/-!
# CRC-64 by table is CRC-64 bit by bit

A byte that has been added to the low end of the register goes through it as eight bits. What these
make of the low byte stands in the table (`entry_eq_of_mask`), and the rest of the register only
moves down, since a bit through the register is linear (`tableByte_eq_bitwiseByte`).

`update_bitwise`: from any value and over any byte string, going by table gives what going bit by
bit gives. Either way the register that one byte string leaves is where the next one goes on, the
complement at the end of the first undone by the one at the beginning of the second.
-/

namespace SealedStream.Crc64

/-- The table holds what eight bits make of the register's low byte, the rest masked away. -/
theorem entry_eq_of_mask (r : UInt64) : entry r = bitSteps 8 (r &&& 0xFF) := by
  have low : r.toUInt8.toUInt64 = r &&& 0xFF := by
    apply UInt64.toNat_inj.mp
    rw [UInt64.toNat_and, show (0xFF : UInt64).toNat = 2 ^ 8 - 1 from rfl,
      Nat.and_two_pow_sub_one_eq_mod, UInt8.toNat_toUInt64, UInt64.toNat_toUInt8]
  rw [entry_eq, low]

theorem tableByte_eq_bitwiseByte (r : UInt64) (b : UInt8) : tableByte r b = bitwiseByte r b := by
  rw [tableByte_eq, zeroByte_eq_bitSteps, bitwiseByte]

/-- By induction on the bytes, each of which finds the same register either way. -/
theorem foldl_tableByte_eq (bytes : Bytes) (r : UInt64) :
    bytes.foldl tableByte r = bytes.foldl bitwiseByte r := by
  induction bytes generalizing r with
  | nil => rfl
  | cons b bytes ih => rw [List.foldl_cons, List.foldl_cons, tableByte_eq_bitwiseByte, ih]

theorem update_eq_bitwiseUpdate (start : UInt64) (bytes : Bytes) :
    (Crc64.mk start).update bytes = ⟨bitwiseUpdate start bytes⟩ := by
  rw [update, foldl_tableByte_eq, bitwiseUpdate]

/-- The complements between two byte strings cancel. -/
theorem bitwiseUpdate_append (start : UInt64) (a b : Bytes) :
    bitwiseUpdate start (a ++ b) = bitwiseUpdate (bitwiseUpdate start a) b := by
  rw [bitwiseUpdate, bitwiseUpdate, bitwiseUpdate, UInt64.not_not, List.foldl_append]

/-- **By table as bit by bit**: over any byte string and from any value, the checksum is updated to
what its definition says, whose table entries are eight bits through a register masked to its low
byte. So two byte strings in a row update it as their concatenation does, and a checksum that goes on
from that of the first one comes to that of both. -/
theorem update_bitwise :
    (∀ r : UInt64, entry r = bitSteps 8 (r &&& 0xFF)) ∧
    (∀ (start : UInt64) (bytes : Bytes),
      ((Crc64.mk start).update bytes).value = bitwiseUpdate start bytes) ∧
    (∀ (start : UInt64) (a b : Bytes),
      ((Crc64.mk start).update a).update b = (Crc64.mk start).update (a ++ b)) ∧
    ∀ a b : Bytes, ((Crc64.mk (checksum a)).update b).value = checksum (a ++ b) := by
  refine ⟨entry_eq_of_mask, fun start bytes => ?_, fun start a b => ?_, fun a b => ?_⟩
  · rw [update_eq_bitwiseUpdate]
  · simp only [update_eq_bitwiseUpdate, bitwiseUpdate_append]
  · simp only [checksum, new, update_eq_bitwiseUpdate, bitwiseUpdate_append]

/-- The check value of this CRC. -/
example : bitwiseUpdate 0 (Bytes.ofText "123456789") = 0x995DC9BBDF1939FA := by decide +kernel

end SealedStream.Crc64
