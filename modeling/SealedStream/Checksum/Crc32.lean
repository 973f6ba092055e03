import SealedStream.Bytes

/-!
# CRC-32

The reflected CRC-32 of IEEE 802.3 with complement in and out, a byte at a time.
-/

namespace SealedStream

/-- A running CRC-32: the checksum of everything fed so far. -/
structure Crc32 where
  value : UInt32
  deriving DecidableEq, Repr

namespace Crc32

/-- The polynomial of IEEE 802.3, reflected. -/
def polynomial : UInt32 := 0xEDB88320

/-- One bit through the raw register. -/
def bitStep (r : UInt32) : UInt32 :=
  if r &&& 1 = 1 then (r >>> 1) ^^^ polynomial else r >>> 1

/-- `n` bits through the raw register. -/
def bitSteps : Nat → UInt32 → UInt32
  | 0, r => r
  | n + 1, r => bitSteps n (bitStep r)

/-- The registers that the 256 byte values leave. -/
def table : Vector UInt32 256 := Vector.ofFn fun i => bitSteps 8 (UInt32.ofNat i.val)

/-- One byte through the raw register. -/
def tableByte (r : UInt32) (b : UInt8) : UInt32 :=
  let i := r.toUInt8 ^^^ b
  table.get ⟨i.toNat, i.toNat_lt⟩ ^^^ (r >>> 8)

/-- The checksum of nothing. -/
def new : Crc32 := ⟨0⟩

def update (c : Crc32) (bytes : Bytes) : Crc32 :=
  ⟨~~~(bytes.foldl tableByte (~~~c.value))⟩

theorem update_append (c : Crc32) (a b : Bytes) : (c.update a).update b = c.update (a ++ b) := by
  simp [update]

end Crc32

end SealedStream
