import SealedStream.Error
import SealedStream.Bytes

/-!
# CRC-64

The reflected CRC-64 of ECMA-182 with complement in and out. `bitStep` is the definition, one bit at
a time; `update` takes a byte at a time through a table of 256 entries. Checksums of two pieces are
combined without their bytes in `SealedStream.Checksum.Crc64Combine`.
-/

namespace SealedStream

/-- A running CRC-64: the checksum of everything fed so far. -/
structure Crc64 where
  value : UInt64
  deriving DecidableEq, Repr

namespace Crc64

/-- The polynomial of ECMA-182, reflected. -/
def polynomial : UInt64 := 0xC96C5795D7870F42

/-- One bit through the raw register. -/
def bitStep (r : UInt64) : UInt64 :=
  if r &&& 1 = 1 then (r >>> 1) ^^^ polynomial else r >>> 1

/-- `n` bits through the raw register. -/
def bitSteps : Nat → UInt64 → UInt64
  | 0, r => r
  | n + 1, r => bitSteps n (bitStep r)

/-- One byte through the raw register, bit by bit. -/
def bitwiseByte (r : UInt64) (b : UInt8) : UInt64 := bitSteps 8 (r ^^^ b.toUInt64)

/-- The checksum after `bytes`, bit by bit: the definition that `update` has to meet. -/
def bitwiseUpdate (start : UInt64) (bytes : Bytes) : UInt64 :=
  ~~~(bytes.foldl bitwiseByte (~~~start))

/-- The registers that the 256 byte values leave. -/
def table : Vector UInt64 256 := Vector.ofFn fun i => bitSteps 8 (UInt64.ofNat i.val)

/-- The table entry of the low byte of a register. -/
def entry (r : UInt64) : UInt64 :=
  table.get ⟨r.toUInt8.toNat, r.toUInt8.toNat_lt⟩

/-- One zero byte through the raw register. -/
def zeroByte (r : UInt64) : UInt64 := entry r ^^^ (r >>> 8)

/-- One byte through the raw register, by table. -/
def tableByte (r : UInt64) (b : UInt8) : UInt64 := entry (r ^^^ b.toUInt64) ^^^ (r >>> 8)

/-- The checksum of nothing. -/
def new : Crc64 := ⟨0⟩

def update (c : Crc64) (bytes : Bytes) : Crc64 :=
  ⟨~~~(bytes.foldl tableByte (~~~c.value))⟩

/-- The checksum of a byte string. -/
def checksum (bytes : Bytes) : UInt64 := (new.update bytes).value

def toBytes (c : Crc64) : Bytes := Bytes.be64 c.value

/-- Reads a checksum back from its eight bytes. -/
def ofBytes (bytes : Bytes) : Except Error Crc64 :=
  match bytes.length, Bytes.be64s bytes with
  | 8, [value] => .ok ⟨value⟩
  | n, _ => .error (.invalidState (.crcBytes n))

theorem update_append (c : Crc64) (a b : Bytes) : (c.update a).update b = c.update (a ++ b) := by
  simp [update]

end Crc64

end SealedStream
