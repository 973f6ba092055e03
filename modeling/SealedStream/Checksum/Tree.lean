import SealedStream.Checksum.Crc64
import SealedStream.Checksum.Crc32
import SealedStream.Checksum.Digest

/-!
# Checksums of every kind

`Accumulator` is what the checking streams need of a checksum. `Checksum` is the closed family: the
two CRCs, a digest, or a group of checksums that all see the same bytes.
-/

namespace SealedStream

/-- The value of a checksum. -/
inductive ChecksumValue
  | crc64 (value : UInt64)
  | crc32 (value : UInt32)
  | digest (value : Bytes)
  | group (values : List ChecksumValue)

namespace ChecksumValue

mutual

/-- The bytes of a value, integers big endian, those of a group one after the other. -/
def toBytes : ChecksumValue → Bytes
  | .crc64 v => Bytes.be64 v
  | .crc32 v => Bytes.be32 v
  | .digest bytes => bytes
  | .group values => toBytesAll values

def toBytesAll : List ChecksumValue → Bytes
  | [] => []
  | v :: vs => v.toBytes ++ toBytesAll vs

end

/-- The value as an integer, if it is one. -/
def toUInt64? : ChecksumValue → Option UInt64
  | .crc64 v => some v
  | .crc32 v => some v.toUInt64
  | _ => none

end ChecksumValue

/-- Something that bytes are fed to and that has a value in the end. Asking may start it afresh. -/
class Accumulator (γ : Type) where
  update : γ → Bytes → γ
  value : γ → ChecksumValue × γ
  reset : γ → γ

/-- A checksum, or a group of them over the same bytes. -/
inductive Checksum
  | crc64 (crc : Crc64)
  | crc32 (crc : Crc32)
  | digest (digest : Digest)
  | group (children : List Checksum)

namespace Checksum

mutual

def update : Checksum → Bytes → Checksum
  | .crc64 c, bytes => .crc64 (c.update bytes)
  | .crc32 c, bytes => .crc32 (c.update bytes)
  | .digest d, bytes => .digest (d.update bytes)
  | .group children, bytes => .group (updateAll children bytes)

def updateAll : List Checksum → Bytes → List Checksum
  | [], _ => []
  | c :: cs, bytes => c.update bytes :: updateAll cs bytes

end

mutual

/-- A single byte: a group hands it to each child, the others take it as a byte string. -/
def updateByte : Checksum → UInt8 → Checksum
  | .crc64 c, byte => .crc64 (c.update [byte])
  | .crc32 c, byte => .crc32 (c.update [byte])
  | .digest d, byte => .digest (d.update [byte])
  | .group children, byte => .group (updateByteAll children byte)

def updateByteAll : List Checksum → UInt8 → List Checksum
  | [], _ => []
  | c :: cs, byte => c.updateByte byte :: updateByteAll cs byte

end

mutual

def reset : Checksum → Checksum
  | .crc64 _ => .crc64 .new
  | .crc32 _ => .crc32 .new
  | .digest d => .digest d.reset
  | .group children => .group (resetAll children)

def resetAll : List Checksum → List Checksum
  | [] => []
  | c :: cs => c.reset :: resetAll cs

end

mutual

/-- The value, and what is left after asking: a CRC as it was, a digest afresh. -/
def value : Checksum → ChecksumValue × Checksum
  | .crc64 c => (.crc64 c.value, .crc64 c)
  | .crc32 c => (.crc32 c.value, .crc32 c)
  | .digest d => let (v, d) := d.value; (.digest v, .digest d)
  | .group children => let (vs, cs) := valueAll children; (.group vs, .group cs)

def valueAll : List Checksum → List ChecksumValue × List Checksum
  | [] => ([], [])
  | c :: cs =>
    let (v, c) := c.value
    let (vs, cs) := valueAll cs
    (v :: vs, c :: cs)

end

/-- Puts a child at the end of a group. It sees only what is fed from then on. -/
def push : Checksum → Checksum → Checksum
  | .group children, child => .group (children ++ [child])
  | c, _ => c

/-- A group by its number of children. -/
def describeGroup (children : List Checksum) : String :=
  s!"MultiChecksum \x7b children: {children.length} \x7d"

end Checksum

instance : Accumulator Crc64 := ⟨.update, fun c => (.crc64 c.value, c), fun _ => .new⟩
instance : Accumulator Crc32 := ⟨.update, fun c => (.crc32 c.value, c), fun _ => .new⟩
instance : Accumulator Digest := ⟨.update, fun d => (.digest d.value.1, d.value.2), .reset⟩
instance : Accumulator Checksum := ⟨Checksum.update, Checksum.value, Checksum.reset⟩

end SealedStream
