import SealedStream.Error
import SealedStream.Bytes

/-!
# The header of a sealed stream

A header is `version | IV length | key length | wrapped IV | wrapped key`, all integers four bytes
big endian. `decode` reads it from the front of whatever has arrived so far: a foreign version is
refused once four bytes are there, an oversized length once the twelve fixed bytes are.
-/

namespace SealedStream

/-- The header of a sealed stream. The declared lengths are those of the two byte strings. -/
structure Header where
  version : UInt32
  wrappedIv : Bytes
  wrappedKey : Bytes
  deriving DecidableEq, Repr

namespace Header

/-- Length of the part before the wrapped secrets. -/
def fixedLen : Nat := 12

def encodedLen (h : Header) : Nat := fixedLen + h.wrappedIv.length + h.wrappedKey.length

def encode (h : Header) : Bytes :=
  Bytes.be32 h.version ++ Bytes.be32 (UInt32.ofNat h.wrappedIv.length) ++
    Bytes.be32 (UInt32.ofNat h.wrappedKey.length) ++ h.wrappedIv ++ h.wrappedKey

/-- What the bytes seen so far amount to. -/
inductive Decoded
  /-- The first `consumed` bytes are a header. -/
  | complete (header : Header) (consumed : Nat)
  /-- More bytes are needed to tell. -/
  | needMore
  deriving DecidableEq, Repr

/-- The version must be the expected one, if one is expected. -/
def checkVersion (expected : Option UInt32) (version : UInt32) : Except Error Unit :=
  match expected with
  | some v => if version = v then .ok () else .error (.unsupportedVersion version)
  | none => .ok ()

/-- A declared length must be within the limit. -/
def checkLength (field : WrappedField) (length : UInt32) : Except Error Unit :=
  if maxWrappedLen < length.toNat then .error (.header (.wrappedTooLong field length)) else .ok ()

/-- Decodes the header at the front of `buf`. -/
def decode (buf : Bytes) (expected : Option UInt32) : Except Error Decoded :=
  match Bytes.be32? buf with
  | none => .ok .needMore
  | some version => do
    checkVersion expected version
    match Bytes.be32? (buf.drop 4), Bytes.be32? (buf.drop 8) with
    | some ivLen, some keyLen =>
      checkLength .iv ivLen
      checkLength .key keyLen
      let ivEnd := fixedLen + ivLen.toNat
      let keyEnd := ivEnd + keyLen.toNat
      if buf.length < keyEnd then return .needMore
      return .complete
        { version
          wrappedIv := (buf.drop fixedLen).take ivLen.toNat
          wrappedKey := (buf.drop ivEnd).take keyLen.toNat } keyEnd
    | _, _ => return .needMore

end Header

end SealedStream
