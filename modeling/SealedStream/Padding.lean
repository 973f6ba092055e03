import SealedStream.Error
import SealedStream.Bytes

/-!
# PKCS#7 padding

`pad` fills up to the next multiple of the block length, with a whole block if the data is already
aligned; every added byte is the number of bytes added. `unpad?` takes back exactly that.
-/

namespace SealedStream

/-- Length of a cipher block. -/
def blockLen : Nat := 16

namespace Padding

/-- How many bytes are added to `n` bytes: between one and a whole block. -/
def count (n : Nat) : Nat := blockLen - n % blockLen

def pad (data : Bytes) : Bytes :=
  data ++ List.replicate (count data.length) (UInt8.ofNat (count data.length))

/-- Checks the length, the last byte and then every padding byte, in this order. -/
def unpad? (data : Bytes) : Except Error Bytes :=
  match data.getLast? with
  | none => .error (.crypto .paddedLength)
  | some last =>
    if data.length % blockLen ≠ 0 then .error (.crypto .paddedLength)
    else if last.toNat = 0 ∨ blockLen < last.toNat then .error (.crypto .paddingByte)
    else
      let body := data.length - last.toNat
      if (data.drop body).all (· == last) then .ok (data.take body)
      else .error (.crypto .paddingCorrupt)

end Padding

end SealedStream
