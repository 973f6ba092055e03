import SealedStream.Checksum.Crc64

/-!
# Combining CRC-64 checksums

Feeding a bit to the raw register is linear over exclusive or, so feeding a zero byte is a linear
operator and its `n`-fold iterate can be had by repeated squaring (`Operator.advance`). `combine`
applies it to the first checksum and adds the second: the result is the checksum of the
concatenation.
-/

namespace SealedStream.Crc64

/-- A linear operator on 64-bit registers: row `i` is the image of bit `i`. -/
abbrev Operator := Vector UInt64 64

namespace Operator

/-- The sum of the rows whose bits are set in `x`. -/
def sum : List UInt64 → UInt64 → UInt64
  | [], _ => 0
  | row :: rows, x => (if x &&& 1 = 1 then row else 0) ^^^ sum rows (x >>> 1)

/-- The image of `x`. -/
def apply (m : Operator) (x : UInt64) : UInt64 := sum m.toList x

/-- The operator applied twice. -/
def square (m : Operator) : Operator := m.map m.apply

/-- One zero bit through the register: the lowest bit puts in the polynomial, the others move down. -/
def zeroBit : Operator :=
  Vector.ofFn fun i => if i.val = 0 then polynomial else 1 <<< UInt64.ofNat (i.val - 1)

/-- Takes `x` through the square of `odd` as often as `n` says, squaring once for each binary digit
of `n`. The operators of the even digits and those of the odd ones take turns. -/
def advance (odd : Operator) (n : Nat) (x : UInt64) : UInt64 :=
  let even := odd.square
  let x := if n % 2 = 1 then even.apply x else x
  let n := n / 2
  if n = 0 then x
  else
    let odd := even.square
    let x := if n % 2 = 1 then odd.apply x else x
    let n := n / 2
    if n = 0 then x else advance odd n x
termination_by n

end Operator

/-- The checksum of a concatenation from those of its two parts and the length of the second. An
empty second part leaves the first checksum as it is. Two squarings make four zero bits of one, and
the next makes a zero byte. -/
def combine (a b : UInt64) (lengthB : Nat) : UInt64 :=
  if lengthB = 0 then a else Operator.zeroBit.square.square.advance lengthB a ^^^ b

/-- The checksum of a byte string from those of its pieces of `size` bytes. -/
def ofChunks (size : Nat) (bytes : Bytes) : UInt64 :=
  let parts := (Bytes.chunks size bytes).map fun part => (checksum part, part.length)
  (parts.foldl (fun a b => (combine a.1 b.1 b.2, a.2 + b.2)) (0, 0)).1

end SealedStream.Crc64
