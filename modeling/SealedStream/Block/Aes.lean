import SealedStream.Block.Basic

/-!
# AES-256

Encryption and decryption of one block. A round substitutes bytes, rotates rows, mixes columns and
adds a round key; decryption undoes the steps in reverse, so each step stands beside its inverse.
That decryption undoes encryption is shown in `SealedStream.Block.AesInverse`.
-/

namespace SealedStream.Aes

set_option maxRecDepth 4096 in
/-- The substitution table. -/
def sbox : Vector UInt8 256 := #v[
   0x63, 0x7c, 0x77, 0x7b, 0xf2, 0x6b, 0x6f, 0xc5, 0x30, 0x01, 0x67, 0x2b, 0xfe, 0xd7, 0xab, 0x76,
   0xca, 0x82, 0xc9, 0x7d, 0xfa, 0x59, 0x47, 0xf0, 0xad, 0xd4, 0xa2, 0xaf, 0x9c, 0xa4, 0x72, 0xc0,
   0xb7, 0xfd, 0x93, 0x26, 0x36, 0x3f, 0xf7, 0xcc, 0x34, 0xa5, 0xe5, 0xf1, 0x71, 0xd8, 0x31, 0x15,
   0x04, 0xc7, 0x23, 0xc3, 0x18, 0x96, 0x05, 0x9a, 0x07, 0x12, 0x80, 0xe2, 0xeb, 0x27, 0xb2, 0x75,
   0x09, 0x83, 0x2c, 0x1a, 0x1b, 0x6e, 0x5a, 0xa0, 0x52, 0x3b, 0xd6, 0xb3, 0x29, 0xe3, 0x2f, 0x84,
   0x53, 0xd1, 0x00, 0xed, 0x20, 0xfc, 0xb1, 0x5b, 0x6a, 0xcb, 0xbe, 0x39, 0x4a, 0x4c, 0x58, 0xcf,
   0xd0, 0xef, 0xaa, 0xfb, 0x43, 0x4d, 0x33, 0x85, 0x45, 0xf9, 0x02, 0x7f, 0x50, 0x3c, 0x9f, 0xa8,
   0x51, 0xa3, 0x40, 0x8f, 0x92, 0x9d, 0x38, 0xf5, 0xbc, 0xb6, 0xda, 0x21, 0x10, 0xff, 0xf3, 0xd2,
   0xcd, 0x0c, 0x13, 0xec, 0x5f, 0x97, 0x44, 0x17, 0xc4, 0xa7, 0x7e, 0x3d, 0x64, 0x5d, 0x19, 0x73,
   0x60, 0x81, 0x4f, 0xdc, 0x22, 0x2a, 0x90, 0x88, 0x46, 0xee, 0xb8, 0x14, 0xde, 0x5e, 0x0b, 0xdb,
   0xe0, 0x32, 0x3a, 0x0a, 0x49, 0x06, 0x24, 0x5c, 0xc2, 0xd3, 0xac, 0x62, 0x91, 0x95, 0xe4, 0x79,
   0xe7, 0xc8, 0x37, 0x6d, 0x8d, 0xd5, 0x4e, 0xa9, 0x6c, 0x56, 0xf4, 0xea, 0x65, 0x7a, 0xae, 0x08,
   0xba, 0x78, 0x25, 0x2e, 0x1c, 0xa6, 0xb4, 0xc6, 0xe8, 0xdd, 0x74, 0x1f, 0x4b, 0xbd, 0x8b, 0x8a,
   0x70, 0x3e, 0xb5, 0x66, 0x48, 0x03, 0xf6, 0x0e, 0x61, 0x35, 0x57, 0xb9, 0x86, 0xc1, 0x1d, 0x9e,
   0xe1, 0xf8, 0x98, 0x11, 0x69, 0xd9, 0x8e, 0x94, 0x9b, 0x1e, 0x87, 0xe9, 0xce, 0x55, 0x28, 0xdf,
   0x8c, 0xa1, 0x89, 0x0d, 0xbf, 0xe6, 0x42, 0x68, 0x41, 0x99, 0x2d, 0x0f, 0xb0, 0x54, 0xbb, 0x16]

set_option maxRecDepth 4096 in
/-- The inverse substitution table. -/
def sboxInv : Vector UInt8 256 := #v[
   0x52, 0x09, 0x6a, 0xd5, 0x30, 0x36, 0xa5, 0x38, 0xbf, 0x40, 0xa3, 0x9e, 0x81, 0xf3, 0xd7, 0xfb,
   0x7c, 0xe3, 0x39, 0x82, 0x9b, 0x2f, 0xff, 0x87, 0x34, 0x8e, 0x43, 0x44, 0xc4, 0xde, 0xe9, 0xcb,
   0x54, 0x7b, 0x94, 0x32, 0xa6, 0xc2, 0x23, 0x3d, 0xee, 0x4c, 0x95, 0x0b, 0x42, 0xfa, 0xc3, 0x4e,
   0x08, 0x2e, 0xa1, 0x66, 0x28, 0xd9, 0x24, 0xb2, 0x76, 0x5b, 0xa2, 0x49, 0x6d, 0x8b, 0xd1, 0x25,
   0x72, 0xf8, 0xf6, 0x64, 0x86, 0x68, 0x98, 0x16, 0xd4, 0xa4, 0x5c, 0xcc, 0x5d, 0x65, 0xb6, 0x92,
   0x6c, 0x70, 0x48, 0x50, 0xfd, 0xed, 0xb9, 0xda, 0x5e, 0x15, 0x46, 0x57, 0xa7, 0x8d, 0x9d, 0x84,
   0x90, 0xd8, 0xab, 0x00, 0x8c, 0xbc, 0xd3, 0x0a, 0xf7, 0xe4, 0x58, 0x05, 0xb8, 0xb3, 0x45, 0x06,
   0xd0, 0x2c, 0x1e, 0x8f, 0xca, 0x3f, 0x0f, 0x02, 0xc1, 0xaf, 0xbd, 0x03, 0x01, 0x13, 0x8a, 0x6b,
   0x3a, 0x91, 0x11, 0x41, 0x4f, 0x67, 0xdc, 0xea, 0x97, 0xf2, 0xcf, 0xce, 0xf0, 0xb4, 0xe6, 0x73,
   0x96, 0xac, 0x74, 0x22, 0xe7, 0xad, 0x35, 0x85, 0xe2, 0xf9, 0x37, 0xe8, 0x1c, 0x75, 0xdf, 0x6e,
   0x47, 0xf1, 0x1a, 0x71, 0x1d, 0x29, 0xc5, 0x89, 0x6f, 0xb7, 0x62, 0x0e, 0xaa, 0x18, 0xbe, 0x1b,
   0xfc, 0x56, 0x3e, 0x4b, 0xc6, 0xd2, 0x79, 0x20, 0x9a, 0xdb, 0xc0, 0xfe, 0x78, 0xcd, 0x5a, 0xf4,
   0x1f, 0xdd, 0xa8, 0x33, 0x88, 0x07, 0xc7, 0x31, 0xb1, 0x12, 0x10, 0x59, 0x27, 0x80, 0xec, 0x5f,
   0x60, 0x51, 0x7f, 0xa9, 0x19, 0xb5, 0x4a, 0x0d, 0x2d, 0xe5, 0x7a, 0x9f, 0x93, 0xc9, 0x9c, 0xef,
   0xa0, 0xe0, 0x3b, 0x4d, 0xae, 0x2a, 0xf5, 0xb0, 0xc8, 0xeb, 0xbb, 0x3c, 0x83, 0x53, 0x99, 0x61,
   0x17, 0x2b, 0x04, 0x7e, 0xba, 0x77, 0xd6, 0x26, 0xe1, 0x69, 0x14, 0x63, 0x55, 0x21, 0x0c, 0x7d]

def subByte (b : UInt8) : UInt8 := sbox.get ⟨b.toNat, b.toNat_lt⟩
def subByteInv (b : UInt8) : UInt8 := sboxInv.get ⟨b.toNat, b.toNat_lt⟩

def subBytes (s : Block) : Block := s.map (·.map subByte)
def subBytesInv (s : Block) : Block := s.map (·.map subByteInv)

/-- Row `r` of the columns moves by `r` columns. -/
def shiftRows (s : Block) : Block :=
  ⟨⟨s.x0.x0, s.x1.x1, s.x2.x2, s.x3.x3⟩, ⟨s.x1.x0, s.x2.x1, s.x3.x2, s.x0.x3⟩,
    ⟨s.x2.x0, s.x3.x1, s.x0.x2, s.x1.x3⟩, ⟨s.x3.x0, s.x0.x1, s.x1.x2, s.x2.x3⟩⟩

def shiftRowsInv (s : Block) : Block :=
  ⟨⟨s.x0.x0, s.x3.x1, s.x2.x2, s.x1.x3⟩, ⟨s.x1.x0, s.x0.x1, s.x3.x2, s.x2.x3⟩,
    ⟨s.x2.x0, s.x1.x1, s.x0.x2, s.x3.x3⟩, ⟨s.x3.x0, s.x2.x1, s.x1.x2, s.x0.x3⟩⟩

/-- Doubling in the field of 256 elements. -/
def double (b : UInt8) : UInt8 := (b <<< 1) ^^^ (if b &&& 0x80 = 0 then 0 else 0x1b)

def triple (b : UInt8) : UInt8 := double b ^^^ b

/-- One column under the circulant matrix 2, 3, 1, 1. -/
def mixColumn (c : Word) : Word :=
  ⟨double c.x0 ^^^ triple c.x1 ^^^ c.x2 ^^^ c.x3, c.x0 ^^^ double c.x1 ^^^ triple c.x2 ^^^ c.x3,
    c.x0 ^^^ c.x1 ^^^ double c.x2 ^^^ triple c.x3, triple c.x0 ^^^ c.x1 ^^^ c.x2 ^^^ double c.x3⟩

/-- One column under the circulant matrix 5, 0, 4, 0, the square of the one above. -/
def mixTwice (c : Word) : Word :=
  let u := double (double (c.x0 ^^^ c.x2))
  let v := double (double (c.x1 ^^^ c.x3))
  ⟨c.x0 ^^^ u, c.x1 ^^^ v, c.x2 ^^^ u, c.x3 ^^^ v⟩

/-- Mixing four times changes nothing, so mixing three times undoes it: the circulant matrix
14, 11, 13, 9. -/
def unmixColumn (c : Word) : Word := mixColumn (mixTwice c)

/-- An expanded key: the block added first, the keys of the middle rounds, the key of the last. -/
structure Schedule where
  first : Block
  middle : List Block
  last : Block
  deriving DecidableEq, Repr

def rotWord (w : Word) : Word := ⟨w.x1, w.x2, w.x3, w.x0⟩

/-- Adds `w` to the first word and each sum to the next word. -/
def chainWords (w : Word) (b : Block) : Block :=
  let w0 := w ^^^ b.x0
  let w1 := w0 ^^^ b.x1
  let w2 := w1 ^^^ b.x2
  ⟨w0, w1, w2, w2 ^^^ b.x3⟩

/-- The round key two after `a`, with the round constant `rc`; `b` is the one between. -/
def nextEven (rc : UInt8) (a b : Block) : Block :=
  chainWords (rotWord (b.x3.map subByte) ^^^ ⟨rc, 0, 0, 0⟩) a

/-- The round key two after `a` that takes no round constant; `b` is the one between. -/
def nextOdd (a b : Block) : Block := chainWords (b.x3.map subByte) a

def roundConstants : List UInt8 := [0x01, 0x02, 0x04, 0x08, 0x10, 0x20]

/-- Round keys from the pair `a`, `b` on, up to the last constant. -/
def expand : List UInt8 → Block → Block → List Block × Block
  | [], a, b => ([b], nextEven 0x40 a b)
  | rc :: rcs, a, b =>
    let c := nextEven rc a b
    let d := nextOdd b c
    let (middle, last) := expand rcs c d
    (b :: c :: middle, last)

/-- The schedule of the two halves of a 32-byte key. -/
def Schedule.ofHalves (a b : Block) : Schedule :=
  let (middle, last) := expand roundConstants a b
  ⟨a, middle, last⟩

/-- The schedule of a key, which must have 32 bytes. -/
def Schedule.ofKey? (key : Bytes) : Option Schedule :=
  match Block.ofBytes key with
  | [a, b] => if key.length = 32 then some (ofHalves a b) else none
  | _ => none

/-- A round that mixes columns. -/
def round (s key : Block) : Block := (shiftRows (subBytes s)).map mixColumn ^^^ key

def unround (s key : Block) : Block := subBytesInv (shiftRowsInv ((s ^^^ key).map unmixColumn))

def encrypt (k : Schedule) (b : Block) : Block :=
  shiftRows (subBytes (k.middle.foldl round (b ^^^ k.first))) ^^^ k.last

def decrypt (k : Schedule) (b : Block) : Block :=
  let s := subBytesInv (shiftRowsInv (b ^^^ k.last))
  k.middle.foldr (fun key s => unround s key) s ^^^ k.first

end SealedStream.Aes
