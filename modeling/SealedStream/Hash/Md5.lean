import SealedStream.Hash.Absorber

/-!
# MD5
-/

namespace SealedStream.Md5

/-- The chaining value: four 32-bit words. -/
structure Chain where
  a : UInt32
  b : UInt32
  c : UInt32
  d : UInt32
  deriving DecidableEq, Repr

def initial : Chain := ⟨0x67452301, 0xefcdab89, 0x98badcfe, 0x10325476⟩

/-- The additive constants: the whole parts of `2 ^ 32 * |sin i|`. -/
def constants : List UInt32 :=
  [0xd76aa478, 0xe8c7b756, 0x242070db, 0xc1bdceee, 0xf57c0faf, 0x4787c62a,
    0xa8304613, 0xfd469501, 0x698098d8, 0x8b44f7af, 0xffff5bb1, 0x895cd7be,
    0x6b901122, 0xfd987193, 0xa679438e, 0x49b40821, 0xf61e2562, 0xc040b340,
    0x265e5a51, 0xe9b6c7aa, 0xd62f105d, 0x02441453, 0xd8a1e681, 0xe7d3fbc8,
    0x21e1cde6, 0xc33707d6, 0xf4d50d87, 0x455a14ed, 0xa9e3e905, 0xfcefa3f8,
    0x676f02d9, 0x8d2a4c8a, 0xfffa3942, 0x8771f681, 0x6d9d6122, 0xfde5380c,
    0xa4beea44, 0x4bdecfa9, 0xf6bb4b60, 0xbebfbc70, 0x289b7ec6, 0xeaa127fa,
    0xd4ef3085, 0x04881d05, 0xd9d4d039, 0xe6db99e5, 0x1fa27cf8, 0xc4ac5665,
    0xf4292244, 0x432aff97, 0xab9423a7, 0xfc93a039, 0x655b59c3, 0x8f0ccc92,
    0xffeff47d, 0x85845dd1, 0x6fa87e4f, 0xfe2ce6e0, 0xa3014314, 0x4e0811a1,
    0xf7537e82, 0xbd3af235, 0x2ad7d2bb, 0xeb86d391]

def rotl (x n : UInt32) : UInt32 := (x <<< n) ||| (x >>> (32 - n))

/-- The four rotations of each round. -/
def shift (i : Nat) : UInt32 :=
  match i / 16, i % 4 with
  | 0, 0 => 7 | 0, 1 => 12 | 0, 2 => 17 | 0, _ => 22
  | 1, 0 => 5 | 1, 1 => 9 | 1, 2 => 14 | 1, _ => 20
  | 2, 0 => 4 | 2, 1 => 11 | 2, 2 => 16 | 2, _ => 23
  | _, 0 => 6 | _, 1 => 10 | _, 2 => 15 | _, _ => 21

/-- The mixing function of step `i` and the message word that it uses. -/
def mix (i : Nat) (b c d : UInt32) : UInt32 × Nat :=
  match i / 16 with
  | 0 => ((b &&& c) ||| (~~~b &&& d), i)
  | 1 => ((d &&& b) ||| (~~~d &&& c), (5 * i + 1) % 16)
  | 2 => (b ^^^ c ^^^ d, (3 * i + 5) % 16)
  | _ => (c ^^^ (b ||| ~~~d), (7 * i) % 16)

/-- Steps `i`, `i + 1`, … with the given constants. -/
def steps (words : Array UInt32) : Nat → List UInt32 → Chain → Chain
  | _, [], s => s
  | i, k :: ks, s =>
    let (f, g) := mix i s.b s.c s.d
    let sum := s.a + f + k + words.getD g 0
    steps words (i + 1) ks ⟨s.d, s.b + rotl sum (shift i), s.b, s.c⟩

def compress (s : Chain) (block : Bytes) : Chain :=
  let t := steps (Bytes.le32s block).toArray 0 constants s
  ⟨s.a + t.a, s.b + t.b, s.c + t.c, s.d + t.d⟩

def output (s : Chain) : Bytes := [s.a, s.b, s.c, s.d].flatMap Bytes.le32

def blockLen : Nat := 64

theorem blockLen_pos : 0 < blockLen := by decide

/-- MD5: 64-byte blocks, the length in eight bytes, least significant first. -/
def absorber : Absorber (Chain × Nat) :=
  .ofCompression blockLen blockLen_pos initial compress
    (fun n => Bytes.le64 (UInt64.ofNat n)) output

end SealedStream.Md5
