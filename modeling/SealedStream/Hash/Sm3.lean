import SealedStream.Hash.Absorber

/-!
# SM3
-/

namespace SealedStream.Sm3

/-- The chaining value: eight 32-bit words. -/
structure Chain where
  a : UInt32
  b : UInt32
  c : UInt32
  d : UInt32
  e : UInt32
  f : UInt32
  g : UInt32
  h : UInt32
  deriving DecidableEq, Repr

def initial : Chain :=
  ⟨0x7380166f, 0x4914b2b9, 0x172442d7, 0xda8a0600, 0xa96f30bc, 0x163138aa, 0xe38dee4d, 0xb0fb0e4e⟩

/-- Rotation to the left; `n` is taken modulo 32. -/
def rotl (x n : UInt32) : UInt32 := (x <<< n) ||| (x >>> (32 - n))

def p0 (x : UInt32) : UInt32 := x ^^^ rotl x 9 ^^^ rotl x 17
def p1 (x : UInt32) : UInt32 := x ^^^ rotl x 15 ^^^ rotl x 23

/-- Extends the message words by `n` more. -/
def extend : Nat → Array UInt32 → Array UInt32
  | 0, ws => ws
  | n + 1, ws =>
    let w (k : Nat) := ws.getD (ws.size - k) 0
    extend n (ws.push (p1 (w 16 ^^^ w 9 ^^^ rotl (w 3) 15) ^^^ rotl (w 13) 7 ^^^ w 6))

/-- Round `i`: exclusive or before round 16, majority and choice from there on. -/
def round (words : Array UInt32) (s : Chain) (i : Nat) : Chain :=
  let t : UInt32 := if i < 16 then 0x79cc4519 else 0x7a879d8a
  let a12 := rotl s.a 12
  let ss1 := rotl (a12 + s.e + rotl t (UInt32.ofNat (i % 32))) 7
  let ff := if i < 16 then s.a ^^^ s.b ^^^ s.c
    else (s.a &&& s.b) ||| (s.a &&& s.c) ||| (s.b &&& s.c)
  let gg := if i < 16 then s.e ^^^ s.f ^^^ s.g else (s.e &&& s.f) ||| (~~~s.e &&& s.g)
  let w := words.getD i 0
  let tt1 := ff + s.d + (ss1 ^^^ a12) + (w ^^^ words.getD (i + 4) 0)
  let tt2 := gg + s.h + ss1 + w
  ⟨tt1, s.a, rotl s.b 9, s.c, p0 tt2, s.e, rotl s.f 19, s.g⟩

def compress (s : Chain) (block : Bytes) : Chain :=
  let words := extend 52 (Bytes.be32s block).toArray
  let t := (List.range 64).foldl (round words) s
  ⟨s.a ^^^ t.a, s.b ^^^ t.b, s.c ^^^ t.c, s.d ^^^ t.d, s.e ^^^ t.e, s.f ^^^ t.f, s.g ^^^ t.g,
    s.h ^^^ t.h⟩

def output (s : Chain) : Bytes :=
  [s.a, s.b, s.c, s.d, s.e, s.f, s.g, s.h].flatMap Bytes.be32

def blockLen : Nat := 64

theorem blockLen_pos : 0 < blockLen := by decide

/-- SM3: 64-byte blocks, the length in eight bytes. -/
def absorber : Absorber (Chain × Nat) :=
  .ofCompression blockLen blockLen_pos initial compress
    (fun n => Bytes.be64 (UInt64.ofNat n)) output

end SealedStream.Sm3
