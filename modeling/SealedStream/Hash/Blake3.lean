import SealedStream.Hash.Absorber

/-!
# BLAKE3

The unkeyed hash with 32 bytes of output. A message is cut into chunks of 1024 bytes; the chaining
values of the chunks are the leaves of a binary tree whose left subtrees are as large as a power of
two allows, and the digest is taken at its root.
-/

namespace SealedStream.Blake3

/-- Eight 32-bit words: a chaining value. -/
abbrev Chaining := List UInt32

def initial : Chaining :=
  [0x6a09e667, 0xbb67ae85, 0x3c6ef372, 0xa54ff53a, 0x510e527f, 0x9b05688c, 0x1f83d9ab, 0x5be0cd19]

def chunkStart : UInt32 := 1
def chunkEnd : UInt32 := 2
def parent : UInt32 := 4
def root : UInt32 := 8

def rotr (x n : UInt32) : UInt32 := (x >>> n) ||| (x <<< (32 - n))

/-- The sixteen words that a compression works on. -/
abbrev State := Vector UInt32 16

/-- Mixes two message words into the column or diagonal `a`, `b`, `c`, `d`. -/
def quarter (v : State) (a b c d : Fin 16) (x y : UInt32) : State :=
  let va := v[a] + v[b] + x
  let vd := rotr (v[d] ^^^ va) 16
  let vc := v[c] + vd
  let vb := rotr (v[b] ^^^ vc) 12
  let va := va + vb + y
  let vd := rotr (vd ^^^ va) 8
  let vc := vc + vd
  let vb := rotr (vb ^^^ vc) 7
  (((v.set a va).set b vb).set c vc).set d vd

/-- Columns, then diagonals. -/
def round (m : Array UInt32) (v : State) : State :=
  let w (i : Nat) := m.getD i 0
  let v := quarter v 0 4 8 12 (w 0) (w 1)
  let v := quarter v 1 5 9 13 (w 2) (w 3)
  let v := quarter v 2 6 10 14 (w 4) (w 5)
  let v := quarter v 3 7 11 15 (w 6) (w 7)
  let v := quarter v 0 5 10 15 (w 8) (w 9)
  let v := quarter v 1 6 11 12 (w 10) (w 11)
  let v := quarter v 2 7 8 13 (w 12) (w 13)
  quarter v 3 4 9 14 (w 14) (w 15)

/-- The order of the message words in the next round. -/
def permutation : List Nat := [2, 6, 3, 10, 7, 0, 4, 13, 1, 11, 12, 5, 9, 14, 15, 8]

def permute (m : Array UInt32) : Array UInt32 := (permutation.map fun i => m.getD i 0).toArray

def rounds : Nat → Array UInt32 → State → State
  | 0, _, v => v
  | n + 1, m, v => rounds n (permute m) (round m v)

/-- Seven rounds over chaining value, counter, length and flags; the new chaining value is the sum
of the two halves. -/
def compress (chain : Chaining) (block : List UInt32) (counter : UInt64) (length flags : UInt32) :
    Chaining :=
  let start :=
    chain ++ initial.take 4 ++ [counter.toUInt32, (counter >>> 32).toUInt32, length, flags]
  let v := rounds 7 block.toArray (Vector.ofFn fun i => start.getD i.val 0)
  List.zipWith (· ^^^ ·) (v.toList.take 8) (v.toList.drop 8)

/-- A block as sixteen words, filled up with zeros. -/
def blockWords (block : Bytes) : List UInt32 :=
  Bytes.le32s (block ++ List.replicate (64 - block.length) 0)

/-- The blocks of a chunk from the given flags on; the last one also gets `final`. -/
def chunkBlocks (counter : UInt64) (final : UInt32) : Chaining → UInt32 → List Bytes → Chaining
  | chain, flags, [] => compress chain (blockWords []) counter 0 (flags ||| chunkEnd ||| final)
  | chain, flags, [block] =>
    compress chain (blockWords block) counter (UInt32.ofNat block.length)
      (flags ||| chunkEnd ||| final)
  | chain, flags, block :: rest =>
    chunkBlocks counter final (compress chain (blockWords block) counter 64 flags) 0 rest

/-- The chaining value of chunk number `counter`. -/
def chunkValue (counter : Nat) (final : UInt32) (chunk : Bytes) : Chaining :=
  chunkBlocks (UInt64.ofNat counter) final initial chunkStart (Bytes.chunks 64 chunk)

/-- The chaining value of a parent node. -/
def parentValue (final : UInt32) (left right : Chaining) : Chaining :=
  compress initial (left ++ right) 0 64 (parent ||| final)

/-- Joins neighbours; an odd one at the end waits for the next level. -/
def joinPairs : List Chaining → List Chaining
  | a :: b :: rest => parentValue 0 a b :: joinPairs rest
  | rest => rest

theorem joinPairs_length_le : ∀ l : List Chaining, (joinPairs l).length ≤ l.length
  | [] => Nat.le_refl _
  | [_] => Nat.le_refl _
  | _ :: _ :: rest => by
    have := joinPairs_length_le rest
    simp only [joinPairs, List.length_cons]; omega

/-- Joins the leaves level by level up to the root. -/
def rootValue : List Chaining → Chaining
  | [] => []
  | [value] => value
  | [a, b] => parentValue root a b
  | a :: b :: c :: rest => rootValue (joinPairs (a :: b :: c :: rest))
termination_by l => l.length
decreasing_by
  have := joinPairs_length_le (c :: rest)
  simp only [joinPairs, List.length_cons] at this ⊢; omega

/-- The chaining values of the chunks absorbed, latest first; the chunk held back is the last one,
and the root if it is the only one. -/
def absorber : Absorber (List Chaining) where
  blockLen := 1024
  start := []
  absorb := fun leaves chunk => chunkValue leaves.length 0 chunk :: leaves
  finish := fun leaves pending =>
    let value := match leaves with
      | [] => chunkValue 0 root pending
      | _ => rootValue (chunkValue leaves.length 0 pending :: leaves).reverse
    value.flatMap Bytes.le32

end SealedStream.Blake3
