import SealedStream.Bytes

/-!
# Incremental hashing

An `Absorber` takes a message in blocks of a fixed length and turns what is left into a digest. A
`Running` hash holds back the last block until more follows it, so the digest depends on the message
alone and not on how it was cut (`Absorber.update_append`).
-/

namespace SealedStream

/-- A hash function in steps: how a block changes the chaining value, and what the chaining value
and the bytes held back (at most one block) give in the end. -/
structure Absorber (χ : Type) where
  blockLen : Nat
  blockLen_pos : 0 < blockLen := by decide
  start : χ
  absorb : χ → Bytes → χ
  finish : χ → Bytes → Bytes

/-- A hash in progress: the chaining value, and the bytes held back. -/
structure Running (χ : Type) where
  chain : χ
  pending : Bytes

namespace Absorber

variable {χ : Type} (h : Absorber χ)

/-- Absorbs every block that is followed by more bytes. -/
def drain (chain : χ) (bytes : Bytes) : Running χ :=
  if _more : bytes.drop h.blockLen ≠ [] then
    drain (h.absorb chain (bytes.take h.blockLen)) (bytes.drop h.blockLen)
  else ⟨chain, bytes⟩
termination_by bytes.length
decreasing_by
  have hp := h.blockLen_pos
  have : bytes ≠ [] := by intro e; simp [e] at _more
  have := List.length_pos_iff.mpr this
  simp only [List.length_drop]; omega

/-- The hash of nothing yet. -/
def new : Running χ := ⟨h.start, []⟩

def update (r : Running χ) (bytes : Bytes) : Running χ := h.drain r.chain (r.pending ++ bytes)

def digest (r : Running χ) : Bytes := h.finish r.chain r.pending

/-- The digest of a whole message. -/
def hash (message : Bytes) : Bytes := h.digest (h.update h.new message)

theorem drain_of_drop_eq_nil (chain : χ) {bytes : Bytes} (e : bytes.drop h.blockLen = []) :
    h.drain chain bytes = ⟨chain, bytes⟩ := by
  rw [drain]; simp [e]

theorem drain_of_drop_ne_nil (chain : χ) {bytes : Bytes} (e : bytes.drop h.blockLen ≠ []) :
    h.drain chain bytes =
      h.drain (h.absorb chain (bytes.take h.blockLen)) (bytes.drop h.blockLen) := by
  rw [drain]; simp [e]

/-- Draining in two goes is draining at once. -/
theorem drain_append (chain : χ) (a b : Bytes) :
    h.drain (h.drain chain a).chain ((h.drain chain a).pending ++ b) = h.drain chain (a ++ b) := by
  by_cases e : a.drop h.blockLen = []
  · rw [h.drain_of_drop_eq_nil chain e]
  · have hlen : h.blockLen < a.length := by
      apply Nat.lt_of_not_le
      intro hle
      exact e (List.drop_eq_nil_of_le hle)
    have e' : (a ++ b).drop h.blockLen ≠ [] := by
      rw [List.drop_append_of_le_length (Nat.le_of_lt hlen)]
      simp [e]
    rw [h.drain_of_drop_ne_nil chain e, h.drain_of_drop_ne_nil chain e',
      List.drop_append_of_le_length (Nat.le_of_lt hlen),
      List.take_append_of_le_length (Nat.le_of_lt hlen)]
    exact drain_append _ _ b
termination_by a.length
decreasing_by
  have := h.blockLen_pos
  simp only [List.length_drop]; omega

theorem update_append (r : Running χ) (a b : Bytes) :
    h.update (h.update r a) b = h.update r (a ++ b) := by
  simp only [update, drain_append, List.append_assoc]

end Absorber

/-! ## Padded block hashes -/

/-- The bytes after a message of `n` bytes: a one bit, zeros, and the length in bits, so that the
whole is a multiple of `blockLen`. The length takes `(lengthOf (8 * n)).length` bytes. -/
def lengthPadding (blockLen : Nat) (lengthOf : Nat → Bytes) (n : Nat) : Bytes :=
  let tail := lengthOf (8 * n)
  let used := (n + 1 + tail.length) % blockLen
  0x80 :: List.replicate ((blockLen - used) % blockLen) 0 ++ tail

/-- A hash that compresses padded blocks. Its chaining value is paired with the number of bytes
absorbed so far. -/
def Absorber.ofCompression {χ : Type} (blockLen : Nat) (pos : 0 < blockLen) (start : χ)
    (compress : χ → Bytes → χ) (lengthOf : Nat → Bytes) (output : χ → Bytes) :
    Absorber (χ × Nat) where
  blockLen := blockLen
  blockLen_pos := pos
  start := (start, 0)
  absorb := fun (chain, n) block => (compress chain block, n + block.length)
  finish := fun (chain, n) pending =>
    let rest := pending ++ lengthPadding blockLen lengthOf (n + pending.length)
    output ((Bytes.chunks blockLen rest).foldl compress chain)

end SealedStream
