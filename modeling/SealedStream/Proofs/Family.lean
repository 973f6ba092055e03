import SealedStream.Family

/-!
# Making ciphers

A bundled family makes a cipher of every key and IV of the lengths that it asks for, and the cipher
is the keystream of the two from its first byte on (`BundledFamily.newCipher_eq`).
-/

namespace SealedStream

namespace Block

theorem exists_word (bs : Bytes) (h : 4 ≤ bs.length) :
    ∃ (w : Word) (rest : Bytes), bs = w.toList ++ rest :=
  match bs, h with
  | a :: b :: c :: d :: rest, _ => ⟨⟨a, b, c, d⟩, rest, rfl⟩

theorem exists_block (bs : Bytes) (h : 16 ≤ bs.length) :
    ∃ (b : Block) (rest : Bytes), bs = toBytes b ++ rest := by
  obtain ⟨x0, bs, rfl⟩ := exists_word bs (by omega)
  simp only [Quad.toList, List.length_append, List.length_cons, List.length_nil] at h
  obtain ⟨x1, bs, rfl⟩ := exists_word bs (by omega)
  simp only [Quad.toList, List.length_append, List.length_cons, List.length_nil] at h
  obtain ⟨x2, bs, rfl⟩ := exists_word bs (by omega)
  simp only [Quad.toList, List.length_append, List.length_cons, List.length_nil] at h
  obtain ⟨x3, bs, rfl⟩ := exists_word bs (by omega)
  exact ⟨⟨x0, x1, x2, x3⟩, bs, by simp [toBytes]⟩

/-- Bytes of the right number are the bytes of blocks. -/
theorem exists_blocks : ∀ {n : Nat} {bs : Bytes}, bs.length = 16 * n →
    ∃ blocks : List Block, blocks.length = n ∧ bs = blocks.flatMap toBytes
  | 0, bs, h => ⟨[], rfl, List.eq_nil_of_length_eq_zero (by omega)⟩
  | n + 1, bs, h => by
    obtain ⟨b, rest, rfl⟩ := exists_block bs (by omega)
    rw [List.length_append, length_toBytes] at h
    obtain ⟨blocks, hn, rfl⟩ := exists_blocks (show rest.length = 16 * n by omega)
    exact ⟨b :: blocks, by rw [List.length_cons, hn], by rw [List.flatMap_cons]⟩

theorem length_flatMap_toBytes (blocks : List Block) :
    (blocks.flatMap toBytes).length = 16 * blocks.length := by
  simp [List.length_flatMap, List.map_const', Nat.mul_comm]

end Block

theorem Aes.Schedule.isSome_ofKey? {key : Bytes} (h : key.length = 32) : (ofKey? key).isSome := by
  obtain ⟨blocks, hn, rfl⟩ := Block.exists_blocks (n := 2) h
  rw [ofKey?, Block.ofBytes_flatMap_toBytes]
  match blocks, hn with
  | [a, b], _ => rfl

theorem Sm4.isSome_schedule? {key : Bytes} (h : key.length = 16) : (schedule? key).isSome := by
  obtain ⟨blocks, hn, rfl⟩ := Block.exists_blocks (n := 1) h
  rw [schedule?, Block.ofBytes_flatMap_toBytes]
  match blocks, hn with
  | [a], _ => rfl

namespace BundledFamily

variable {σ : Type}

/-- The block cipher of a family under a key. -/
def blockCipher (f : BundledFamily) (key : Bytes) : Block → Block :=
  match f with
  | .aes => ((Aes.Schedule.ofKey? key).map Aes.encrypt).getD fun b => b
  | .sm4 => ((Sm4.schedule? key).map Sm4.encrypt).getD fun b => b

/-- The keystream of a family under key and IV, at its first byte. -/
def stream (f : BundledFamily) (key iv : Bytes) : CounterStream :=
  ⟨f.blockCipher key, Bytes.toNat iv, 0⟩

theorem newCipher_eq (f : BundledFamily) {key iv : Bytes}
    (hkey : key.length = (f.family : CipherFamily σ CounterStream).keyLen)
    (hiv : iv.length = (f.family : CipherFamily σ CounterStream).ivLen) (mode : Mode) :
    (f.family : CipherFamily σ CounterStream).newCipher key iv mode = pure (f.stream key iv) := by
  cases f with
  | aes =>
    obtain ⟨k, hk⟩ := Option.isSome_iff_exists.mp (Aes.Schedule.isSome_ofKey? hkey)
    simp only [family, CipherFamily.aes, CipherFamily.counterMode, hk, Option.map_some] at hiv ⊢
    rw [if_pos hiv]
    simp [stream, blockCipher, hk]
  | sm4 =>
    obtain ⟨k, hk⟩ := Option.isSome_iff_exists.mp (Sm4.isSome_schedule? hkey)
    simp only [family, CipherFamily.sm4, CipherFamily.counterMode, hk, Option.map_some] at hiv ⊢
    rw [if_pos hiv]
    simp [stream, blockCipher, hk]

end BundledFamily

end SealedStream
