import Mathlib.Data.List.Nodup
import SealedStream.Proofs.Session.Sealing
import SealedStream.Proofs.Unwrapping

/-!
# Room for the block counter

An IV of sixteen bytes is a number of two 64-bit digits, and counting up from it carries into the
high digit only when the low one is used up (`Block.toBytes_ofNat`). A generated IV has a low digit
that fits in 32 bits (`clearCounter_halves`). So there is room for `2 ^ 64 - 2 ^ 32` blocks, in which
the random half of the IV stays as it is (`BundledFamily.counter_room`).
-/

namespace SealedStream

/-! ## Two digits -/

namespace Bytes

theorem foldl_be32 (n : Nat) (x : UInt32) :
    (be32 x).foldl (fun n b => n * 256 + b.toNat) n = n * UInt32.size + x.toNat := by
  have h := x.toNat_lt
  simp [be32, Nat.shiftRight_eq_div_pow, UInt32.size]
  omega

theorem foldl_be64 (n : Nat) (x : UInt64) :
    (be64 x).foldl (fun n b => n * 256 + b.toNat) n = n * UInt64.size + x.toNat := by
  have h := x.toNat_lt
  rw [be64, List.foldl_append, foldl_be32, foldl_be32]
  simp [Nat.shiftRight_eq_div_pow, UInt32.size, UInt64.size]
  omega

theorem toNat_be64_append (hi lo : UInt64) :
    toNat (be64 hi ++ be64 lo) = hi.toNat * UInt64.size + lo.toNat := by
  rw [toNat, List.foldl_append, foldl_be64, foldl_be64, Nat.zero_mul, Nat.zero_add]

theorem be32_append_be32 (hi lo : UInt32) :
    be32 hi ++ be32 lo = be64 (UInt64.ofNat (hi.toNat * UInt32.size + lo.toNat)) := by
  have hhi := hi.toNat_lt
  have hlo := lo.toNat_lt
  rw [be64]
  congr 2
  · apply UInt32.toNat_inj.mp
    simp [Nat.shiftRight_eq_div_pow, UInt32.size]
    omega
  · apply UInt32.toNat_inj.mp
    simp [UInt32.size]

theorem exists_be32 {bs : Bytes} (h : bs.length = 4) : ∃ x, bs = be32 x := by
  obtain ⟨x, hx⟩ := exists_be32? (Nat.le_of_eq h.symm)
  refine ⟨x, ?_⟩
  rw [eq_be32_append_of_be32? hx, List.drop_of_length_le (by omega), List.append_nil]

theorem exists_be64 {bs : Bytes} (h : bs.length = 8) : ∃ x, bs = be64 x := by
  have htake : (bs.take 4).length = 4 := List.length_take_of_le (by omega)
  have hdrop : (bs.drop 4).length = 4 := by rw [List.length_drop, h]
  obtain ⟨hi, hhi⟩ := exists_be32 htake
  obtain ⟨lo, hlo⟩ := exists_be32 hdrop
  exact ⟨_, calc bs
    _ = bs.take 4 ++ bs.drop 4 := (List.take_append_drop 4 bs).symm
    _ = be32 hi ++ be32 lo := by rw [hhi, hlo]
    _ = be64 _ := be32_append_be32 hi lo⟩

theorem be64_injective {x y : UInt64} (h : be64 x = be64 y) : x = y := by
  have hx := toNat_be64_append 0 x
  rw [h, toNat_be64_append] at hx
  exact UInt64.toNat_inj.mp (by omega)

end Bytes

open Bytes

/-- Below the limit of the low digit there is no carry. -/
theorem Block.toBytes_ofNat {hi lo : Nat} (hlo : lo < UInt64.size) :
    toBytes (ofNat (hi * UInt64.size + lo)) = be64 (UInt64.ofNat hi) ++ be64 (UInt64.ofNat lo) := by
  have hhigh : (hi * UInt64.size + lo) >>> 64 = hi := by
    rw [Nat.shiftRight_eq_div_pow]
    simp only [UInt64.size] at hlo ⊢
    omega
  have hlow : UInt64.ofNat (hi * UInt64.size + lo) = UInt64.ofNat lo := by
    apply UInt64.toNat_inj.mp
    rw [UInt64.toNat_ofNat', UInt64.toNat_ofNat']
    simp only [UInt64.size]
    omega
  rw [ofNat, hhigh, hlow]
  rfl

/-- With the counter cleared, the low digit has its low half only. -/
theorem clearCounter_halves {iv : Bytes} (h : iv.length = 16) :
    ∃ hi lo : UInt64, lo.toNat < UInt32.size ∧ clearCounter iv = be64 hi ++ be64 lo := by
  have htake : (iv.take 8).length = 8 := List.length_take_of_le (by omega)
  have hdrop : (iv.drop 12).length = 4 := by rw [List.length_drop, h]
  obtain ⟨hi, hhi⟩ := exists_be64 htake
  obtain ⟨lo, hlo⟩ := exists_be32 hdrop
  refine ⟨hi, UInt64.ofNat ((0 : UInt32).toNat * UInt32.size + lo.toNat), ?_, ?_⟩
  · have hlt := lo.toNat_lt
    simp [UInt32.size]
    omega
  · rw [clearCounter, if_pos (by omega), hhi, hlo, List.append_assoc, ← be32_append_be32]
    rfl

/-! ## The blocks of a stream -/

namespace CounterStream

/-- The counter blocks of the first `n` blocks of keystream. -/
def counterBlocks (start n : Nat) : List Block := (List.range n).map (counterBlock start)

theorem keyBlocks_eq_flatMap (encrypt : Block → Block) (start i n : Nat) :
    keyBlocks encrypt start i n =
      ((List.range' i n).map (counterBlock start)).flatMap fun b => (encrypt b).toBytes := by
  induction n generalizing i with
  | zero => rfl
  | succ n ih => rw [keyBlocks, ih, List.range'_succ, List.map_cons, List.flatMap_cons]

/-- A stretch of the keystream comes from the counter blocks of any number of blocks that it lies
in. -/
theorem keystream_eq_counterBlocks (encrypt : Block → Block) (start : Nat) {position len n : Nat}
    (h : position + len ≤ 16 * n) :
    keystream encrypt start position len =
      (((counterBlocks start n).flatMap fun b => (encrypt b).toBytes).drop position).take len := by
  rw [counterBlocks, List.range_eq_range', ← keyBlocks_eq_flatMap, keyBlocks_eq, keystream_eq]
  apply List.ext_getElem
  · simp
    omega
  · intro k hk _
    simp

variable {hi lo : UInt64}

/-- Within the room that is left, the high digit of the IV stays and the low one is counted. -/
theorem toBytes_counterBlock {i : Nat} (h : lo.toNat + i < UInt64.size) :
    (counterBlock (Bytes.toNat (be64 hi ++ be64 lo)) i).toBytes =
      be64 hi ++ be64 (UInt64.ofNat (lo.toNat + i)) := by
  rw [counterBlock, toNat_be64_append, Nat.add_assoc, Block.toBytes_ofNat h, UInt64.ofNat_toNat]

theorem counterBlocks_nodup {n : Nat} (h : lo.toNat + n ≤ UInt64.size) :
    (counterBlocks (Bytes.toNat (be64 hi ++ be64 lo)) n).Nodup := by
  refine List.Nodup.map_on (fun i hi j hj heq => ?_) List.nodup_range
  rw [List.mem_range] at hi hj
  have hbytes := congrArg Block.toBytes heq
  rw [toBytes_counterBlock (by omega), toBytes_counterBlock (by omega)] at hbytes
  have hlow := congrArg UInt64.toNat (be64_injective (List.append_cancel_left hbytes))
  rw [UInt64.toNat_ofNat_of_lt' (by omega), UInt64.toNat_ofNat_of_lt' (by omega)] at hlow
  omega

theorem take_toBytes_of_mem {n : Nat} (h : lo.toNat + n ≤ UInt64.size) {b : Block}
    (hb : b ∈ counterBlocks (Bytes.toNat (be64 hi ++ be64 lo)) n) : b.toBytes.take 8 = be64 hi := by
  obtain ⟨i, hi, rfl⟩ := List.mem_map.mp hb
  rw [List.mem_range] at hi
  rw [toBytes_counterBlock (by omega), List.take_left' (length_be64 _)]

end CounterStream

/-! ## Generated IVs -/

namespace BundledFamily

open CounterStream

variable {σ τ : Type}

theorem generateIv_of_fill (f : BundledFamily) {random : RandomSource σ} {w w' : σ}
    {bytes : Vector UInt8 16} (hfill : random.fill 16 w = .ok bytes w') :
    (f.family : CipherFamily σ CounterStream).generateIv random w =
      .ok (clearCounter bytes.toList) w' := by
  have hdraw : defaultIv 16 random w = .ok (clearCounter bytes.toList) w' := by
    simp only [defaultIv, run_bind, hfill, run_pure]
  cases f with
  | aes => exact hdraw
  | sm4 => exact hdraw

/-- Where a generated IV begins to count, whatever it was filled with. -/
theorem halves_of_generateIv {f : BundledFamily} {random : RandomSource σ} {w w' : σ} {iv : Bytes}
    (h : (f.family : CipherFamily σ CounterStream).generateIv random w = .ok iv w') :
    ∃ hi lo : UInt64, lo.toNat < UInt32.size ∧ iv = be64 hi ++ be64 lo := by
  have hdraw : defaultIv 16 random w = .ok iv w' := by
    cases f with
    | aes => exact h
    | sm4 => exact h
  obtain ⟨bytes, w₁, -, hbytes⟩ := exists_of_bind_eq_ok hdraw
  cases hbytes
  exact clearCounter_halves (by simp)

/-- **A generated IV leaves room for the block counter.** Whatever the IV was filled with, the
counter blocks of the next `2 ^ 64 - 2 ^ 32` blocks all begin with the first half of the IV, and they
differ from each other and from all those of another IV with another first half. The cipher of the IV
adds what its block cipher makes of these blocks and no others. -/
theorem counter_room (f : BundledFamily) {random : RandomSource σ} {w w' : σ}
    {bytes : Vector UInt8 16} (hfill : random.fill 16 w = .ok bytes w') :
    ∃ iv, (f.family : CipherFamily σ CounterStream).generateIv random w = .ok iv w' ∧
      ∀ n, n ≤ UInt64.size - UInt32.size →
        (∀ b ∈ counterBlocks (Bytes.toNat iv) n, b.toBytes.take 8 = iv.take 8) ∧
        (counterBlocks (Bytes.toNat iv) n).Nodup ∧
        (∀ (g : BundledFamily) (random' : RandomSource τ) (v v' : τ) (iv' : Bytes) (m : Nat),
          (g.family : CipherFamily τ CounterStream).generateIv random' v = .ok iv' v' →
          m ≤ UInt64.size - UInt32.size → iv'.take 8 ≠ iv.take 8 →
            (counterBlocks (Bytes.toNat iv) n).Disjoint (counterBlocks (Bytes.toNat iv') m)) ∧
        ∀ (key : Bytes) (mode : Mode),
          key.length = (f.family : CipherFamily σ CounterStream).keyLen →
          (f.family : CipherFamily σ CounterStream).newCipher key iv mode =
              pure (f.stream key iv) ∧
            ∀ (position : Nat) (input : Bytes), position + input.length ≤ 16 * n →
              (({ f.stream key iv with position } : CounterStream).apply input).1 =
                Bytes.xor input ((((counterBlocks (Bytes.toNat iv) n).flatMap fun b =>
                  (f.blockCipher key b).toBytes).drop position).take input.length) := by
  have hiv := f.generateIv_of_fill hfill
  have hlength := KeyMaterial.length_generateIv hiv
  obtain ⟨hi, lo, hlo, hhalves⟩ := halves_of_generateIv hiv
  refine ⟨_, hiv, fun n hn => ?_⟩
  rw [hhalves] at hlength ⊢
  have hroom : lo.toNat + n ≤ UInt64.size := by
    simp only [UInt32.size, UInt64.size] at hlo hn ⊢
    omega
  refine ⟨fun b hb => ?_, counterBlocks_nodup hroom, ?_, fun key mode hkey => ⟨?_, ?_⟩⟩
  · rw [take_toBytes_of_mem hroom hb, List.take_left' (length_be64 _)]
  · intro g random' v v' iv' m hiv' hm hne b hb hb'
    obtain ⟨hi', lo', hlo', rfl⟩ := halves_of_generateIv hiv'
    have hroom' : lo'.toNat + m ≤ UInt64.size := by
      simp only [UInt32.size, UInt64.size] at hlo' hm ⊢
      omega
    rw [List.take_left' (length_be64 _), List.take_left' (length_be64 _)] at hne
    exact hne (by rw [← take_toBytes_of_mem hroom hb, take_toBytes_of_mem hroom' hb'])
  · exact newCipher_eq f hkey hlength mode
  · intro position input hin
    exact congrArg (Bytes.xor input) (keystream_eq_counterBlocks _ _ hin)

/-- The greatest IV there is, with the counter cleared, against the least one. -/
theorem counter_room_ones :
    let iv : Bytes := .replicate 8 255 ++ .replicate 4 0 ++ .replicate 4 255
    let least : Bytes := .replicate 16 0
    let room := UInt64.size - UInt32.size
    (∀ b ∈ counterBlocks (Bytes.toNat iv) room, b.toBytes.take 8 = .replicate 8 255) ∧
    (counterBlocks (Bytes.toNat iv) room).Nodup ∧
    (counterBlocks (Bytes.toNat iv) room).Disjoint (counterBlocks (Bytes.toNat least) room) := by
  intro iv least room
  have hfill (b : UInt8) : (RandomSource.filling (Vector.replicate 16 b)).fill 16 () =
      .ok (Vector.replicate 16 b) () := rfl
  obtain ⟨iv', hiv, hroom⟩ := counter_room (τ := Unit) .aes (hfill 255)
  cases (generateIv_of_fill .aes (hfill 255)).symm.trans hiv
  obtain ⟨hhalf, hnodup, hdisjoint, -⟩ := hroom room (Nat.le_refl _)
  exact ⟨hhalf, hnodup, hdisjoint .sm4 _ () () least room (generateIv_of_fill .sm4 (hfill 0))
    (Nat.le_refl _) (by decide)⟩

end BundledFamily

end SealedStream
