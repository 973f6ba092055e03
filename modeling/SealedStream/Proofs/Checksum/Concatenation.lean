import Mathlib.Logic.Function.Iterate
import SealedStream.Checksum.Crc64Combine

/-!
# CRC-64 of a concatenation

A bit through the raw register is linear over exclusive or (`bitStep_xor`), and so is everything
made of it: a byte by table (`zeroByte_eq_bitSteps`), a whole byte string (`foldl_tableByte_xor`),
and every operator (`Operator.apply_xor`). Squaring an operator composes it with itself whatever
its rows (`Operator.apply_square`), so repeated squaring applies the operator as often as the
length says (`Operator.advance_eq`).

`combine_checksum`: combining the checksums of two byte strings gives the checksum of their
concatenation. The complements that `update` puts around the register cancel, since the register
left by the first part enters the second part as a sum with the fresh one.
-/

namespace SealedStream.Crc64

/-! ## The register is linear -/

theorem and_one_eq_one_iff (x : UInt64) : x &&& 1 = 1 ↔ x.toBitVec.getLsbD 0 = true := by
  have h : (x &&& 1).toBitVec = (BitVec.ofBool (x.toBitVec.getLsbD 0)).setWidth 64 := by
    rw [UInt64.toBitVec_and]
    exact BitVec.and_one_eq_setWidth_ofBool_getLsbD
  rw [← UInt64.toBitVec_inj, h]
  cases x.toBitVec.getLsbD 0 <;> decide

/-- The low bit of a sum is set if it is set in just one of the two. -/
theorem and_one_xor (a b : UInt64) :
    ((a ^^^ b) &&& 1 = 1) ↔ ¬ (a &&& 1 = 1 ↔ b &&& 1 = 1) := by
  simp only [and_one_eq_one_iff, UInt64.toBitVec_xor, BitVec.getLsbD_xor]
  cases a.toBitVec.getLsbD 0 <;> cases b.toBitVec.getLsbD 0 <;> simp

theorem xor_cancel (a b p : UInt64) : a ^^^ p ^^^ (b ^^^ p) = a ^^^ b := by
  rw [show a ^^^ p ^^^ (b ^^^ p) = a ^^^ b ^^^ (p ^^^ p) by ac_rfl, UInt64.xor_self,
    UInt64.xor_zero]

theorem bitStep_xor (a b : UInt64) : bitStep (a ^^^ b) = bitStep a ^^^ bitStep b := by
  simp only [bitStep, and_one_xor, UInt64.shiftRight_xor]
  by_cases ha : a &&& 1 = 1 <;> by_cases hb : b &&& 1 = 1 <;> simp only [ha, hb, iff_self,
    not_true_eq_false, iff_true, iff_false, not_false_eq_true, if_true, if_false]
  · exact (xor_cancel _ _ _).symm
  · ac_rfl
  · ac_rfl

theorem bitSteps_xor (n : Nat) (a b : UInt64) :
    bitSteps n (a ^^^ b) = bitSteps n a ^^^ bitSteps n b := by
  induction n generalizing a b with
  | zero => rfl
  | succ n ih => simp only [bitSteps, bitStep_xor, ih]

/-- Bits that are clear only make room: the others move down. -/
theorem bitSteps_of_clear : ∀ (n : Nat) (y : UInt64),
    (∀ i, i < n → y.toBitVec.getLsbD i = false) → (bitSteps n y).toBitVec = y.toBitVec >>> n
  | 0, _, _ => by simp [bitSteps]
  | n + 1, y, h => by
    have h0 : ¬ y &&& 1 = 1 := by rw [and_one_eq_one_iff, h 0 (by omega)]; simp
    have hs : (y >>> 1).toBitVec = y.toBitVec >>> 1 := by simp
    have step : bitStep y = y >>> 1 := by rw [bitStep, if_neg h0]
    rw [bitSteps, step, bitSteps_of_clear n (y >>> 1), hs, ← BitVec.shiftRight_add, Nat.add_comm]
    intro i hi
    rw [hs, BitVec.getLsbD_ushiftRight]
    exact h (1 + i) (by omega)

/-! ## A byte by table -/

theorem entry_eq (r : UInt64) : entry r = bitSteps 8 r.toUInt8.toUInt64 := by
  have h : UInt64.ofNat r.toUInt8.toNat = r.toUInt8.toUInt64 := by
    apply UInt64.toNat_inj.mp
    rw [UInt64.toNat_ofNat_of_lt' (Nat.lt_trans r.toUInt8.toNat_lt (by decide)),
      UInt8.toNat_toUInt64]
  have hi : r.toUInt8.toNat < 256 := r.toUInt8.toNat_lt
  have get : entry r = table[r.toUInt8.toNat] := rfl
  rw [get, table, Vector.getElem_ofFn, h]

/-- The byte by table is the eight bits one by one, on a register that the byte was added to. -/
theorem zeroByte_eq_bitSteps (r : UInt64) : zeroByte r = bitSteps 8 r := by
  have low (i : Nat) :
      (r.toUInt8.toUInt64).toBitVec.getLsbD i = (decide (i < 8) && r.toBitVec.getLsbD i) := by
    simp only [UInt8.toBitVec_toUInt64, UInt64.toBitVec_toUInt8, BitVec.getLsbD_setWidth]
    by_cases h8 : i < 8
    · simp [h8, show i < 64 by omega]
    · simp [h8]
  have split : r = r.toUInt8.toUInt64 ^^^ (r ^^^ r.toUInt8.toUInt64) := by
    rw [UInt64.xor_comm r, ← UInt64.xor_assoc, UInt64.xor_self, UInt64.zero_xor]
  have clear : ∀ i, i < 8 → (r ^^^ r.toUInt8.toUInt64).toBitVec.getLsbD i = false := by
    intro i hi
    rw [UInt64.toBitVec_xor, BitVec.getLsbD_xor, low]
    simp [hi]
  have high : (bitSteps 8 (r ^^^ r.toUInt8.toUInt64)) = r >>> 8 := by
    apply UInt64.toBitVec_inj.mp
    rw [bitSteps_of_clear 8 _ clear]
    apply BitVec.eq_of_getLsbD_eq
    intro i hi
    have hs : (r >>> 8).toBitVec = r.toBitVec >>> 8 := by simp
    rw [hs, BitVec.getLsbD_ushiftRight, BitVec.getLsbD_ushiftRight, UInt64.toBitVec_xor,
      BitVec.getLsbD_xor, low]
    simp [show ¬ 8 + i < 8 by omega]
  conv => rhs; rw [split, bitSteps_xor, high]
  rw [zeroByte, entry_eq]

theorem zeroByte_xor (a b : UInt64) : zeroByte (a ^^^ b) = zeroByte a ^^^ zeroByte b := by
  simp only [zeroByte_eq_bitSteps, bitSteps_xor]

/-- A byte is added to the low end of the register, which then takes a zero byte. -/
theorem tableByte_eq (r : UInt64) (b : UInt8) : tableByte r b = zeroByte (r ^^^ b.toUInt64) := by
  have h : b.toUInt64 >>> 8 = 0 := by
    apply UInt64.toNat_inj.mp
    have := b.toNat_lt
    simp [Nat.shiftRight_eq_div_pow]
    omega
  rw [tableByte, zeroByte, UInt64.shiftRight_xor, h, UInt64.xor_zero]

/-- A byte string takes a sum of registers to the sum of what it makes of one of them and of what
as many zero bytes make of the other. -/
theorem foldl_tableByte_xor (bytes : Bytes) (r s : UInt64) :
    bytes.foldl tableByte (r ^^^ s) = bytes.foldl tableByte r ^^^ zeroByte^[bytes.length] s := by
  induction bytes generalizing r s with
  | nil => rfl
  | cons b bytes ih =>
    have step : tableByte (r ^^^ s) b = tableByte r b ^^^ zeroByte s := by
      simp only [tableByte_eq, ← zeroByte_xor]
      congr 1
      ac_rfl
    rw [List.foldl_cons, step, ih, List.foldl_cons, List.length_cons, Function.iterate_succ_apply]

/-! ## Operators -/

namespace Operator

theorem sum_xor (rows : List UInt64) (x y : UInt64) :
    sum rows (x ^^^ y) = sum rows x ^^^ sum rows y := by
  induction rows generalizing x y with
  | nil => simp [sum]
  | cons row rows ih =>
    simp only [sum, UInt64.shiftRight_xor, ih, and_one_xor]
    by_cases hx : x &&& 1 = 1 <;> by_cases hy : y &&& 1 = 1 <;> simp only [hx, hy, iff_self,
      not_true_eq_false, iff_true, iff_false, not_false_eq_true, if_true, if_false,
      UInt64.zero_xor]
    · rw [show row ^^^ sum rows (x >>> 1) ^^^ (row ^^^ sum rows (y >>> 1)) =
        sum rows (x >>> 1) ^^^ row ^^^ (sum rows (y >>> 1) ^^^ row) by ac_rfl, xor_cancel]
    · ac_rfl
    · ac_rfl

theorem apply_xor (m : Operator) (x y : UInt64) : m.apply (x ^^^ y) = m.apply x ^^^ m.apply y :=
  sum_xor m.toList x y

/-- Rows that went through a linear map give the image of what the rows give. -/
theorem sum_map {f : UInt64 → UInt64} (hf : ∀ x y, f (x ^^^ y) = f x ^^^ f y)
    (rows : List UInt64) (x : UInt64) : sum (rows.map f) x = f (sum rows x) := by
  have f0 : f 0 = 0 := by
    have := hf 0 0
    rwa [UInt64.xor_self, UInt64.xor_self] at this
  induction rows generalizing x with
  | nil => exact f0.symm
  | cons row rows ih =>
    rw [List.map_cons, sum, sum, hf, ih]
    by_cases hx : x &&& 1 = 1 <;> simp only [hx, if_true, if_false, f0]

theorem apply_square (m : Operator) (x : UInt64) : m.square.apply x = m.apply (m.apply x) := by
  rw [apply, square, Vector.toList_map, sum_map (apply_xor m)]
  rfl

/-- The sum of unit rows from `k` up to the last one. -/
theorem sum_units : ∀ (n k : Nat) (x : UInt64), k + n = 64 →
    (sum ((List.range' k n).map fun i => 1 <<< UInt64.ofNat i) x).toBitVec = x.toBitVec <<< k
  | 0, k, x, h => by
    rw [show k = 64 by omega]
    simp [sum]
  | n + 1, k, x, h => by
    have unit : (1 <<< UInt64.ofNat k : UInt64).toBitVec = 1#64 <<< k := by
      simp [Nat.mod_eq_of_lt (show k < 64 by omega)]
    rw [List.range'_succ, List.map_cons, sum, UInt64.toBitVec_xor,
      sum_units n (k + 1) (x >>> 1) (by omega)]
    have hs : (x >>> 1).toBitVec = x.toBitVec >>> 1 := by simp
    rw [hs]
    apply BitVec.eq_of_getLsbD_eq
    intro i hi
    rw [BitVec.getLsbD_xor, BitVec.getLsbD_shiftLeft, BitVec.getLsbD_shiftLeft,
      BitVec.getLsbD_ushiftRight]
    have hrow : (if x &&& 1 = 1 then (1 <<< UInt64.ofNat k : UInt64) else 0).toBitVec.getLsbD i =
        (decide (i = k) && x.toBitVec.getLsbD 0) := by
      by_cases hx : x &&& 1 = 1
      · rw [if_pos hx, unit, (and_one_eq_one_iff x).mp hx, BitVec.getLsbD_shiftLeft]
        rw [Bool.eq_iff_iff]
        simp [hi]
        omega
      · rw [if_neg hx, Bool.eq_false_iff.mpr (mt (and_one_eq_one_iff x).mpr hx)]
        simp
    rw [hrow]
    rcases Nat.lt_trichotomy i k with h' | rfl | h'
    · simp [hi, h', Nat.ne_of_lt h', show i < k + 1 by omega]
    · simp [hi]
    · simp [hi, show ¬ i < k by omega, show ¬ i < k + 1 by omega, show i ≠ k by omega,
        show 1 + (i - (k + 1)) = i - k by omega]

/-- A unit through the register for one bit: the rows of `zeroBit`. -/
theorem bitStep_unit : ∀ i : Fin 64, bitStep (1 <<< UInt64.ofNat i.val) =
    if i.val = 0 then polynomial else 1 <<< UInt64.ofNat (i.val - 1) := by
  decide +kernel

/-- One zero bit through the register, as an operator. -/
theorem apply_zeroBit (x : UInt64) : zeroBit.apply x = bitStep x := by
  have rows : zeroBit.toList =
      ((List.range' 0 64).map fun i => 1 <<< UInt64.ofNat i).map bitStep := by
    apply List.ext_getElem
    · simp
    · intro i h₁ h₂
      have hi : i < 64 := by simpa using h₁
      simpa [zeroBit] using (bitStep_unit ⟨i, hi⟩).symm
  have whole : sum ((List.range' 0 64).map fun i => 1 <<< UInt64.ofNat i) x = x := by
    apply UInt64.toBitVec_inj.mp
    rw [sum_units 64 0 x rfl, BitVec.shiftLeft_zero]
  rw [apply, rows, sum_map bitStep_xor, whole]

/-- Three squarings make a zero byte of a zero bit. -/
theorem apply_zeroByte (x : UInt64) : zeroBit.square.square.square.apply x = zeroByte x := by
  simp only [apply_square, apply_zeroBit, zeroByte_eq_bitSteps, bitSteps]

/-- The last binary digit is one application at most, and the square does the others two at a
time. -/
theorem iterate_digit (m : Operator) (n : Nat) (x : UInt64) :
    m.square.apply^[n / 2] (if n % 2 = 1 then m.apply x else x) = m.apply^[n] x := by
  have sq : m.square.apply = m.apply^[2] := funext (apply_square m)
  rw [sq, ← Function.iterate_mul]
  rcases Nat.mod_two_eq_zero_or_one n with h | h
  · rw [h, if_neg (by decide), show 2 * (n / 2) = n by omega]
  · rw [h, if_pos rfl, ← Function.iterate_succ_apply, show (2 * (n / 2)).succ = n by omega]

/-- Repeated squaring applies the first square `n` times: by induction on `n`, two of its digits a
round, the last round ending after either of them. -/
theorem advance_eq (odd : Operator) (n : Nat) (x : UInt64) :
    odd.advance n x = odd.square.apply^[n] x := by
  induction n using Nat.strongRecOn generalizing odd x with
  | _ n ih =>
    have first := iterate_digit odd.square n x
    have second := iterate_digit odd.square.square (n / 2)
      (if n % 2 = 1 then odd.square.apply x else x)
    rw [advance]
    by_cases h : n / 2 = 0
    · rw [h] at first
      simp only [h, if_true]
      exact first
    · simp only [h, if_false]
      by_cases h' : n / 2 / 2 = 0
      · rw [h'] at second
        simp only [h', if_true]
        exact second.trans first
      · simp only [h', if_false]
        rw [ih (n / 2 / 2) (by omega)]
        exact second.trans first

end Operator

/-! ## Combining -/

/-- Combining takes the first register through as many zero bytes as the second part is long. -/
theorem combine_eq (a b : UInt64) {n : Nat} (h : 0 < n) : combine a b n = zeroByte^[n] a ^^^ b := by
  have op : Operator.zeroBit.square.square.square.apply = zeroByte :=
    funext Operator.apply_zeroByte
  rw [combine, if_neg (by omega), Operator.advance_eq, op]

theorem checksum_eq (bytes : Bytes) : checksum bytes = ~~~(bytes.foldl tableByte (-1)) := by
  have start : (~~~(new.value) : UInt64) = -1 := by decide
  simp only [checksum, update, start]

/-- The checksum of two byte strings in a row: the first one's, taken through zero bytes in place
of the second part, is added to the second one's. -/
theorem checksum_append (a b : Bytes) :
    checksum (a ++ b) = zeroByte^[b.length] (checksum a) ^^^ checksum b := by
  have left : a.foldl tableByte (-1) = -1 ^^^ checksum a := by
    rw [UInt64.neg_one_xor, checksum_eq, UInt64.not_not]
  calc checksum (a ++ b)
      = ~~~(b.foldl tableByte (-1 ^^^ checksum a)) := by
        rw [checksum_eq, List.foldl_append, left]
    _ = ~~~(b.foldl tableByte (-1)) ^^^ zeroByte^[b.length] (checksum a) := by
        rw [foldl_tableByte_xor, UInt64.not_xor]
    _ = zeroByte^[b.length] (checksum a) ^^^ checksum b := by
        rw [← checksum_eq, UInt64.xor_comm]

/-- **Combining is concatenation**: the checksum of two byte strings in a row comes from their
checksums and the length of the second one alone. -/
theorem combine_checksum (a b : Bytes) :
    combine (checksum a) (checksum b) b.length = checksum (a ++ b) := by
  cases b with
  | nil => rw [List.append_nil]; rfl
  | cons x b => rw [combine_eq _ _ (by simp), checksum_append]

end SealedStream.Crc64
