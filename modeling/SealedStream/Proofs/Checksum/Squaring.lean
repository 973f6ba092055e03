import SealedStream.Proofs.Checksum.Concatenation

/-!
# Combining by repeated squaring

`combine` is the iterate of one table step (`combine_eq`), for a second part of any length, and so it
is associative as concatenation is (`combine_assoc`).

`combineRanged` is combining with the loops as they run on registers: the row of a set bit is looked
up and must be there, and the squarings get a number of rounds to end in. Within the 32 rounds of two
halvings that a 64-bit length can take it always ends, and it never misses a row
(`combineRanged_eq`).
-/

namespace SealedStream.Crc64

/-! ## Iterates of the table step -/

theorem iterate_zeroByte_xor (n : Nat) (a b : UInt64) :
    zeroByte^[n] (a ^^^ b) = zeroByte^[n] a ^^^ zeroByte^[n] b := by
  induction n generalizing a b with
  | zero => rfl
  | succ n ih => simp only [Function.iterate_succ_apply, zeroByte_xor, ih]

/-- Combining is associative, with the lengths added, if the middle part is not empty. -/
theorem combine_assoc (a b c : UInt64) {m : Nat} (hm : 0 < m) (n : Nat) :
    combine (combine a b m) c n = combine a (combine b c n) (m + n) := by
  rcases n.eq_zero_or_pos with rfl | hn
  · rfl
  · calc combine (combine a b m) c n
        = zeroByte^[n] (zeroByte^[m] a ^^^ b) ^^^ c := by rw [combine_eq _ _ hn, combine_eq _ _ hm]
      _ = zeroByte^[m + n] a ^^^ (zeroByte^[n] b ^^^ c) := by
        rw [iterate_zeroByte_xor, ← Function.iterate_add_apply, Nat.add_comm n m, UInt64.xor_assoc]
      _ = combine a (combine b c n) (m + n) := by
        rw [combine_eq _ _ hn, combine_eq _ _ (Nat.add_pos_left hm n)]

/-- The entry of the low byte stands in the table where masking the register points. -/
theorem table_mask (r : UInt64) : table[(r &&& 0xFF).toNat]? = some (entry r) := by
  have hlow : (r &&& 0xFF).toNat = r.toUInt8.toNat := by
    rw [UInt64.toNat_and, UInt64.toNat_toUInt8]
    exact Nat.and_two_pow_sub_one_eq_mod r.toNat 8
  have hlt : r.toUInt8.toNat < 256 := r.toUInt8.toNat_lt
  rw [hlow, Vector.getElem?_eq_getElem hlt]
  rfl

/-! ## Halving a register -/

theorem toNat_shiftRight_one (x : UInt64) : (x >>> 1).toNat = x.toNat / 2 := by
  rw [UInt64.toNat_shiftRight]
  exact Nat.shiftRight_eq_div_pow x.toNat 1

theorem and_one_eq_one_iff_mod (x : UInt64) : x &&& 1 = 1 ↔ x.toNat % 2 = 1 := by
  rw [← UInt64.toNat_inj, UInt64.toNat_and, UInt64.toNat_one, Nat.and_one_is_mod]

theorem shiftRight_one_eq_zero_iff (x : UInt64) : x >>> 1 = 0 ↔ x.toNat / 2 = 0 := by
  rw [← UInt64.toNat_inj, toNat_shiftRight_one, UInt64.toNat_zero]

namespace Operator

/-! ## The image of a register, row by row -/

/-- Adds to `total` the image of `x`, whose lowest bit belongs to row `k`. It ends with the last bit
that is set, and fails if the row of a set bit is not there. -/
def times (m : Operator) (k : Nat) (x total : UInt64) : Option UInt64 :=
  if x = 0 then some total
  else do
    let total ← if x &&& 1 = 1 then m[k]?.map (total ^^^ ·) else some total
    times m (k + 1) (x >>> 1) total
termination_by x.toNat
decreasing_by
  rename_i hx
  have hpos : x.toNat ≠ 0 := fun h => hx (UInt64.toNat_inj.mp h)
  rw [toNat_shiftRight_one]
  omega

theorem sum_zero (rows : List UInt64) : sum rows 0 = 0 := by
  induction rows with
  | nil => rfl
  | cons row rows ih => simpa [sum] using ih

/-- By induction on the rows that are left: while they are as many as the register has bits, none is
missed. -/
theorem times_eq {m : Operator} {rows : List UInt64} : ∀ {k : Nat} {x : UInt64} (total : UInt64),
    m.toList.drop k = rows → x.toNat < 1 <<< rows.length →
      m.times k x total = some (total ^^^ sum rows x) := by
  induction rows with
  | nil =>
    intro k x total _ hx
    have hzero : x = 0 := UInt64.toNat_inj.mp (Nat.lt_one_iff.mp hx)
    rw [times, if_pos hzero, sum, UInt64.xor_zero]
  | cons row rows ih =>
    intro k x total hrows hx
    have hrow : m[k]? = some row := by
      rw [← Vector.getElem?_toList, ← List.head?_drop, hrows, List.head?_cons]
    have hrest : m.toList.drop (k + 1) = rows := by
      rw [← List.tail_drop, hrows, List.tail_cons]
    have hhalf : (x >>> 1).toNat < 1 <<< rows.length := by
      rw [List.length_cons, Nat.shiftLeft_succ] at hx
      rw [toNat_shiftRight_one]
      omega
    rw [times]
    by_cases hzero : x = 0
    · rw [if_pos hzero, hzero, sum_zero, UInt64.xor_zero]
    · by_cases hbit : x &&& 1 = 1
      · simp only [if_neg hzero, if_pos hbit, hrow, Option.map_some, bind, Option.bind_some, sum,
          ih _ hrest hhalf, UInt64.xor_assoc]
      · simp only [if_neg hzero, if_neg hbit, bind, Option.bind_some, sum, ih _ hrest hhalf,
          UInt64.zero_xor]

/-- No register runs past the last row. -/
theorem times_zero (m : Operator) (x : UInt64) : m.times 0 x 0 = some (m.apply x) := by
  have hx : x.toNat < 1 <<< m.toList.length := by
    rw [Vector.length_toList]
    exact x.toNat_lt
  rw [times_eq 0 List.drop_zero hx, UInt64.zero_xor, apply]

/-! ## Squaring in rounds -/

def squareRanged (m : Operator) : Option Operator := m.mapM fun row => m.times 0 row 0

theorem squareRanged_eq (m : Operator) : m.squareRanged = some m.square := by
  unfold squareRanged
  simp only [times_zero]
  show m.mapM (fun row => (pure (m.apply row) : Option UInt64)) = some m.square
  rw [Vector.mapM_pure]
  rfl

/-- The image of `x` if the lowest binary digit of `n` is one. -/
def digitRanged (m : Operator) (n x : UInt64) : Option UInt64 :=
  if n &&& 1 = 1 then m.times 0 x 0 else some x

theorem digitRanged_eq (m : Operator) (n x : UInt64) :
    m.digitRanged n x = some (if n.toNat % 2 = 1 then m.apply x else x) := by
  simp only [digitRanged, and_one_eq_one_iff_mod, times_zero]
  split <;> rfl

/-- `advance` on registers, in a number of rounds that it may run out of. -/
def advanceRanged (odd : Operator) : (rounds : Nat) → (n x : UInt64) → Option UInt64
  | 0, _, _ => none
  | rounds + 1, n, x => do
    let even ← odd.squareRanged
    let x ← even.digitRanged n x
    let n := n >>> 1
    if n = 0 then return x
    let odd ← even.squareRanged
    let x ← odd.digitRanged n x
    let n := n >>> 1
    if n = 0 then return x
    advanceRanged odd rounds n x

/-- By induction on the rounds: each takes two digits, so the length runs out before they do. -/
theorem advanceRanged_eq : ∀ {rounds : Nat} {odd : Operator} {n : UInt64} (x : UInt64), n ≠ 0 →
    n.toNat < 1 <<< (2 * rounds) → odd.advanceRanged rounds n x = some (odd.advance n.toNat x) := by
  intro rounds
  induction rounds with
  | zero =>
    intro odd n x hn hlt
    exact absurd (UInt64.toNat_inj.mp (Nat.lt_one_iff.mp hlt)) hn
  | succ rounds ih =>
    intro odd n x hn hlt
    have hquarter : (n >>> 1 >>> 1).toNat < 1 <<< (2 * rounds) := by
      rw [Nat.mul_add, Nat.shiftLeft_succ, Nat.shiftLeft_succ] at hlt
      rw [toNat_shiftRight_one, toNat_shiftRight_one]
      omega
    rw [advanceRanged, advance]
    simp only [squareRanged_eq, digitRanged_eq, bind, Option.bind_some, pure]
    by_cases hfirst : n >>> 1 = 0
    · rw [if_pos hfirst, if_pos ((shiftRight_one_eq_zero_iff n).mp hfirst)]
    · rw [if_neg hfirst, if_neg (mt (shiftRight_one_eq_zero_iff n).mpr hfirst)]
      by_cases hsecond : n >>> 1 >>> 1 = 0
      · have hnat := (shiftRight_one_eq_zero_iff _).mp hsecond
        rw [toNat_shiftRight_one] at hnat
        rw [if_pos hsecond, if_pos hnat, toNat_shiftRight_one]
      · have hnat := mt (shiftRight_one_eq_zero_iff _).mpr hsecond
        rw [toNat_shiftRight_one] at hnat
        rw [if_neg hsecond, if_neg hnat, ih _ hsecond hquarter]
        simp only [toNat_shiftRight_one]

end Operator

/-- Combining on registers: `combine` with every row looked up and with the 32 rounds that the
halvings of a 64-bit length take. -/
def combineRanged (a b lengthB : UInt64) : Option UInt64 :=
  if lengthB = 0 then some a
  else do
    let even ← Operator.zeroBit.squareRanged
    let odd ← even.squareRanged
    let a ← odd.advanceRanged 32 lengthB a
    return a ^^^ b

/-- Combining ends on every length and misses no row. -/
theorem combineRanged_eq (a b lengthB : UInt64) :
    combineRanged a b lengthB = some (combine a b lengthB.toNat) := by
  rw [combineRanged, combine]
  by_cases hn : lengthB = 0
  · rw [if_pos hn, if_pos (by rw [hn]; rfl)]
  · have hnat : lengthB.toNat ≠ 0 := fun h => hn (UInt64.toNat_inj.mp h)
    have hlt : lengthB.toNat < 1 <<< (2 * 32) := lengthB.toNat_lt
    rw [if_neg hn, if_neg hnat]
    simp only [Operator.squareRanged_eq, bind, Option.bind_some, pure,
      Operator.advanceRanged_eq a hn hlt]

/-- **Repeated squaring is the table step repeated.** Combining takes the first register through a
zero byte for each byte of the second part, however many these are; so pieces may be combined from
either side; and the loops of squarings and of rows stay within the 64 digits of a length and the 64
rows of an operator. -/
theorem combine_squaring :
    (∀ (a b : UInt64) (n : Nat), 0 < n → combine a b n = zeroByte^[n] a ^^^ b) ∧
    (∀ x : UInt64, ∃ row, table[(x &&& 0xFF).toNat]? = some row ∧
      zeroByte x = row ^^^ (x >>> 8)) ∧
    (∀ (a b c : UInt64) (m n : Nat), 0 < m →
      combine (combine a b m) c n = combine a (combine b c n) (m + n)) ∧
    (∀ a b lengthB : UInt64, combineRanged a b lengthB = some (combine a b lengthB.toNat)) ∧
    ∀ (m : Operator) (x : UInt64), m.times 0 x 0 = some (m.apply x) :=
  ⟨fun a b _ hn => combine_eq a b hn, fun x => ⟨entry x, table_mask x, rfl⟩,
    fun a b c _ n hm => combine_assoc a b c hm n, combineRanged_eq, Operator.times_zero⟩

/-- The longest second part there is, and a split of it. -/
theorem combine_squaring_longest :
    combine 7 9 18446744073709551615 = zeroByte^[18446744073709551615] 7 ^^^ 9 ∧
    combine (combine 7 9 18446744073709551614) 5 1 =
      combine 7 (combine 9 5 1) (18446744073709551614 + 1) :=
  ⟨combine_squaring.1 7 9 _ (by decide), combine_squaring.2.2.1 7 9 5 _ 1 (by decide)⟩

end SealedStream.Crc64
