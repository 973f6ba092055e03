import Mathlib.Order.Bounds.Defs
import SealedStream.Proofs.Unwrapping

/-!
# What taking padding off accepts

Padding comes off what it was put on, and off nothing else (`unpad_exact`): whatever is not some
padded byte string has one of three flaws (`Flawed`), and is refused for the first of them.

`padRanged` and `unpadAccumulated` are both directions with every difference, index and cut checked
as it is made. There the padding is compared to its end, whatever it holds: each difference is or-ed
into one byte (`mismatch`), and only that byte is looked at.
-/

namespace SealedStream.Padding

variable {data plain : Bytes} {last : UInt8}

/-! ## Putting on -/

theorem isLeast_length_pad (data : Bytes) :
    IsLeast {n | blockLen ∣ n ∧ data.length < n} (pad data).length := by
  rw [length_pad]
  refine ⟨⟨Nat.dvd_mul_right _ _, by omega⟩, ?_⟩
  rintro _ ⟨⟨blocks, rfl⟩, hlt⟩
  unfold blockLen at hlt ⊢
  omega

/-- `pad` with its difference in sight, by which the data grow and with which they are filled up. -/
def padRanged (data : Bytes) : Ranged Bytes := do
  let n ← Ranged.sub blockLen (data.length % blockLen)
  return data.rightpad (data.length + n) (UInt8.ofNat n)

/-- Putting padding on stays in its range. -/
theorem padRanged_eq (data : Bytes) : padRanged data = pure (pad data) := by
  have hle : data.length % blockLen ≤ blockLen := Nat.le_of_lt (Nat.mod_lt _ (by decide))
  rw [padRanged, Ranged.sub_of_le hle, pure_bind, List.rightpad, Nat.add_sub_cancel_left]
  rfl

/-! ## Flaws -/

/-- What is wrong with data that end in no padding. The last byte counts only in whole blocks, and
the bytes before it only if it can be their number. -/
inductive Flawed (data : Bytes) : CryptoFault → Prop
  | length (h : data = [] ∨ ¬ blockLen ∣ data.length) : Flawed data .paddedLength
  | last {last : UInt8} (hlen : blockLen ∣ data.length) (hlast : data.getLast? = some last)
      (hrange : last = 0 ∨ blockLen < last.toNat) : Flawed data .paddingByte
  | corrupt {last b : UInt8} (hlen : blockLen ∣ data.length) (hlast : data.getLast? = some last)
      (hpos : last ≠ 0) (hle : last.toNat ≤ blockLen)
      (hb : b ∈ data.drop (data.length - last.toNat)) (hne : b ≠ last) : Flawed data .paddingCorrupt

/-- In whole blocks the last byte decides, and then the bytes that it counts. -/
theorem unpad?_of_getLast? (hlen : blockLen ∣ data.length) (hlast : data.getLast? = some last) :
    unpad? data =
      if last = 0 ∨ blockLen < last.toNat then .error (.crypto .paddingByte)
      else if ∃ b ∈ data.drop (data.length - last.toNat), b ≠ last then
        .error (.crypto .paddingCorrupt)
      else .ok (data.take (data.length - last.toNat)) := by
  have hzero : last.toNat = 0 ↔ last = 0 := UInt8.toNat_inj (b := 0)
  have hall : (data.drop (data.length - last.toNat)).all (· == last) = true ↔
      ¬ ∃ b ∈ data.drop (data.length - last.toNat), b ≠ last := by
    simp only [List.all_eq_true, beq_iff_eq, not_exists, not_and, Classical.not_not]
  rw [unpad?, hlast]
  dsimp only
  rw [if_neg (not_not_intro (Nat.mod_eq_zero_of_dvd hlen))]
  simp only [hzero, hall, ite_not]

theorem unpad?_of_flawed {fault : CryptoFault} (h : Flawed data fault) :
    unpad? data = .error (.crypto fault) := by
  cases h with
  | length h =>
    cases hlast : data.getLast? with
    | none => rw [unpad?, hlast]
    | some last =>
      have hne : data ≠ [] := List.ne_nil_of_mem (List.mem_of_getLast? hlast)
      rw [unpad?, hlast]
      exact if_pos (mt Nat.dvd_of_mod_eq_zero (h.resolve_left hne))
  | last hlen hlast hrange => rw [unpad?_of_getLast? hlen hlast, if_pos hrange]
  | corrupt hlen hlast hpos hle hb hne =>
    rw [unpad?_of_getLast? hlen hlast, if_neg (not_or_intro hpos (Nat.not_lt_of_le hle)),
      if_pos ⟨_, hb, hne⟩]

theorem flawed_of_unpad? {e : Error} (h : unpad? data = .error e) :
    ∃ fault, e = .crypto fault ∧ Flawed data fault := by
  by_cases hlength : data = [] ∨ ¬ blockLen ∣ data.length
  · have hflaw := Flawed.length hlength
    exact ⟨_, Except.error.inj (h.symm.trans (unpad?_of_flawed hflaw)), hflaw⟩
  · obtain ⟨hne, hlen⟩ := not_or.mp hlength
    have hlen := Classical.not_not.mp hlen
    obtain ⟨last, hlast⟩ : ∃ last, data.getLast? = some last :=
      ⟨_, List.getLast?_eq_some_getLast hne⟩
    rw [unpad?_of_getLast? hlen hlast] at h
    by_cases hrange : last = 0 ∨ blockLen < last.toNat
    · rw [if_pos hrange] at h
      exact ⟨_, (Except.error.inj h).symm, .last hlen hlast hrange⟩
    · obtain ⟨hpos, hle⟩ := not_or.mp hrange
      rw [if_neg hrange] at h
      by_cases hmismatch : ∃ b ∈ data.drop (data.length - last.toNat), b ≠ last
      · rw [if_pos hmismatch] at h
        obtain ⟨b, hb, hne⟩ := hmismatch
        exact ⟨_, (Except.error.inj h).symm, .corrupt hlen hlast hpos (Nat.le_of_not_lt hle) hb hne⟩
      · rw [if_neg hmismatch] at h
        cases h

theorem unpad?_eq_error_iff {e : Error} :
    unpad? data = .error e ↔ ∃ fault, e = .crypto fault ∧ Flawed data fault := by
  constructor
  · exact flawed_of_unpad?
  · rintro ⟨fault, rfl, hflaw⟩
    exact unpad?_of_flawed hflaw

theorem unpad?_eq_ok_iff : unpad? data = .ok plain ↔ pad plain = data := by
  constructor
  · exact fun h => (eq_pad_of_unpad? h).symm
  · rintro rfl
    exact unpad?_pad plain

/-- The data may end in the very byte that their padding is made of. -/
example : pad (List.replicate 12 4) = List.replicate 16 4 ∧
    unpad? (List.replicate 16 4) = .ok (List.replicate 12 4) := ⟨rfl, rfl⟩

/-- The flaws are all that keeps data from being padded. -/
theorem exists_flawed_iff : (∃ fault, Flawed data fault) ↔ ∀ plain, pad plain ≠ data := by
  constructor
  · rintro ⟨fault, hflaw⟩ plain hpad
    have hok := unpad?_eq_ok_iff.mpr hpad
    rw [unpad?_of_flawed hflaw] at hok
    cases hok
  · intro hnone
    cases h : unpad? data with
    | ok plain => exact absurd (unpad?_eq_ok_iff.mp h) (hnone plain)
    | error e =>
      obtain ⟨fault, -, hflaw⟩ := flawed_of_unpad? h
      exact ⟨fault, hflaw⟩

/-! ## Comparing to the end -/

/-- All differences of `bytes` from `b`, or-ed together. -/
def mismatch (b : UInt8) (bytes : Bytes) : UInt8 := bytes.foldl (fun acc x => acc ||| (x ^^^ b)) 0

/-- By induction on the bytes, for any accumulator: what was or-ed in is never lost. -/
theorem foldl_or_xor_eq_zero_iff (b : UInt8) (bytes : Bytes) (acc : UInt8) :
    bytes.foldl (fun acc x => acc ||| (x ^^^ b)) acc = 0 ↔ acc = 0 ∧ ∀ x ∈ bytes, x = b := by
  induction bytes generalizing acc with
  | nil => simp
  | cons x bytes ih =>
    rw [List.foldl_cons, ih, UInt8.or_eq_zero_iff, UInt8.xor_eq_zero_iff, List.forall_mem_cons,
      and_assoc]

/-- The accumulated comparison is neither laxer nor stricter than comparing byte by byte. -/
theorem mismatch_eq_zero_iff {b : UInt8} {bytes : Bytes} :
    mismatch b bytes = 0 ↔ bytes.all (· == b) = true := by
  rw [mismatch, foldl_or_xor_eq_zero_iff, List.all_eq_true]
  simp only [true_and, beq_iff_eq]

/-- `unpad?` with its differences, its index and its cut in sight, and the padding compared to its
end. -/
def unpadAccumulated (data : Bytes) : Ranged Bytes := do
  if data.length = 0 ∨ data.length % blockLen ≠ 0 then throw (.crypto .paddedLength)
  let last ← Ranged.byteAt data (← Ranged.sub data.length 1)
  if last.toNat = 0 ∨ blockLen < last.toNat then throw (.crypto .paddingByte)
  let (body, padding) ← Ranged.splitAt data (← Ranged.sub data.length last.toNat)
  if mismatch last padding = 0 then return body else throw (.crypto .paddingCorrupt)

/-- Taking padding off stays in its range and gives the same, compared in this way too. -/
theorem unpadAccumulated_eq (data : Bytes) :
    unpadAccumulated data = ExceptT.mk (some (unpad? data)) := by
  rw [← unpadRanged_eq, unpadAccumulated, unpadRanged]
  simp only [mismatch_eq_zero_iff]

/-- **Taking padding off accepts exactly what putting it on gives.** Data come out of a byte string
just if that is what padding makes of them, which fills the fewest whole blocks with more room than
the data need. Every other byte string has a flaw, of its length, of its last byte or of a byte that
this counts, and is refused for it. Neither direction leaves its range. -/
theorem unpad_exact :
    (∀ data padded, unpad? padded = .ok data ↔ pad data = padded) ∧
    (∀ data, IsLeast {n | blockLen ∣ n ∧ data.length < n} (pad data).length) ∧
    (∀ padded, (∀ data, pad data ≠ padded) ↔ ∃ fault, Flawed padded fault) ∧
    (∀ padded e, unpad? padded = .error e ↔ ∃ fault, e = .crypto fault ∧ Flawed padded fault) ∧
    (∀ data, (padRanged data).run = some (.ok (pad data))) ∧
    ∀ padded, (unpadAccumulated padded).run = some (unpad? padded) :=
  ⟨fun _ _ => unpad?_eq_ok_iff, isLeast_length_pad, fun _ => exists_flawed_iff.symm,
    fun _ _ => unpad?_eq_error_iff, fun data => by rw [padRanged_eq]; rfl,
    fun padded => by rw [unpadAccumulated_eq]; rfl⟩

end SealedStream.Padding
