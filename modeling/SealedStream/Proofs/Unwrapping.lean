import SealedStream.Proofs.KeyWrap

/-!
# What unwrapping accepts

Unwrapping accepts what wrapping can produce and nothing else (`AesKeyWrap.unwrap_exact`): an
accepted byte string is, bit for bit, the wrapping of its one secret under the IV in front of it.
The way back rests on the block cipher being undone in both directions, on padding that can come
off in one way only, and on the tag.

`AesKeyWrap.unwrapRanged` is unwrapping with every difference, cut and index checked as it is made;
it never leaves its range, on any bytes (`AesKeyWrap.unwrapRanged_eq`).
-/

namespace SealedStream

/-! ## Padding -/

namespace Padding

/-- What comes off was put on. -/
theorem eq_pad_of_unpad? {data plain : Bytes} (h : unpad? data = .ok plain) :
    data = pad plain := by
  unfold unpad? at h
  cases hlast : data.getLast? with
  | none => simp [hlast] at h
  | some last =>
    simp only [hlast] at h
    split at h
    · cases h
    · rename_i hlen
      split at h
      · cases h
      · rename_i hrange
        split at h
        · rename_i hall
          cases h
          have hpos : 0 < data.length := List.length_pos_of_mem (List.mem_of_getLast? hlast)
          have hcount : count (data.take (data.length - last.toNat)).length = last.toNat := by
            simp only [count, blockLen, List.length_take] at hlen hrange ⊢
            omega
          have htail : data.drop (data.length - last.toNat) = List.replicate last.toNat last := by
            refine List.eq_replicate_iff.mpr ⟨?_, fun b hb => ?_⟩
            · simp only [blockLen, List.length_drop] at hlen hrange ⊢
              omega
            · exact beq_iff_eq.mp (List.all_eq_true.mp hall b hb)
          rw [pad, hcount, UInt8.ofNat_toNat, ← htail, List.take_append_drop]
        · cases h

/-- Every refusal is about the secret. -/
theorem crypto_of_unpad? {data : Bytes} {e : Error} (h : unpad? data = .error e) :
    ∃ fault, e = .crypto fault := by
  unfold unpad? at h
  split at h
  · exact ⟨_, (Except.error.inj h).symm⟩
  · split at h
    · exact ⟨_, (Except.error.inj h).symm⟩
    · split at h
      · exact ⟨_, (Except.error.inj h).symm⟩
      · dsimp only at h
        split at h
        · cases h
        · exact ⟨_, (Except.error.inj h).symm⟩

end Padding

namespace AesKeyWrap

/-! ## Both directions -/

theorem lengthOk_iff {n : Nat} :
    lengthOk n = true ↔ ∃ m, n = 16 * (m + 2) + tagLen := by
  rw [lengthOk, Bool.and_eq_true, beq_iff_eq, decide_eq_true_iff, blockLen, tagLen]
  constructor
  · intro h
    exact ⟨(n - 32) / 16 - 2, by omega⟩
  · rintro ⟨m, rfl⟩
    omega

theorem exists_iv (b : Block) : ∃ iv : Vector UInt8 16, iv.toList = b.toBytes :=
  ⟨⟨b.toBytes.toArray, by rw [List.size_toArray, Block.length_toBytes]⟩, rfl⟩

/-- **What is accepted was wrapped**, under the IV in front of it. -/
theorem wrapUnder_of_unwrap {w : AesKeyWrap} {wrapped plain : Bytes}
    (h : w.unwrap wrapped = .ok plain) :
    ∃ iv : Vector UInt8 16,
      iv.toList = wrapped.take blockLen ∧ w.wrapUnder iv plain = wrapped := by
  unfold unwrap at h
  split at h
  · cases h
  · rename_i hok
    obtain ⟨m, hlen⟩ := lengthOk_iff.mp (by simpa using hok)
    dsimp only at h
    split at h
    · cases h
    · rename_i htag
      have htag := Classical.not_not.mp htag
      have hbody : (wrapped.take (wrapped.length - tagLen)).length = 16 * (m + 2) := by
        rw [List.length_take, hlen]
        omega
      obtain ⟨bodyBlocks, hn, hblocks⟩ := Block.exists_blocks hbody
      cases bodyBlocks with
      | nil => cases hn
      | cons previous blocks =>
        rw [List.flatMap_cons] at hblocks
        rw [hblocks] at htag
        rw [hblocks, Block.ofBytes_toBytes_append, List.headD_cons, blockLen,
          List.drop_left' previous.length_toBytes, Block.ofBytes_flatMap_toBytes] at h
        have hwhole : wrapped = previous.toBytes ++ blocks.flatMap Block.toBytes ++
            wrapped.drop (wrapped.length - tagLen) := by
          rw [← hblocks, List.take_append_drop]
        obtain ⟨iv, hiv⟩ := exists_iv previous
        refine ⟨iv, ?_, ?_⟩
        · rw [hiv, hwhole, List.append_assoc, blockLen, List.take_left' previous.length_toBytes]
        · rw [wrapUnder_of_blocks w hiv (Padding.eq_pad_of_unpad? h),
            Chaining.encrypt_decrypt (Aes.encrypt_decrypt w.schedule)]
          dsimp only
          rw [← htag]
          exact hwhole.symm

/-- Every refusal is about the secret. -/
theorem crypto_of_unwrap {w : AesKeyWrap} {wrapped : Bytes} {e : Error}
    (h : w.unwrap wrapped = .error e) : ∃ fault, e = .crypto fault := by
  unfold unwrap at h
  split at h
  · exact ⟨_, (Except.error.inj h).symm⟩
  · dsimp only at h
    split at h
    · exact ⟨_, (Except.error.inj h).symm⟩
    · exact Padding.crypto_of_unpad? h

theorem take_wrapUnder (w : AesKeyWrap) (iv : Vector UInt8 16) (plain : Bytes) :
    (w.wrapUnder iv plain).take blockLen = iv.toList := by
  simp only [wrapUnder, List.append_assoc]
  exact List.take_left' (by rw [Vector.length_toList, blockLen])

/-- A secret is wrapped in as many ways as there are IVs, and no two secrets in the same way. -/
theorem wrapUnder_injective {w : AesKeyWrap}
    (ht : ∀ message, (w.mac.tag message).length = tagLen) {iv iv' : Vector UInt8 16}
    {plain plain' : Bytes} (h : w.wrapUnder iv plain = w.wrapUnder iv' plain') :
    iv = iv' ∧ plain = plain' := by
  have hiv := congrArg (List.take blockLen) h
  rw [take_wrapUnder, take_wrapUnder] at hiv
  have hplain := congrArg w.unwrap h
  rw [unwrap_wrapUnder ht, unwrap_wrapUnder ht] at hplain
  exact ⟨Vector.toList_inj.mp hiv, Except.ok.inj hplain⟩

/-! ## Inside the range

A step of `Ranged` refuses its input with an error, or has no result at all: it went out of the
range of its argument.
-/

end AesKeyWrap

/-- What may refuse its input, and what may leave the range it works in. -/
abbrev Ranged := ExceptT Error Option

namespace Ranged

def outOfRange {α : Type} : Ranged α := ExceptT.mk none

/-- A difference that may not go below zero. -/
def sub (a b : Nat) : Ranged Nat := if b ≤ a then pure (a - b) else outOfRange

/-- Both sides of a place that may not lie behind the end. -/
def splitAt (bs : Bytes) (n : Nat) : Ranged (Bytes × Bytes) :=
  if n ≤ bs.length then pure (bs.take n, bs.drop n) else outOfRange

def byteAt (bs : Bytes) (i : Nat) : Ranged UInt8 :=
  match bs[i]? with
  | some b => pure b
  | none => outOfRange

/-- The block of exactly sixteen bytes. -/
def block (bs : Bytes) : Ranged Block :=
  match Block.ofBytes bs with
  | [b] => if bs.length = blockLen then pure b else outOfRange
  | _ => outOfRange

/-- The sum of two blocks, written over `out`. -/
def xorInto (a b out : Bytes) : Ranged Bytes :=
  match Block.xorInto? a b out with
  | some sum => pure sum
  | none => outOfRange

variable {a b n i : Nat} {bs : Bytes}

theorem sub_of_le (h : b ≤ a) : sub a b = pure (a - b) := if_pos h

theorem splitAt_of_le (h : n ≤ bs.length) : splitAt bs n = pure (bs.take n, bs.drop n) := if_pos h

theorem byteAt_of_lt (h : i < bs.length) : byteAt bs i = pure bs[i] := by
  rw [byteAt, List.getElem?_eq_getElem h]

theorem block_toBytes (b : Block) : block b.toBytes = pure b := rfl

theorem xorInto_toBytes (a b c : Block) :
    xorInto a.toBytes b.toBytes c.toBytes = pure (a ^^^ b).toBytes := rfl

end Ranged

namespace Padding

/-- `unpad?` with its differences, its index and its cut in sight. -/
def unpadRanged (data : Bytes) : Ranged Bytes := do
  if data.length = 0 ∨ data.length % blockLen ≠ 0 then throw (.crypto .paddedLength)
  let last ← Ranged.byteAt data (← Ranged.sub data.length 1)
  if last.toNat = 0 ∨ blockLen < last.toNat then throw (.crypto .paddingByte)
  let (body, padding) ← Ranged.splitAt data (← Ranged.sub data.length last.toNat)
  if padding.all (· == last) then return body else throw (.crypto .paddingCorrupt)

/-- Taking padding off stays in its range. -/
theorem unpadRanged_eq (data : Bytes) : unpadRanged data = ExceptT.mk (some (unpad? data)) := by
  unfold unpadRanged unpad?
  by_cases hlen : data.length = 0 ∨ data.length % blockLen ≠ 0
  · rw [if_pos hlen]
    cases hlast : data.getLast? with
    | none => rfl
    | some last =>
      have hpos : 0 < data.length := List.length_pos_of_mem (List.mem_of_getLast? hlast)
      dsimp only
      rw [if_pos (hlen.resolve_left (by omega))]
      rfl
  · have hpos : 1 ≤ data.length := by omega
    have hwhole : ¬ data.length % blockLen ≠ 0 := fun h => hlen (.inr h)
    have hlast : data.getLast? = some data[data.length - 1] := by
      rw [List.getLast?_eq_getElem?, List.getElem?_eq_getElem]
    rw [if_neg hlen, Ranged.sub_of_le hpos, hlast]
    simp only [pure_bind, Ranged.byteAt_of_lt (show data.length - 1 < data.length by omega)]
    generalize data[data.length - 1] = last
    rw [if_neg hwhole]
    by_cases hrange : last.toNat = 0 ∨ blockLen < last.toNat
    · rw [if_pos hrange, if_pos hrange]
      rfl
    · have hle : last.toNat ≤ data.length := by
        unfold blockLen at hwhole hrange
        omega
      rw [if_neg hrange, if_neg hrange]
      simp only [pure_bind, Ranged.sub_of_le hle, Ranged.splitAt_of_le (Nat.sub_le _ _)]
      by_cases hall : (data.drop (data.length - last.toNat)).all (· == last)
      · rw [if_pos hall, if_pos hall]
        rfl
      · rw [if_neg hall, if_neg hall]
        rfl

end Padding

namespace AesKeyWrap

/-- The chain taken apart piece by piece, each piece being one block. -/
def decryptRanged (w : AesKeyWrap) : Block → List Bytes → Ranged Bytes
  | _, [] => pure []
  | previous, piece :: pieces => do
    let b ← Ranged.block piece
    let plain ←
      Ranged.xorInto (Aes.decrypt w.schedule b).toBytes previous.toBytes Block.zero.toBytes
    return plain ++ (← w.decryptRanged b pieces)

/-- `unwrap` with its differences, its cuts and its blocks in sight. -/
def unwrapRanged (w : AesKeyWrap) (wrapped : Bytes) : Ranged Bytes := do
  if wrapped.length < 2 * blockLen + tagLen then throw (.crypto (.wrappedLength wrapped.length))
  let bodyLen ← Ranged.sub wrapped.length tagLen
  if bodyLen % blockLen ≠ 0 then throw (.crypto (.wrappedLength wrapped.length))
  let (body, tag) ← Ranged.splitAt wrapped bodyLen
  let (iv, ciphertext) ← Ranged.splitAt body blockLen
  if tag ≠ w.mac.tag (iv ++ ciphertext) then throw (.crypto .tagMismatch)
  let plain ← w.decryptRanged (← Ranged.block iv) (Bytes.chunks blockLen ciphertext)
  Padding.unpadRanged plain

theorem chunks_flatMap_toBytes (blocks : List Block) :
    Bytes.chunks blockLen (blocks.flatMap Block.toBytes) = blocks.map Block.toBytes := by
  induction blocks with
  | nil => rw [List.flatMap_nil, Bytes.chunks_nil, List.map_nil]
  | cons b blocks ih =>
    have hcons : b.toBytes = b.x0.x0 :: b.toBytes.tail := rfl
    have htail : b.toBytes.tail.length = blockLen - 1 := rfl
    rw [List.flatMap_cons, hcons, List.cons_append, Bytes.chunks_cons, List.take_left' htail,
      List.drop_left' htail, ih, List.map_cons, ← hcons]

theorem decryptRanged_eq (w : AesKeyWrap) (previous : Block) (blocks : List Block) :
    w.decryptRanged previous (blocks.map Block.toBytes) =
      pure ((Chaining.decrypt (Aes.decrypt w.schedule) previous blocks).flatMap Block.toBytes) := by
  induction blocks generalizing previous with
  | nil => rfl
  | cons b blocks ih =>
    rw [List.map_cons, decryptRanged]
    simp only [Ranged.block_toBytes, Ranged.xorInto_toBytes, pure_bind, ih]
    rfl

/-- **Unwrapping stays in its range**, whatever it is given. -/
theorem unwrapRanged_eq (w : AesKeyWrap) (wrapped : Bytes) :
    w.unwrapRanged wrapped = ExceptT.mk (some (w.unwrap wrapped)) := by
  unfold unwrapRanged unwrap
  by_cases hmin : wrapped.length < 2 * blockLen + tagLen
  · have hok : lengthOk wrapped.length = false := by
      rw [lengthOk, decide_eq_false (by omega), Bool.false_and]
    rw [if_pos hmin, hok]
    rfl
  · have htag : tagLen ≤ wrapped.length := by omega
    rw [if_neg hmin, Ranged.sub_of_le htag]
    simp only [pure_bind]
    by_cases hwhole : (wrapped.length - tagLen) % blockLen ≠ 0
    · have hok : lengthOk wrapped.length = false := by
        rw [lengthOk, beq_false_of_ne hwhole, Bool.and_false]
      rw [if_pos hwhole, hok]
      rfl
    · have hok : lengthOk wrapped.length = true := by
        rw [lengthOk, Bool.and_eq_true, decide_eq_true_iff, beq_iff_eq]
        exact ⟨by omega, Classical.not_not.mp hwhole⟩
      obtain ⟨m, hlen⟩ := lengthOk_iff.mp hok
      have hbody : (wrapped.take (wrapped.length - tagLen)).length = 16 * (m + 2) := by
        rw [List.length_take, hlen]
        omega
      obtain ⟨bodyBlocks, hn, hblocks⟩ := Block.exists_blocks hbody
      cases bodyBlocks with
      | nil => cases hn
      | cons previous blocks =>
        rw [List.flatMap_cons] at hblocks
        rw [if_neg hwhole, hok, Ranged.splitAt_of_le (Nat.sub_le _ _), hblocks]
        simp only [pure_bind]
        have hiv : blockLen ≤ (previous.toBytes ++ blocks.flatMap Block.toBytes).length := by
          rw [List.length_append, previous.length_toBytes]
          exact Nat.le_add_right _ _
        rw [Ranged.splitAt_of_le hiv, if_neg (show ¬ (!true) = true by decide)]
        simp only [pure_bind, List.take_left' (show previous.toBytes.length = blockLen from rfl),
          List.drop_left' (show previous.toBytes.length = blockLen from rfl)]
        by_cases htag : wrapped.drop (wrapped.length - tagLen) ≠
            w.mac.tag (previous.toBytes ++ blocks.flatMap Block.toBytes)
        · rw [if_pos htag, if_pos htag]
          rfl
        · rw [if_neg htag, if_neg htag, Ranged.block_toBytes, pure_bind, chunks_flatMap_toBytes,
            decryptRanged_eq, pure_bind, Padding.unpadRanged_eq, Block.ofBytes_toBytes_append,
            List.headD_cons, Block.ofBytes_flatMap_toBytes]

end AesKeyWrap

/-! ## Exactly what is wrapped -/

/-- The source that fills with `iv`; other lengths get zeros. -/
def RandomSource.filling {n : Nat} (iv : Vector UInt8 n) : RandomSource Unit where
  fill k := pure (if h : n = k then iv.cast h else Vector.replicate k 0)

namespace AesKeyWrap

theorem wrap_filling (w : AesKeyWrap) (iv : Vector UInt8 16) (plain : Bytes) :
    (w.keyWrap (.filling iv)).wrap plain () = .ok (w.wrapUnder iv plain) () := rfl

/-- Whatever source the IV comes from, a secret is wrapped under it. -/
theorem exists_iv_of_wrap {σ : Type} {w : AesKeyWrap} {random : RandomSource σ} {s t : σ}
    {plain wrapped : Bytes} (h : (w.keyWrap random).wrap plain s = .ok wrapped t) :
    ∃ iv, wrapped = w.wrapUnder iv plain := by
  obtain ⟨iv, s', -, hwrap⟩ := exists_of_bind_eq_ok h
  cases hwrap
  exact ⟨iv, rfl⟩

/-- **Unwrapping accepts exactly what wrapping can produce.** A secret comes out of `wrapped` just
if wrapping it under some IV gives `wrapped`, and then wrapping it again under the IV at the front
of `wrapped` does; so what any source of IVs wrapped is taken back, and of IV and secret each byte
string has one pair at most. All else is refused as damaged, and nothing leaves its range. -/
theorem unwrap_exact (master : Key32) :
    (∀ wrapped plain, (ofMaster master).unwrap wrapped = .ok plain ↔
      ∃ iv : Vector UInt8 16,
        ((ofMaster master).keyWrap (.filling iv)).wrap plain () = .ok wrapped ()) ∧
    (∀ wrapped plain, (ofMaster master).unwrap wrapped = .ok plain →
      ∃ iv : Vector UInt8 16, iv.toList = wrapped.take blockLen ∧
        ((ofMaster master).keyWrap (.filling iv)).wrap plain () = .ok wrapped ()) ∧
    (∀ (σ : Type) (random : RandomSource σ) (s t : σ) plain wrapped,
      ((ofMaster master).keyWrap random).wrap plain s = .ok wrapped t →
        (ofMaster master).unwrap wrapped = .ok plain) ∧
    (∀ (iv iv' : Vector UInt8 16) plain plain' wrapped,
      ((ofMaster master).keyWrap (.filling iv)).wrap plain () = .ok wrapped () →
      ((ofMaster master).keyWrap (.filling iv')).wrap plain' () = .ok wrapped () →
        iv = iv' ∧ plain = plain') ∧
    (∀ wrapped,
      (∀ (iv : Vector UInt8 16) plain,
        ((ofMaster master).keyWrap (.filling iv)).wrap plain () ≠ .ok wrapped ()) →
      ∃ fault, (ofMaster master).unwrap wrapped = .error (.crypto fault)) ∧
    ∀ wrapped, ((ofMaster master).unwrapRanged wrapped).run =
      some ((ofMaster master).unwrap wrapped) := by
  have ht := length_tag master
  have hback : ∀ (iv : Vector UInt8 16) plain wrapped,
      ((ofMaster master).keyWrap (.filling iv)).wrap plain () = .ok wrapped () →
        (ofMaster master).wrapUnder iv plain = wrapped := by
    intro iv plain wrapped h
    rw [wrap_filling] at h
    cases h
    rfl
  refine ⟨fun wrapped plain => ⟨fun h => ?_, ?_⟩, fun wrapped plain h => ?_, ?_, ?_, ?_, ?_⟩
  · obtain ⟨iv, -, rfl⟩ := wrapUnder_of_unwrap h
    exact ⟨iv, wrap_filling _ iv plain⟩
  · rintro ⟨iv, h⟩
    rw [← hback iv plain wrapped h, unwrap_wrapUnder ht]
  · obtain ⟨iv, hiv, hwrap⟩ := wrapUnder_of_unwrap h
    exact ⟨iv, hiv, by rw [wrap_filling, hwrap]⟩
  · intro σ random s t plain wrapped h
    obtain ⟨iv, rfl⟩ := exists_iv_of_wrap h
    exact unwrap_wrapUnder ht iv plain
  · intro iv iv' plain plain' wrapped h h'
    refine wrapUnder_injective ht ?_
    rw [hback _ _ _ h, hback _ _ _ h']
  · intro wrapped h
    cases hun : (ofMaster master).unwrap wrapped with
    | ok plain =>
      obtain ⟨iv, -, hwrap⟩ := wrapUnder_of_unwrap hun
      exact absurd (by rw [wrap_filling, hwrap]) (h iv plain)
    | error e =>
      obtain ⟨fault, rfl⟩ := crypto_of_unwrap hun
      exact ⟨fault, rfl⟩
  · intro wrapped
    rw [unwrapRanged_eq]
    rfl

/-- A secret of three bytes comes out again, and nothing comes out of no bytes. -/
theorem unwrap_exact_sevens :
    (ofMaster (.replicate 32 7)).unwrap
        ((ofMaster (.replicate 32 7)).wrapUnder (.replicate 16 1) [5, 6, 8]) = .ok [5, 6, 8] ∧
      ∃ fault, (ofMaster (.replicate 32 7)).unwrap [] = .error (.crypto fault) := by
  refine ⟨?_, ?_⟩
  · exact (unwrap_exact (.replicate 32 7)).2.2.1 Unit (.filling (.replicate 16 1)) () () _ _
      (wrap_filling _ _ _)
  · refine (unwrap_exact (.replicate 32 7)).2.2.2.2.1 [] fun iv plain h => ?_
    -- what is wrapped begins with the IV
    rw [wrap_filling] at h
    injection h with hnil
    have hlen := congrArg List.length hnil
    rw [length_wrapUnder (length_tag _)] at hlen
    simp at hlen

end AesKeyWrap

end SealedStream
