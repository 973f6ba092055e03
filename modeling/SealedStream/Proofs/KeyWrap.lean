import SealedStream.Block.AesInverse
import SealedStream.KeyWrap
import SealedStream.Proofs.Family
import SealedStream.Proofs.Step

/-!
# Wrapping and unwrapping

The bundled key wrap takes back what it wrapped (`AesKeyWrap.unwrap_wrapUnder`): the padding comes
off as it went on, the chain is undone block by block, and the tag has the length at which the
wrapped secret is cut.
-/

namespace SealedStream

/-- The key wrap unwraps by a function of its input. -/
def KeyWrap.Functional {σ : Type} (wrap : KeyWrap σ) : Prop :=
  ∀ wrapped, SealedStream.Functional (wrap.unwrap wrapped)

namespace Padding

theorem count_bounds (n : Nat) : 0 < count n ∧ count n ≤ blockLen := by
  have := Nat.mod_lt n (show 0 < blockLen by decide)
  unfold count
  omega

theorem length_pad (data : Bytes) : (pad data).length = 16 * (data.length / 16 + 1) := by
  simp only [pad, count, blockLen, List.length_append, List.length_replicate]
  omega

/-- What was put on comes off. -/
theorem unpad?_pad (data : Bytes) : unpad? (pad data) = .ok data := by
  obtain ⟨hpos, hle⟩ := count_bounds data.length
  have hlast : (UInt8.ofNat (count data.length)).toNat = count data.length := by
    rw [UInt8.toNat_ofNat', Nat.mod_eq_of_lt]
    exact Nat.lt_of_le_of_lt hle (by decide)
  have hget : (pad data).getLast? = some (UInt8.ofNat (count data.length)) := by
    rw [pad, List.getLast?_append, List.getLast?_replicate, if_neg (by omega)]
    rfl
  have hlen : (pad data).length % blockLen = 0 := by
    rw [length_pad, blockLen, Nat.mul_mod_right]
  have hbody : (pad data).length - count data.length = data.length := by
    rw [pad, List.length_append, List.length_replicate, Nat.add_sub_cancel]
  rw [unpad?, hget]
  simp only [hlen, hlast, hbody]
  rw [if_neg (by simp), if_neg (by omega), pad, List.drop_left' rfl, List.take_left' rfl,
    if_pos (by simp)]

end Padding

namespace AesKeyWrap

theorem functional_keyWrap {σ : Type} (w : AesKeyWrap) (random : RandomSource σ) :
    (w.keyWrap random).Functional := by
  intro wrapped s t
  simp only [keyWrap, run_check]
  cases w.unwrap wrapped <;> rfl

theorem length_tag (master : Key32) (message : Bytes) :
    ((ofMaster master).mac.tag message).length = tagLen := rfl

/-- Wrapping under the IV of a block, block by block. -/
theorem wrapUnder_of_blocks (w : AesKeyWrap) {iv : Vector UInt8 16} {previous : Block}
    {plain : Bytes} {blocks : List Block} (hiv : iv.toList = previous.toBytes)
    (hpad : blocks.flatMap Block.toBytes = Padding.pad plain) :
    w.wrapUnder iv plain =
      let body := previous.toBytes ++
        (Chaining.encrypt (Aes.encrypt w.schedule) previous blocks).flatMap Block.toBytes
      body ++ w.mac.tag body := by
  have hprevious : (Block.ofBytes previous.toBytes).headD .zero = previous := by
    rw [← List.append_nil previous.toBytes, Block.ofBytes_toBytes_append, List.headD_cons]
  simp only [wrapUnder, hiv, hprevious, ← hpad, Block.ofBytes_flatMap_toBytes]

/-- The body of a wrapped secret: the IV and the chained blocks of the padded secret. -/
theorem wrapUnder_eq (w : AesKeyWrap) (iv : Vector UInt8 16) (plain : Bytes) :
    ∃ (previous : Block) (blocks : List Block), previous.toBytes = iv.toList ∧
      blocks.flatMap Block.toBytes = Padding.pad plain ∧
      blocks.length = plain.length / 16 + 1 ∧
      w.wrapUnder iv plain =
        let body := previous.toBytes ++
          (Chaining.encrypt (Aes.encrypt w.schedule) previous blocks).flatMap Block.toBytes
        body ++ w.mac.tag body := by
  obtain ⟨ivBlocks, hn, hiv⟩ := Block.exists_blocks (show iv.toList.length = 16 * 1 by simp)
  obtain ⟨blocks, hlen, hpad⟩ := Block.exists_blocks (Padding.length_pad plain)
  match ivBlocks, hn with
  | [previous], _ =>
    have hiv' : iv.toList = previous.toBytes := by
      rw [hiv, List.flatMap_cons, List.flatMap_nil, List.append_nil]
    exact ⟨previous, blocks, hiv'.symm, hpad.symm, hlen, w.wrapUnder_of_blocks hiv' hpad.symm⟩

/-- **What was wrapped is taken back.** -/
theorem unwrap_wrapUnder {w : AesKeyWrap} (ht : ∀ message, (w.mac.tag message).length = tagLen)
    (iv : Vector UInt8 16) (plain : Bytes) : w.unwrap (w.wrapUnder iv plain) = .ok plain := by
  obtain ⟨previous, blocks, -, hpad, hlen, hw⟩ := w.wrapUnder_eq iv plain
  rw [hw]
  generalize hc : Chaining.encrypt (Aes.encrypt w.schedule) previous blocks = chained
  generalize hb : previous.toBytes ++ chained.flatMap Block.toBytes = body
  have hbody : body.length = 16 * (plain.length / 16 + 1) + 16 := by
    rw [← hb, List.length_append, Block.length_flatMap_toBytes, ← hc, Chaining.length_encrypt, hlen,
      Block.length_toBytes]
    omega
  have hcut : (body ++ w.mac.tag body).length - tagLen = body.length := by
    rw [List.length_append, ht, Nat.add_sub_cancel]
  have hok : lengthOk (body ++ w.mac.tag body).length = true := by
    rw [lengthOk, hcut, List.length_append, ht, hbody, Bool.and_eq_true, beq_iff_eq,
      decide_eq_true_iff]
    unfold blockLen tagLen
    omega
  simp only [unwrap, hok, hcut, List.take_left' rfl, List.drop_left' rfl]
  rw [if_neg (by simp), if_neg (by simp), ← hb, blockLen, List.drop_left' (by simp),
    Block.ofBytes_toBytes_append, Block.ofBytes_flatMap_toBytes, ← hc, List.headD_cons,
    Chaining.decrypt_encrypt (Aes.decrypt_encrypt w.schedule), hpad, Padding.unpad?_pad]

theorem length_wrapUnder {w : AesKeyWrap} (ht : ∀ message, (w.mac.tag message).length = tagLen)
    (iv : Vector UInt8 16) (plain : Bytes) :
    (w.wrapUnder iv plain).length = 16 * (plain.length / 16 + 1) + 48 := by
  obtain ⟨previous, blocks, -, -, hlen, hw⟩ := w.wrapUnder_eq iv plain
  rw [hw]
  simp only [List.length_append, ht, Block.length_flatMap_toBytes, Chaining.length_encrypt, hlen,
    Block.length_toBytes, tagLen]
  omega

end AesKeyWrap

end SealedStream
