import SealedStream.Block.Aes

/-!
# AES decryption and encryption undo each other

Each step of a round is undone by the step beside it: the substitution by its inverse table, checked
on all bytes; the rotation by rotating back; the mixing because doubling is linear and four mixings
cancel. Main statements: `decrypt_encrypt` and `encrypt_decrypt`, for every schedule.
-/

namespace SealedStream.Aes

/-! ## Substitution -/

/-- A law of bytes that holds of all 256. -/
theorem forall_byte {p : UInt8 → Prop} (h : ∀ i : Fin 256, p (UInt8.ofNat i.val)) (b : UInt8) :
    p b := by
  have := h ⟨b.toNat, b.toNat_lt⟩
  rwa [UInt8.ofNat_toNat] at this

theorem subByteInv_subByte : ∀ b, subByteInv (subByte b) = b := forall_byte (by decide +kernel)

theorem subByte_subByteInv : ∀ b, subByte (subByteInv b) = b := forall_byte (by decide +kernel)

theorem subBytesInv_subBytes (s : Block) : subBytesInv (subBytes s) = s := by
  simp only [subBytesInv, subBytes, Quad.map, subByteInv_subByte]

theorem subBytes_subBytesInv (s : Block) : subBytes (subBytesInv s) = s := by
  simp only [subBytesInv, subBytes, Quad.map, subByte_subByteInv]

theorem shiftRowsInv_shiftRows (s : Block) : shiftRowsInv (shiftRows s) = s := rfl

theorem shiftRows_shiftRowsInv (s : Block) : shiftRows (shiftRowsInv s) = s := rfl

/-! ## Mixing -/

theorem high_bit : ∀ b : UInt8, b &&& 0x80 = 0 ∨ b &&& 0x80 = 0x80 :=
  forall_byte (by decide +kernel)

/-- Doubling is linear. -/
theorem double_xor (a b : UInt8) : double (a ^^^ b) = double a ^^^ double b := by
  have e : (a ^^^ b) &&& 0x80 = (a &&& 0x80) ^^^ (b &&& 0x80) := by
    apply UInt8.toBitVec_inj.mp
    apply BitVec.eq_of_getLsbD_eq
    intro i _
    simp only [UInt8.toBitVec_and, UInt8.toBitVec_xor, BitVec.getLsbD_and, BitVec.getLsbD_xor]
    exact Bool.and_xor_distrib_right ..
  have cancel (x y z : UInt8) : x ^^^ z ^^^ (y ^^^ z) = x ^^^ y := by
    rw [show x ^^^ z ^^^ (y ^^^ z) = x ^^^ y ^^^ (z ^^^ z) by ac_rfl, UInt8.xor_self,
      UInt8.xor_zero]
  simp only [double, e, UInt8.shiftLeft_xor]
  rcases high_bit a with ha | ha <;> rcases high_bit b with hb | hb <;>
    simp only [ha, hb, UInt8.xor_self, UInt8.xor_zero, UInt8.zero_xor, if_true,
      show ¬ (0x80 : UInt8) = 0 by decide, if_false]
  · ac_rfl
  · ac_rfl
  · rw [cancel]

theorem xor_xor_left (a b : UInt8) : a ^^^ (a ^^^ b) = b := by
  rw [← UInt8.xor_assoc, UInt8.xor_self, UInt8.zero_xor]

theorem xor_left_comm (a b c : UInt8) : a ^^^ (b ^^^ c) = b ^^^ (a ^^^ c) := by ac_rfl

theorem mixColumn_mixColumn (c : Word) : mixColumn (mixColumn c) = mixTwice c := by
  obtain ⟨a, b, c, d⟩ := c
  simp only [mixTwice, mixColumn, triple, double_xor, Quad.mk.injEq]
  refine ⟨?_, ?_, ?_, ?_⟩ <;>
    simp only [UInt8.xor_assoc, UInt8.xor_comm, xor_left_comm, UInt8.xor_self, xor_xor_left,
      UInt8.zero_xor]

theorem mixTwice_mixTwice (c : Word) : mixTwice (mixTwice c) = c := by
  obtain ⟨a, b, c, d⟩ := c
  simp only [mixTwice, double_xor, Quad.mk.injEq]
  refine ⟨?_, ?_, ?_, ?_⟩ <;>
    simp only [UInt8.xor_assoc, UInt8.xor_comm, xor_left_comm, UInt8.xor_self, UInt8.xor_zero]

theorem unmixColumn_mixColumn (c : Word) : unmixColumn (mixColumn c) = c := by
  rw [unmixColumn, ← mixColumn_mixColumn (mixColumn c), mixColumn_mixColumn, mixColumn_mixColumn,
    mixTwice_mixTwice]

theorem mixColumn_unmixColumn (c : Word) : mixColumn (unmixColumn c) = c := by
  rw [unmixColumn, mixColumn_mixColumn, mixTwice_mixTwice]

/-! ## Rounds -/

theorem unround_round (s key : Block) : unround (round s key) key = s := by
  simp only [unround, round, Block.xor_xor, Quad.map, unmixColumn_mixColumn]
  exact subBytesInv_subBytes s

theorem round_unround (s key : Block) : round (unround s key) key = s := by
  simp only [round, unround, subBytes_subBytesInv, shiftRows_shiftRowsInv, Quad.map,
    mixColumn_unmixColumn]
  exact Block.xor_xor s key

theorem foldr_unround_foldl_round (keys : List Block) (s : Block) :
    keys.foldr (fun key s => unround s key) (keys.foldl round s) = s := by
  induction keys generalizing s with
  | nil => rfl
  | cons key keys ih => rw [List.foldl_cons, List.foldr_cons, ih, unround_round]

theorem foldl_round_foldr_unround (keys : List Block) (s : Block) :
    keys.foldl round (keys.foldr (fun key s => unround s key) s) = s := by
  induction keys generalizing s with
  | nil => rfl
  | cons key keys ih => rw [List.foldr_cons, List.foldl_cons, round_unround, ih]

theorem decrypt_encrypt (k : Schedule) (b : Block) : decrypt k (encrypt k b) = b := by
  rw [decrypt, encrypt, Block.xor_xor, shiftRowsInv_shiftRows, subBytesInv_subBytes,
    foldr_unround_foldl_round, Block.xor_xor]

theorem encrypt_decrypt (k : Schedule) (b : Block) : encrypt k (decrypt k b) = b := by
  rw [encrypt, decrypt, Block.xor_xor, foldl_round_foldr_unround, subBytes_subBytesInv,
    shiftRows_shiftRowsInv, Block.xor_xor]

end SealedStream.Aes
