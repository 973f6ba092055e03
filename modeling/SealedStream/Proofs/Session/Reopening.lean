import SealedStream.Proofs.Session.Sealing
import SealedStream.Scripted.World

/-!
# Sealed headers, read back

Whoever seals a header writes it as it is; whoever reads it takes no wrapped secret of more than
`maxWrappedLen` bytes. A key wrap that makes more of a secret therefore seals streams that nobody
opens: `KeyMaterial.reopens_iff` says which headers come back, for any family and any key wrap that
takes back what it wrapped.
-/

namespace SealedStream

variable {σ γ : Type}

/-- A written header with a secret beyond the limit is refused for its length, if the length fits
its field. -/
theorem Header.decode_encode_tooLong {expected : Option UInt32} {h : Header}
    (hv : checkVersion expected h.version = .ok ()) (hiv : h.wrappedIv.length < UInt32.size)
    (hkey : h.wrappedKey.length < UInt32.size)
    (hlong : ¬ (h.wrappedIv.length ≤ maxWrappedLen ∧ h.wrappedKey.length ≤ maxWrappedLen)) :
    ∃ field n, decode h.encode expected = .error (.header (.wrappedTooLong field n)) := by
  have hi : (UInt32.ofNat h.wrappedIv.length).toNat = h.wrappedIv.length :=
    UInt32.toNat_ofNat_of_lt' hiv
  have hk : (UInt32.ofNat h.wrappedKey.length).toNat = h.wrappedKey.length :=
    UInt32.toNat_ofNat_of_lt' hkey
  have hd := decode_encode hv []
  rw [List.append_nil] at hd
  rw [hd]
  unfold decodeRest checkLength
  by_cases hl : maxWrappedLen < h.wrappedIv.length
  · rw [if_pos (hi.symm ▸ hl)]
    exact ⟨_, _, rfl⟩
  · have hl' : maxWrappedLen < h.wrappedKey.length := by omega
    rw [if_neg (hi.symm ▸ hl), if_pos (hk.symm ▸ hl')]
    exact ⟨_, _, rfl⟩

namespace KeyMaterial

/-- The header `h`, as it is written, is read whole by whoever expects its version, and what is read
opens to `m`, in whatever world. -/
def Reopens (h : Header) (wrap : KeyWrap σ) (F : CipherFamily σ γ) (version : UInt32)
    (m : KeyMaterial) : Prop :=
  ∃ h', Header.decode h.encode (some version) = .ok (.complete h' h.encode.length) ∧
    ∀ v, outcome (openHeader h' wrap F v) = .ok m

/-- **What is sealed can be opened again just if both wrapped secrets are within the limit.** -/
theorem reopens_iff {F : CipherFamily σ γ} {wrap : KeyWrap σ} (hw : wrap.TakesBack)
    {m : KeyMaterial} (hiv : m.iv.length = F.ivLen) (hkey : m.key.length = F.keyLen)
    {version : UInt32} {h : Header} {w w' : σ} (hs : m.sealHeader wrap version w = .ok h w') :
    Reopens h wrap F version m ↔
      h.wrappedIv.length ≤ maxWrappedLen ∧ h.wrappedKey.length ≤ maxWrappedLen := by
  constructor
  · rintro ⟨h', hd, -⟩
    obtain ⟨-, ha⟩ := Header.decode_encode_whole hd
    exact ⟨ha.iv, ha.key⟩
  · rintro ⟨hi, hk⟩
    obtain ⟨hversion, -⟩ := sealHeader_eq_ok hs
    have ha : h.Admitted (some version) := by
      refine ⟨?_, hi, hk⟩
      intro v hv
      cases hv
      exact hversion
    have hd := Header.decode_encode_append ha []
    rw [List.append_nil] at hd
    exact ⟨h, hd, openHeader_of_sealHeader hw hiv hkey hs⟩

/-! ## A secret beyond the limit -/

/-- A key wrap that changes nothing. -/
def plainWrap : KeyWrap σ := ⟨pure, pure⟩

theorem takesBack_plainWrap : (plainWrap : KeyWrap σ).TakesBack := by
  intro plain wrapped w w' h v
  cases h
  rfl

/-- Four bytes of IV and a key of `n` bytes. -/
def longKey (n : Nat) : KeyMaterial := ⟨List.replicate 4 1, List.replicate n 2⟩

theorem sealHeader_plainWrap (m : KeyMaterial) (version : UInt32) (w : σ) :
    m.sealHeader plainWrap version w = .ok ⟨version, m.iv, m.key⟩ w := rfl

/-- The longest key that comes back. -/
theorem reopens_longKey :
    (longKey maxWrappedLen).key.length = (Scripted.holdFamily 0 1 7 maxWrappedLen 4 []).keyLen ∧
      Reopens ⟨7, (longKey maxWrappedLen).iv, (longKey maxWrappedLen).key⟩ plainWrap
        (Scripted.holdFamily 0 1 7 maxWrappedLen 4 []) 7 (longKey maxWrappedLen) :=
  have hkey : (longKey maxWrappedLen).key.length = maxWrappedLen := List.length_replicate
  ⟨hkey, (reopens_iff takesBack_plainWrap List.length_replicate hkey
    (sealHeader_plainWrap _ 7 ({} : Scripted.World))).mpr
      ⟨by rw [show (longKey maxWrappedLen).iv.length = 4 from List.length_replicate]; decide,
        Nat.le_of_eq hkey⟩⟩

/-- One byte more, and what was sealed is refused. -/
theorem not_reopens_longKey :
    (longKey 16385).sealHeader plainWrap 7 ({} : Scripted.World) =
        .ok ⟨7, (longKey 16385).iv, (longKey 16385).key⟩ {} ∧
      (longKey 16385).key.length = (Scripted.holdFamily 0 1 7 16385 4 []).keyLen ∧
      (longKey 16385).iv.length = (Scripted.holdFamily 0 1 7 16385 4 []).ivLen ∧
      ¬ Reopens ⟨7, (longKey 16385).iv, (longKey 16385).key⟩ plainWrap
        (Scripted.holdFamily 0 1 7 16385 4 []) 7 (longKey 16385) := by
  have hkey : (longKey 16385).key.length = 16385 := List.length_replicate
  refine ⟨rfl, hkey, List.length_replicate, ?_⟩
  rintro ⟨h', hd, -⟩
  obtain ⟨-, ha⟩ := Header.decode_encode_whole hd
  have hle : (longKey 16385).key.length ≤ maxWrappedLen := ha.key
  rw [hkey] at hle
  exact absurd hle (by decide)

end KeyMaterial

end SealedStream
