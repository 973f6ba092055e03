import SealedStream.Proofs.Session.Dispatch
import SealedStream.Proofs.Session.Embedding

/-!
# Encrypting sessions

An encrypting session gives out a header once and adds the keystream that the header stands for from
then on (`Encodes`). A session of a bundled family does so over a key wrap that takes back what it
wrapped (`FamilySession.encodes`), with a header that opens to the very keystream (`Seals`), and a
dispatcher does so behind the id of the session that it starts (`Dispatcher.encodes`).
-/

namespace SealedStream

variable {σ κ μ : Type}

/-- An encrypting session, at its beginning in the state `k₀`: it starts with one of the `Heads` or
stays as it was, and is `Running` from then on. -/
structure Encodes [Session κ σ] (k₀ : κ) (Heads : Bytes → CounterStream → Prop)
    (Running : CounterStream → κ → Prop) : Prop where
  mode : Session.mode k₀ = .encrypt
  start : ∀ w : σ, (∃ e w', Session.start (k₀, w) = .error e (k₀, w')) ∨
    ∃ head c k w', Session.start (k₀, w) = .ok head (k, w') ∧ Heads head c ∧ Running c k
  update : ∀ {c k}, Running c k → ∀ (input : Bytes) (w : σ), ∃ k' w',
    Session.update input (k, w) = .ok (c.apply input).1 (k', w') ∧ Running (c.apply input).2 k'
  finalize : ∀ {c k}, Running c k → ∀ w : σ, ∃ k' w', Session.finalize (k, w) = .ok [] (k', w')

theorem Encodes.mono [Session κ σ] {k₀ : κ} {Heads Heads' : Bytes → CounterStream → Prop}
    {Running : CounterStream → κ → Prop} (h : Encodes k₀ Heads Running)
    (hh : ∀ {head c}, Heads head c → Heads' head c) : Encodes k₀ Heads' Running where
  mode := h.mode
  start := by
    intro w
    rcases h.start w with herror | ⟨head, c, k, w', hs, hhead, hr⟩
    · exact .inl herror
    · exact .inr ⟨head, c, k, w', hs, hh hhead, hr⟩
  update := h.update
  finalize := h.finalize

/-- What a session encodes, it encodes among others. -/
theorem Session.Embeds.encodes [Session κ σ] [Session μ σ] {ι : κ → μ} (hι : Session.Embeds ι)
    {k₀ : κ} {Heads : Bytes → CounterStream → Prop} {Running : CounterStream → κ → Prop}
    (h : Encodes k₀ Heads Running) :
    Encodes (ι k₀) Heads fun c m => ∃ k, Running c k ∧ m = ι k where
  mode := by rw [hι.mode, h.mode]
  start := by
    intro w
    rw [hι.start]
    rcases h.start w with ⟨e, w', hs⟩ | ⟨head, c, k, w', hs, hh, hr⟩
    · rw [hs]
      exact .inl ⟨e, w', rfl⟩
    · rw [hs]
      exact .inr ⟨head, c, ι k, w', rfl, hh, k, hr, rfl⟩
  update := by
    rintro c _ ⟨k, hr, rfl⟩ input w
    obtain ⟨k', w', hu, hr'⟩ := h.update hr input w
    exact ⟨ι k', w', by rw [hι.update, hu]; rfl, k', hr', rfl⟩
  finalize := by
    rintro c _ ⟨k, hr, rfl⟩ w
    obtain ⟨k', w', hf⟩ := h.finalize hr w
    exact ⟨ι k', w', by rw [hι.finalize, hf]; rfl⟩

/-! ## Fresh key material -/

/-- The key wrap takes back what it wrapped, in whatever world. -/
def KeyWrap.TakesBack (wrap : KeyWrap σ) : Prop :=
  ∀ (plain wrapped : Bytes) (w w' : σ), wrap.wrap plain w = .ok wrapped w' →
    ∀ v : σ, outcome (wrap.unwrap wrapped v) = .ok plain

/-- The key wrap takes back what it wrapped, in whatever world, and wraps no secret of a header into
more than a header may hold. -/
structure KeyWrap.Faithful (wrap : KeyWrap σ) : Prop where
  unwrap : ∀ {plain wrapped : Bytes} {w w' : σ}, wrap.wrap plain w = .ok wrapped w' →
    ∀ v : σ, outcome (wrap.unwrap wrapped v) = .ok plain
  length : ∀ {plain wrapped : Bytes} {w w' : σ}, wrap.wrap plain w = .ok wrapped w' →
    plain.length ≤ 32 → wrapped.length ≤ maxWrappedLen

theorem KeyWrap.Faithful.takesBack {wrap : KeyWrap σ} (hw : wrap.Faithful) : wrap.TakesBack :=
  fun _ _ _ _ h => hw.unwrap h

/-- The bundled key wrap is faithful, under any master key and whatever its random source gives. -/
theorem AesKeyWrap.faithful_keyWrap (master : Key32) (random : RandomSource σ) :
    ((ofMaster master).keyWrap random).Faithful where
  unwrap := by
    intro plain wrapped w w' h v
    obtain ⟨iv, w₁, -, hwrapped⟩ := exists_of_bind_eq_ok h
    cases hwrapped
    simp only [keyWrap, run_check, unwrap_wrapUnder (length_tag master)]
    rfl
  length := by
    intro plain wrapped w w' h hlen
    obtain ⟨iv, w₁, -, hwrapped⟩ := exists_of_bind_eq_ok h
    cases hwrapped
    rw [length_wrapUnder (length_tag master), maxWrappedLen]
    omega

theorem length_clearCounter (iv : Bytes) : (clearCounter iv).length = iv.length := by
  unfold clearCounter
  split
  · simp
    omega
  · rfl

/-- No bundled family asks for more than 32 bytes. -/
theorem BundledFamily.lengths_le (f : BundledFamily) (σ : Type) :
    (f.family : CipherFamily σ CounterStream).ivLen ≤ 32 ∧
      (f.family : CipherFamily σ CounterStream).keyLen ≤ 32 := by
  cases f with
  | aes => exact ⟨show 16 ≤ 32 by decide, show 32 ≤ 32 by decide⟩
  | sm4 => exact ⟨show 16 ≤ 32 by decide, show 16 ≤ 32 by decide⟩

namespace KeyMaterial

/-- A key that was drawn has the length asked for, whichever draw it was. -/
theorem length_drawKey {random : RandomSource σ} {len : Nat} {rejectZero : Bool} :
    ∀ {n : Nat} {w w' : σ} {key : Bytes},
      drawKey random len rejectZero n w = .ok key w' → key.length = len
  | 0, w, w', key, h => by cases h
  | n + 1, w, w', key, h => by
    obtain ⟨drawn, w₁, -, hdrawn⟩ := exists_of_bind_eq_ok h
    rw [run_ite] at hdrawn
    split at hdrawn
    · exact length_drawKey hdrawn
    · cases hdrawn
      simp

theorem length_defaultIv {n : Nat} {random : RandomSource σ} {w w' : σ} {iv : Bytes}
    (h : defaultIv n random w = .ok iv w') : iv.length = n := by
  obtain ⟨drawn, w₁, -, hdrawn⟩ := exists_of_bind_eq_ok h
  cases hdrawn
  rw [length_clearCounter]
  simp

theorem length_generateIv {f : BundledFamily} {random : RandomSource σ} {w w' : σ} {iv : Bytes}
    (h : (f.family : CipherFamily σ CounterStream).generateIv random w = .ok iv w') :
    iv.length = (f.family : CipherFamily σ CounterStream).ivLen := by
  cases f with
  | aes => exact length_defaultIv h
  | sm4 => exact length_defaultIv h

/-- Drawn key material has the lengths that its family asks for. -/
theorem length_generate {f : BundledFamily} {random : RandomSource σ} {rejectZero : Bool} {w w' : σ}
    {m : KeyMaterial}
    (h : generate (f.family : CipherFamily σ CounterStream) random rejectZero w = .ok m w') :
    m.iv.length = (f.family : CipherFamily σ CounterStream).ivLen ∧
      m.key.length = (f.family : CipherFamily σ CounterStream).keyLen := by
  obtain ⟨iv, w₁, hiv, h⟩ := exists_of_bind_eq_ok h
  obtain ⟨key, w₂, hkey, h⟩ := exists_of_bind_eq_ok h
  cases h
  exact ⟨length_generateIv hiv, length_drawKey hkey⟩

/-- Sealing wraps the IV, then the key. -/
theorem sealHeader_eq_ok {wrap : KeyWrap σ} {m : KeyMaterial} {version : UInt32} {h : Header}
    {w w' : σ} (hs : m.sealHeader wrap version w = .ok h w') :
    h.version = version ∧
      ∃ w₁, wrap.wrap m.iv w = .ok h.wrappedIv w₁ ∧ wrap.wrap m.key w₁ = .ok h.wrappedKey w' := by
  obtain ⟨wrappedIv, w₁, hi, hs⟩ := exists_of_bind_eq_ok hs
  obtain ⟨wrappedKey, w₂, hk, hs⟩ := exists_of_bind_eq_ok hs
  cases hs
  exact ⟨rfl, w₁, hi, hk⟩

/-- A header that was sealed opens to the material that was sealed, in any family that takes it. -/
theorem openHeader_of_sealHeader {γ : Type} {F : CipherFamily σ γ} {wrap : KeyWrap σ}
    (hw : wrap.TakesBack) {m : KeyMaterial} (hiv : m.iv.length = F.ivLen)
    (hkey : m.key.length = F.keyLen) {version : UInt32} {h : Header} {w w' : σ}
    (hs : m.sealHeader wrap version w = .ok h w') (v : σ) :
    outcome (openHeader h wrap F v) = .ok m := by
  obtain ⟨-, w₁, hi, hk⟩ := sealHeader_eq_ok hs
  obtain ⟨v₁, hv₁⟩ := outcome_eq_ok.mp (hw _ _ _ _ hi v)
  obtain ⟨v₂, hv₂⟩ := outcome_eq_ok.mp (hw _ _ _ _ hk v₁)
  simp only [openHeader_eq, run_bind, run_ite, hv₁, hv₂, run_pure]
  rw [if_neg (fun hne => hne hiv), if_neg (fun hne => hne hkey)]
  rfl

/-- A header that was sealed opens to the material that was sealed, and can be written. -/
theorem open_sealHeader {f : BundledFamily} {wrap : KeyWrap σ} (hw : wrap.Faithful)
    {m : KeyMaterial} (hiv : m.iv.length = (f.family : CipherFamily σ CounterStream).ivLen)
    (hkey : m.key.length = (f.family : CipherFamily σ CounterStream).keyLen) {version : UInt32}
    {h : Header} {w w' : σ} (hs : m.sealHeader wrap version w = .ok h w') :
    h.version = version ∧ h.Admitted none ∧
      ∀ v, outcome (openHeader h wrap (f.family : CipherFamily σ CounterStream) v) = .ok m := by
  obtain ⟨hversion, w₁, hi, hk⟩ := sealHeader_eq_ok hs
  obtain ⟨hivLen, hkeyLen⟩ := f.lengths_le σ
  rw [← hiv] at hivLen
  rw [← hkey] at hkeyLen
  exact ⟨hversion, ⟨by simp, hw.length hi hivLen, hw.length hk hkeyLen⟩,
    openHeader_of_sealHeader hw.takesBack hiv hkey hs⟩

end KeyMaterial

/-! ## Sessions of one family -/

namespace FamilySession

/-- The head of a stream that a session of the family `f` begins: a header that a session with these
options admits, and that opens to the key and the IV of the keystream `c`. -/
def Seals (f : BundledFamily) (s : FamilySession σ CounterStream) (head : Bytes)
    (c : CounterStream) : Prop :=
  ∃ (h : Header) (m : KeyMaterial), head = h.encode ∧ h.Admitted s.expectedVersion ∧
    (∀ v, outcome (KeyMaterial.openHeader h s.wrap s.family v) = .ok m) ∧ c = f.stream m.key m.iv

variable {f : BundledFamily} {s : FamilySession σ CounterStream}

theorem sealNew_eq_ok (hf : s.family = f.family) (hw : s.wrap.Faithful) {c : CounterStream}
    {h : Header} {w w' : σ} (hs : sealNew s w = .ok (c, h) w') : s.Seals f h.encode c := by
  obtain ⟨m, w₁, hg, hs⟩ := exists_of_bind_eq_ok hs
  rw [hf] at hs hg
  obtain ⟨hiv, hkey⟩ := KeyMaterial.length_generate hg
  rw [BundledFamily.newCipher_eq f hkey hiv, pure_bind] at hs
  obtain ⟨h', w₂, hh, hs⟩ := exists_of_bind_eq_ok hs
  cases hs
  obtain ⟨hversion, hadm, hopen⟩ := KeyMaterial.open_sealHeader hw hiv hkey hh
  refine ⟨h, m, rfl, ⟨?_, hadm.iv, hadm.key⟩, hf ▸ hopen, rfl⟩
  intro v hv
  unfold expectedVersion at hv
  split at hv
  · cases hv
    exact hversion
  · cases hv

theorem start_encrypt {γ : Type} {s : FamilySession σ γ} (hm : s.mode = .encrypt) {b : Bytes}
    (hp : s.phase = .awaiting b) (w : σ) : start (s, w) = match sealNew s w with
      | .ok p w' => .ok p.2.encode ({ s with phase := .ready p.1 }, w')
      | .error e w' => .error e (s, w') := by
  simp only [start, run_bind, run_get, hm, hp, run_onWorld]
  cases sealNew s w <;> simp [hm, setPhase, run_modify, run_pure]

/-- An encrypting session of the family gives out a header that it seals, and adds the keystream that
it makes with it. -/
theorem encodes_sealNew (hm : s.mode = .encrypt) (hp : s.phase = .awaiting []) :
    Encodes s (fun head c => ∃ h w w', sealNew s w = .ok (c, h) w' ∧ head = h.encode)
      fun c k => k = { s with phase := .ready c } where
  mode := hm
  start := by
    intro w
    have hstart := start_encrypt hm hp w
    cases hs : sealNew s w with
    | error e w' =>
      rw [hs] at hstart
      exact .inl ⟨e, w', hstart⟩
    | ok p w' =>
      rw [hs] at hstart
      exact .inr ⟨_, p.1, _, w', hstart, ⟨p.2, w, w', hs, rfl⟩, rfl⟩
  update := by
    rintro c _ rfl input w
    exact ⟨_, w, update_stream rfl w, rfl⟩
  finalize := by
    rintro c _ rfl w
    exact ⟨_, w, finalize_ready rfl⟩

/-- **An encrypting session of a bundled family seals a header and adds its keystream.** -/
theorem encodes (hm : s.mode = .encrypt) (hp : s.phase = .awaiting []) (hf : s.family = f.family)
    (hw : s.wrap.Faithful) :
    Encodes s (Seals f s) fun c k => k = { s with phase := .ready c } := by
  refine (encodes_sealNew hm hp).mono ?_
  rintro _ c ⟨h, w, w', hs, rfl⟩
  exact sealNew_eq_ok hf hw hs

end FamilySession

/-! ## Sessions behind an id -/

namespace Dispatcher

variable [Session κ σ] {d : Dispatcher σ κ} {id : UInt32} {k : κ}

theorem start_beginEncrypt {b : Bytes} (hm : d.context.mode = .encrypt)
    (hp : d.phase = .selecting b) (w : σ) : start (d, w) = beginEncrypt (d, w) := by
  simp only [start, run_bind, run_get, hm, hp]

theorem beginEncrypt_known (hs : d.select d.encryptType none = .ok (id, k)) (w : σ) :
    beginEncrypt (d, w) = match (Session.start : Step (κ × σ) Bytes) (k, w) with
      | .ok head t => .ok (Bytes.be32 id ++ head) ({ d with phase := .selected id t.1 }, t.2)
      | .error e t => .error e (d, t.2) := by
  simp only [beginEncrypt, run_bind, run_get, run_check, hs, run_onWorld, run_runOn, setPhase,
    run_modify, run_pure]
  cases (Session.start : Step (κ × σ) Bytes) (k, w) <;> rfl

/-- **An encrypting dispatcher puts the id in front of what the session for it encodes.** -/
theorem encodes {b : Bytes} (hm : d.context.mode = .encrypt) (hp : d.phase = .selecting b)
    (hs : d.select d.encryptType none = .ok (id, k)) {Heads : Bytes → CounterStream → Prop}
    {Running : CounterStream → κ → Prop} (h : Encodes k Heads Running) :
    Encodes d (fun head c => ∃ rest, Heads rest c ∧ head = Bytes.be32 id ++ rest)
      fun c m => ∃ k', Running c k' ∧ m = { d with phase := .selected id k' } where
  mode := hm
  start := by
    intro w
    have hstart := (start_beginEncrypt hm hp w).trans (beginEncrypt_known hs w)
    rcases h.start w with ⟨e, w', hk⟩ | ⟨head, c, k', w', hk, hh, hr⟩
    · rw [hk] at hstart
      exact .inl ⟨e, w', hstart⟩
    · rw [hk] at hstart
      exact .inr ⟨_, c, _, w', hstart, ⟨head, hh, rfl⟩, k', hr, rfl⟩
  update := by
    rintro c _ ⟨k', hr, rfl⟩ input w
    obtain ⟨k'', w', hu, hr'⟩ := h.update hr input w
    refine ⟨{ d with phase := .selected id k'' }, w', (update_selected rfl).trans ?_, k'', hr', rfl⟩
    rw [hu]
  finalize := by
    rintro c _ ⟨k', hr, rfl⟩ w
    obtain ⟨k'', w', hf⟩ := h.finalize hr w
    refine ⟨{ d with phase := .selected id k'' }, w', (finalize_selected rfl).trans ?_⟩
    rw [hf]

end Dispatcher

end SealedStream
