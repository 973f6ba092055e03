import SealedStream.Proofs.Session.Chunking
import SealedStream.Proofs.Stream.Decrypt
import SealedStream.Proofs.Stream.Encrypt

/-!
# There and back

What a builder's encrypting session makes of a plaintext, the decrypting session of the same builder
call takes back (`roundTrips_of_builder`). The two meet in the head of the stream: `Seals` says which
keystream it opens to, and a keystream added twice cancels.
-/

namespace SealedStream

variable {σ κ μ ρ ς ρ' ς' : Type}

/-- Whatever the session `encrypting` encrypts, the session `decrypting` decrypts. If `encrypt`
succeeds, it counts the bytes of the plaintext and adds to the sink the bytes `id`, one whole header
and as many bytes as there were; and from a source of these, `decrypt` writes the plaintext. -/
def RoundTrips [Session κ σ] [Session μ σ] [Source σ ρ] [Sink σ ς] [Source σ ρ'] [Sink σ ς']
    (S : WorkingSource σ ρ) (K : WorkingSink σ ς) (S' : WorkingSource σ ρ') (K' : WorkingSink σ ς')
    (id : Bytes) (encrypting : κ) (decrypting : μ) : Prop :=
  ∀ (source : ρ) (s : ς) (env : Env σ) (fuel n : Nat) (t : (ρ × ς) × Env σ), S.works source →
    K.works s → encrypt fuel encrypting ((source, s), env) = .ok n t →
    n = (S.remaining source).length ∧ ∃ (h : Header) (body : Bytes), h.Admitted none ∧
      body.length = n ∧ K.content t.1.2 = K.content s ++ (id ++ h.encode ++ body) ∧
      ∀ (source' : ρ') (s' : ς') (env' : Env σ) (fuel' : Nat), S'.works source' →
        S'.remaining source' = id ++ h.encode ++ body → K'.works s' →
        (S'.remaining source').length < fuel' →
        Wrote K' s' (decrypt fuel' decrypting ((source', s'), env')) n (S.remaining source)

section

variable [Session κ σ] [Session μ σ] [Source σ ρ] [Sink σ ς] [Source σ ρ'] [Sink σ ς']
  (S : WorkingSource σ ρ) (K : WorkingSink σ ς) (S' : WorkingSource σ ρ') (K' : WorkingSink σ ς')

/-- Two sessions are inverse to each other if one decodes the heads that the other encodes, and to
the same keystream. -/
theorem RoundTrips.of_encodes {k₀ : κ} {k₁ : μ} {Heads : Bytes → CounterStream → Prop}
    {Running : CounterStream → κ → Prop} {id : Bytes} (hE : Encodes k₀ Heads Running)
    (hD : ∀ {head c}, Heads head c → ∃ h : Header, h.Admitted none ∧ head = id ++ h.encode ∧
      ∀ (_ : σ) (body : Bytes), ∃ D At, Decodes D At (head ++ body) ∧ At [] k₁ ∧
        D (head ++ body) = .ready (c.apply body).1) :
    RoundTrips S K S' K' id k₀ k₁ := by
  intro source s env fuel n t hsource hs henc
  obtain ⟨hn, head, c, hhead, hcontent⟩ := encrypt_eq_ok hE hsource hs henc
  obtain ⟨h, hadm, rfl, hdec⟩ := hD hhead
  have hlen : (c.apply (S.remaining source)).1.length = n := by
    rw [CounterStream.length_apply, hn]
  refine ⟨hn, h, (c.apply (S.remaining source)).1, hadm, hlen, hcontent, ?_⟩
  intro source' s' env' fuel' hsource' hrem hs' hfuel
  obtain ⟨D, At, hdecodes, hk, hready⟩ := hdec env'.world (c.apply (S.remaining source)).1
  rw [CounterStream.apply_apply, ← hrem] at hready
  rw [← hrem] at hdecodes
  have hle : (S.remaining source).length < fuel' := by
    have := congrArg List.length hrem
    rw [List.length_append, hlen, hn] at this
    omega
  rw [hn]
  exact decrypt_of_ready K' hsource' hs' hdecodes hk hready hfuel hle env'

end

/-! ## Sealed heads open -/

namespace FamilySession

/-- A session with the same settings makes of a sealed head and what follows it the latter under the
keystream that was sealed. -/
theorem progress_of_seals {f : BundledFamily} {s s' : FamilySession σ CounterStream}
    (hwrap : s'.wrap = s.wrap) (hfamily : s'.family = s.family) (hoptions : s'.options = s.options)
    {head : Bytes} {c : CounterStream} (hs : s.Seals f head c) (w : σ) (body : Bytes) :
    s'.progress f w (head ++ body) = .ready (c.apply body).1 := by
  obtain ⟨h, m, rfl, hadm, hopen, rfl⟩ := hs
  have hversion : s'.expectedVersion = s.expectedVersion := by
    unfold expectedVersion
    rw [hoptions]
  have hdecode := Header.decode_encode_append hadm body
  rw [← hversion] at hdecode
  have ho : outcome (KeyMaterial.openHeader h s'.wrap s'.family w) = .ok m := by
    rw [hwrap, hfamily]
    exact hopen w
  rw [progress_of_opened hdecode ho, List.drop_left' rfl]

theorem admitted_of_seals {f : BundledFamily} {s : FamilySession σ CounterStream} {head : Bytes}
    {c : CounterStream} (hs : s.Seals f head c) :
    ∃ h : Header, h.Admitted none ∧ head = h.encode := by
  obtain ⟨h, m, rfl, hadm, -, -⟩ := hs
  exact ⟨h, ⟨by simp, hadm.iv, hadm.key⟩, rfl⟩

end FamilySession

namespace Dispatcher

/-- A decrypting dispatcher at its beginning leaves a stream to the session that is registered for the
id in front of it, and what that session computes it computes with all bytes four further on. -/
theorem decodes_behind [Session κ σ] {d : Dispatcher σ κ} {id : UInt32} {k : κ}
    {D : Bytes → Progress} {At : Bytes → κ → Prop} {rest : Bytes} (hm : d.context.mode = .decrypt)
    (hp : d.phase = .selecting []) (hs : d.select id d.defaultType = .ok (id, k))
    (hD : Decodes D At rest) (hk : At [] k) :
    ∃ D' At', Decodes D' At' (Bytes.be32 id ++ rest) ∧ At' [] d ∧
      D' (Bytes.be32 id ++ rest) = D rest := by
  have hid : Bytes.be32? (Bytes.be32 id ++ rest) = some id := Bytes.be32?_be32_append id rest
  have hdrop : (Bytes.be32 id ++ rest).drop idLen = rest := List.drop_left' rfl
  have hchosen : Chosen (fun _ _ => D) (fun _ _ => At) d (Bytes.be32 id ++ rest) := by
    intro requested id' k' hi hs'
    rw [hid, Option.some.injEq] at hi
    subst hi
    rw [hs] at hs'
    cases hs'
    rw [hdrop]
    exact ⟨hD, hk⟩
  refine ⟨_, _, decodes hm (fun _ _ => hD.grows) hchosen, ⟨⟨_, rfl⟩, .inl ⟨rfl, ?_⟩⟩, ?_⟩
  · rw [← hp]
  · rw [progress_of_known hid hs, hdrop]

end Dispatcher

/-! ## Sessions of a builder -/

section

variable [Source σ ρ] [Sink σ ς] [Source σ ρ'] [Sink σ ς']

/-- Over a key wrap that takes back what it wrapped and unwraps by a function of its input, the
sessions of a bundled family are inverse to each other. -/
theorem roundTrips_of_faithful (S : WorkingSource σ ρ) (K : WorkingSink σ ς)
    (S' : WorkingSource σ ρ') (K' : WorkingSink σ ς') {b : CipherBuilder σ}
    (hfaithful : b.wrap.Faithful) (hfunctional : b.wrap.Functional) (f : BundledFamily) :
    RoundTrips S K S' K' [] (b.familySession f.family .encrypt)
      (b.familySession f.family .decrypt) := by
  refine RoundTrips.of_encodes S K S' K'
    (FamilySession.encodes (f := f) rfl rfl rfl hfaithful) ?_
  intro head c hhead
  obtain ⟨h, hadm, rfl⟩ := FamilySession.admitted_of_seals hhead
  refine ⟨h, hadm, rfl, fun w body => ?_⟩
  have hopens := b.opens_familySession hfunctional f
  exact ⟨_, _, FamilySession.decodes hopens w _, FamilySession.after_nil hopens w,
    FamilySession.progress_of_seals rfl rfl rfl hhead w body⟩

/-- **What was encrypted is decrypted**, by the sessions that one builder makes for both directions:
over the bundled key wrap under any master key, whatever the random sources give, under any version
and policies, however the sources cut their bytes and the sinks take them. It holds of the sessions of
the bundled families, and of dispatchers that encrypt under an id to which their registry binds such a
session, whatever else it binds and whatever the default type is. -/
theorem roundTrips_of_builder (S : WorkingSource σ ρ) (K : WorkingSink σ ς)
    (S' : WorkingSource σ ρ') (K' : WorkingSink σ ς') (master : Key32)
    (wrapRandom : RandomSource σ) (b : CipherBuilder σ)
    (hb : b.wrap = (AesKeyWrap.ofMaster master).keyWrap wrapRandom) (f : BundledFamily) :
    RoundTrips S K S' K' [] (b.familySession f.family .encrypt) (b.familySession f.family .decrypt) ∧
    ∀ {κ : Type} [Session κ σ] (ι : FamilySession σ CounterStream → κ), Session.Embeds ι →
      ∀ (registry : Registry σ κ) (id : UInt32) (defaultType : Option UInt32),
        registry.get? id = some (fun c => ι (c.familySession f.family)) →
        RoundTrips S K S' K' (Bytes.be32 id) (b.dispatcher .encrypt registry id defaultType)
          (b.dispatcher .decrypt registry id defaultType) := by
  have hfaithful : b.wrap.Faithful := by
    rw [hb]
    exact AesKeyWrap.faithful_keyWrap master wrapRandom
  have hfunctional : b.wrap.Functional := by
    rw [hb]
    exact AesKeyWrap.functional_keyWrap _ wrapRandom
  constructor
  · exact roundTrips_of_faithful S K S' K' hfaithful hfunctional f
  · intro κ _ ι hι registry id defaultType hreg
    have hopens : ((b.context .decrypt).familySession (f.family : CipherFamily σ _)).Opens f :=
      ⟨rfl, rfl, rfl, hfunctional⟩
    have hselect (mode : Mode) (fallback : Option UInt32) :
        (b.dispatcher mode registry id defaultType).select id fallback =
          .ok (id, ι ((b.context mode).familySession f.family)) := by
      simp only [Dispatcher.select, CipherBuilder.dispatcher, hreg]
    refine RoundTrips.of_encodes S K S' K' (Dispatcher.encodes rfl rfl (hselect .encrypt none)
      (hι.encodes (FamilySession.encodes (f := f) rfl rfl rfl hfaithful))) ?_
    rintro _ c ⟨head, hhead, rfl⟩
    obtain ⟨h, hadm, rfl⟩ := FamilySession.admitted_of_seals hhead
    refine ⟨h, hadm, rfl, fun w body => ?_⟩
    obtain ⟨D, At, hD, hk, heq⟩ := Dispatcher.decodes_behind rfl rfl
      (hselect .decrypt defaultType) (hι.decodes (FamilySession.decodes hopens w (h.encode ++ body)))
      ⟨_, FamilySession.after_nil hopens w, rfl⟩
    rw [List.append_assoc]
    refine ⟨D, At, hD, hk, heq.trans ?_⟩
    exact FamilySession.progress_of_seals rfl rfl rfl hhead w body

end

section

open Scripted

/-- Sessions that encrypt three bytes, two by two, do succeed, and what they give is decrypted. -/
theorem roundTrips_onesBuilder :
    (RoundTrips ScriptedSource.working ScriptedSink.working ScriptedSource.working
        ScriptedSink.working [] (onesBuilder.familySession BundledFamily.aes.family .encrypt)
        (onesBuilder.familySession BundledFamily.aes.family .decrypt) ∧
      RoundTrips ScriptedSource.working ScriptedSink.working ScriptedSource.working
        ScriptedSink.working (Bytes.be32 1)
        (onesBuilder.dispatcher .encrypt (Registry.bundled id id) 1 (some 2))
        (onesBuilder.dispatcher .decrypt (Registry.bundled id id) 1 (some 2))) ∧
    (outcome (encrypt 60 (onesBuilder.familySession BundledFamily.aes.family .encrypt)
      ((({ data := #[1, 2, 3], chunk := some 2 } : ScriptedSource),
        ({ chunk := some 5 } : ScriptedSink)), ⟨[], ()⟩))).toOption = some 3 ∧
    (outcome (encrypt 60 (onesBuilder.dispatcher .encrypt (Registry.bundled id id) 1 (some 2))
      ((({ data := #[1, 2, 3], chunk := some 2 } : ScriptedSource),
        ({ chunk := some 5 } : ScriptedSink)), ⟨[], ()⟩))).toOption = some 3 := by
  refine ⟨⟨?_, ?_⟩, by decide +kernel, by decide +kernel⟩
  · exact (roundTrips_of_builder _ _ _ _ (.replicate 32 7) _ onesBuilder rfl .aes).1
  · have hreg : (Registry.bundled id id : Registry Unit (FamilySession Unit CounterStream)).get? 1 =
        some fun c => c.familySession BundledFamily.aes.family := Registry.get?_bundled id id 1
    exact (roundTrips_of_builder _ _ _ _ (.replicate 32 7) _ onesBuilder rfl .aes).2 _
      Session.Embeds.refl _ 1 (some 2) hreg

end

end SealedStream
