import SealedStream.Proofs.Session.SealedOnce
import SealedStream.Proofs.Stream.Anew

/-!
# Envelopes at the wrong session

Counter mode makes bytes of any bytes, so nothing but the header keeps a session from giving out
garbage. `Discerns` says what is to come of an envelope at a session with settings of its own: the
plaintext, just if family and version are right, or else a refusal that names what is wrong. Over the
bundled key wrap a session does discern (`discerns_of_builders`). The version is looked at first. Both
families ask for an IV of sixteen bytes, so a wrong family comes to light when the key is unwrapped:
it has the other family's length (`FamilySession.progress_of_issues`).
-/

namespace SealedStream

variable {σ τ γ κ ρ ς ρ' ς' : Type}

/-! ## Envelopes -/

/-- `envelope` is what the session `k` makes of `plain`: it got into a sink by a transfer, or was given
out by calls of which none failed and one at least started or fed the session. -/
inductive Envelope [Session κ σ] (k : κ) (plain envelope : Bytes) : Prop
  | transferred {ρ ς : Type} [Source σ ρ] [Sink σ ς] (S : WorkingSource σ ρ) (K : WorkingSink σ ς)
    {source : ρ} {s : ς} {env : Env σ} {fuel n : Nat} {t : (ρ × ς) × Env σ} :
    S.works source → S.remaining source = plain → K.works s →
    encrypt fuel k ((source, s), env) = .ok n t → K.content t.1.2 = K.content s ++ envelope →
    Envelope k plain envelope
  | called {calls : List Session.Call} {w : σ} {t : κ × σ} : Session.fed calls = plain →
    (∃ call ∈ calls, call ≠ .finalize) →
    Session.inTurn Session.Call.run calls (k, w) = .ok envelope t → Envelope k plain envelope

namespace FamilySession

open Session

variable {f g : BundledFamily} {s : FamilySession σ CounterStream}

theorem inTurn_running (c : CounterStream) (calls : List Call) (w : σ) :
    inTurn Call.run calls ({ s with phase := .ready c }, w) =
      .ok (c.apply (fed calls)).1 ({ s with phase := .ready (c.apply (fed calls)).2 }, w) := by
  induction calls generalizing c with
  | nil => rfl
  | cons call calls ih =>
    have hfed : fed (call :: calls) = fed [call] ++ fed calls := fed_append [call] calls
    simp only [inTurn, run_bind, run_running, ih, run_pure, hfed, CounterStream.apply_append]

/-- The first call that starts or feeds a session seals a header, and gives it out. -/
theorem run_sealNew (hm : s.mode = .encrypt) (hp : s.phase = .awaiting []) {call : Call}
    (hcall : call ≠ .finalize) {out : Bytes} {t : FamilySession σ CounterStream × σ} {w : σ}
    (h : call.run (s, w) = .ok out t) :
    ∃ c hd w', sealNew s w = .ok (c, hd) w' ∧ out = hd.encode ++ (c.apply (fed [call])).1 ∧
      t = ({ s with phase := .ready (c.apply (fed [call])).2 }, w') := by
  have hbegins := FamilySession.begins hm hp
  have hstart := hbegins.start w
  have hupdate (input : Bytes) := hbegins.update input w
  simp only [sealing, run_bind] at hstart hupdate
  cases hs : sealNew s w with
  | error e w' =>
    simp only [hs] at hstart hupdate
    cases call with
    | start => cases hstart.symm.trans h
    | update input => cases (hupdate input).symm.trans h
    | finalize => exact absurd rfl hcall
  | ok p w' =>
    obtain ⟨c, hd⟩ := p
    simp only [hs, run_pure, List.nil_append] at hstart hupdate
    refine ⟨c, hd, w', rfl, ?_⟩
    cases call with
    | start =>
      cases hstart.symm.trans h
      exact ⟨(List.append_nil _).symm, rfl⟩
    | update input =>
      have hrun : (Call.update input).run ({ s with phase := .ready c }, w') = _ :=
        run_running _ _ _
      have hfirst := hupdate input
      simp only [Call.run] at hrun
      rw [hrun] at hfirst
      cases hfirst.symm.trans h
      exact ⟨rfl, rfl⟩
    | finalize => exact absurd rfl hcall

/-- Calls that do not fail give out a header that is sealed, and what they feed under the keystream
made with it: by induction on the calls before the first that starts or feeds the session. -/
theorem inTurn_sealNew (hm : s.mode = .encrypt) (hp : s.phase = .awaiting []) {out : Bytes}
    {t : FamilySession σ CounterStream × σ} {calls : List Call} {w : σ}
    (hcall : ∃ call ∈ calls, call ≠ .finalize) (h : inTurn Call.run calls (s, w) = .ok out t) :
    ∃ c hd w', sealNew s w = .ok (c, hd) w' ∧ out = hd.encode ++ (c.apply (fed calls)).1 := by
  induction calls generalizing out with
  | nil =>
    obtain ⟨call, hmem, -⟩ := hcall
    cases hmem
  | cons call calls ih =>
    obtain ⟨o, u, rest, ho, hrest, rfl⟩ := inTurn_cons_eq_ok.mp h
    by_cases hfinal : call = .finalize
    · subst hfinal
      have hfinalize : Call.finalize.run (s, w) = .ok [] (s, w) := finalize_fresh hm hp w
      cases hfinalize.symm.trans ho
      obtain ⟨first, hmem, hfirst⟩ := hcall
      refine ih ⟨first, ?_, hfirst⟩ hrest
      exact (List.mem_cons.mp hmem).resolve_left hfirst
    · obtain ⟨c, hd, w', hs, rfl, rfl⟩ := run_sealNew hm hp hfinal ho
      have hfed : fed (call :: calls) = fed [call] ++ fed calls := fed_append [call] calls
      cases (inTurn_running _ calls w').symm.trans hrest
      refine ⟨c, hd, w', hs, ?_⟩
      rw [hfed, CounterStream.apply_append, List.append_assoc]

/-- An envelope is issued: a header for key material that was drawn, and the plaintext under the
keystream of this. -/
theorem issues_of_envelope (hm : s.mode = .encrypt) (hp : s.phase = .awaiting [])
    (hf : s.family = f.family) {plain envelope : Bytes} (h : Envelope s plain envelope) :
    ∃ w, s.Issues f [] w plain envelope := by
  obtain ⟨c, hd, w, w', hs, rfl⟩ : ∃ c hd w w', sealNew s w = .ok (c, hd) w' ∧
      envelope = hd.encode ++ (c.apply plain).1 := by
    cases h with
    | transferred S K hsource hplain hsink hrun hcontent =>
      obtain ⟨-, _, c, ⟨hd, w, w', hs, rfl⟩, hcontent'⟩ :=
        encrypt_eq_ok (encodes_sealNew hm hp) hsource hsink hrun
      rw [hcontent', hplain] at hcontent
      exact ⟨c, hd, w, w', hs, (List.append_cancel_left hcontent).symm⟩
    | @called calls w t hfed hcall hrun =>
      obtain ⟨c, hd, w', hs, hout⟩ := inTurn_sealNew hm hp hcall hrun
      rw [hfed] at hout
      exact ⟨c, hd, w, w', hs, hout⟩
  obtain ⟨m, w₁, hg, hh, rfl⟩ := exists_of_sealNew hf hs
  exact ⟨w, m, w₁, w', hd, hg, hh, rfl⟩

end FamilySession

/-! ## A session with settings of its own -/

/-- Both bundled families ask for an IV of the same length. -/
theorem BundledFamily.ivLen_eq (f g : BundledFamily) :
    (f.family : CipherFamily σ CounterStream).ivLen =
      (g.family : CipherFamily τ CounterStream).ivLen := by
  cases f <;> cases g <;> rfl

/-- The length of its keys tells a bundled family from the other. -/
theorem BundledFamily.keyLen_eq_iff {f g : BundledFamily} :
    (f.family : CipherFamily σ CounterStream).keyLen =
      (g.family : CipherFamily τ CounterStream).keyLen ↔ f = g := by
  constructor
  · intro h
    cases f with
    | aes => cases g with
      | aes => rfl
      | sm4 => exact absurd h (show ¬ 32 = 16 by decide)
    | sm4 => cases g with
      | aes => exact absurd h (show ¬ 16 = 32 by decide)
      | sm4 => rfl
  · rintro rfl
    cases f <;> rfl

/-- What was wrapped under a master key is taken back under it, in whatever world and whatever
random source the one who takes it back would draw from. -/
theorem AesKeyWrap.unwrap_of_wrap {master : Key32} {random : RandomSource σ} {plain wrapped : Bytes}
    {w w' : σ} (h : ((ofMaster master).keyWrap random).wrap plain w = .ok wrapped w')
    (random' : RandomSource τ) (v : τ) :
    ((ofMaster master).keyWrap random').unwrap wrapped v = .ok plain v := by
  obtain ⟨iv, w₁, -, hwrapped⟩ := exists_of_bind_eq_ok h
  cases hwrapped
  simp only [keyWrap, run_check, unwrap_wrapUnder (length_tag master)]

/-- A header that was sealed under a master key is opened under it as far as the lengths are those
that the family asks for. -/
theorem KeyMaterial.openHeader_shared {master : Key32} {random : RandomSource σ} {m : KeyMaterial}
    {version : UInt32} {h : Header} {w w' : σ}
    (hs : m.sealHeader ((AesKeyWrap.ofMaster master).keyWrap random) version w = .ok h w')
    (random' : RandomSource τ) (F : CipherFamily τ γ) (v : τ) :
    outcome (openHeader h ((AesKeyWrap.ofMaster master).keyWrap random') F v) =
      if m.iv.length ≠ F.ivLen then
        .error (.header (.secretLength .iv F.name F.ivLen m.iv.length))
      else if m.key.length ≠ F.keyLen then
        .error (.header (.secretLength .key F.name F.keyLen m.key.length))
      else .ok m := by
  obtain ⟨-, w₁, hi, hk⟩ := sealHeader_eq_ok hs
  simp only [openHeader_eq, run_bind, run_ite, AesKeyWrap.unwrap_of_wrap hi random',
    AesKeyWrap.unwrap_of_wrap hk random', run_pure, run_throw]
  split
  · rfl
  · split <;> rfl

namespace FamilySession

variable {f g : BundledFamily} {s : FamilySession σ CounterStream}
  {s' : FamilySession τ CounterStream}

theorem checkVersion_of_foreign {v : UInt32}
    (h : s.options.checkVersion = true ∧ v ≠ s.options.version) :
    Header.checkVersion s.expectedVersion v = .error (.unsupportedVersion v) := by
  rw [expectedVersion, if_pos h.1, Header.checkVersion, if_neg h.2]

/-- A header of any version is admitted by a session that does not look at it, or expects it. -/
theorem admitted_of_version {h : Header} {expected : Option UInt32} (hadm : h.Admitted expected)
    (hv : ¬ (s.options.checkVersion = true ∧ h.version ≠ s.options.version)) :
    h.Admitted s.expectedVersion := by
  refine ⟨fun v hexpected => ?_, hadm.iv, hadm.key⟩
  unfold expectedVersion at hexpected
  split at hexpected
  · rename_i hcheck
    cases hexpected
    exact Decidable.not_not.mp fun hne => hv ⟨hcheck, hne⟩
  · cases hexpected

/-- What a session over `g` makes of an envelope that was issued over `f` under the same master key.
The version is compared before anything is unwrapped, and the IV is of the right length in any
case. -/
theorem progress_of_issues {master : Key32} {random : RandomSource σ} {random' : RandomSource τ}
    (hf : s.family = f.family) (hw : s.wrap = (AesKeyWrap.ofMaster master).keyWrap random)
    (hg : s'.family = g.family) (hw' : s'.wrap = (AesKeyWrap.ofMaster master).keyWrap random')
    {w : σ} {plain envelope : Bytes} (h : s.Issues f [] w plain envelope) (v : τ) :
    s'.progress g v envelope =
      if s'.options.checkVersion = true ∧ s.options.version ≠ s'.options.version then
        .failed (.unsupportedVersion s.options.version)
      else if f = g then .ready plain
      else .failed
        (.header (.secretLength .key s'.family.name s'.family.keyLen s.family.keyLen)) := by
  obtain ⟨m, w₁, w₂, h, hm, hs, rfl⟩ := h
  rw [hf] at hm
  obtain ⟨hiv, hkey⟩ := KeyMaterial.length_generate hm
  rw [hw] at hs
  obtain ⟨hversion, hadm, -⟩ :=
    KeyMaterial.open_sealHeader (AesKeyWrap.faithful_keyWrap master random) hiv hkey hs
  rw [List.nil_append, ← hversion]
  by_cases hv : s'.options.checkVersion = true ∧ h.version ≠ s'.options.version
  · rw [if_pos hv, progress_of_refused
      (Header.decode_of_foreign (Header.be32?_encode h _) (checkVersion_of_foreign hv))]
  · have hdecode := Header.decode_encode_append (admitted_of_version hadm hv)
      ((f.stream m.key m.iv).apply plain).1
    have hopen := KeyMaterial.openHeader_shared hs random' s'.family v
    rw [← hw', hg, hiv, hkey, if_neg (not_not_intro (BundledFamily.ivLen_eq f g)), ← hg] at hopen
    rw [if_neg hv]
    by_cases hfg : f = g
    · subst hfg
      rw [hg, if_neg (not_not_intro (BundledFamily.keyLen_eq_iff.mpr rfl)), ← hg] at hopen
      rw [if_pos rfl, progress_of_opened hdecode hopen, List.drop_left' rfl,
        CounterStream.apply_apply]
    · rw [if_pos (by rw [hg]; exact fun h => hfg (BundledFamily.keyLen_eq_iff.mp h))] at hopen
      rw [if_neg hfg, progress_of_unopened hdecode hopen, hf]

end FamilySession

/-! ## What comes of an envelope -/

/-- A transfer to the sink `s` succeeded with these bytes, or failed so and left the sink alone. -/
def Transferred [Sink σ ς] (K : WorkingSink σ ς) (s : ς)
    (run : EStateM.Result Error ((ρ × ς) × Env σ) Nat) : Except Error Bytes → Prop
  | .ok bytes => Wrote K s run bytes.length bytes
  | .error e => Refused s run e

/-- Feeding came to these bytes, or to this failure and no bytes. -/
def Feed.CameTo (r : Feed κ σ) : Except Error Bytes → Prop
  | .ok bytes => r.output = bytes ∧ r.error = none
  | .error e => r.output = [] ∧ r.error = some e

/-- What is to come of an envelope of `plain`, issued over the family `f` under the version `v`, at a
session over the family `g`, which expects the version `v'` if it is `checked`. -/
structure Discerns (f g : BundledFamily) (v v' : UInt32) (checked : Bool) (plain : Bytes)
    (comesTo : Except Error Bytes → Prop) : Prop where
  /-- The plaintext and nothing else comes out, and only if the settings agree. -/
  taken : ∀ out, comesTo (.ok out) ↔ out = plain ∧ f = g ∧ (checked = false ∨ v = v')
  versionRefused : checked = true → v ≠ v' → comesTo (.error (.unsupportedVersion v))
  familyRefused : f ≠ g → (checked = false ∨ v = v') → ∃ e, comesTo (.error (.header e))

/-- A decoder that makes the right thing of the envelope discerns, if what comes of it is what the
decoder makes. -/
theorem Discerns.of_progress {f g : BundledFamily} {v v' : UInt32} {checked : Bool} {plain : Bytes}
    {comesTo : Except Error Bytes → Prop} {D : Progress} {e : HeaderFault}
    (hD : D = if checked = true ∧ v ≠ v' then .failed (.unsupportedVersion v)
      else if f = g then .ready plain else .failed (.header e))
    (hready : ∀ p, D = .ready p → ∀ out, comesTo (.ok out) ↔ out = p)
    (hfailed : ∀ e, D = .failed e → e.isIo = false →
      comesTo (.error e) ∧ ∀ out, ¬ comesTo (.ok out)) :
    Discerns f g v v' checked plain comesTo := by
  have haccepted : (checked = false ∨ v = v') ↔ ¬ (checked = true ∧ v ≠ v') := by
    cases checked <;> simp
  by_cases hv : checked = true ∧ v ≠ v'
  · rw [if_pos hv] at hD
    obtain ⟨herror, hnone⟩ := hfailed _ hD rfl
    refine ⟨fun out => iff_of_false (hnone out) fun h => haccepted.mp h.2.2 hv,
      fun _ _ => herror, fun _ h => absurd hv (haccepted.mp h)⟩
  · rw [if_neg hv] at hD
    by_cases hfg : f = g
    · rw [if_pos hfg] at hD
      refine ⟨fun out => (hready _ hD out).trans ⟨fun h => ⟨h, hfg, haccepted.mpr hv⟩, And.left⟩,
        fun hc hne => absurd ⟨hc, hne⟩ hv, fun hne => absurd hfg hne⟩
    · rw [if_neg hfg] at hD
      obtain ⟨herror, hnone⟩ := hfailed _ hD rfl
      exact ⟨fun out => iff_of_false (hnone out) fun h => hfg h.2.1,
        fun hc hne => absurd ⟨hc, hne⟩ hv, fun _ _ => ⟨e, herror⟩⟩

theorem Transferred.of_wrote [Sink σ ς] {K : WorkingSink σ ς} {s : ς}
    {run : EStateM.Result Error ((ρ × ς) × Env σ) Nat} {p : Bytes} (h : Wrote K s run p.length p)
    (out : Bytes) : Transferred K s run (.ok out) ↔ out = p := by
  constructor
  · rintro ⟨source₁, s₁, env₁, hrun, -, hcontent⟩
    obtain ⟨source₂, s₂, env₂, hrun', -, hcontent'⟩ := h
    injection hrun.symm.trans hrun' with _ hstates
    injection hstates with hstreams _
    injection hstreams with _ hsinks
    subst hsinks
    exact List.append_cancel_left (hcontent.symm.trans hcontent')
  · rintro rfl
    exact h

theorem Transferred.of_refused [Sink σ ς] {K : WorkingSink σ ς} {s : ς}
    {run : EStateM.Result Error ((ρ × ς) × Env σ) Nat} {e : Error} (h : Refused s run e) :
    Transferred K s run (.error e) ∧ ∀ out, ¬ Transferred K s run (.ok out) := by
  refine ⟨h, ?_⟩
  rintro out ⟨source₁, s₁, env₁, hrun, -⟩
  obtain ⟨source₂, env₂, hrun'⟩ := h
  cases hrun.symm.trans hrun'

/-- **No envelope is misread.** Whatever a builder's session over one of the bundled families makes
of a plaintext, under the builder's version or the family's own, is taken by a session over one of
them, from any builder with the same master key, just if the family is the same and the version is
accepted, and then it gives out the plaintext. Another version is refused by name; another family is
refused for its header; and nothing is given out before a refusal. This holds however the envelope
came about, whatever random sources the two builders have, and however a source cuts the envelope or a
caller does who feeds the session. -/
theorem discerns_of_builders (master : Key32) (random : RandomSource σ) (random' : RandomSource τ)
    {b : CipherBuilder σ} {b' : CipherBuilder τ}
    (hb : b.wrap = (AesKeyWrap.ofMaster master).keyWrap random)
    (hb' : b'.wrap = (AesKeyWrap.ofMaster master).keyWrap random') (f g : BundledFamily)
    {plain envelope : Bytes}
    (henvelope : Envelope (b.familySession f.family .encrypt) plain envelope) :
    let v := b.version.getD (f.family : CipherFamily σ CounterStream).version
    let v' := b'.version.getD (g.family : CipherFamily τ CounterStream).version
    (∀ {ρ ς : Type} [Source τ ρ] [Sink τ ς] (S : WorkingSource τ ρ) (K : WorkingSink τ ς)
      {source : ρ} {s : ς} {fuel : Nat} (env : Env τ), S.works source →
      S.remaining source = envelope → K.works s → envelope.length < fuel →
      Discerns f g v v' b'.checkVersion plain (Transferred K s
        (decrypt fuel (b'.familySession g.family .decrypt) ((source, s), env)))) ∧
    ∀ (chunks : List Bytes) (w : τ), chunks.flatten = envelope →
      Discerns f g v v' b'.checkVersion plain
        (Feed.whole chunks (b'.familySession g.family .decrypt, w)).CameTo := by
  intro v v'
  obtain ⟨w, hissued⟩ := FamilySession.issues_of_envelope rfl rfl rfl henvelope
  have hfamily : (b'.familySession g.family .decrypt).family = g.family := rfl
  have hprogress := FamilySession.progress_of_issues rfl hb hfamily hb' hissued
  have hfunctional : b'.wrap.Functional := by
    rw [hb']
    exact AesKeyWrap.functional_keyWrap _ random'
  have hopens := b'.opens_familySession hfunctional g
  constructor
  · intro ρ ς _ _ S K source s fuel env hsource hremaining hs hfuel
    subst hremaining
    have hD := FamilySession.decodes hopens env.world (S.remaining source)
    have hk := FamilySession.after_nil hopens env.world
    refine Discerns.of_progress (hprogress env.world) (fun p hp => ?_) (fun e he hio => ?_)
    · have hlen := FamilySession.length_of_ready hp
      exact Transferred.of_wrote (decrypt_of_ready K hsource hs hD hk hp hfuel (by omega) env)
    · exact Transferred.of_refused
        (decrypt_of_refused hsource hD hk (e := e) (by rw [he]; rfl) hio hfuel env)
  · rintro chunks world rfl
    have hD := FamilySession.decodes hopens world chunks.flatten
    obtain ⟨houtput, herror⟩ :=
      hD.whole_spec (FamilySession.after_nil hopens world) chunks rfl world
    refine Discerns.of_progress (hprogress world) (fun p hp out => ?_) (fun e he _ => ?_)
    · rw [hp] at houtput herror
      simp only [Feed.CameTo, houtput, herror]
      exact ⟨fun h => h.1.symm, fun h => ⟨h.symm, rfl⟩⟩
    · rw [he] at houtput herror
      exact ⟨⟨houtput, herror⟩, fun out h => by cases herror.symm.trans h.2⟩

section

open Scripted

/-- Three bytes over the first family, fed two and one: the session over the other family refuses
them for their version, or for their key where it expects the version that they have, and the session
over the same family takes them. -/
theorem discerns_of_builders_ones :
    let sealing := onesBuilder.familySession BundledFamily.aes.family .encrypt
    let envelope := given (Session.inTurn Session.Call.run
      [.update [1, 2], .update [3], .finalize] (sealing, ()))
    let other (version : Option UInt32) (f : BundledFamily) :=
      ({ onesBuilder with version } : CipherBuilder Unit).familySession f.family .decrypt
    let source : ScriptedSource := { data := envelope.toArray, chunk := some 7 }
    Envelope sealing [1, 2, 3] envelope ∧
    (Feed.whole [envelope.take 5, envelope.drop 5] (other none .sm4, ())).CameTo
      (.error (.unsupportedVersion 1)) ∧
    (∃ e, Transferred ScriptedSink.working {} (decrypt (envelope.length + 1) (other (some 1) .sm4)
      ((source, {}), ⟨[], ()⟩)) (.error (.header e))) ∧
    Transferred ScriptedSink.working {} (decrypt (envelope.length + 1) (other none .aes)
      ((source, {}), ⟨[], ()⟩)) (.ok [1, 2, 3]) := by
  intro sealing envelope other source
  obtain ⟨t, hrun⟩ := eq_ok_of_given (show failed (Session.inTurn Session.Call.run
    [.update [1, 2], .update [3], .finalize] (sealing, ())) = false ∧ _ = envelope from
      ⟨by decide +kernel, rfl⟩)
  have henvelope : Envelope sealing [1, 2, 3] envelope :=
    .called rfl ⟨_, List.mem_cons_self, by decide⟩ hrun
  have hsource : (ScriptedSource.working : WorkingSource Unit ScriptedSource).works source :=
    ⟨rfl, by decide⟩
  have hsink : (ScriptedSink.working : WorkingSink Unit ScriptedSink).works {} :=
    ⟨rfl, rfl, by decide⟩
  have hfuel := Nat.lt_succ_self envelope.length
  have hversioned : ({ onesBuilder with version := some 1 } : CipherBuilder Unit).wrap =
      (AesKeyWrap.ofMaster (.replicate 32 7)).keyWrap ⟨fun n => pure (.replicate n 1)⟩ := rfl
  refine ⟨henvelope, ?_, ?_, ?_⟩
  · exact ((discerns_of_builders (.replicate 32 7) _ _ rfl rfl .aes .sm4 henvelope).2 _ ()
      (by simp)).versionRefused rfl (by decide)
  · exact ((discerns_of_builders (.replicate 32 7) _ _ rfl hversioned .aes .sm4 henvelope).1 _ _
      ⟨[], ()⟩ hsource rfl hsink hfuel).familyRefused (by decide) (.inr rfl)
  · exact (((discerns_of_builders (.replicate 32 7) _ _ rfl rfl .aes .aes henvelope).1 _ _ ⟨[], ()⟩
      hsource rfl hsink hfuel).taken _).mpr ⟨rfl, rfl, .inr rfl⟩

end

end SealedStream
