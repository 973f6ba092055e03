import SealedStream.Proofs.Session.HeaderFirst
import SealedStream.Proofs.Session.Reopening

/-!
# One header a stream

An encrypting session of a bundled family gives out one header and then the bytes that it is fed
under one keystream, in whatever order it is started, fed and finalized. It begins with the first
call that starts or feeds it, or with a later one if no key could be drawn in this
(`FamilySession.sealed_once`), draws nothing from then on, and is ready from then on.
-/

namespace SealedStream

variable {σ : Type}

/-! ## Collaborators that do not fail -/

/-- The random source fills whatever it is asked to fill. -/
def RandomSource.Unfailing (random : RandomSource σ) : Prop :=
  ∀ (n : Nat) (w : σ), ∃ bytes w', random.fill n w = .ok bytes w'

/-- The key wrap wraps whatever it is given. -/
def KeyWrap.Unfailing (wrap : KeyWrap σ) : Prop :=
  ∀ (plain : Bytes) (w : σ), ∃ wrapped w', wrap.wrap plain w = .ok wrapped w'

theorem AesKeyWrap.unfailing_keyWrap (wrap : AesKeyWrap) {random : RandomSource σ}
    (hr : random.Unfailing) : (wrap.keyWrap random).Unfailing := by
  intro plain w
  obtain ⟨iv, w', hfill⟩ := hr 16 w
  refine ⟨wrap.wrapUnder iv plain, w', ?_⟩
  simp only [keyWrap, run_bind, hfill, run_pure]

namespace KeyMaterial

variable {random : RandomSource σ} (hr : random.Unfailing)

include hr

/-- All that can happen to a key is that every draw of it is refused. -/
theorem drawKey_or_exhausted (len : Nat) (rejectZero : Bool) (n : Nat) (w : σ) :
    (∃ key w', drawKey random len rejectZero n w = .ok key w') ∨
      ∃ w',
        drawKey random len rejectZero n w = .error (.keyGenerationExhausted maxAttempts) w' := by
  induction n generalizing w with
  | zero => exact .inr ⟨w, rfl⟩
  | succ n ih =>
    obtain ⟨key, w', hfill⟩ := hr len w
    simp only [drawKey, run_bind, hfill, run_ite, run_pure]
    split
    · exact ih w'
    · exact .inl ⟨_, w', rfl⟩

theorem drawKey_unchecked (len n : Nat) (w : σ) :
    ∃ key w', drawKey random len false (n + 1) w = .ok key w' := by
  obtain ⟨key, w', hfill⟩ := hr len w
  refine ⟨key.toList, w', ?_⟩
  simp only [drawKey, run_bind, hfill, run_pure, Bool.false_and, Bool.false_eq_true, if_false]

theorem exists_generateIv (f : BundledFamily) (w : σ) : ∃ iv w',
    (f.family : CipherFamily σ CounterStream).generateIv random w = .ok iv w' := by
  obtain ⟨iv, w', hfill⟩ := hr 16 w
  refine ⟨clearCounter iv.toList, w', ?_⟩
  have hdraw : defaultIv 16 random w = .ok (clearCounter iv.toList) w' := by
    simp only [defaultIv, run_bind, hfill, run_pure]
  cases f with
  | aes => exact hdraw
  | sm4 => exact hdraw

theorem generate_or_exhausted (f : BundledFamily) (rejectZero : Bool) (w : σ) :
    (∃ m w', generate (f.family : CipherFamily σ CounterStream) random rejectZero w = .ok m w') ∨
      rejectZero = true ∧ ∃ w',
        generate (f.family : CipherFamily σ CounterStream) random rejectZero w =
          .error (.keyGenerationExhausted maxAttempts) w' := by
  obtain ⟨iv, w₁, hiv⟩ := exists_generateIv hr f w
  simp only [generate, run_bind, hiv]
  cases rejectZero with
  | false =>
    obtain ⟨key, w₂, hkey⟩ := drawKey_unchecked hr
      (f.family : CipherFamily σ CounterStream).keyLen 8 w₁
    exact .inl ⟨⟨iv, key⟩, w₂, by rw [maxAttempts, hkey]; rfl⟩
  | true =>
    rcases drawKey_or_exhausted hr (f.family : CipherFamily σ CounterStream).keyLen true maxAttempts
      w₁ with ⟨key, w₂, hkey⟩ | ⟨w₂, hkey⟩
    · exact .inl ⟨⟨iv, key⟩, w₂, by rw [hkey]; rfl⟩
    · exact .inr ⟨rfl, w₂, by rw [hkey]⟩

omit hr in
theorem exists_sealHeader {wrap : KeyWrap σ} (hw : wrap.Unfailing) (m : KeyMaterial)
    (version : UInt32) (w : σ) : ∃ h w', m.sealHeader wrap version w = .ok h w' := by
  obtain ⟨iv, w₁, hiv⟩ := hw m.iv w
  obtain ⟨key, w₂, hkey⟩ := hw m.key w₁
  exact ⟨⟨version, iv, key⟩, w₂, by simp only [sealHeader, run_bind, hiv, hkey, run_pure]⟩

end KeyMaterial

namespace FamilySession

open Session

variable {f : BundledFamily} {s : FamilySession σ CounterStream}

/-! ## A ready session -/

theorem run_running (c : CounterStream) (call : Call) (w : σ) :
    call.run ({ s with phase := .ready c }, w) =
      .ok (c.apply (fed [call])).1 ({ s with phase := .ready (c.apply (fed [call])).2 }, w) := by
  cases call with
  | start => exact start_ready rfl w
  | update input =>
    rw [fed, fed, List.append_nil]
    exact update_stream rfl w
  | finalize => exact finalize_ready (s := { s with phase := .ready c }) rfl

/-- By induction on the calls: what they feed goes on in the keystream where the last one ended. -/
theorem series_running (c : CounterStream) (calls : List Call) (w : σ) :
    emitted Call.run calls ({ s with phase := .ready c }, w) = (c.apply (fed calls)).1 ∧
      after Call.run calls ({ s with phase := .ready c }, w) =
        ({ s with phase := .ready (c.apply (fed calls)).2 }, w) := by
  induction calls generalizing c with
  | nil => exact ⟨rfl, rfl⟩
  | cons call calls ih =>
    have hfed : fed (call :: calls) = fed [call] ++ fed calls := fed_append [call] calls
    obtain ⟨hemitted, hafter⟩ := ih (c.apply (fed [call])).2
    rw [emitted, after, run_running, hfed, CounterStream.apply_append]
    exact ⟨congrArg _ hemitted, hafter⟩

/-! ## A session at its beginning -/

/-- The calls from the world `w` to `w'` give nothing and leave the session at its beginning: there
is nothing to finalize, and whatever would start it fails since no key can be drawn. -/
inductive Idles (s : FamilySession σ CounterStream) : List Call → σ → σ → Prop
  | nothing (w : σ) : Idles s [] w w
  | finalize {calls : List Call} {w w' : σ} : Call.finalize.run (s, w) = .ok [] (s, w) →
      Idles s calls w w' → Idles s (.finalize :: calls) w w'
  | exhausted {call : Call} {calls : List Call} {w w₁ w' : σ} : call ≠ .finalize →
      s.options.rejectZero = true → KeyMaterial.generate s.family s.random s.options.rejectZero w =
        .error (.keyGenerationExhausted KeyMaterial.maxAttempts) w₁ →
      call.run (s, w) = .error (.keyGenerationExhausted KeyMaterial.maxAttempts) (s, w₁) →
      Idles s calls w₁ w' → Idles s (call :: calls) w w'

theorem Idles.series {calls : List Call} {w w' : σ} (h : s.Idles calls w w') :
    emitted Call.run calls (s, w) = [] ∧ after Call.run calls (s, w) = (s, w') := by
  induction h with
  | nothing w => exact ⟨rfl, rfl⟩
  | finalize hrun _ ih =>
    rw [emitted, after, hrun]
    exact ih
  | exhausted _ _ _ hrun _ ih =>
    rw [emitted, after, hrun]
    exact ih

theorem Idles.of_prefix {calls p : List Call} {w w' : σ} (h : s.Idles calls w w')
    (hpre : p <+: calls) : ∃ v, s.Idles p w v := by
  induction h generalizing p with
  | nothing w =>
    rw [List.prefix_nil.mp hpre]
    exact ⟨w, .nothing w⟩
  | @finalize calls w w' hrun _ ih =>
    cases p with
    | nil => exact ⟨w, .nothing w⟩
    | cons call p =>
      obtain ⟨rfl, htail⟩ := List.cons_prefix_cons.mp hpre
      obtain ⟨v, hv⟩ := ih htail
      exact ⟨v, .finalize hrun hv⟩
  | @exhausted call calls w w₁ w' hcall hreject hgenerate hrun _ ih =>
    cases p with
    | nil => exact ⟨w, .nothing w⟩
    | cons call' p =>
      obtain ⟨rfl, htail⟩ := List.cons_prefix_cons.mp hpre
      obtain ⟨v, hv⟩ := ih htail
      exact ⟨v, .exhausted hcall hreject hgenerate hrun hv⟩

/-- The session is not ready as long as it is at its beginning. -/
theorem Idles.isReady (hp : s.phase = .awaiting []) {calls : List Call} {w w' : σ}
    (h : s.Idles calls w w') : Session.isReady (after Call.run calls (s, w)).1 = false := by
  rw [h.series.2]
  simp only [Session.isReady, FamilySession.isReady, hp]

/-- Key material that was drawn is sealed by a key wrap that does not fail. -/
theorem sealNew_of_generate (hf : s.family = f.family) (hwrap : s.wrap.Unfailing) {m : KeyMaterial}
    {w w₁ : σ} (hm : KeyMaterial.generate s.family s.random s.options.rejectZero w = .ok m w₁) :
    ∃ h w₂, m.sealHeader s.wrap s.options.version w₁ = .ok h w₂ ∧
      sealNew s w = .ok (f.stream m.key m.iv, h) w₂ := by
  obtain ⟨h, w₂, hh⟩ := KeyMaterial.exists_sealHeader hwrap m s.options.version w₁
  refine ⟨h, w₂, hh, ?_⟩
  simp only [sealNew, run_bind, hm]
  rw [hf] at hm ⊢
  obtain ⟨hiv, hkey⟩ := KeyMaterial.length_generate hm
  rw [BundledFamily.newCipher_eq f hkey hiv, run_pure]
  simp only [hh, run_pure]

/-- A key wrap and a random source that do not fail leave only the draws of the key to fail. -/
theorem sealNew_or_exhausted (hf : s.family = f.family) (hrandom : s.random.Unfailing)
    (hwrap : s.wrap.Unfailing) (w : σ) :
    (s.options.rejectZero = true ∧ ∃ w₁,
      KeyMaterial.generate s.family s.random s.options.rejectZero w =
        .error (.keyGenerationExhausted KeyMaterial.maxAttempts) w₁ ∧
      sealNew s w = .error (.keyGenerationExhausted KeyMaterial.maxAttempts) w₁) ∨
    ∃ m w₁ h w₂, KeyMaterial.generate s.family s.random s.options.rejectZero w = .ok m w₁ ∧
      m.sealHeader s.wrap s.options.version w₁ = .ok h w₂ ∧
      sealNew s w = .ok (f.stream m.key m.iv, h) w₂ := by
  rcases KeyMaterial.generate_or_exhausted hrandom f s.options.rejectZero w with
    ⟨m, w₁, hm⟩ | ⟨hreject, w₁, hm⟩
  · rw [← hf] at hm
    obtain ⟨h, w₂, hh, hseal⟩ := sealNew_of_generate hf hwrap hm
    exact .inr ⟨m, w₁, h, w₂, hm, hh, hseal⟩
  · rw [← hf] at hm
    refine .inl ⟨hreject, w₁, hm, ?_⟩
    simp only [sealNew, run_bind, hm]

/-- The call begins the stream of `s` in the world `w`: with the header `h`, for which the material
`m` was drawn and wrapped, and which leaves the world `w'`. -/
structure BeginsStream (f : BundledFamily) (s : FamilySession σ CounterStream) (call : Call) (w : σ)
    (m : KeyMaterial) (w₁ : σ) (h : Header) (w' : σ) : Prop where
  starts : call ≠ .finalize
  generate : KeyMaterial.generate s.family s.random s.options.rejectZero w = .ok m w₁
  header : m.sealHeader s.wrap s.options.version w₁ = .ok h w'
  run : call.run (s, w) = .ok (h.encode ++ ((f.stream m.key m.iv).apply (fed [call])).1)
    ({ s with phase := .ready ((f.stream m.key m.iv).apply (fed [call])).2 }, w')

/-- One call at the beginning, by cases on it and on whether a key can be drawn. -/
theorem idles_or_begins (hm : s.mode = .encrypt) (hp : s.phase = .awaiting [])
    (hf : s.family = f.family) (hrandom : s.random.Unfailing) (hwrap : s.wrap.Unfailing)
    (call : Call) (w : σ) :
    (∃ w₁, ∀ {calls w'}, s.Idles calls w₁ w' → s.Idles (call :: calls) w w') ∨
      ∃ m w₁ h w', BeginsStream f s call w m w₁ h w' := by
  have hbegins := FamilySession.begins hm hp
  by_cases hcall : call = .finalize
  · subst hcall
    have hrun : Call.finalize.run (s, w) = _ := hbegins.finalize w
    exact .inl ⟨w, .finalize hrun⟩
  · have hstart := hbegins.start w
    have hupdate (input : Bytes) := hbegins.update input w
    simp only [sealing, run_bind] at hstart hupdate
    rcases sealNew_or_exhausted hf hrandom hwrap w with
      ⟨hreject, w₁, hgenerate, hseal⟩ | ⟨m, w₁, h, w₂, hgenerate, hheader, hseal⟩
    · have hrun : call.run (s, w) =
          .error (.keyGenerationExhausted KeyMaterial.maxAttempts) (s, w₁) := by
        simp only [hseal] at hstart hupdate
        cases call with
        | start => exact hstart
        | update input => exact hupdate input
        | finalize => exact absurd rfl hcall
      exact .inl ⟨w₁, .exhausted hcall hreject hgenerate hrun⟩
    · refine .inr ⟨m, w₁, h, w₂, hcall, hgenerate, hheader, ?_⟩
      simp only [hseal, run_pure, List.nil_append] at hstart hupdate
      cases call with
      | start =>
        refine Eq.trans hstart ?_
        rw [show (f.stream m.key m.iv).apply (fed [.start]) = ([], f.stream m.key m.iv) from rfl,
          List.append_nil]
      | update input =>
        refine (hupdate input).trans ?_
        have hrun : (Call.update input).run ({ s with phase := .ready (f.stream m.key m.iv) }, w₂) =
            _ := run_running _ _ _
        simp only [Call.run] at hrun
        rw [hrun]
      | finalize => exact absurd rfl hcall

/-- By induction on the calls: they leave the session at its beginning, or one of them begins the
stream. -/
theorem series_idles_or_begins (hm : s.mode = .encrypt) (hp : s.phase = .awaiting [])
    (hf : s.family = f.family) (hrandom : s.random.Unfailing) (hwrap : s.wrap.Unfailing)
    (calls : List Call) (w : σ) : (∃ w', s.Idles calls w w') ∨
      ∃ before call rest w' m w₁ h w₂, calls = before ++ call :: rest ∧ s.Idles before w w' ∧
        BeginsStream f s call w' m w₁ h w₂ := by
  induction calls generalizing w with
  | nil => exact .inl ⟨w, .nothing w⟩
  | cons call calls ih =>
    rcases idles_or_begins hm hp hf hrandom hwrap call w with ⟨w₁, hidles⟩ | ⟨m, w₁, h, w₂, hbegin⟩
    · rcases ih w₁ with ⟨w', hi⟩ | ⟨before, first, rest, w', m, v, h, w₂, hcalls, hi, hbegin⟩
      · exact .inl ⟨w', hidles hi⟩
      · exact .inr ⟨call :: before, first, rest, w', m, v, h, w₂, by rw [hcalls]; rfl, hidles hi,
          hbegin⟩
    · exact .inr ⟨[], call, calls, w, m, w₁, h, w₂, rfl, .nothing w, hbegin⟩

/-- From the call on that begins it, a stream is its header and one keystream. -/
theorem BeginsStream.series {before rest : List Call} {call : Call} {w w' w₁ w₂ : σ}
    {m : KeyMaterial} {h : Header} (hi : s.Idles before w w')
    (hbegin : BeginsStream f s call w' m w₁ h w₂) :
    emitted Call.run (before ++ call :: rest) (s, w) =
        h.encode ++ ((f.stream m.key m.iv).apply (fed (call :: rest))).1 ∧
      after Call.run (before ++ call :: rest) (s, w) =
        ({ s with phase := .ready ((f.stream m.key m.iv).apply (fed (call :: rest))).2 }, w₂) := by
  have hfed : fed (call :: rest) = fed [call] ++ fed rest := fed_append [call] rest
  obtain ⟨hemitted, hafter⟩ :=
    series_running (s := s) ((f.stream m.key m.iv).apply (fed [call])).2 rest w₂
  rw [emitted_append, after_append, hi.series.1, hi.series.2, emitted, after, hbegin.run, hfed,
    CounterStream.apply_append, List.nil_append, ← List.append_assoc]
  exact ⟨congrArg _ hemitted, hafter⟩

/-- **One header a stream, and then one keystream.** An encrypting session of a bundled family whose
random source and key wrap do not fail gives nothing and stays as it was until the first call that
starts or feeds it and for which a key can be drawn: where zeros are refused, all draws of a key may
begin with a zero byte, and then the call fails. From that first call on the session is ready and
the world is left alone, and in all it gives out one header, which has the session's version and the
wrapped key material, and what it is fed from then on under the keystream of this material. The
header is read back unless the key wrap made its secrets too long for one. -/
theorem sealed_once (hm : s.mode = .encrypt) (hp : s.phase = .awaiting [])
    (hf : s.family = f.family) (hrandom : s.random.Unfailing) (hwrap : s.wrap.Unfailing)
    (calls : List Call) (w : σ) :
    (∃ w', s.Idles calls w w' ∧ emitted Call.run calls (s, w) = [] ∧
      ∀ p, p <+: calls → Session.isReady (after Call.run p (s, w)).1 = false) ∨
    ∃ before call rest w' m w₁ h w₂, calls = before ++ call :: rest ∧ s.Idles before w w' ∧
      call ≠ .finalize ∧
      KeyMaterial.generate s.family s.random s.options.rejectZero w' = .ok m w₁ ∧
      m.sealHeader s.wrap s.options.version w₁ = .ok h w₂ ∧
      emitted Call.run calls (s, w) =
        h.encode ++ ((f.stream m.key m.iv).apply (fed (call :: rest))).1 ∧
      h.version = s.options.version ∧
      (h.wrappedIv.length ≤ maxWrappedLen → h.wrappedKey.length ≤ maxWrappedLen → ∀ more,
        Header.decode (h.encode ++ more) (some s.options.version) =
          .ok (.complete h h.encode.length)) ∧
      ∀ p, p <+: calls →
        Session.isReady (after Call.run p (s, w)).1 = decide (before.length < p.length) ∧
        (before.length < p.length → (after Call.run p (s, w)).2 = w₂) := by
  rcases series_idles_or_begins hm hp hf hrandom hwrap calls w with
    ⟨w', hi⟩ | ⟨before, call, rest, w', m, w₁, h, w₂, rfl, hi, hbegin⟩
  · refine .inl ⟨w', hi, hi.series.1, fun p hpre => ?_⟩
    obtain ⟨v, hv⟩ := hi.of_prefix hpre
    exact hv.isReady hp
  · obtain ⟨hversion, -⟩ := KeyMaterial.sealHeader_eq_ok hbegin.header
    refine .inr ⟨before, call, rest, w', m, w₁, h, w₂, rfl, hi, hbegin.starts, hbegin.generate,
      hbegin.header, (hbegin.series hi).1, hversion,
      fun hiv hkey => Header.decode_encode_append ⟨?_, hiv, hkey⟩, fun p hpre => ?_⟩
    · rintro _ ⟨⟩
      exact hversion
    · -- a beginning of the calls ends before the stream begins, or has its first call
      rcases Nat.lt_or_ge before.length p.length with hlt | hle
      · obtain ⟨tail, rfl⟩ : before <+: p :=
          List.prefix_of_prefix_length_le (List.prefix_append _ _) hpre (Nat.le_of_lt hlt)
        have hpre' : tail <+: call :: rest := (List.prefix_append_right_inj _).mp hpre
        cases tail with
        | nil => simp at hlt
        | cons call' tail =>
          obtain ⟨rfl, -⟩ := List.cons_prefix_cons.mp hpre'
          rw [(hbegin.series hi).2, decide_eq_true hlt]
          exact ⟨rfl, fun _ => rfl⟩
      · have hpre' : p <+: before :=
          List.prefix_of_prefix_length_le hpre (List.prefix_append _ _) hle
        obtain ⟨v, hv⟩ := hi.of_prefix hpre'
        rw [hv.isReady hp, decide_eq_false (Nat.not_lt.mpr hle)]
        exact ⟨rfl, fun hlt => absurd hlt (Nat.not_lt.mpr hle)⟩

/-- A session over a random source that gives zeros only, which may be refused as keys. -/
def zeroSession (rejectZero : Bool) : FamilySession Unit CounterStream where
  mode := .encrypt
  family := BundledFamily.aes.family
  wrap := ⟨pure, pure⟩
  random := ⟨fun n => pure (Vector.replicate n 0)⟩
  options := ⟨1, true, rejectZero⟩

/-- If zeros are no matter, the stream begins with the first call. -/
theorem sealed_once_zeros : ∃ (m : KeyMaterial) (h : Header),
    emitted Call.run [.update [5], .finalize, .start, .update [6]] (zeroSession false, ()) =
      h.encode ++ ((BundledFamily.aes.stream m.key m.iv).apply [5, 6]).1 ∧
    h.version = 1 := by
  rcases sealed_once (f := .aes) (s := zeroSession false) rfl rfl rfl (fun n w => ⟨_, w, rfl⟩)
    (fun plain w => ⟨plain, w, rfl⟩) [.update [5], .finalize, .start, .update [6]] () with
    ⟨w', hi, -, -⟩ |
      ⟨before, call, rest, w', m, w₁, h, w₂, hcalls, hi, -, -, -, hemitted, hversion, -⟩
  · cases hi with
    | exhausted _ hreject => cases hreject
  · cases hi with
    | nothing =>
      cases hcalls
      exact ⟨m, h, hemitted, hversion⟩
    | finalize => cases hcalls
    | exhausted _ hreject => cases hreject

/-- A session whose key wrap makes `secret` of whatever it is given. -/
def wrappingSession (secret : Bytes) : FamilySession Unit CounterStream :=
  { zeroSession false with wrap := ⟨fun _ => pure secret, pure⟩ }

theorem emitted_wrappingSession (secret : Bytes) :
    emitted Call.run [.start] (wrappingSession secret, ()) = (Header.mk 1 secret secret).encode :=
  List.append_nil _

/-- Its secrets are one byte longer than a header may say that they are. -/
def overlongSession : FamilySession Unit CounterStream :=
  wrappingSession (List.replicate (maxWrappedLen + 1) 0)

/-- Nothing that a session was given fails, and yet: if zeros are refused, the call that starts it
gives nothing; and if its secrets are wrapped too long, what starts the stream is not read back. -/
theorem not_sealed_once :
    (((zeroSession true).random.Unfailing ∧ (zeroSession true).wrap.Unfailing) ∧
      (∀ (h : Header) (rest : Bytes),
        emitted Call.run [.start] (zeroSession true, ()) ≠ h.encode ++ rest) ∧
      Session.isReady (after Call.run [.start] (zeroSession true, ())).1 = false) ∧
    (overlongSession.random.Unfailing ∧ overlongSession.wrap.Unfailing) ∧
      ∃ field n,
        Header.decode (emitted Call.run [.start] (overlongSession, ()))
            (some overlongSession.options.version) =
          .error (.header (.wrappedTooLong field n)) := by
  have hnothing : emitted Call.run [.start] (zeroSession true, ()) = [] := by decide
  refine ⟨⟨⟨fun n w => ⟨_, w, rfl⟩, fun plain w => ⟨plain, w, rfl⟩⟩, fun h rest heq => ?_,
    by decide⟩, ⟨fun n w => ⟨_, w, rfl⟩, fun _ w => ⟨_, w, rfl⟩⟩, ?_⟩
  · have hlen := congrArg List.length (hnothing.symm.trans heq)
    rw [List.length_nil, List.length_append, Header.length_encode, Header.encodedLen,
      Header.fixedLen] at hlen
    omega
  · have hlen : (List.replicate (maxWrappedLen + 1) (0 : UInt8)).length = maxWrappedLen + 1 :=
      List.length_replicate
    have hfits : (List.replicate (maxWrappedLen + 1) (0 : UInt8)).length < UInt32.size := by
      rw [hlen]
      decide
    rw [overlongSession, emitted_wrappingSession]
    refine Header.decode_encode_tooLong rfl hfits hfits fun hle => ?_
    exact Nat.not_succ_le_self _ (hlen ▸ hle.1)

end FamilySession

end SealedStream
