import SealedStream.Proofs.Session.Dispatch
import SealedStream.Proofs.Stream.Balking

/-!
# Decrypting whole streams

`decrypt` over a working source and a working sink does what a decoder does that has the whole
stream before it. In general (`decrypt_of_ready`, `decrypt_of_error?`) this is what the session makes
of the bytes of the source, however the source cuts them; for the sessions of the bundled families
and the dispatchers over them it is spelled out in `FamilySession.Verdict` and `Dispatcher.Verdict`,
and `decrypt_verdict` is the main result.
-/

namespace SealedStream

/-! ## Errors in a copying loop -/

/-- No error but a failed transfer asks a copying loop to try again. -/
theorem Error.not_isInterrupted {e : Error} (h : e.isIo = false) : e.toIo.isInterrupted = false := by
  cases e with
  | io _ => cases h
  | _ => rfl

variable {σ κ ρ ς : Type} [Session κ σ] [Source σ ρ] [Sink σ ς]

section

variable {S : WorkingSource σ ρ} (K : WorkingSink σ ς) {D : Bytes → Progress}
  {At : Bytes → κ → Prop} {w : Bytes}

open CipherReader (Open fresh_new run_read)

/-- Copying the rest of the plaintext: by induction on the rounds, each of which moves at least a
byte. -/
theorem copyLoop_spec (hD : Decodes D At w) {fuel : Nat} (hfuel : w.length < fuel) :
    ∀ (rounds count : Nat) {given rest : Bytes} {r : CipherReader κ ρ} {s : ς},
      Open S D At w given r → D w = .ready (given ++ rest) → rest.length < rounds →
      rest.length ≤ fuel → K.works s → ∀ env : Env σ, ∃ r' s' env',
        copyLoop fuel rounds count ((r, s), env) = .ok (count + rest.length) ((r', s'), env') ∧
          K.works s' ∧ K.content s' = K.content s ++ rest
  | 0, _, _, _, _, _, _, _, hlt, _, _, _ => absurd hlt (Nat.not_lt_zero _)
  | rounds + 1, count, given, rest, r, s, h, hw, hlt, hle, hs, env => by
    unfold copyLoop
    have hlen : 0 < Source.copyLen := by decide
    rcases CipherReader.readBytes_spec hD hfuel h hlen env with
      ⟨e, s', he, -⟩ | ⟨out, r', env', hread, h', hend⟩
    · rw [hw] at he
      cases he
    · simp only [run_read, hread]
      cases out with
      | nil =>
        have hrest : rest = [] := by
          have := hend rfl
          rw [hw, Progress.ready.injEq] at this
          simpa using this
        subst hrest
        exact ⟨r', s, env', rfl, hs, (List.append_nil _).symm⟩
      | cons b bs =>
        obtain ⟨rest', hrest'⟩ := h'.plain hD
        rw [hw, Progress.ready.injEq, List.append_assoc] at hrest'
        have hrest : rest = b :: bs ++ rest' := List.append_cancel_left hrest'
        have hlenrest : rest.length = bs.length + 1 + rest'.length := by
          rw [hrest, List.length_append, List.length_cons]
        rw [hrest, ← List.append_assoc] at hw
        have hout : (b :: bs).length ≤ fuel := by
          rw [List.length_cons]
          omega
        obtain ⟨s₁, env₁, hwrite, hs₁, hc₁⟩ := Sink.writeAll_spec K hs hout env'
        simp only [hwrite]
        obtain ⟨r₂, s₂, env₂, hcopy, hs₂, hc₂⟩ := copyLoop_spec hD hfuel rounds
          (count + (b :: bs).length) (.inr h') hw (by omega) (by omega) hs₁ env₁
        refine ⟨r₂, s₂, env₂, ?_, hs₂, ?_⟩
        · rw [hcopy, hlenrest, List.length_cons, Nat.add_assoc]
        · rw [hc₂, hc₁, List.append_assoc, hrest]

/-- The transfer to the sink `s` failed with `e`, and the sink was not touched. -/
def Refused (s : ς) (run : EStateM.Result Error ((ρ × ς) × Env σ) Nat) (e : Error) : Prop :=
  ∃ source' env', run = .error e ((source', s), env')

/-- The transfer to the sink `s` counted `n` bytes, and the sink got `bytes`. -/
def Wrote (K : WorkingSink σ ς) (s : ς)
    (run : EStateM.Result Error ((ρ × ς) × Env σ) Nat) (n : Nat) (bytes : Bytes) : Prop :=
  ∃ source' s' env', run = .ok n ((source', s'), env') ∧ K.works s' ∧
    K.content s' = K.content s ++ bytes

variable {source : ρ} {k : κ} {s : ς}

/-- A source whose bytes are a stream is decrypted. -/
theorem decrypt_of_ready (hsource : S.works source) (hs : K.works s)
    (hD : Decodes D At (S.remaining source)) (hk : At [] k) {p : Bytes}
    (hp : D (S.remaining source) = .ready p) {fuel : Nat}
    (hfuel : (S.remaining source).length < fuel) (hlen : p.length < fuel) (env : Env σ) :
    Wrote K s (decrypt fuel k ((source, s), env)) p.length p := by
  obtain ⟨r₁, s₁, env₁, hcopy, hs₁, hc₁⟩ := copyLoop_spec K hD hfuel fuel 0
    (.inl ⟨rfl, fresh_new hsource hk⟩) hp hlen (Nat.le_of_lt hlen) hs env
  obtain ⟨s₂, env₂, hflush, hs₂, hc₂⟩ := K.flush hs₁ fuel env₁
  refine ⟨r₁.inner, s₂, env₂, ?_, hs₂, by rw [hc₂, hc₁]⟩
  rw [Nat.zero_add] at hcopy
  simp only [decrypt, hD.mode hk, ne_eq, not_true_eq_false, if_false, copy, hcopy, hflush]

/-- A source whose bytes are no stream is refused before anything is written, with the error as it
comes out of the copying loop. -/
theorem decrypt_of_error? (hsource : S.works source) (hD : Decodes D At (S.remaining source))
    (hk : At [] k) {e : Error} (he : (D (S.remaining source)).error? = some e)
    (hx : e.toIo.isInterrupted = false) {fuel : Nat} (hfuel : (S.remaining source).length < fuel)
    (env : Env σ) : Refused s (decrypt fuel k ((source, s), env)) (.ofIo e.toIo) := by
  obtain ⟨rounds, rfl⟩ : ∃ rounds, fuel = rounds + 1 := ⟨fuel - 1, by omega⟩
  have hread := CipherReader.readBytes_spec hD hfuel (.inl ⟨rfl, fresh_new hsource hk⟩)
    (show 0 < Source.copyLen by decide) env
  rcases hread with ⟨e', t, he', hread⟩ | ⟨out, r', env', -, h', hend⟩
  · rw [he', Option.some.injEq] at he
    subst he
    refine ⟨t.1.inner, t.2, ?_⟩
    simp only [decrypt, hD.mode hk, ne_eq, not_true_eq_false, if_false, copy, copyLoop, run_read,
      hread, hx, Bool.false_eq_true]
  · obtain ⟨rest, hrest⟩ := h'.plain hD
    rw [hrest] at he
    cases he

/-- Nothing stands between a decoder and the caller of `decrypt` if its error is no failed
transfer. -/
theorem decrypt_of_refused (hsource : S.works source) (hD : Decodes D At (S.remaining source))
    (hk : At [] k) {e : Error} (he : (D (S.remaining source)).error? = some e)
    (hio : e.isIo = false) {fuel : Nat} (hfuel : (S.remaining source).length < fuel)
    (env : Env σ) : Refused s (decrypt fuel k ((source, s), env)) e := by
  have hrefused := decrypt_of_error? (s := s) hsource hD hk he (Error.not_isInterrupted hio) hfuel env
  rwa [Error.ofIo_toIo hio] at hrefused

end

/-! ## The decoder that has it all before it -/

/-- What a decoder of the family `f` that has all of `w` before it says of it: `refused` with an error,
or `wrote` so many bytes. -/
def FamilySession.Verdict (f : BundledFamily) (s : FamilySession σ CounterStream) (world : σ)
    (w : Bytes) (refused : Error → Prop) (wrote : Nat → Bytes → Prop) : Prop :=
  match Header.decode w s.expectedVersion with
  | .error e => refused e
  | .ok .needMore => refused (.truncatedHeader w.length)
  | .ok (.complete h n) =>
    match outcome (KeyMaterial.openHeader h s.wrap s.family world) with
    | .error e => refused e
    | .ok m => wrote (w.length - n) (Bytes.xor (w.drop n)
        (CounterStream.keystream (f.blockCipher m.key) (Bytes.toNat m.iv) 0 (w.length - n)))

/-- What a decoder says of `w` that goes by the id in front of it: what the session registered for the
id says of the rest, or else the one registered for the default type. -/
def Dispatcher.Verdict (families : UInt32 → BundledFamily)
    (d : Dispatcher σ (FamilySession σ CounterStream)) (world : σ) (w : Bytes)
    (refused : Error → Prop) (wrote : Nat → Bytes → Prop) : Prop :=
  match Bytes.be32? w with
  | none => refused (.truncatedHeader w.length)
  | some id =>
    match d.registry.get? id with
    | some make =>
      (make d.context).Verdict (families id) world (w.drop idLen) refused wrote
    | none =>
      match d.defaultType.bind fun t => (d.registry.get? t).map (t, ·) with
      | some (t, make) =>
        (make d.context).Verdict (families t) world (w.drop idLen) refused wrote
      | none => refused (.unsupportedAlgorithm id)

section

variable {refused : Error → Prop} {wrote : Nat → Bytes → Prop} {world : σ} {w : Bytes}

theorem FamilySession.verdict_of_progress {f : BundledFamily} {s : FamilySession σ CounterStream}
    (hr : ∀ e, (s.progress f world w).error? = some e → refused e)
    (hw : ∀ p, s.progress f world w = .ready p → wrote p.length p) :
    s.Verdict f world w refused wrote := by
  unfold Verdict
  cases hd : Header.decode w s.expectedVersion with
  | error e => exact hr e (by rw [progress_of_refused hd]; rfl)
  | ok d =>
    cases d with
    | needMore => exact hr _ (by rw [progress_of_needMore hd]; rfl)
    | complete h n =>
      cases ho : outcome (KeyMaterial.openHeader h s.wrap s.family world) with
      | error e =>
        simp only [ho]
        exact hr e (by rw [progress_of_unopened hd ho]; rfl)
      | ok m =>
        simp only [ho]
        have := hw _ (progress_of_opened hd ho)
        rw [CounterStream.length_apply, List.length_drop] at this
        simpa only [CounterStream.apply, BundledFamily.stream, List.length_drop] using this

theorem Dispatcher.verdict_of_progress {families : UInt32 → BundledFamily}
    {d : Dispatcher σ (FamilySession σ CounterStream)}
    (hr : ∀ e, (d.familyProgress families world w).error? = some e → refused e)
    (hw : ∀ p, d.familyProgress families world w = .ready p → wrote p.length p) :
    d.Verdict families world w refused wrote := by
  unfold Verdict
  unfold familyProgress at hr hw
  cases hi : Bytes.be32? w with
  | none => exact hr _ (by rw [progress_of_short hi]; rfl)
  | some id =>
    cases hid : d.registry.get? id with
    | some make =>
      have hs : d.select id d.defaultType = .ok (id, make d.context) := by
        simp only [select, hid]
      rw [progress_of_known hi hs] at hr hw
      simp only [hid]
      exact FamilySession.verdict_of_progress hr hw
    | none =>
      cases ht : d.defaultType.bind fun t => (d.registry.get? t).map (t, ·) with
      | some p =>
        have hs : d.select id d.defaultType = .ok (p.1, p.2 d.context) := by
          simp only [select, hid, ht]
        rw [progress_of_known hi hs] at hr hw
        simp only [hid]
        exact FamilySession.verdict_of_progress hr hw
      | none =>
        have hs : d.select id d.defaultType = .error (.unsupportedAlgorithm id) := by
          simp only [select, hid, ht]
        simp only [hid]
        exact hr _ (by rw [progress_of_unknown hi hs]; rfl)

end

theorem FamilySession.length_of_ready {f : BundledFamily} {s : FamilySession σ CounterStream}
    {world : σ} {w p : Bytes} (h : s.progress f world w = .ready p) : p.length ≤ w.length := by
  obtain ⟨hdr, n, m, -, -, rfl⟩ := progress_eq_ready h
  rw [CounterStream.length_apply, List.length_drop]
  omega

theorem Dispatcher.length_of_ready {families : UInt32 → BundledFamily}
    {d : Dispatcher σ (FamilySession σ CounterStream)} {world : σ} {w p : Bytes}
    (h : d.familyProgress families world w = .ready p) : p.length ≤ w.length := by
  obtain ⟨requested, id, k, -, -, hready⟩ := progress_eq_ready h
  have := FamilySession.length_of_ready hready
  rw [List.length_drop] at this
  omega

/-- **`decrypt` is the decoder that has the whole stream before it**, on every byte string, well formed
or not, however the source cuts it and the sink takes the plaintext: for sessions of the bundled
families under any options and any key wrap that unwraps by a function of its input, and for
dispatchers over registries of such sessions. What is refused is refused before the sink is touched,
and with the decoder's own error if this is no failed transfer. A key wrap may fail with one all the
same. It comes out as the error that it carries, if it carries any; and one that is interrupted has
the copying loop read on, so that a session of a family finds the stream cut short (nothing is said
of a dispatcher then). `fuel` bounds the rounds of the loops; as many as there are bytes are
enough. -/
theorem decrypt_verdict (S : WorkingSource σ ρ) (K : WorkingSink σ ς) {source : ρ} {s : ς}
    (hsource : S.works source) (hs : K.works s) {fuel : Nat}
    (hfuel : (S.remaining source).length < fuel) (env : Env σ) :
    (∀ (f : BundledFamily) (session : FamilySession σ CounterStream), session.Opens f →
      session.Verdict f env.world (S.remaining source)
        (fun
          | .io e => Refused s (decrypt fuel session ((source, s), env))
            (if e.isInterrupted then .truncatedHeader (S.remaining source).length else .ofIo e)
          | e => Refused s (decrypt fuel session ((source, s), env)) e)
        (Wrote K s (decrypt fuel session ((source, s), env)))) ∧
    ∀ (families : UInt32 → BundledFamily) (d : Dispatcher σ (FamilySession σ CounterStream)),
      d.Opens families → d.Verdict families env.world (S.remaining source)
        (fun
          | .io e => e.isInterrupted = false →
            Refused s (decrypt fuel d ((source, s), env)) (.ofIo e)
          | e => Refused s (decrypt fuel d ((source, s), env)) e)
        (Wrote K s (decrypt fuel d ((source, s), env))) := by
  constructor
  · intro f session hopens
    have hD := FamilySession.decodes hopens env.world (S.remaining source)
    have hk := FamilySession.after_nil hopens env.world
    refine FamilySession.verdict_of_progress (fun e he => ?_) (fun p hp => ?_)
    · cases e with
      | io e =>
        simp only []
        split
        · rename_i hint
          exact decrypt_of_interrupted _ hopens hsource (Progress.eq_failed he) hint hfuel env
        · rename_i hint
          exact decrypt_of_error? hsource hD hk he (Bool.eq_false_iff.mpr hint) hfuel env
      | _ => exact decrypt_of_refused hsource hD hk he rfl hfuel env
    · have hlen := FamilySession.length_of_ready hp
      exact decrypt_of_ready K hsource hs hD hk hp hfuel (by omega) env
  · intro families d hopens
    have hD := Dispatcher.family_decodes hopens env.world (S.remaining source)
    have hk := Dispatcher.familyAfter_nil hopens env.world (S.remaining source)
    refine Dispatcher.verdict_of_progress (fun e he => ?_) (fun p hp => ?_)
    · cases e with
      | io e => exact fun hint => decrypt_of_error? hsource hD hk he hint hfuel env
      | _ => exact decrypt_of_refused hsource hD hk he rfl hfuel env
    · have hlen := Dispatcher.length_of_ready hp
      exact decrypt_of_ready K hsource hs hD hk hp hfuel (by omega) env

section

open Scripted

/-- Two bytes behind a header, read seven at a time and written one by one; and an id that nobody
registered. -/
theorem decrypt_scripted :
    Wrote ScriptedSink.working { chunk := some 1 }
      (decrypt 60 (bareBuilder.familySession BundledFamily.sm4.family .decrypt)
        ((({ data := (bareHeader.encode ++ [5, 6]).toArray, chunk := some 7 } : ScriptedSource),
          { chunk := some 1 }), ⟨[], ()⟩)) 2
      (Bytes.xor [5, 6] (CounterStream.keystream (BundledFamily.sm4.blockCipher (.replicate 16 4))
        (Bytes.toNat (.replicate 16 3)) 0 2)) ∧
    Refused ({} : ScriptedSink)
      (decrypt 60 (bareBuilder.dispatcher .decrypt (Registry.bundled id id) 1 none)
        ((({ data := #[0, 0, 0, 9] } : ScriptedSource), {}), ⟨[], ()⟩))
      (.unsupportedAlgorithm 9) := by
  have hw : bareBuilder.wrap.Functional := fun _ _ _ => rfl
  constructor
  · have hr : (ScriptedSource.working : WorkingSource Unit ScriptedSource).works
        { data := (bareHeader.encode ++ [5, 6]).toArray, chunk := some 7 } := ⟨rfl, by decide⟩
    have hs : (ScriptedSink.working : WorkingSink Unit ScriptedSink).works { chunk := some 1 } :=
      ⟨rfl, rfl, by decide⟩
    exact (decrypt_verdict _ _ hr hs (show 46 < 60 by decide) ⟨[], ()⟩).1 .sm4 _
      (CipherBuilder.opens_familySession hw .sm4)
  · have hr : (ScriptedSource.working : WorkingSource Unit ScriptedSource).works
        { data := #[0, 0, 0, 9] } := ⟨rfl, by decide⟩
    have hs : (ScriptedSink.working : WorkingSink Unit ScriptedSink).works {} :=
      ⟨rfl, rfl, by decide⟩
    exact (decrypt_verdict _ _ hr hs (show 4 < 60 by decide) ⟨[], ()⟩).2 _ _
      (CipherBuilder.opens_dispatcher hw 1 none)

/-- A key wrap that wraps secrets as they are, and fails to unwrap any with the transfer `e`. -/
def shutWrap (e : IoError) : KeyWrap Unit := ⟨pure, fun _ => throw (.io e)⟩

/-- A session over this key wrap. -/
def shutSession (e : IoError) : FamilySession Unit CounterStream :=
  ({ bareBuilder with wrap := shutWrap e } : CipherBuilder Unit).familySession
    BundledFamily.sm4.family .decrypt

/-- What comes of a whole header that it does not open. -/
def shutOut (e : IoError) : Except Error Nat :=
  outcome (decrypt 60 (shutSession e)
    ((({ data := bareHeader.encode.toArray } : ScriptedSource), ({} : ScriptedSink)), ⟨[], ()⟩))

/-- `decrypt` does not always fail with the error that the header fails to open with: not if this is
an interrupted transfer, nor if it is one that carries another error. -/
theorem not_decrypt_verdict :
    (∀ e, (shutSession e).Opens .sm4 ∧
      outcome (KeyMaterial.openHeader bareHeader (shutSession e).wrap (shutSession e).family ()) =
        .error (.io e)) ∧
    shutOut (.plain .interrupted "try again") = .error (.truncatedHeader 44) ∧
    shutOut (.carrying .other .aborted) = .error .aborted := by
  have hopens (e : IoError) : (shutSession e).Opens .sm4 := ⟨rfl, rfl, rfl, fun _ _ _ => rfl⟩
  have hprogress (e : IoError) :
      (shutSession e).progress .sm4 () bareHeader.encode = .failed (.io e) :=
    FamilySession.progress_of_unopened rfl rfl
  have hr : (ScriptedSource.working : WorkingSource Unit ScriptedSource).works
      { data := bareHeader.encode.toArray } := ⟨rfl, by decide⟩
  refine ⟨fun e => ⟨hopens e, rfl⟩, ?_, ?_⟩
  · obtain ⟨_, _, hrun⟩ := decrypt_of_interrupted ({} : ScriptedSink) (hopens _) hr
      (hprogress (.plain .interrupted "try again")) rfl (show 44 < 60 by decide) ⟨[], ()⟩
    rw [shutOut, hrun]
    rfl
  · have hD := FamilySession.decodes (hopens (.carrying .other .aborted)) () bareHeader.encode
    obtain ⟨_, _, hrun⟩ := decrypt_of_error? (s := ({} : ScriptedSink)) hr hD
      (FamilySession.after_nil (hopens _) ()) (congrArg Progress.error? (hprogress _)) rfl
      (show 44 < 60 by decide) ⟨[], ()⟩
    rw [shutOut, hrun]
    rfl

end

end SealedStream
