import SealedStream.Proofs.Session.HeaderFirst
import SealedStream.Proofs.Stream.Honest
import SealedStream.Proofs.Stream.RoundTrip

/-!
# Writing on after failures

The caller of a writer may go on after a write that failed. The session has then moved on, if it was
the sink that failed: what the sink did not take of the header or of the ciphertext is gone, and
neither the next write nor closing the writer makes up for it (`CipherWriter.Torn`). A stream that
closes is complete if no write failed in this way, and only then: otherwise the sink holds fewer
bytes than the header and all the ciphertext (`content_of_shutdown`).
-/

namespace SealedStream

variable {σ κ ς : Type}

/-! ## What a sink has of a stream -/

namespace HonestSink

variable [Sink σ ς]

/-- The sink holds, behind the bytes `before`, some of the bytes `whole`, in their order: all of
them, or it is `torn`. -/
structure Keeps (K : HonestSink σ ς) (before whole : Bytes) (torn : Prop) (s : ς) : Prop where
  holds : K.holds s
  content : ∃ kept, K.content s = before ++ kept ∧ kept.Sublist whole ∧
    (torn ↔ kept.length < whole.length)

variable {K : HonestSink σ ς} {before whole : Bytes} {torn torn' : Prop} {s : ς}

theorem keeps_nothing (hs : K.holds s) : K.Keeps (K.content s) [] False s :=
  ⟨hs, [], (List.append_nil _).symm, List.Sublist.refl _, by simp⟩

theorem Keeps.congr (h : K.Keeps before whole torn s) (hiff : torn ↔ torn') :
    K.Keeps before whole torn' s := by
  rw [propext hiff] at h
  exact h

/-- Writing more tears what a sink holds if it fails. -/
theorem Keeps.writeAll (h : K.Keeps before whole torn s) (fuel : Nat) (piece : Bytes)
    (env : Env σ) :
    K.Keeps before (whole ++ piece) (torn ∨ failed (Sink.writeAll fuel piece (s, env)) = true)
      (reached (Sink.writeAll fuel piece (s, env))).1 := by
  obtain ⟨kept, hc, hsub, htorn⟩ := h.content
  obtain ⟨n, hn⟩ := K.writeAll_spec h.holds fuel piece env
  refine ⟨hn.holds, kept ++ piece.take n, ?_, hsub.append (List.take_sublist n piece), ?_⟩
  · rw [hn.content, hc, List.append_assoc]
  · have hkept := hsub.length_le
    have hle := hn.le
    rw [htorn, hn.failed, List.length_append, List.length_append, List.length_take,
      Nat.min_eq_left hle]
    omega

theorem Keeps.flush (h : K.Keeps before whole torn s) (fuel : Nat) (env : Env σ) :
    K.Keeps before whole torn (reached (Sink.flush fuel (s, env))).1 := by
  obtain ⟨hs, hc⟩ := K.flush h.holds fuel env
  refine ⟨hs, ?_⟩
  rw [hc]
  exact h.content

end HonestSink

theorem eq_ok_of_not_failed {ε τ : Type} {r : EStateM.Result ε τ Unit} (h : failed r = false) :
    r = .ok () (reached r) := by
  cases r with
  | ok _ _ => rfl
  | error _ _ => cases h

theorem CounterStream.apply_moves (c : CounterStream) (b : UInt8) (bs : Bytes) :
    (c.apply (b :: bs)).2 ≠ c := by
  intro heq
  have := congrArg CounterStream.position heq
  simp only [apply, List.length_cons] at this
  omega

namespace CipherWriter

/-! ## Writes of a caller who goes on -/

section

variable [Session κ σ] [Sink σ ς]

/-- Where the writes leave a writer. -/
def writes (fuel : Nat) : List Bytes → CipherWriter κ ς × Env σ → CipherWriter κ ς × Env σ
  | [], s => s
  | bytes :: rest, s => writes fuel rest (reached (writeBytes fuel bytes s))

/-- The bytes of the writes that succeed. -/
def accepted (fuel : Nat) : List Bytes → CipherWriter κ ς × Env σ → Bytes
  | [], _ => []
  | bytes :: rest, s => (if failed (writeBytes fuel bytes s) then [] else bytes) ++
      accepted fuel rest (reached (writeBytes fuel bytes s))

/-- A write that fails although the session moved on. -/
def Tears (fuel : Nat) (bytes : Bytes) (s : CipherWriter κ ς × Env σ) : Prop :=
  failed (writeBytes fuel bytes s) = true ∧
    (reached (writeBytes fuel bytes s)).1.session ≠ s.1.session

/-- One of the writes fails although the session moved on. -/
def Torn (fuel : Nat) : List Bytes → CipherWriter κ ς × Env σ → Prop
  | [], _ => False
  | bytes :: rest, s => Tears fuel bytes s ∨ Torn fuel rest (reached (writeBytes fuel bytes s))

end

/-! ## What every write preserves -/

section

variable [Sink σ ς]

/-- The session runs the content cipher `c` that was made with `head` and has had the bytes `fed`;
the writes of `accepted` succeeded. -/
structure Running (K : HonestSink σ ς) (running : CounterStream → κ) (before head : Bytes)
    (c : CounterStream) (fed accepted : Bytes) (torn : Prop) (wr : CipherWriter κ ς) : Prop where
  session : wr.session = running (c.apply fed).2
  sink : K.Keeps before (head ++ (c.apply fed).1) torn wr.inner
  sublist : accepted.Sublist fed
  whole : ¬ torn → fed = accepted ∧ wr.started = true

/-- A session that has just begun has had no bytes. -/
theorem running_nil {K : HonestSink σ ς} {running : CounterStream → κ} {before head : Bytes}
    {c : CounterStream} {torn : Prop} {wr : CipherWriter κ ς} (hsession : wr.session = running c)
    (hsink : K.Keeps before head torn wr.inner) (hstarted : ¬ torn → wr.started = true) :
    Running K running before head c [] [] torn wr where
  session := hsession
  sink := by
    rw [show (c.apply []).1 = [] from rfl, List.append_nil]
    exact hsink
  sublist := List.Sublist.refl _
  whole hnot := ⟨rfl, hstarted hnot⟩

/-- What the session is fed next follows what it has had: `whole` and `sublist` compare all of it
with the bytes `accepted'`, those of the writes that succeeded by then. -/
theorem Running.add {K : HonestSink σ ς} {running : CounterStream → κ}
    {before head fed accepted accepted' bytes : Bytes} {c : CounterStream} {torn torn' : Prop}
    {wr wr' : CipherWriter κ ς} (hr : Running K running before head c fed accepted torn wr)
    (hsession : wr'.session = running ((c.apply fed).2.apply bytes).2)
    (hsink : K.Keeps before (head ++ (c.apply fed).1 ++ ((c.apply fed).2.apply bytes).1) torn'
      wr'.inner)
    (hsub : accepted.Sublist fed → accepted'.Sublist (fed ++ bytes))
    (hwhole : ¬ torn' → fed ++ bytes = accepted' ∧ wr'.started = true) :
    Running K running before head c (fed ++ bytes) accepted' torn' wr' where
  session := by rw [CounterStream.apply_append, hsession]
  sink := by
    rw [CounterStream.apply_append, ← List.append_assoc]
    exact hsink
  sublist := hsub hr.sublist
  whole := hwhole

/-- The session has begun. -/
def Begun (K : HonestSink σ ς) (running : CounterStream → κ)
    (sealing : Step σ (CounterStream × Bytes)) (before accepted : Bytes) (torn : Prop)
    (wr : CipherWriter κ ς) : Prop :=
  ∃ head c fed v v', sealing v = .ok (c, head) v' ∧
    Running K running before head c fed accepted torn wr

/-- The session has begun, or is still as it was at first, and nothing was accepted. -/
def Kept (K : HonestSink σ ς) (k₀ : κ) (running : CounterStream → κ)
    (sealing : Step σ (CounterStream × Bytes)) (before accepted : Bytes) (torn : Prop)
    (wr : CipherWriter κ ς) : Prop :=
  (wr.session = k₀ ∧ wr.started = false ∧ accepted = [] ∧ K.Keeps before [] torn wr.inner) ∨
    Begun K running sealing before accepted torn wr

end

variable [Session κ σ] [Sink σ ς] {K : HonestSink σ ς} {k₀ : κ} {running : CounterStream → κ}
  {sealing : Step σ (CounterStream × Bytes)} {before accepted : Bytes} {torn : Prop}
  {wr : CipherWriter κ ς}

/-- Beginning the stream fails with the session as it was, or with a head that the sink did not
take. -/
theorem ensureStarted_kept (h : Session.Begins k₀ running sealing)
    (hk : Kept K k₀ running sealing before accepted torn wr) (fuel : Nat) (env : Env σ) :
    (∃ e wr' env', (ensureStarted fuel : Push σ κ ς Unit) (wr, env) = .error e (wr', env') ∧
      wr'.closed = wr.closed ∧
      Kept K k₀ running sealing before accepted (torn ∨ wr'.session ≠ wr.session) wr') ∨
    ∃ wr' env', (ensureStarted fuel : Push σ κ ς Unit) (wr, env) = .ok () (wr', env') ∧
      wr'.closed = wr.closed ∧ (wr'.session = wr.session ∨ Session.isReady wr.session = false) ∧
      Begun K running sealing before accepted torn wr' := by
  rcases hk with ⟨hsession, hstarted, rfl, hsink⟩ | ⟨head, c, fed, v, v', hs, hr⟩
  · simp only [ensureStarted, run_bind, run_get, hstarted, run_ite, run_onSession, hsession,
      h.start, Bool.not_false, if_true]
    cases hs : sealing env.world with
    | error e w' =>
      refine .inl ⟨e, _, _, rfl, rfl, .inl ⟨rfl, rfl, rfl, hsink.congr ?_⟩⟩
      exact ⟨.inl, fun h => h.resolve_right fun hne => hne rfl⟩
    | ok p w' =>
      obtain ⟨c, head⟩ := p
      have hne : running c ≠ k₀ := by
        intro heq
        have := h.ready c
        rw [heq, h.fresh] at this
        cases this
      have hsink' := hsink.writeAll fuel head { env with world := w' }
      rw [List.nil_append] at hsink'
      simp only [run_onInner]
      cases hw : (Sink.writeAll fuel head : Transfer σ ς Unit)
          (wr.inner, { env with world := w' }) with
      | error e t =>
        -- the session is ready from here on and will not make its head again
        rw [hw] at hsink'
        have htorn : K.Keeps before head (torn ∨ running c ≠ k₀) t.1 :=
          hsink'.congr (iff_of_true (.inr rfl) (.inr hne))
        exact .inl ⟨_, _, _, rfl, rfl, .inr ⟨head, c, [], _, _, hs,
          running_nil rfl htorn fun hnot => absurd (Or.inr hne) hnot⟩⟩
      | ok _ t =>
        rw [hw] at hsink'
        have hwhole : K.Keeps before head torn t.1 := hsink'.congr (by simp [failed])
        exact .inr ⟨_, _, rfl, rfl, .inr h.fresh, head, c, [], _, _, hs,
          running_nil rfl hwhole fun _ => rfl⟩
  · cases hstarted : wr.started with
    | true =>
      refine .inr ⟨wr, env, ?_, rfl, .inl rfl, head, c, fed, v, v', hs, hr⟩
      simp only [ensureStarted, run_bind, run_get, hstarted, run_ite]
      rfl
    | false =>
      have hstart : (Session.start : Step (κ × σ) Bytes) (wr.session, env.world) =
          .ok [] (wr.session, env.world) := by
        rw [hr.session]
        exact h.run .start ((c.apply fed).2, env.world)
      simp only [ensureStarted, run_bind, run_get, hstarted, run_ite, run_onSession, hstart,
        Bool.not_false, if_true, run_onInner, Sink.writeAll_nil, run_update]
      exact .inr ⟨_, _, rfl, rfl, .inl rfl, head, c, fed, v, v', hs, hr.session, hr.sink,
        hr.sublist, fun hnot => ⟨(hr.whole hnot).1, rfl⟩⟩

theorem prepare_kept (h : Session.Begins k₀ running sealing)
    (hk : Kept K k₀ running sealing before accepted torn wr) (hc : wr.closed = false) (fuel : Nat)
    (env : Env σ) :
    (∃ e wr' env', (prepare fuel : Push σ κ ς Unit) (wr, env) = .error e (wr', env') ∧
      wr'.closed = false ∧
      Kept K k₀ running sealing before accepted (torn ∨ wr'.session ≠ wr.session) wr') ∨
    ∃ wr' env', (prepare fuel : Push σ κ ς Unit) (wr, env) = .ok () (wr', env') ∧
      wr'.closed = false ∧ (wr'.session = wr.session ∨ Session.isReady wr.session = false) ∧
      Begun K running sealing before accepted torn wr' := by
  simp only [prepare, run_bind]
  rcases checkAbort_cases wr env with hcheck | ⟨e, hcheck⟩
  · have hstart := ensureStarted_kept h hk fuel env
    rw [hc] at hstart
    simp only [hcheck, run_get, hc, run_ite, Bool.false_eq_true, if_false]
    exact hstart
  · rw [hcheck]
    refine .inl ⟨e, wr, env, rfl, hc, ?_⟩
    rwa [show (torn ∨ wr.session ≠ wr.session) = torn by simp]

/-- **A write is accepted with all of its bytes, or fails**, and it tears the stream if the session
has moved on. -/
theorem writeBytes_kept (h : Session.Begins k₀ running sealing) (hinj : Function.Injective running)
    (hk : Kept K k₀ running sealing before accepted torn wr) (hc : wr.closed = false) (fuel : Nat)
    (bytes : Bytes) (env : Env σ) :
    (∃ e wr' env', (writeBytes fuel bytes : Transfer σ (CipherWriter κ ς) Nat) (wr, env) =
        .error e (wr', env') ∧ wr'.closed = false ∧
      Kept K k₀ running sealing before accepted (torn ∨ wr'.session ≠ wr.session) wr') ∨
    ∃ n wr' env', (writeBytes fuel bytes : Transfer σ (CipherWriter κ ς) Nat) (wr, env) =
        .ok n (wr', env') ∧ wr'.closed = false ∧
      Kept K k₀ running sealing before (accepted ++ bytes) torn wr' := by
  simp only [writeBytes, run_bind, run_carried]
  rcases prepare_kept h hk hc fuel env with
    ⟨e, wr', env', he, hc', hk'⟩ | ⟨wr', env', hok, hc', hsame, head, c, fed, v, v', hs, hr⟩
  · rw [he]
    exact .inl ⟨e.toIo, wr', env', rfl, hc', hk'⟩
  · simp only [hok, run_ite, run_pure]
    cases bytes with
    | nil =>
      refine .inr ⟨0, wr', env', rfl, hc', .inr ⟨head, c, fed, v, v', hs, ?_⟩⟩
      rw [List.append_nil]
      exact hr
    | cons b bs =>
      have hupdate : Session.update (b :: bs) (wr'.session, env'.world) =
          .ok (((c.apply fed).2.apply (b :: bs)).1)
            (running ((c.apply fed).2.apply (b :: bs)).2, env'.world) := by
        rw [hr.session]
        exact h.run (.update (b :: bs)) ((c.apply fed).2, env'.world)
      have hsink := hr.sink.writeAll fuel ((c.apply fed).2.apply (b :: bs)).1 env'
      simp only [run_carried, run_onSession, hupdate, run_onSink, run_bind, List.isEmpty_cons,
        Bool.false_eq_true, if_false]
      cases hw : (Sink.writeAll fuel ((c.apply fed).2.apply (b :: bs)).1 : Transfer σ ς Unit)
          (wr'.inner, env') with
      | error e t =>
        -- the keystream has moved on, so the session cannot be what it was before the write
        rw [hw] at hsink
        have hmoved : running ((c.apply fed).2.apply (b :: bs)).2 ≠ wr.session := by
          intro heq
          rcases hsame with hsame | hfresh
          · rw [← hsame, hr.session] at heq
            exact CounterStream.apply_moves _ b bs (hinj heq)
          · rw [← heq, h.ready] at hfresh
            cases hfresh
        have htorn : K.Keeps before _
            (torn ∨ running ((c.apply fed).2.apply (b :: bs)).2 ≠ wr.session) t.1 :=
          hsink.congr (iff_of_true (.inr rfl) (.inr hmoved))
        exact .inl ⟨e, _, _, rfl, hc', .inr ⟨head, c, fed ++ b :: bs, v, v', hs,
          hr.add rfl htorn (fun hsub => hsub.trans (List.sublist_append_left fed _))
            fun hnot => absurd (Or.inr hmoved) hnot⟩⟩
      | ok _ t =>
        rw [hw] at hsink
        have hwhole : K.Keeps before _ torn t.1 := hsink.congr (by simp [failed])
        refine .inr ⟨_, _, _, rfl, hc', .inr ⟨head, c, fed ++ b :: bs, v, v', hs,
          hr.add rfl hwhole (fun hsub => hsub.append_right _) fun hnot => ?_⟩⟩
        obtain ⟨hfed, hstarted⟩ := hr.whole hnot
        rw [hfed]
        exact ⟨rfl, hstarted⟩

/-- What a caller's writes leave: by induction on the writes. -/
theorem writes_kept (h : Session.Begins k₀ running sealing) (hinj : Function.Injective running)
    (fuel : Nat) : ∀ (bufs : List Bytes) {accepted : Bytes} {torn : Prop} {wr : CipherWriter κ ς},
    Kept K k₀ running sealing before accepted torn wr → wr.closed = false → ∀ env : Env σ,
    Kept K k₀ running sealing before (accepted ++ CipherWriter.accepted fuel bufs (wr, env))
      (torn ∨ Torn fuel bufs (wr, env)) (writes fuel bufs (wr, env)).1 ∧
    (writes fuel bufs (wr, env)).1.closed = false
  | [], accepted, torn, wr, hk, hc, env => by
    rw [CipherWriter.accepted, Torn, List.append_nil, or_false]
    exact ⟨hk, hc⟩
  | bytes :: rest, accepted, torn, wr, hk, hc, env => by
    rw [CipherWriter.accepted, Torn, writes, ← List.append_assoc, ← or_assoc, Tears]
    rcases writeBytes_kept h hinj hk hc fuel bytes env with
      ⟨e, wr', env', he, hc', hk'⟩ | ⟨n, wr', env', hok, hc', hk'⟩
    · simp only [he, failed, reached, if_true, List.append_nil, true_and]
      exact writes_kept h hinj fuel rest hk' hc' env'
    · simp only [hok, failed, reached, Bool.false_eq_true, if_false, false_and, or_false]
      exact writes_kept h hinj fuel rest hk' hc' env'

/-- A writer that closes has begun the stream, and adds nothing behind what was written before. -/
theorem shutdown_kept (h : Session.Begins k₀ running sealing)
    (hk : Kept K k₀ running sealing before accepted torn wr) (hc : wr.closed = false) {fuel : Nat}
    {strict : Bool} {env : Env σ} {t : CipherWriter κ ς × Env σ}
    (hclose : (shutdown fuel strict : Push σ κ ς Unit) (wr, env) = .ok () t) :
    Begun K running sealing before accepted torn t.1 := by
  have hk' : Kept K k₀ running sealing before accepted torn { wr with closed := true } := by
    rcases hk with hfresh | ⟨head, c, fed, v, v', hs, hr⟩
    · exact .inl hfresh
    · exact .inr ⟨head, c, fed, v, v', hs, hr.session, hr.sink, hr.sublist, hr.whole⟩
  simp only [shutdown, run_bind, run_get, run_ite, hc, Bool.false_eq_true, if_false,
    run_update] at hclose
  rcases checkAbort_cases { wr with closed := true } env with hcheck | ⟨e, hcheck⟩
  · simp only [hcheck] at hclose
    rcases ensureStarted_kept h hk' fuel env with
      ⟨e, wr', env', he, -⟩ | ⟨wr', env', hok, -, -, head, c, fed, v, v', hs, hr⟩
    · simp only [he] at hclose
      cases hclose
    · have hfinal : (Session.finalize : Step (κ × σ) Bytes) (wr'.session, env'.world) =
          .ok [] (wr'.session, env'.world) := by
        rw [hr.session]
        exact h.run .finalize ((c.apply fed).2, env'.world)
      have htail : (writeTail fuel strict : Push σ κ ς Unit) (wr', env') = .ok () (wr', env') := by
        simp only [writeTail, run_onSession, hfinal, run_onInner, Sink.writeAll_nil]
      have hsink := hr.sink.flush fuel env'
      simp only [hok, htail, run_onInner] at hclose
      cases hflush : (Sink.flush fuel : Transfer σ ς Unit) (wr'.inner, env') with
      | error e u =>
        simp only [hflush] at hclose
        cases hclose
      | ok _ u =>
        rw [hflush] at hsink
        simp only [hflush] at hclose
        rcases checkAbort_cases { wr' with inner := u.1 } u.2 with hcheck' | ⟨e, hcheck'⟩
        · simp only [hcheck'] at hclose
          cases hclose
          exact ⟨head, c, fed, v, v', hs, hr.session, hsink, hr.sublist, hr.whole⟩
        · simp only [hcheck'] at hclose
          cases hclose
  · simp only [hcheck] at hclose
    cases hclose

end CipherWriter

/-! ## Streams of the bundled families -/

/-- From any source of the bytes `sealed`, the session decrypts `plain`, to any sink that works. -/
def Session.Recovers [Session κ σ] (k : κ) (sealed plain : Bytes) : Prop :=
  ∀ (ρ ς : Type) [Source σ ρ] [Sink σ ς] (S : WorkingSource σ ρ) (K : WorkingSink σ ς) (source : ρ)
    (sink : ς) (env : Env σ) (fuel : Nat), S.works source → K.works sink →
    S.remaining source = sealed → sealed.length < fuel →
    Wrote K sink (decrypt fuel k ((source, sink), env)) plain.length plain

theorem FamilySession.recovers {f : BundledFamily} {s : FamilySession σ CounterStream}
    (hp : s.phase = .awaiting []) (hf : s.family = f.family) (hfun : s.wrap.Functional)
    {head : Bytes} {c : CounterStream} (hs : s.Seals f head c) (plain : Bytes) :
    Session.Recovers { s with mode := .decrypt } (head ++ (c.apply plain).1) plain := by
  intro ρ ς _ _ S K source sink env fuel hsource hsink hrem hfuel
  have hopens : ({ s with mode := .decrypt } : FamilySession σ CounterStream).Opens f :=
    ⟨rfl, hp, hf, hfun⟩
  have hready : ({ s with mode := .decrypt } : FamilySession σ CounterStream).progress f env.world
      (head ++ (c.apply plain).1) = _ :=
    progress_of_seals rfl rfl rfl hs env.world (c.apply plain).1
  rw [CounterStream.apply_apply, ← hrem] at hready
  have hplain := length_of_ready hready
  rw [← hrem] at hfuel
  exact decrypt_of_ready K hsource hsink (decodes hopens env.world _) (after_nil hopens env.world)
    hready hfuel (by omega) env

namespace CipherWriter

variable [Sink σ ς]

/-- **A stream that closes is complete, unless a failure tore it.** A new writer over a session of a
bundled family writes to a sink that may fail in any call, for a caller who goes on all the same. If
closing succeeds and no write failed after the session had moved on, the sink got one header and the
ciphertext of the bytes of the writes that succeeded, and these are what it decrypts to; if one did,
bytes of the header or of the ciphertext are missing. -/
theorem content_of_shutdown (K : HonestSink σ ς) {f : BundledFamily}
    {wr : CipherWriter (FamilySession σ CounterStream) ς} (hstarted : wr.started = false)
    (hclosed : wr.closed = false) (hinner : K.holds wr.inner)
    (hm : wr.session.mode = .encrypt) (hp : wr.session.phase = .awaiting [])
    (hf : wr.session.family = f.family) (hw : wr.session.wrap.Faithful)
    (hfun : wr.session.wrap.Functional) (bufs : List Bytes) {fuel : Nat} {strict : Bool}
    {env : Env σ} {t : CipherWriter (FamilySession σ CounterStream) ς × Env σ}
    (hclose : (shutdown fuel strict : Push σ _ ς Unit) (writes fuel bufs (wr, env)) = .ok () t) :
    (¬ Torn fuel bufs (wr, env) → ∃ (h : Header) (body : Bytes), h.Admitted none ∧
      K.content t.1.inner = K.content wr.inner ++ (h.encode ++ body) ∧
      Session.Recovers { wr.session with mode := .decrypt } (h.encode ++ body)
        (accepted fuel bufs (wr, env))) ∧
    (Torn fuel bufs (wr, env) → ∃ head c fed kept, wr.session.Seals f head c ∧
      (accepted fuel bufs (wr, env)).Sublist fed ∧
      K.content t.1.inner = K.content wr.inner ++ kept ∧ kept.Sublist (head ++ (c.apply fed).1) ∧
      kept.length < (head ++ (c.apply fed).1).length) := by
  have hbegins := FamilySession.begins hm hp
  have hinj : Function.Injective
      fun c : CounterStream => { wr.session with phase := .ready c } := by
    intro c c' heq
    injection heq with _ _ _ _ _ hphase
    injection hphase
  obtain ⟨hkept, hopen⟩ := writes_kept hbegins hinj fuel bufs
    (.inl ⟨rfl, hstarted, rfl, K.keeps_nothing hinner⟩) hclosed env
  obtain ⟨head, c, fed, v, v', hs, hr⟩ := shutdown_kept hbegins hkept hopen hclose
  obtain ⟨h, rfl, hseal⟩ := FamilySession.sealing_eq_ok hs
  have hseals := FamilySession.sealNew_eq_ok hf hw hseal
  obtain ⟨kept, hcontent, hsub, htorn⟩ := hr.sink.content
  rw [List.nil_append] at hr hsub htorn
  rw [false_or] at hr htorn
  constructor
  · intro hnot
    obtain ⟨hfed, -⟩ := hr.whole hnot
    rw [htorn, Nat.not_lt] at hnot
    have hall := hsub.eq_of_length_le hnot
    have hrecovers := FamilySession.recovers hp hf hfun hseals fed
    obtain ⟨h', hadm, henc⟩ := FamilySession.admitted_of_seals hseals
    rw [henc] at hall hrecovers
    refine ⟨h', (c.apply fed).1, hadm, ?_, ?_⟩
    · rw [hcontent, hall]
    · rw [hfed] at hrecovers ⊢
      exact hrecovers
  · intro htear
    exact ⟨h.encode, c, fed, kept, hseals, hr.sublist, hcontent, hsub, htorn.mp htear⟩

section

open Scripted

theorem faithful_bareBuilder : bareBuilder.wrap.Faithful where
  unwrap := by
    intro plain wrapped w w' h v
    cases h
    rfl
  length := by
    intro plain wrapped w w' h hlen
    cases h
    exact Nat.le_trans hlen (by decide)

/-- A writer of an SM4 stream whose header shows its secrets. -/
def bareWriter (inner : ScriptedSink) :
    CipherWriter (FamilySession Unit CounterStream) ScriptedSink where
  inner := inner
  session := bareBuilder.familySession BundledFamily.sm4.family .encrypt

/-- A sink that is interrupted in the middle of the header. -/
def interruptedSink : ScriptedSink :=
  { chunk := some 40, writeEvents := [(1, .fail (.plain .interrupted "again"))] }

/-- An interrupted call of the sink is made again, and the stream is complete. -/
theorem content_of_interrupted :
    ∃ (h : Header) (body : Bytes), h.Admitted none ∧
      (reached ((close 60 : Push Unit _ _ Unit)
        (writes 60 [[1, 2], [3]] (bareWriter interruptedSink, ⟨[], ()⟩)))).1.inner.content =
          h.encode ++ body ∧
      Session.Recovers (bareBuilder.familySession BundledFamily.sm4.family .decrypt)
        (h.encode ++ body) [1, 2, 3] := by
  unfold close
  have hclose : failed ((shutdown 60 false : Push Unit _ _ Unit)
      (writes 60 [[1, 2], [3]] (bareWriter interruptedSink, ⟨[], ()⟩))) = false := by decide +kernel
  have haccepted :
      accepted 60 [[1, 2], [3]] (bareWriter interruptedSink, ⟨[], ()⟩) = [1, 2, 3] := by
    decide +kernel
  have hwhole : ¬ Torn 60 [[1, 2], [3]] (bareWriter interruptedSink, ⟨[], ()⟩) := by
    rintro (⟨hfailed, -⟩ | ⟨hfailed, -⟩ | hfalse)
    · exact Bool.false_ne_true (Eq.trans (by decide +kernel) hfailed)
    · exact Bool.false_ne_true (Eq.trans (by decide +kernel) hfailed)
    · exact hfalse
  have hstarted : (bareWriter interruptedSink).started = false := rfl
  obtain ⟨h, body, hadm, hcontent, hrecovers⟩ := (content_of_shutdown ScriptedSink.honest
    (f := .sm4) hstarted rfl trivial rfl rfl rfl faithful_bareBuilder (fun _ _ _ => rfl)
    [[1, 2], [3]] (eq_ok_of_not_failed hclose)).1 hwhole
  rw [haccepted] at hrecovers
  have hempty : (bareWriter interruptedSink).inner.content = [] := rfl
  rw [ScriptedSink.content_honest, ScriptedSink.content_honest, hempty, List.nil_append] at hcontent
  exact ⟨h, body, hadm, hcontent, hrecovers⟩

/-- A sink that breaks when it is offered the header, and then works. -/
def brokenSink : ScriptedSink := { writeEvents := [(0, .fail (.plain .brokenPipe "refused"))] }

/-- If the caller writes again to a sink that broke, the stream closes without its header. -/
theorem content_of_broken :
    accepted 60 [[1], [1]] (bareWriter brokenSink, ⟨[], ()⟩) = [1] ∧
    failed ((close 60 : Push Unit _ _ Unit)
      (writes 60 [[1], [1]] (bareWriter brokenSink, ⟨[], ()⟩))) = false ∧
    ∀ h : Header, ¬ h.encode <+: (reached ((close 60 : Push Unit _ _ Unit)
      (writes 60 [[1], [1]] (bareWriter brokenSink, ⟨[], ()⟩)))).1.inner.content := by
  have hlen : (reached ((close 60 : Push Unit _ _ Unit)
      (writes 60 [[1], [1]] (bareWriter brokenSink, ⟨[], ()⟩)))).1.inner.content.length = 1 := by
    decide +kernel
  refine ⟨by decide +kernel, by decide +kernel, fun h hpre => ?_⟩
  have := hpre.length_le
  rw [hlen, Header.length_encode, Header.encodedLen, Header.fixedLen] at this
  omega

end

end CipherWriter

end SealedStream
