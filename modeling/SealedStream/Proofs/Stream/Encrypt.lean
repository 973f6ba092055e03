import SealedStream.Proofs.Session.Sealing
import SealedStream.Proofs.Stream.Working
import SealedStream.Stream.Whole

/-!
# Encrypting whole streams

`CipherWriter.Open` is what every write through an encrypting session preserves: either nothing was
written yet, or the sink holds the head of the stream and the plaintext so far under the keystream
that the head stands for. A session that cannot start may be asked again, since a copying loop tries
interrupted writes anew. `encrypt_eq_ok` says what the sink holds when `encrypt` succeeds.
-/

namespace SealedStream

variable {σ κ ρ ς α : Type}

namespace CipherWriter

/-! ## Steps of a writer -/

theorem run_onSession (x : Step (κ × σ) α) (wr : CipherWriter κ ς) (env : Env σ) :
    (onSession x : Push σ κ ς α) (wr, env) = match x (wr.session, env.world) with
      | .ok a t => .ok a ({ wr with session := t.1 }, { env with world := t.2 })
      | .error e t => .error e ({ wr with session := t.1 }, { env with world := t.2 }) := by
  rw [onSession, run_zoom]
  cases x (wr.session, env.world) <;> rfl

theorem run_onSink (x : Transfer σ ς α) (wr : CipherWriter κ ς) (env : Env σ) :
    (onSink x : Transfer σ (CipherWriter κ ς) α) (wr, env) = match x (wr.inner, env) with
      | .ok a t => .ok a ({ wr with inner := t.1 }, t.2)
      | .error e t => .error e ({ wr with inner := t.1 }, t.2) := by
  rw [onSink, run_zoom]
  cases x (wr.inner, env) <;> rfl

theorem run_onInner (x : Transfer σ ς α) (wr : CipherWriter κ ς) (env : Env σ) :
    (onInner x : Push σ κ ς α) (wr, env) = match x (wr.inner, env) with
      | .ok a t => .ok a ({ wr with inner := t.1 }, t.2)
      | .error e t => .error (.ofIo e) ({ wr with inner := t.1 }, t.2) := by
  rw [onInner, run_adaptExcept, run_onSink]
  cases x (wr.inner, env) <;> rfl

theorem run_carried (x : Push σ κ ς α) (s : CipherWriter κ ς × Env σ) :
    carried x s = match x s with
      | .ok a t => .ok a t
      | .error e t => .error e.toIo t := by
  rw [carried, run_adaptExcept]
  cases x s <;> rfl

theorem run_update (f : CipherWriter κ ς → CipherWriter κ ς) (wr : CipherWriter κ ς) (env : Env σ) :
    (update f : Push σ κ ς Unit) (wr, env) = .ok () (f wr, env) := rfl

theorem run_checkAbort {wr : CipherWriter κ ς} (h : wr.abort = .own false) (env : Env σ) :
    (checkAbort : Push σ κ ς Unit) (wr, env) = .ok () (wr, env) := by
  simp only [checkAbort, run_bind, run_get, run_check, AbortHandle.check, AbortHandle.isAborted, h]
  rfl

/-- Looking at the abort flag changes nothing. -/
theorem checkAbort_cases (wr : CipherWriter κ ς) (env : Env σ) :
    (checkAbort : Push σ κ ς Unit) (wr, env) = .ok () (wr, env) ∨
      ∃ e, (checkAbort : Push σ κ ς Unit) (wr, env) = .error e (wr, env) := by
  simp only [checkAbort, run_bind, run_get, run_check]
  cases wr.abort.check env with
  | ok _ => exact .inl rfl
  | error e => exact .inr ⟨e, rfl⟩

variable [Session κ σ] [Sink σ ς]

/-! ## What every write preserves -/

/-- Nothing was written: the session is the one given, and the sink holds `before`. -/
structure Untouched (K : WorkingSink σ ς) (k₀ : κ) (before : Bytes) (wr : CipherWriter κ ς) : Prop where
  works : K.works wr.inner
  abort : wr.abort = .own false
  started : wr.started = false
  session : wr.session = k₀
  content : K.content wr.inner = before

/-- The head of the stream was written, and the plaintext `plain` behind it. -/
structure Started (K : WorkingSink σ ς) (Heads : Bytes → CounterStream → Prop)
    (Running : CounterStream → κ → Prop) (before plain : Bytes) (wr : CipherWriter κ ς) : Prop where
  works : K.works wr.inner
  abort : wr.abort = .own false
  started : wr.started = true
  content : ∃ head c, Heads head c ∧ Running (c.apply plain).2 wr.session ∧
    K.content wr.inner = before ++ (head ++ (c.apply plain).1)

/-- A writer that can be written to: `plain` was. -/
def Open (K : WorkingSink σ ς) (k₀ : κ) (Heads : Bytes → CounterStream → Prop)
    (Running : CounterStream → κ → Prop) (before plain : Bytes) (wr : CipherWriter κ ς) : Prop :=
  (plain = [] ∧ Untouched K k₀ before wr) ∨ Started K Heads Running before plain wr

variable {K : WorkingSink σ ς} {k₀ : κ} {Heads : Bytes → CounterStream → Prop}
  {Running : CounterStream → κ → Prop} {before plain : Bytes} {wr : CipherWriter κ ς}

/-- A session that cannot start leaves the writer as it was. -/
theorem ensureStarted_spec (hE : Encodes k₀ Heads Running)
    (h : Open K k₀ Heads Running before plain wr) (fuel : Nat) (env : Env σ) :
    (∃ e wr' env', (ensureStarted fuel : Push σ κ ς Unit) (wr, env) = .error e (wr', env') ∧
      (e.toIo.isInterrupted = true →
        Open K k₀ Heads Running before plain wr' ∧ wr'.closed = wr.closed)) ∨
    ∃ wr' env', (ensureStarted fuel : Push σ κ ς Unit) (wr, env) = .ok () (wr', env') ∧
      Started K Heads Running before plain wr' ∧ wr'.closed = wr.closed := by
  rcases h with ⟨rfl, hu⟩ | hs
  · simp only [ensureStarted, run_bind, run_get, hu.started, run_ite, run_onSession, hu.session,
      Bool.not_false, if_true]
    rcases hE.start env.world with ⟨e, w', hstart⟩ | ⟨head, c, k, w', hstart, hhead, hrun⟩
    · refine .inl ⟨e, { wr with session := k₀, started := false }, { env with world := w' }, ?_,
        fun _ => ⟨.inl ⟨rfl, hu.works, hu.abort, rfl, rfl, hu.content⟩, rfl⟩⟩
      rw [hstart]
    · simp only [hstart, run_onInner]
      rcases Sink.writeAllLoop_or_stalled K fuel fuel head hu.works { env with world := w' } with
        ⟨s, env', hwrite, hs, hc⟩ | ⟨t, hstalled⟩
      · refine .inr ⟨{ wr with inner := s, session := k, started := true }, env', ?_, ?_, rfl⟩
        · simp only [Sink.writeAll, hwrite, run_update]
        · refine ⟨hs, hu.abort, rfl, head, c, hhead, hrun, ?_⟩
          rw [hc, hu.content]
          exact congrArg _ (List.append_nil head).symm
      · refine .inl ⟨.io .stalled, { wr with inner := t.1, session := k, started := false }, t.2, ?_,
          fun hint => by cases hint⟩
        simp only [Sink.writeAll, hstalled]
        rfl
  · refine .inr ⟨wr, env, ?_, hs, rfl⟩
    simp only [ensureStarted, run_bind, run_get, hs.started, run_ite]
    rfl

/-- **A write adds all of its bytes under the keystream**, or fails; and if it asks to be tried again,
the writer is as it was. -/
theorem writeBytes_spec (hE : Encodes k₀ Heads Running)
    (h : Open K k₀ Heads Running before plain wr) (hc : wr.closed = false) (fuel : Nat)
    {bytes : Bytes} (hb : bytes ≠ []) (env : Env σ) :
    (∃ e wr' env', (writeBytes fuel bytes : Transfer σ (CipherWriter κ ς) Nat) (wr, env) =
        .error e (wr', env') ∧
      (e.isInterrupted = true → Open K k₀ Heads Running before plain wr' ∧ wr'.closed = false)) ∨
    ∃ wr' env', (writeBytes fuel bytes : Transfer σ (CipherWriter κ ς) Nat) (wr, env) =
        .ok bytes.length (wr', env') ∧
      Started K Heads Running before (plain ++ bytes) wr' ∧ wr'.closed = false := by
  have habort : wr.abort = .own false := by
    rcases h with ⟨-, hu⟩ | hs
    · exact hu.abort
    · exact hs.abort
  have hprepare : (prepare fuel : Push σ κ ς Unit) (wr, env) = ensureStarted fuel (wr, env) := by
    simp only [prepare, run_bind, run_checkAbort habort, run_get, hc, run_ite]
    rfl
  simp only [writeBytes, run_bind, run_carried, hprepare]
  rcases ensureStarted_spec hE h fuel env with
    ⟨e, wr', env', he, hagain⟩ | ⟨wr', env', hok, hs, hc'⟩
  · refine .inl ⟨e.toIo, wr', env', ?_, fun hint => hc ▸ hagain hint⟩
    rw [he]
  · obtain ⟨head, c, hhead, hrun, hcontent⟩ := hs.content
    obtain ⟨k, w, hupdate, hrun'⟩ := hE.update hrun bytes env'.world
    simp only [hok, run_ite, run_bind, run_carried, run_onSession, hupdate, run_onSink, run_pure]
    rw [if_neg (by simpa using hb)]
    rcases Sink.writeAllLoop_or_stalled K fuel fuel ((c.apply plain).2.apply bytes).1 hs.works
        { env' with world := w } with ⟨s, env'', hwrite, hs', hcs⟩ | ⟨t, hstalled⟩
    · refine .inr ⟨{ wr' with session := k, inner := s }, env'', ?_, ?_, hc'.trans hc⟩
      · simp only [Sink.writeAll, hwrite]
      · refine ⟨hs', hs.abort, hs.started, head, c, hhead, ?_, ?_⟩
        · rw [CounterStream.apply_append]
          exact hrun'
        · rw [hcs, hcontent, CounterStream.apply_append]
          simp only [List.append_assoc]
    · refine .inl ⟨.stalled, { wr' with session := k, inner := t.1 }, t.2, ?_,
        fun hint => by cases hint⟩
      simp only [Sink.writeAll, hstalled]

/-- Offering bytes to a writer until all are taken: by induction on the rounds, of which those before
the first success are tries to start. -/
theorem writeAllLoop_spec (hE : Encodes k₀ Heads Running) (fuel : Nat) : ∀ (rounds : Nat)
    (bytes : Bytes) {wr : CipherWriter κ ς}, Open K k₀ Heads Running before plain wr →
    wr.closed = false → ∀ env : Env σ,
    (∃ e t, Sink.writeAllLoop fuel rounds bytes (wr, env) = .error e t) ∨
    ∃ wr' env', Sink.writeAllLoop fuel rounds bytes (wr, env) = .ok () (wr', env') ∧
      Open K k₀ Heads Running before (plain ++ bytes) wr' ∧ wr'.closed = false
  | 0, [], wr, h, hc, env => .inr ⟨wr, env, rfl, by rw [List.append_nil]; exact h, hc⟩
  | 0, b :: bs, wr, h, hc, env => .inl ⟨.stalled, (wr, env), rfl⟩
  | rounds + 1, [], wr, h, hc, env => .inr ⟨wr, env, rfl, by rw [List.append_nil]; exact h, hc⟩
  | rounds + 1, b :: bs, wr, h, hc, env => by
    rcases writeBytes_spec hE h hc fuel (List.cons_ne_nil b bs) env with
      ⟨e, wr', env', he, hagain⟩ | ⟨wr', env', hok, hs, hc'⟩
    · have hwrite : Sink.write fuel (b :: bs) (wr, env) = .error e (wr', env') := he
      simp only [Sink.writeAllLoop, hwrite]
      cases hint : e.isInterrupted with
      | false => exact .inl ⟨e, (wr', env'), rfl⟩
      | true =>
        obtain ⟨h', hc'⟩ := hagain hint
        exact writeAllLoop_spec hE fuel rounds (b :: bs) h' hc' env'
    · have hwrite : Sink.write fuel (b :: bs) (wr, env) = .ok (bs.length + 1) (wr', env') := hok
      refine .inr ⟨wr', env', ?_, .inr hs, hc'⟩
      simp only [Sink.writeAllLoop, hwrite]
      rw [List.drop_of_length_le (Nat.le_of_eq List.length_cons)]
      cases rounds <;> rfl

/-- What finishing leaves in the sink: the whole stream, the head too if nothing was written. -/
theorem finish_spec (hE : Encodes k₀ Heads Running) (h : Open K k₀ Heads Running before plain wr)
    (hc : wr.closed = false) (fuel : Nat) (env : Env σ) :
    (∃ e t, (finish fuel : Push σ κ ς Unit) (wr, env) = .error e t) ∨
    ∃ wr' env' head c, (finish fuel : Push σ κ ς Unit) (wr, env) = .ok () (wr', env') ∧
      Heads head c ∧ K.content wr'.inner = before ++ (head ++ (c.apply plain).1) := by
  have habort : wr.abort = .own false := by
    rcases h with ⟨-, hu⟩ | hs
    · exact hu.abort
    · exact hs.abort
  have h' : Open K k₀ Heads Running before plain { wr with closed := true } := by
    rcases h with ⟨hplain, hu⟩ | hs
    · exact .inl ⟨hplain, hu.works, hu.abort, hu.started, hu.session, hu.content⟩
    · exact .inr ⟨hs.works, hs.abort, hs.started, hs.content⟩
  have hcheck : (checkAbort : Push σ κ ς Unit) ({ wr with closed := true }, env) =
      .ok () ({ wr with closed := true }, env) := by
    rw [run_checkAbort]
    exact habort
  simp only [finish, shutdown, run_bind, run_get, run_ite, hc, Bool.false_eq_true, if_false,
    run_update, hcheck]
  rcases ensureStarted_spec hE h' fuel env with ⟨e, wr', env', he, -⟩ | ⟨wr', env', hok, hs, -⟩
  · refine .inl ⟨e, (wr', env'), ?_⟩
    simp only [he]
  · obtain ⟨head, c, hhead, hrun, hcontent⟩ := hs.content
    obtain ⟨k, w, hfinal⟩ := hE.finalize hrun env'.world
    obtain ⟨s, env'', hflush, -, hcs⟩ := K.flush hs.works fuel { env' with world := w }
    refine .inr ⟨{ wr' with session := k, inner := s }, env'', head, c, ?_, hhead, ?_⟩
    · have htail : (writeTail fuel true : Push σ κ ς Unit) (wr', env') =
          .ok () ({ wr' with session := k }, { env' with world := w }) := by
        simp only [writeTail, run_onSession, hfinal, run_onInner, Sink.writeAll]
        cases fuel <;> rfl
      have hcheck' : (checkAbort : Push σ κ ς Unit) ({ wr' with session := k, inner := s }, env'') =
          .ok () ({ wr' with session := k, inner := s }, env'') := by
        rw [run_checkAbort]
        exact hs.abort
      simp only [hok, htail, run_onInner, hflush, hcheck']
    · rw [hcs, hcontent]

end CipherWriter

/-! ## The whole transfer -/

variable [Session κ σ] [Source σ ρ] [Sink σ ς] {S : WorkingSource σ ρ} {K : WorkingSink σ ς}
  {k₀ : κ} {Heads : Bytes → CounterStream → Prop} {Running : CounterStream → κ → Prop}

/-- Copying into a writer: by induction on the rounds, each of which adds what was read. -/
theorem copyLoop_writer_spec (hE : Encodes k₀ Heads Running) (fuel : Nat) {before : Bytes} :
    ∀ (rounds count : Nat) {plain : Bytes} {r : ρ} {wr : CipherWriter κ ς}, S.works r →
    CipherWriter.Open K k₀ Heads Running before plain wr → wr.closed = false → ∀ env : Env σ,
    (∃ e t, copyLoop fuel rounds count ((r, wr), env) = .error e t) ∨
    ∃ r' wr' env', copyLoop fuel rounds count ((r, wr), env) =
        .ok (count + (S.remaining r).length) ((r', wr'), env') ∧
      CipherWriter.Open K k₀ Heads Running before (plain ++ S.remaining r) wr' ∧ wr'.closed = false
  | 0, count, plain, r, wr, hr, h, hc, env => .inl ⟨.stalled, ((r, wr), env), rfl⟩
  | rounds + 1, count, plain, r, wr, hr, h, hc, env => by
    obtain ⟨bytes, r', env', hread, hr', -, hsplit, hend⟩ :=
      S.read hr fuel (show 0 < Source.copyLen by decide) env
    simp only [copyLoop, hread]
    cases bytes with
    | nil =>
      refine .inr ⟨r', wr, env', ?_, ?_, hc⟩
      · rw [hend rfl]
        rfl
      · rw [hend rfl, List.append_nil]
        exact h
    | cons b bs =>
      rcases CipherWriter.writeAllLoop_spec hE fuel fuel (b :: bs) h hc env' with
        ⟨e, t, he⟩ | ⟨wr', env'', hok, h', hc'⟩
      · refine .inl ⟨e, ((r', t.1), t.2), ?_⟩
        simp only [Sink.writeAll, he]
      · simp only [Sink.writeAll, hok]
        rcases copyLoop_writer_spec hE fuel rounds (count + (b :: bs).length) hr' h' hc' env'' with
          herror | ⟨r'', wr'', env₃, hcopy, h'', hc''⟩
        · exact .inl herror
        · refine .inr ⟨r'', wr'', env₃, ?_, ?_, hc''⟩
          · rw [hcopy, hsplit, List.length_append, Nat.add_assoc]
          · rw [hsplit, ← List.append_assoc]
            exact h''

/-- **What `encrypt` succeeds with**: it counts the bytes of the source, and the sink gets a head of
the session's and these bytes under the keystream that the head stands for. -/
theorem encrypt_eq_ok (hE : Encodes k₀ Heads Running) {source : ρ} {s : ς}
    (hsource : S.works source) (hs : K.works s) {fuel n : Nat} {env : Env σ}
    {t : (ρ × ς) × Env σ} (h : encrypt fuel k₀ ((source, s), env) = .ok n t) :
    n = (S.remaining source).length ∧ ∃ head c, Heads head c ∧
      K.content t.1.2 = K.content s ++ (head ++ (c.apply (S.remaining source)).1) := by
  have hopen : CipherWriter.Open K k₀ Heads Running (K.content s) []
      { inner := s, session := k₀ } := .inl ⟨rfl, hs, rfl, rfl, rfl, rfl⟩
  simp only [encrypt, hE.mode, ne_eq, not_true_eq_false, if_false, copy] at h
  rcases copyLoop_writer_spec hE fuel fuel 0 hsource hopen rfl env with
    ⟨e, t', he⟩ | ⟨r', wr', env', hcopy, h', hc'⟩
  · simp only [he] at h
    cases h
  · rw [List.nil_append] at h'
    simp only [hcopy] at h
    rcases CipherWriter.finish_spec hE h' hc' fuel env' with
      ⟨e, t', he⟩ | ⟨wr'', env'', head, c, hfinish, hhead, hcontent⟩
    · simp only [he] at h
      cases h
    · simp only [hfinish] at h
      cases h
      exact ⟨Nat.zero_add _, head, c, hhead, hcontent⟩

end SealedStream
