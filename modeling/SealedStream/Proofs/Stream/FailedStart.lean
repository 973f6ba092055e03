import SealedStream.Proofs.Session.HeaderFirst
import SealedStream.Proofs.Stream.Encrypt
import SealedStream.Proofs.Stream.Honest

/-!
# Sessions that cannot start

A session is started when the first bytes of the source are written. If that fails, `encrypt` fails
with the same error, and the writer goes out of use; but a writer that goes out of use is closed as
far as that works, and closing it starts the session again. So the sink is left alone if this fails
too, and has the head of a stream otherwise (`encrypt_of_start_error`).
-/

namespace SealedStream

variable {σ κ ρ ς α β : Type}

/-! ## The first bytes of a source -/

namespace Source

/-- The first read that is not interrupted, if it is among so many reads. -/
def firstRead [Source σ ρ] (fuel : Nat) : Nat → ρ × Env σ → EStateM.Result IoError (ρ × Env σ) Bytes
  | 0, s => .error .stalled s
  | rounds + 1, s =>
    match (read fuel copyLen : Transfer σ ρ Bytes) s with
    | .ok bytes t => .ok bytes t
    | .error e t => if e.isInterrupted then firstRead fuel rounds t else .error e t

end Source

section

variable [Source σ ρ] [Sink σ ς] {fuel : Nat}

/-- There is nothing to copy. -/
theorem copyLoop_of_empty (count : Nat) (sink : ς) : ∀ {rounds : Nat} {r : ρ} {env : Env σ}
    {t : ρ × Env σ}, Source.firstRead fuel rounds (r, env) = .ok [] t →
    copyLoop fuel rounds count ((r, sink), env) = .ok count ((t.1, sink), t.2)
  | 0, r, env, t, h => by cases h
  | rounds + 1, r, env, t, h => by
    unfold Source.firstRead at h
    unfold copyLoop
    cases hread : (Source.read fuel Source.copyLen : Transfer σ ρ Bytes) (r, env) with
    | ok bytes u =>
      rw [hread] at h
      cases h
      simp only [hread]
    | error e u =>
      simp only [hread] at h ⊢
      split at h
      · rename_i hint
        rw [if_pos hint]
        exact copyLoop_of_empty count sink h
      · cases h

/-- The first bytes cannot be written. -/
theorem copyLoop_of_unwritten {b : UInt8} {bs : Bytes} {e : IoError} {sink : ς} {u : ς × Env σ} :
    ∀ {rounds count : Nat} {r : ρ} {env : Env σ} {t : ρ × Env σ},
    Source.firstRead fuel rounds (r, env) = .ok (b :: bs) t →
    Sink.writeAll fuel (b :: bs) (sink, t.2) = .error e u →
    copyLoop fuel rounds count ((r, sink), env) = .error e ((t.1, u.1), u.2)
  | 0, count, r, env, t, h, hw => by cases h
  | rounds + 1, count, r, env, t, h, hw => by
    unfold Source.firstRead at h
    unfold copyLoop
    cases hread : (Source.read fuel Source.copyLen : Transfer σ ρ Bytes) (r, env) with
    | ok bytes v =>
      rw [hread] at h
      cases h
      simp only [hread, hw]
    | error e' v =>
      simp only [hread] at h ⊢
      split at h
      · rename_i hint
        rw [if_pos hint]
        exact copyLoop_of_unwritten h hw
      · cases h

end

namespace CipherWriter

/-! ## Steps that only add -/

section

variable [Sink σ ς]

/-- A step of a writer that takes nothing back from its sink. -/
def Appends (K : HonestSink σ ς) (x : Push σ κ ς α) : Prop :=
  ∀ (wr : CipherWriter κ ς) (env : Env σ), K.holds wr.inner →
    K.holds (reached (x (wr, env))).1.inner ∧
      K.content wr.inner <+: K.content (reached (x (wr, env))).1.inner

variable {K : HonestSink σ ς}

theorem Appends.bind {x : Push σ κ ς α} {f : α → Push σ κ ς β} (hx : Appends K x)
    (hf : ∀ a, Appends K (f a)) : Appends K (x >>= f) := by
  intro wr env hs
  obtain ⟨hs₁, hpre₁⟩ := hx wr env hs
  rw [run_bind]
  cases hrun : x (wr, env) with
  | error e t =>
    rw [hrun] at hs₁ hpre₁
    exact ⟨hs₁, hpre₁⟩
  | ok a t =>
    rw [hrun] at hs₁ hpre₁
    obtain ⟨hs₂, hpre₂⟩ := hf a t.1 t.2 hs₁
    exact ⟨hs₂, hpre₁.trans hpre₂⟩

theorem appends_onInner {x : Transfer σ ς α}
    (hx : ∀ (s : ς) (env : Env σ), K.holds s →
      K.holds (reached (x (s, env))).1 ∧ K.content s <+: K.content (reached (x (s, env))).1) :
    Appends K (onInner x : Push σ κ ς α) := by
  intro wr env hs
  have h := hx wr.inner env hs
  rw [run_onInner]
  cases hrun : x (wr.inner, env) with
  | error e t =>
    rw [hrun] at h
    exact h
  | ok a t =>
    rw [hrun] at h
    exact h

theorem appends_writeAll (fuel : Nat) (bytes : Bytes) :
    Appends K (onInner (Sink.writeAll fuel bytes) : Push σ κ ς Unit) := by
  refine appends_onInner fun s env hs => ?_
  obtain ⟨n, hn⟩ := K.writeAll_spec hs fuel bytes env
  exact ⟨hn.holds, _, hn.content.symm⟩

theorem appends_flush (fuel : Nat) : Appends K (onInner (Sink.flush fuel) : Push σ κ ς Unit) := by
  refine appends_onInner fun s env hs => ?_
  obtain ⟨hs', hc⟩ := K.flush hs fuel env
  rw [hc]
  exact ⟨hs', List.prefix_refl _⟩

theorem appends_checkAbort : Appends K (checkAbort : Push σ κ ς Unit) := by
  intro wr env hs
  rcases checkAbort_cases wr env with h | ⟨e, h⟩
  · rw [h]
    exact ⟨hs, List.prefix_refl _⟩
  · rw [h]
    exact ⟨hs, List.prefix_refl _⟩

theorem appends_writeTail [Session κ σ] (fuel : Nat) (strict : Bool) :
    Appends K (writeTail fuel strict : Push σ κ ς Unit) := by
  intro wr env hs
  simp only [writeTail, run_onSession]
  cases (Session.finalize : Step (κ × σ) Bytes) (wr.session, env.world) with
  | ok tail t =>
    exact appends_writeAll fuel tail { wr with session := t.1 } { env with world := t.2 } hs
  | error e t =>
    cases strict with
    | true => exact ⟨hs, List.prefix_refl _⟩
    | false => exact ⟨hs, List.prefix_refl _⟩

end

/-! ## Writers that start, or cannot -/

variable [Session κ σ] [Sink σ ς] (fuel : Nat) (wr : CipherWriter κ ς) {env : Env σ}

theorem ensureStarted_of_error (hstarted : wr.started = false) {e : Error} {t : κ × σ}
    (hstart : (Session.start : Step (κ × σ) Bytes) (wr.session, env.world) = .error e t) :
    (ensureStarted fuel : Push σ κ ς Unit) (wr, env) =
      .error e ({ wr with session := t.1 }, { env with world := t.2 }) := by
  simp only [ensureStarted, run_bind, run_get, hstarted, run_ite, run_onSession, hstart,
    Bool.not_false, if_true]

/-- Bytes offered to a writer whose session cannot start come back with the session's error. -/
theorem write_of_error (hstarted : wr.started = false) (hclosed : wr.closed = false)
    (habort : wr.abort = .own false) {e : Error} {t : κ × σ}
    (hstart : (Session.start : Step (κ × σ) Bytes) (wr.session, env.world) = .error e t)
    (bytes : Bytes) : (Sink.write fuel bytes : Transfer σ (CipherWriter κ ς) Nat) (wr, env) =
      .error e.toIo ({ wr with session := t.1 }, { env with world := t.2 }) := by
  simp only [Sink.write, writeBytes, run_bind, run_carried, prepare, run_checkAbort habort,
    run_get, hclosed, run_ite, Bool.false_eq_true, if_false,
    ensureStarted_of_error fuel wr hstarted hstart]

theorem writeAll_of_error (hstarted : wr.started = false) (hclosed : wr.closed = false)
    (habort : wr.abort = .own false) {e : Error} {t : κ × σ}
    (hstart : (Session.start : Step (κ × σ) Bytes) (wr.session, env.world) = .error e t)
    (hint : e.toIo.isInterrupted = false) (b : UInt8) (bs : Bytes) :
    (Sink.writeAll (fuel + 1) (b :: bs) : Transfer σ (CipherWriter κ ς) Unit) (wr, env) =
      .error e.toIo ({ wr with session := t.1 }, { env with world := t.2 }) := by
  have hwrite := write_of_error (fuel + 1) wr hstarted hclosed habort hstart (b :: bs)
  simp only [Sink.writeAll, Sink.writeAllLoop, hwrite, hint, Bool.false_eq_true, if_false]

/-- Closing an open writer, step by step. -/
theorem shutdown_eq (hclosed : wr.closed = false) (strict : Bool) :
    (shutdown fuel strict : Push σ κ ς Unit) (wr, env) =
      (checkAbort >>= fun _ => ensureStarted fuel >>= fun _ => writeTail fuel strict >>= fun _ =>
        onInner (Sink.flush fuel) >>= fun _ => checkAbort : Push σ κ ς Unit)
          ({ wr with closed := true }, env) := by
  simp only [shutdown, run_bind, run_get, hclosed, run_ite, Bool.false_eq_true, if_false,
    run_update]

theorem shutdown_of_error (hstarted : wr.started = false) (hclosed : wr.closed = false)
    (habort : wr.abort = .own false) {e : Error} {t : κ × σ}
    (hstart : (Session.start : Step (κ × σ) Bytes) (wr.session, env.world) = .error e t)
    (strict : Bool) : (shutdown fuel strict : Push σ κ ς Unit) (wr, env) =
      .error e ({ wr with closed := true, session := t.1 }, { env with world := t.2 }) := by
  have habort' : ({ wr with closed := true } : CipherWriter κ ς).abort = .own false := habort
  have hensure := ensureStarted_of_error fuel { wr with closed := true } hstarted hstart
  rw [shutdown_eq fuel wr hclosed, run_bind, run_checkAbort habort']
  simp only [run_bind, hensure]

theorem drop_eq (s : CipherWriter κ ς × Env σ) :
    drop fuel s = reached ((shutdown fuel false : Push σ κ ς Unit) s) := by
  unfold drop
  cases (shutdown fuel false : Push σ κ ς Unit) s <;> rfl

/-- A writer that goes out of use and can start writes the head of a stream. -/
theorem drop_of_head (K : WorkingSink σ ς) (hs : K.works wr.inner) (hstarted : wr.started = false)
    (hclosed : wr.closed = false) (habort : wr.abort = .own false) {head : Bytes} {t : κ × σ}
    (hstart : (Session.start : Step (κ × σ) Bytes) (wr.session, env.world) = .ok head t)
    (hlen : head.length ≤ fuel) :
    K.content wr.inner ++ head <+: K.content (drop fuel (wr, env)).1.inner := by
  obtain ⟨s', env', hw, hs', hc⟩ := Sink.writeAll_spec K hs hlen { env with world := t.2 }
  have habort' : ({ wr with closed := true } : CipherWriter κ ς).abort = .own false := habort
  have hensure : (ensureStarted fuel : Push σ κ ς Unit) ({ wr with closed := true }, env) =
      .ok () ({ wr with closed := true, session := t.1, inner := s', started := true }, env') := by
    simp only [ensureStarted, run_bind, run_get, hstarted, run_ite, run_onSession, hstart,
      Bool.not_false, if_true, run_onInner, hw, run_update]
  have hrest : Appends K.honest (writeTail fuel false >>= fun _ => onInner (Sink.flush fuel) >>=
      fun _ => checkAbort : Push σ κ ς Unit) :=
    (appends_writeTail fuel false).bind fun _ =>
      (appends_flush fuel).bind fun _ => appends_checkAbort
  obtain ⟨-, hpre⟩ := hrest
    { wr with closed := true, session := t.1, inner := s', started := true } env' hs'
  rw [← hc, drop_eq, shutdown_eq fuel wr hclosed, run_bind, run_checkAbort habort']
  simp only []
  rw [run_bind, hensure]
  exact hpre

end CipherWriter

/-! ## Sessions that fail to start once -/

variable [Session κ σ] [Source σ ρ] [Sink σ ς] {fuel : Nat} {k k₁ : κ} {source : ρ} {sink : ς}
  {env : Env σ} {w₁ : σ} {e : Error}

theorem encrypt_of_not_copied {x : IoError} {t : (ρ × CipherWriter κ ς) × Env σ}
    (hm : Session.mode k = .encrypt)
    (hcopy : copy fuel ((source, ({ inner := sink, session := k } : CipherWriter κ ς)), env) =
      .error x t) : encrypt fuel k ((source, sink), env) =
      .error (.ofIo x) ((t.1.1, (CipherWriter.drop fuel (t.1.2, t.2)).1.inner),
        (CipherWriter.drop fuel (t.1.2, t.2)).2) := by
  simp only [encrypt, hm, ne_eq, not_true_eq_false, if_false, hcopy]

/-- **A failed start fails `encrypt` with its own error**, unless it asks to be tried again or
carries another error through the transfer. The sink is left alone if there was nothing to encrypt
or if a second start fails as well. If a second start succeeds, a sink that works has got the head
of a stream by then. -/
theorem encrypt_of_start_error (hm : Session.mode k = .encrypt) {bytes : Bytes} {t : ρ × Env σ}
    (hread : Source.firstRead fuel fuel (source, env) = .ok bytes t)
    (hstart : (Session.start : Step (κ × σ) Bytes) (k, t.2.world) = .error e (k₁, w₁))
    (hio : Error.ofIo e.toIo = e) (hint : e.toIo.isInterrupted = false) :
    outcome (encrypt fuel k ((source, sink), env)) = .error e ∧
    ((bytes = [] ∨ failed ((Session.start : Step (κ × σ) Bytes) (k₁, w₁)) = true) →
      (reached (encrypt fuel k ((source, sink), env))).1.2 = sink) ∧
    ∀ (K : WorkingSink σ ς) (head : Bytes) (u : κ × σ), K.works sink → head.length ≤ fuel →
      bytes ≠ [] → (Session.start : Step (κ × σ) Bytes) (k₁, w₁) = .ok head u →
      K.content sink ++ head <+:
        K.content (reached (encrypt fuel k ((source, sink), env))).1.2 := by
  cases bytes with
  | nil =>
    have hcopy := copyLoop_of_empty 0 ({ inner := sink, session := k } : CipherWriter κ ς) hread
    have hfinish := CipherWriter.shutdown_of_error fuel
      ({ inner := sink, session := k } : CipherWriter κ ς) rfl rfl rfl hstart true
    simp only [encrypt, hm, ne_eq, not_true_eq_false, if_false, copy, hcopy, CipherWriter.finish,
      hfinish]
    exact ⟨rfl, fun _ => rfl, fun _ _ _ _ _ hne => hne.elim⟩
  | cons b bs =>
    obtain ⟨rounds, rfl⟩ : ∃ rounds, fuel = rounds + 1 := by
      cases fuel with
      | zero => cases hread
      | succ rounds => exact ⟨rounds, rfl⟩
    have hwrite := CipherWriter.writeAll_of_error rounds
      ({ inner := sink, session := k } : CipherWriter κ ς) rfl rfl rfl hstart hint b bs
    rw [encrypt_of_not_copied hm (copyLoop_of_unwritten hread hwrite), hio]
    refine ⟨rfl, ?_, ?_⟩
    · rintro (hnil | hagain)
      · cases hnil
      · -- the writer goes out of use, which starts the session again
        cases hstart' : (Session.start : Step (κ × σ) Bytes) (k₁, w₁) with
        | ok head u =>
          rw [hstart'] at hagain
          cases hagain
        | error e' u =>
          simp only [reached, CipherWriter.drop_eq]
          rw [CipherWriter.shutdown_of_error _ _ rfl rfl rfl hstart' false]
    · intro K head u hs hlen _ hstart'
      exact CipherWriter.drop_of_head _ ({ inner := sink, session := k₁ } : CipherWriter κ ς) K hs
        rfl rfl rfl hstart' hlen

section

open Scripted

/-- Collaborators of which the key wrap fails in the given calls. -/
def wrapWorld (failing : List Nat) : World :=
  { holdWorld [] with wraps := [{ wraps := ⟨failing, 0⟩ }] }

/-- If the key wrap fails twice, the sink is left alone. -/
theorem encrypt_of_failing_wrap :
    outcome (encrypt 20 holdSession ((({ data := #[1, 2] } : ScriptedSource), ({} : ScriptedSink)),
      ⟨[], wrapWorld [0, 1]⟩)) = .error (failure "scripted wrap failure") ∧
    (reached (encrypt 20 holdSession ((({ data := #[1, 2] } : ScriptedSource), ({} : ScriptedSink)),
      ⟨[], wrapWorld [0, 1]⟩))).1.2 = {} := by
  have hm : Session.mode holdSession = .encrypt := rfl
  have hread : Source.firstRead 20 20
      (({ data := #[1, 2] } : ScriptedSource), (⟨[], wrapWorld [0, 1]⟩ : Env World)) =
        .ok [1, 2] ({ data := #[1, 2], reads := 1, pos := 2 }, ⟨[], wrapWorld [0, 1]⟩) := rfl
  exact ⟨(encrypt_of_start_error hm hread rfl rfl rfl).1,
    (encrypt_of_start_error hm hread rfl rfl rfl).2.1 (.inr (by decide))⟩

/-- If it fails once, `encrypt` fails all the same, but the sink has got a header. -/
theorem encrypt_of_wrap_failing_once :
    failed ((Session.start : Step (_ × World) Bytes) (holdSession, wrapWorld [0])) = true ∧
    failed (encrypt 20 holdSession ((({ data := #[1, 2] } : ScriptedSource), ({} : ScriptedSink)),
      ⟨[], wrapWorld [0]⟩)) = true ∧
    (reached (encrypt 20 holdSession ((({ data := #[1, 2] } : ScriptedSource), ({} : ScriptedSink)),
      ⟨[], wrapWorld [0]⟩))).1.2.content = Header.encode ⟨7, [3, 3, 3, 3], [4, 4, 4, 4]⟩ := by
  refine ⟨?_, ?_, ?_⟩ <;> decide +kernel

end

end SealedStream
