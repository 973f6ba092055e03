import SealedStream.Proofs.Session.Conveying
import SealedStream.Proofs.Stream.Encrypt

/-!
# Writing what a session conveys

A writer over a working sink writes what its session conveys of the bytes that it is given, in
either mode and over collaborators that may have state, however the bytes are cut. What the sink
does to the world of these collaborators does not matter, since it is not used before they were last
asked.
`CipherWriter.Pushes` is what every write preserves, and `CipherWriter.writeThrough_conveyed` is the
run of a caller who stops at the first error.
-/

namespace SealedStream

variable {σ κ ς : Type}

/-- A sink that is given nothing is not used. -/
theorem Sink.writeAll_given [Sink σ ς] (K : WorkingSink σ ς) {fuel : Nat} {bytes : Bytes} {s : ς}
    (hs : K.works s) (h : bytes.length ≤ fuel) (env : Env σ) : ∃ s' env',
      writeAll fuel bytes (s, env) = .ok () (s', env') ∧ K.works s' ∧
        K.content s' = K.content s ++ bytes ∧ (bytes = [] → env' = env) := by
  cases bytes with
  | nil => exact ⟨s, env, writeAll_nil fuel _, hs, (List.append_nil _).symm, fun _ => rfl⟩
  | cons b bs =>
    obtain ⟨s', env', hw, hs', hc⟩ := writeAll_spec K hs h env
    exact ⟨s', env', hw, hs', hc, (nomatch ·)⟩

namespace CipherWriter

variable [Sink σ ς]

/-- The session was fed `fed`, and the sink holds what it conveys of this, behind the bytes
`before`. -/
structure Pushes (K : WorkingSink σ ς) (D : Bytes → Progress) (At : Bytes → κ → σ → Prop)
    (before fed : Bytes) (s : CipherWriter κ ς × Env σ) : Prop where
  abort : s.1.abort = .own false
  works : K.works s.1.inner
  started : s.1.started = true
  session : At fed s.1.session s.2.world
  content : K.content s.1.inner = before ++ (D fed).plain

/-- A writer that was not written to, over the session `k₀` in the world `w₀`. -/
structure Unwritten (K : WorkingSink σ ς) (before : Bytes) (k₀ : κ) (w₀ : σ)
    (s : CipherWriter κ ς × Env σ) : Prop where
  abort : s.1.abort = .own false
  works : K.works s.1.inner
  started : s.1.started = false
  session : s.1.session = k₀
  world : s.2.world = w₀
  content : K.content s.1.inner = before

/-- A writer that can be written to: `fed` was. -/
def Writable (K : WorkingSink σ ς) (D : Bytes → Progress) (At : Bytes → κ → σ → Prop)
    (before : Bytes) (k₀ : κ) (w₀ : σ) (fed : Bytes) (s : CipherWriter κ ς × Env σ) : Prop :=
  (fed = [] ∧ Unwritten K before k₀ w₀ s) ∨ Pushes K D At before fed s

variable {K : WorkingSink σ ς} {D : Bytes → Progress} {At : Bytes → κ → σ → Prop}
  {before fed w : Bytes} {k₀ : κ} {w₀ : σ} {s : CipherWriter κ ς × Env σ} {fuel : Nat}

theorem Writable.abort (h : Writable K D At before k₀ w₀ fed s) : s.1.abort = .own false := by
  rcases h with ⟨-, hu⟩ | hp
  · exact hu.abort
  · exact hp.abort

theorem Writable.closing (h : Writable K D At before k₀ w₀ fed s) :
    Writable K D At before k₀ w₀ fed ({ s.1 with closed := true }, s.2) := by
  rcases h with ⟨hfed, hu⟩ | hp
  · exact .inl ⟨hfed, hu.abort, hu.works, hu.started, hu.session, hu.world, hu.content⟩
  · exact .inr ⟨hp.abort, hp.works, hp.started, hp.session, hp.content⟩

variable [Session κ σ] (hC : Session.Conveys D At k₀ w₀)

include hC

omit [Sink σ ς] in
/-- The sink may have changed the world if it was used. -/
theorem at_of_given {k : κ} {v v' : σ} {p out : Bytes} (h : At fed k v)
    (hplain : (D fed).plain = p ++ out) (hv : out = [] → v' = v) : At fed k v' := by
  by_cases hout : out = []
  · exact hv hout ▸ h
  · refine hC.settled h ?_ v'
    rw [hplain]
    exact List.append_ne_nil_of_right_ne_nil p hout

theorem Writable.ensureStarted (h : Writable K D At before k₀ w₀ fed s)
    (hfuel : (D fed).plain.length ≤ fuel) :
    (∃ e t, (∀ more, D (fed ++ more) = .failed e) ∧
      (ensureStarted fuel : Push σ κ ς Unit) s = .error e t ∧ K.content t.1.inner = before) ∨
    ∃ t, (ensureStarted fuel : Push σ κ ς Unit) s = .ok () t ∧ Pushes K D At before fed t ∧
      t.1.closed = s.1.closed := by
  obtain ⟨wr, env⟩ := s
  rcases h with ⟨rfl, hu⟩ | hp
  · obtain rfl : wr.session = k₀ := hu.session
    obtain rfl : env.world = w₀ := hu.world
    have hst : wr.started = false := hu.started
    simp only [CipherWriter.ensureStarted, run_bind, run_get, run_ite, hst, Bool.not_false, if_true,
      run_onSession]
    rcases hC.start with ⟨e, t, hD, hs⟩ | ⟨k, v, hs, hat⟩
    · rw [hs]
      exact .inl ⟨e, _, fun more => hD _, rfl, hu.content⟩
    · rw [hs]
      obtain ⟨i, env', hw, hi, hc, hsame⟩ :=
        Sink.writeAll_given K hu.works hfuel { env with world := v }
      simp only [run_onInner, hw]
      refine .inr ⟨_, rfl, ⟨hu.abort, hi, rfl, ?_, ?_⟩, rfl⟩
      · exact at_of_given hC (p := []) hat rfl fun hnil => by rw [hsame hnil]
      · rw [hc, hu.content]
  · have hst : wr.started = true := hp.started
    refine .inr ⟨(wr, env), ?_, hp, rfl⟩
    simp only [CipherWriter.ensureStarted, run_bind, run_get, run_ite, hst]
    rfl

/-- **A write adds what the session conveys of its bytes**, or the session fails for good, and
nothing was written at all. -/
theorem Writable.writeBytes (h : Writable K D At before k₀ w₀ fed s) (hc : s.1.closed = false)
    {bytes : Bytes} (hfuel : (D (fed ++ bytes)).plain.length ≤ fuel) :
    (∃ e t, D (fed ++ bytes) = .failed e ∧
      (writeBytes fuel bytes : Transfer σ (CipherWriter κ ς) Nat) s = .error e.toIo t ∧
      K.content t.1.inner = before) ∨
    ∃ t, (writeBytes fuel bytes : Transfer σ (CipherWriter κ ς) Nat) s = .ok bytes.length t ∧
      Pushes K D At before (fed ++ bytes) t ∧ t.1.closed = false := by
  have hprepare : (prepare fuel : Push σ κ ς Unit) s = CipherWriter.ensureStarted fuel s := by
    obtain ⟨wr, env⟩ := s
    have hopen : wr.closed = false := hc
    simp only [prepare, run_bind, run_checkAbort h.abort, run_get, hopen, run_ite]
    rfl
  have hle : (D fed).plain.length ≤ fuel := Nat.le_trans hC.lasts.plain_mono.length_le hfuel
  simp only [CipherWriter.writeBytes, run_bind, run_carried, hprepare]
  rcases h.ensureStarted hC hle with ⟨e, t, hD, hs, ht⟩ | ⟨⟨wr, env⟩, hs, hp, hc'⟩
  · rw [hs]
    exact .inl ⟨e, t, hD bytes, rfl, ht⟩
  · rw [hs]
    simp only [run_ite, run_pure]
    by_cases hb : bytes = []
    · rw [if_pos (List.isEmpty_iff.mpr hb), hb, List.append_nil]
      exact .inr ⟨_, rfl, hp, hc'.trans hc⟩
    · rw [if_neg (mt List.isEmpty_iff.mp hb)]
      simp only [run_bind, run_carried, run_onSession, run_pure]
      rcases hC.update hp.session hb with ⟨e, t, hD, hu⟩ | ⟨out, k, v, hu, hat, hplain⟩
      · rw [hu]
        refine .inl ⟨e, _, hD, rfl, ?_⟩
        rw [hp.content, hC.lasts.plain_of_failed hD, List.append_nil]
      · rw [hu]
        rw [hplain, List.length_append] at hfuel
        obtain ⟨i, env', hw, hi, hc'', hsame⟩ :=
          Sink.writeAll_given K hp.works (Nat.le_of_add_left_le hfuel) { env with world := v }
        simp only [run_onSink, hw]
        refine .inr ⟨_, rfl, ⟨hp.abort, hi, hp.started, ?_, ?_⟩, hc'.trans hc⟩
        · exact at_of_given hC hat hplain fun hnil => by rw [hsame hnil]
        · rw [hc'', hp.content, hplain, List.append_assoc]

/-- Finishing adds what was missing of the head, and fails if the session is not behind the
header. -/
theorem Writable.finish (h : Writable K D At before k₀ w₀ fed s) (hc : s.1.closed = false)
    (hfuel : (D fed).plain.length ≤ fuel) :
    (∃ e t, (D fed).error? = some e ∧ (finish fuel : Push σ κ ς Unit) s = .error e t ∧
      K.content t.1.inner = before ++ (D fed).plain) ∨
    ∃ t, (D fed).error? = none ∧ (finish fuel : Push σ κ ς Unit) s = .ok () t ∧
      K.content t.1.inner = before ++ (D fed).plain := by
  obtain ⟨wr, env⟩ := s
  have hopen : wr.closed = false := hc
  have hcheck : (checkAbort : Push σ κ ς Unit) ({ wr with closed := true }, env) =
      .ok () ({ wr with closed := true }, env) := run_checkAbort h.closing.abort env
  simp only [CipherWriter.finish, shutdown, run_bind, run_get, run_ite, hopen, Bool.false_eq_true,
    if_false, run_update, hcheck]
  rcases h.closing.ensureStarted hC hfuel with ⟨e, t, hD, hs, ht⟩ | ⟨⟨wr', env'⟩, hs, hp, -⟩
  · have hfailed : D fed = .failed e := by simpa using hD []
    rw [hs]
    refine .inl ⟨e, t, by rw [hfailed]; rfl, rfl, ?_⟩
    rw [ht, hfailed]
    exact (List.append_nil before).symm
  · rw [hs]
    simp only [writeTail, run_onSession]
    rcases hC.finalize hp.session with ⟨n, t, hD, hf⟩ | ⟨p, t, hD, hf⟩
    · rw [hf]
      exact .inl ⟨_, _, by rw [hD]; rfl, rfl, hp.content⟩
    · rw [hf]
      obtain ⟨i, env'', hflush, hi, hcontent⟩ := K.flush hp.works fuel { env' with world := t.2 }
      refine .inr ⟨({ wr' with session := t.1, inner := i }, env''), by rw [hD]; rfl, ?_, ?_⟩
      · simp only [run_onInner, Sink.writeAll_nil, hflush]
        rw [run_checkAbort]
        exact hp.abort
      · rw [hcontent, hp.content]

omit hC

/-! ## Callers -/

/-- How writing a stream ends: it is finished, or a write failed, or finishing it did. -/
inductive Halt
  | done
  | writing (error : IoError)
  | finishing (error : Error)

/-- Writes one piece after the other and finishes, up to the first error. A write that does not fail
takes its whole piece. -/
def writeThrough (fuel : Nat) :
    List Bytes → CipherWriter κ ς × Env σ → Halt × (CipherWriter κ ς × Env σ)
  | [], s =>
    match (finish fuel : Push σ κ ς Unit) s with
    | .ok _ t => (.done, t)
    | .error e t => (.finishing e, t)
  | bytes :: rest, s =>
    match (writeBytes fuel bytes : Transfer σ (CipherWriter κ ς) Nat) s with
    | .ok _ t => writeThrough fuel rest t
    | .error e t => (.writing e, t)

/-- The ending is that of a stream with this error. A write tells it the way a transfer does. -/
def Halt.Tells : Halt → Option Error → Prop
  | .done, e? => e? = none
  | .writing e', e? => ∃ e, e? = some e ∧ e' = e.toIo
  | .finishing e, e? => e? = some e

include hC

/-- **The run of a caller who stops at the first error**, by induction on the pieces: the sink gets
what is conveyed of all of them. -/
theorem writeThrough_conveyed (hfuel : (D w).plain.length ≤ fuel) : ∀ (pieces : List Bytes)
    {fed : Bytes} {s : CipherWriter κ ς × Env σ}, Writable K D At before k₀ w₀ fed s →
    s.1.closed = false → fed ++ pieces.flatten = w →
    (writeThrough fuel pieces s).1.Tells (D w).error? ∧
      K.content (writeThrough fuel pieces s).2.1.inner = before ++ (D w).plain
  | [], fed, s, h, hc, hw => by
    obtain rfl : fed = w := by rwa [List.flatten_nil, List.append_nil] at hw
    rw [writeThrough]
    rcases h.finish hC hc hfuel with ⟨e, t, herr, hrun, ht⟩ | ⟨t, herr, hrun, ht⟩
    · rw [hrun]
      exact ⟨herr, ht⟩
    · rw [hrun]
      exact ⟨herr, ht⟩
  | bytes :: rest, fed, s, h, hc, hw => by
    rw [List.flatten_cons, ← List.append_assoc] at hw
    rw [writeThrough]
    have hle : (D (fed ++ bytes)).plain.length ≤ fuel := by
      rw [← hw] at hfuel
      exact Nat.le_trans hC.lasts.plain_mono.length_le hfuel
    rcases h.writeBytes hC hc hle with ⟨e, t, hD, hrun, ht⟩ | ⟨t, hrun, ht, hc'⟩
    · have hfailed : D w = .failed e := hw ▸ hC.lasts.failed hD rest.flatten
      rw [hrun, hfailed]
      exact ⟨⟨e, rfl, rfl⟩, ht.trans (List.append_nil before).symm⟩
    · rw [hrun]
      exact writeThrough_conveyed hfuel rest (.inr ht) hc' hw

end CipherWriter

end SealedStream
