import SealedStream.Proofs.Session.FailStop

/-!
# Callers who ignore a refusal

A decrypting session of a bundled family keeps every byte that it is fed, those that it refuses
among them, until its header is open. What it says is therefore fixed by all the bytes fed so far,
also to a caller who ignores its errors and makes any calls in between
(`FamilySession.after_standing`), and since a refused beginning stays refused, the first refusal is
all that such a caller will ever hear (`FamilySession.refusal_stays`).
-/

namespace SealedStream

variable {σ : Type}

namespace FamilySession

open Session (Call)

/-- Where the session `s` stands after the bytes `fed`, whether or not it has refused them. -/
def Standing (f : BundledFamily) (s : FamilySession σ CounterStream) (w : σ) (fed : Bytes)
    (t : FamilySession σ CounterStream × σ) : Prop :=
  After f s w fed t.1 ∨
    ∃ e, progress f s w fed = .failed e ∧ t.1 = { s with phase := .awaiting fed }

variable {f : BundledFamily} {s : FamilySession σ CounterStream} {w : σ} {fed : Bytes} {e : Error}
  {t : FamilySession σ CounterStream × σ}

theorem standing_nil (hs : Opens f s) (w : σ) : Standing f s w [] (s, w) := .inl (after_nil hs w)

theorem Standing.mode (ht : Standing f s w fed t) (hs : Opens f s) : t.1.mode = .decrypt := by
  rcases ht with hk | ⟨e, -, hk⟩
  · exact mode_after hs hk
  · rw [hk]
    exact hs.mode

theorem Standing.isReady (ht : Standing f s w fed t) :
    t.1.isReady = (progress f s w fed).isReady := by
  rcases ht with (⟨hd, hk⟩ | ⟨h, n, m, hd, ho, hk⟩) | ⟨e, hD, hk⟩
  · rw [progress_of_needMore hd, hk]
    rfl
  · rw [progress_of_opened hd ho, hk]
    rfl
  · rw [hD, hk]
    rfl

/-! ## One call -/

/-- What an update answers, and where it leaves the session, follows from the bytes alone. -/
theorem Standing.update (ht : Standing f s w fed t) (hs : Opens f s) (more : Bytes) :
    (∃ e t', progress f s w (fed ++ more) = .failed e ∧ Session.update more t = .error e t' ∧
      Standing f s w (fed ++ more) t') ∨
    ∃ out t', (progress f s w (fed ++ more)).isFailed = false ∧
      Session.update more t = .ok out t' ∧ Standing f s w (fed ++ more) t' ∧
      (progress f s w (fed ++ more)).plain = (progress f s w fed).plain ++ out := by
  obtain ⟨k, v⟩ := t
  rcases ht with hk | ⟨e, hD, rfl⟩
  · rcases update_after hs hk more v with ⟨e, t', hD, hu⟩ | ⟨out, k', v', hu, hk', hplain⟩
    · rcases hk with ⟨-, rfl⟩ | ⟨h, n, m, -, -, rfl⟩
      · obtain ⟨v', hu'⟩ := update_refused hs hD v
        exact .inl ⟨e, _, hD, hu', .inr ⟨e, hD, rfl⟩⟩
      · -- a session whose header is open refuses nothing
        rw [update_stream rfl] at hu
        cases hu
    · have hgoing := (decodes hs w []).going hk'
      exact .inr ⟨out, (k', v'), hgoing, hu, .inl hk', hplain⟩
  · have hD' := (grows_progress f s w).failed hD more
    obtain ⟨v', hu⟩ := update_refused hs hD' v
    exact .inl ⟨e, _, hD', hu, .inr ⟨e, hD', rfl⟩⟩

theorem Standing.finalize_ready (ht : Standing f s w fed t)
    (hr : (progress f s w fed).isReady = true) : Session.finalize t = .ok [] t := by
  obtain ⟨k, v⟩ := t
  rcases ht with (⟨hd, -⟩ | ⟨h, n, m, -, -, rfl⟩) | ⟨e, hD, -⟩
  · rw [progress_of_needMore hd] at hr
    cases hr
  · exact FamilySession.finalize_ready rfl
  · rw [hD] at hr
    cases hr

/-- Before the header is open, the end comes too early, and the error counts every byte. -/
theorem Standing.finalize_awaiting (ht : Standing f s w fed t) (hs : Opens f s)
    (hr : (progress f s w fed).isReady = false) :
    Session.finalize t = .error (.truncatedHeader fed.length) t := by
  obtain ⟨k, v⟩ := t
  rcases ht with (⟨-, rfl⟩ | ⟨h, n, m, hd, ho, -⟩) | ⟨e, -, rfl⟩
  · exact FamilySession.finalize_awaiting hs.mode rfl
  · rw [progress_of_opened hd ho] at hr
    cases hr
  · exact FamilySession.finalize_awaiting hs.mode rfl

/-- However it ends, a call leaves the session standing after the bytes that it fed, and has given
out what they add to the plaintext. -/
theorem Standing.run (ht : Standing f s w fed t) (hs : Opens f s) (call : Call) :
    Standing f s w (fed ++ Session.fed [call]) (reached (call.run t)) ∧
      (progress f s w (fed ++ Session.fed [call])).plain =
        (progress f s w fed).plain ++ given (call.run t) := by
  cases call with
  | start =>
    rw [Call.run, show Session.start t = .ok [] t from start_decrypt (ht.mode hs) t.2]
    simp only [Session.fed, List.append_nil, reached, given]
    exact ⟨ht, trivial⟩
  | update more =>
    simp only [Session.fed, List.append_nil]
    rcases ht.update hs more with ⟨e, t', hD, hu, ht'⟩ | ⟨out, t', -, hu, ht', hplain⟩
    · rw [Call.run, hu, hD, (grows_progress f s w).plain_of_failed hD]
      exact ⟨ht', rfl⟩
    · rw [Call.run, hu]
      exact ⟨ht', hplain⟩
  | finalize =>
    simp only [Session.fed, List.append_nil]
    cases hr : (progress f s w fed).isReady with
    | true =>
      rw [Call.run, ht.finalize_ready hr]
      exact ⟨ht, (List.append_nil _).symm⟩
    | false =>
      rw [Call.run, ht.finalize_awaiting hs hr]
      exact ⟨ht, (List.append_nil _).symm⟩

/-! ## Any calls -/

/-- **Errors or not, a decrypting session of a bundled family stands where the bytes fed so far put
it, and has given out their plaintext.** -/
theorem after_standing (hs : Opens f s) (ht : Standing f s w fed t) (calls : List Call) :
    Standing f s w (fed ++ Session.fed calls) (Session.after Call.run calls t) ∧
      (progress f s w (fed ++ Session.fed calls)).plain =
        (progress f s w fed).plain ++ Session.emitted Call.run calls t := by
  induction calls generalizing fed t with
  | nil =>
    simp only [Session.fed, Session.after, Session.emitted, List.append_nil]
    exact ⟨ht, trivial⟩
  | cons call calls ih =>
    obtain ⟨ht', hplain⟩ := ht.run hs call
    have hfed : fed ++ Session.fed (call :: calls) =
        fed ++ Session.fed [call] ++ Session.fed calls := by
      rw [List.append_assoc, ← Session.fed_append, List.singleton_append]
    obtain ⟨hafter, hemitted⟩ := ih ht'
    rw [hfed]
    refine ⟨hafter, ?_⟩
    rw [hemitted, hplain, List.append_assoc, Session.emitted]

/-- Bytes that are refused stay refused, and the end behind them comes within the header. -/
theorem refused_after (hs : Opens f s) (ht : Standing f s w fed t)
    (hD : progress f s w fed = .failed e) (calls : List Call) :
    Session.emitted Call.run calls t = [] ∧
      (∀ y, outcome (Session.update y (Session.after Call.run calls t)) = .error e) ∧
      Session.isReady (Session.after Call.run calls t).1 = false ∧
      outcome (Session.finalize (Session.after Call.run calls t)) =
        .error (.truncatedHeader (fed ++ Session.fed calls).length) := by
  have hgrows := grows_progress f s w
  have hD' := hgrows.failed hD (Session.fed calls)
  obtain ⟨hafter, hemitted⟩ := after_standing hs ht calls
  rw [hD', hD] at hemitted
  have hready : (progress f s w (fed ++ Session.fed calls)).isReady = false := by
    rw [hD']
    rfl
  refine ⟨hemitted.symm, fun y => ?_, hafter.isReady.trans hready, ?_⟩
  · have hDy := hgrows.failed hD' y
    rcases hafter.update hs y with ⟨e', t', hDy', hu, -⟩ | ⟨out, t', hgoing, -⟩
    · rw [hDy] at hDy'
      cases hDy'
      rw [hu]
      rfl
    · rw [hDy] at hgoing
      cases hgoing
  · rw [hafter.finalize_awaiting hs hready]
    rfl

/-- An update that fails has come upon a refused beginning, and nothing was given out before. -/
theorem refused_of_update (hs : Opens f s) {before : List Call} {x : Bytes}
    (hx : Session.update x (Session.after Call.run before (s, w)) = .error e t) :
    Session.emitted Call.run before (s, w) = [] ∧
      progress f s w (Session.fed before ++ x) = .failed e ∧
      Standing f s w (Session.fed before ++ x) t := by
  obtain ⟨hafter, hemitted⟩ := after_standing hs (standing_nil hs w) before
  rw [List.nil_append] at hafter hemitted
  rcases hafter.update hs x with ⟨e', t', hD, hu, ht⟩ | ⟨out, t', -, hu, -⟩
  · rw [hu] at hx
    cases hx
    rw [(grows_progress f s w).plain_of_failed hD] at hemitted
    exact ⟨(List.append_eq_nil_iff.mp hemitted.symm).2, hD, ht⟩
  · rw [hu] at hx
    cases hx

/-- **The first refusal is the last word of a decrypting session.** Its caller may go on with any
calls: every update, also one without bytes, fails with the same error, no byte is given out, the
session does not become ready, and its end finds a header cut short behind all the bytes that were
fed. -/
theorem refusal_stays (hs : Opens f s) {before : List Call} {x : Bytes}
    (hx : outcome (Session.update x (Session.after Call.run before (s, w))) = .error e)
    (later : List Call) :
    let calls := before ++ .update x :: later
    (∀ y, outcome (Session.update y (Session.after Call.run calls (s, w))) = .error e) ∧
      Session.emitted Call.run calls (s, w) = [] ∧
      Session.isReady (Session.after Call.run calls (s, w)).1 = false ∧
      outcome (Session.finalize (Session.after Call.run calls (s, w))) =
        .error (.truncatedHeader (Session.fed calls).length) := by
  intro calls
  obtain ⟨t, hx⟩ := outcome_eq_error.mp hx
  obtain ⟨hbefore, hD, ht⟩ := refused_of_update hs hx
  obtain ⟨hemitted, hupdate, hready, hfinalize⟩ := refused_after hs ht hD later
  have hafter : Session.after Call.run calls (s, w) = Session.after Call.run later t := by
    rw [Session.after_append, Session.after, Call.run, hx]
    rfl
  rw [hafter]
  refine ⟨hupdate, ?_, hready, ?_⟩
  · rw [Session.emitted_append, hbefore, Session.emitted, Call.run, hx, given, reached, hemitted]
    rfl
  · rw [hfinalize, Session.fed_append, Session.fed, List.append_assoc]

/-- A version that comes in two pieces and is refused, and a caller who asks for the end and goes
on. -/
theorem refusal_stays_bareBuilder :
    let s := bareBuilder.familySession (BundledFamily.sm4.family : CipherFamily Unit _) .decrypt
    let calls : List Call := [.update [0, 0], .update [0, 9, 7], .finalize, .update [5], .start]
    (∀ y, outcome (Session.update y (Session.after Call.run calls (s, ()))) =
      .error (.unsupportedVersion 9)) ∧
    Session.emitted Call.run calls (s, ()) = [] ∧
    Session.isReady (Session.after Call.run calls (s, ())).1 = false ∧
    outcome (Session.finalize (Session.after Call.run calls (s, ()))) =
      .error (.truncatedHeader 6) := by
  intro s calls
  have hx : outcome (Session.update [0, 9, 7]
      (Session.after Call.run [.update [0, 0]] (s, ()))) = .error (.unsupportedVersion 9) := rfl
  exact refusal_stays (CipherBuilder.opens_familySession (fun _ _ _ => rfl) .sm4) hx
    [.finalize, .update [5], .start]

end FamilySession

end SealedStream
