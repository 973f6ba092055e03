import SealedStream.Proofs.Session.Calls
import SealedStream.Proofs.Session.Chunking

/-!
# After a refusal

A decrypting session that has refused its bytes is done for if no later call makes it take bytes or
give any out (`Session.FailStop`). A session of a bundled family always is
(`FamilySession.failStop`): it keeps the bytes that it refused. A dispatcher keeps only the four
bytes of the id when the bytes behind them are refused in the very chunk that completes it, so it is
done for in every other case only (`Dispatcher.failStop_iff`).
-/

namespace SealedStream

variable {σ κ : Type}

namespace Session

variable [Session κ σ]

/-- A session that is done for: however it is called from here on, it refuses all bytes and gives
none out. -/
def FailStop (s : κ × σ) : Prop :=
  ∀ calls : List Call,
    (∀ input, ∃ e t, Session.update input (after Call.run calls s) = .error e t) ∧
    emitted Call.run calls s = []

/-- States in which every call fails or gives nothing, and which no call leaves. -/
structure Dead (P : κ × σ → Prop) : Prop where
  start : ∀ {s}, P s → ∃ t, (Session.start : Step (κ × σ) Bytes) s = .ok [] t ∧ P t
  update : ∀ {s}, P s → ∀ input, ∃ e t, Session.update input s = .error e t ∧ P t
  finalize : ∀ {s}, P s → ∃ e t, (Session.finalize : Step (κ × σ) Bytes) s = .error e t ∧ P t

theorem Dead.run {P : κ × σ → Prop} (hP : Dead P) {s : κ × σ} (hs : P s) (call : Call) :
    given (call.run s) = [] ∧ P (reached (call.run s)) := by
  cases call with
  | start =>
    obtain ⟨t, h, ht⟩ := hP.start hs
    rw [Call.run, h]
    exact ⟨rfl, ht⟩
  | update input =>
    obtain ⟨e, t, h, ht⟩ := hP.update hs input
    rw [Call.run, h]
    exact ⟨rfl, ht⟩
  | finalize =>
    obtain ⟨e, t, h, ht⟩ := hP.finalize hs
    rw [Call.run, h]
    exact ⟨rfl, ht⟩

theorem Dead.failStop {P : κ × σ → Prop} (hP : Dead P) {s : κ × σ} (hs : P s) : FailStop s := by
  intro calls
  induction calls generalizing s with
  | nil =>
    refine ⟨fun input => ?_, rfl⟩
    obtain ⟨e, t, h, -⟩ := hP.update hs input
    exact ⟨e, t, h⟩
  | cons call calls ih =>
    obtain ⟨hgiven, hs'⟩ := hP.run hs call
    obtain ⟨hupdate, hemitted⟩ := ih hs'
    refine ⟨hupdate, ?_⟩
    rw [emitted, hgiven, hemitted]
    rfl

/-- A session seen through a map that keeps what calls do is as much done for. -/
theorem FailStop.map {μ : Type} [Session μ σ] {ι : κ × σ → μ × σ}
    (h : ∀ (call : Call) (s : κ × σ), call.run (ι s) = mapState ι (call.run s)) {s : κ × σ}
    (hs : FailStop s) : FailStop (ι s) := by
  intro calls
  obtain ⟨hupdate, hemitted⟩ := hs calls
  refine ⟨fun input => ?_, ?_⟩
  · obtain ⟨e, t, hu⟩ := hupdate input
    have hrun := h (.update input) (after Call.run calls s)
    rw [Call.run, Call.run, hu] at hrun
    rw [after_map h]
    exact ⟨e, ι t, hrun⟩
  · rw [emitted_map h, hemitted]

end Session

/-! ## Sessions of one family -/

namespace FamilySession

variable {f : BundledFamily} {s : FamilySession σ CounterStream} {w : σ} {fed : Bytes}

theorem progress_eq_failed {e : Error} (hD : progress f s w fed = .failed e) :
    Header.decode fed s.expectedVersion = .error e ∨
      ∃ h n, Header.decode fed s.expectedVersion = .ok (.complete h n) ∧
        outcome (KeyMaterial.openHeader h s.wrap s.family w) = .error e := by
  cases hd : Header.decode fed s.expectedVersion with
  | error e' =>
    rw [progress_of_refused hd] at hD
    cases hD
    exact .inl rfl
  | ok d =>
    cases d with
    | needMore =>
      rw [progress_of_needMore hd] at hD
      cases hD
    | complete h n =>
      cases ho : outcome (KeyMaterial.openHeader h s.wrap s.family w) with
      | error e' =>
        rw [progress_of_unopened hd ho] at hD
        cases hD
        exact .inr ⟨h, n, rfl, ho⟩
      | ok m =>
        rw [progress_of_opened hd ho] at hD
        cases hD

/-- The bytes that are refused stay gathered. -/
theorem update_refused (hs : Opens f s) {more : Bytes} {e : Error}
    (hD : progress f s w (fed ++ more) = .failed e) (v : σ) : ∃ v',
      update more ({ s with phase := .awaiting fed }, v) =
        .error e ({ s with phase := .awaiting (fed ++ more) }, v') := by
  rw [update_awaiting (s := { s with phase := .awaiting fed }) hs.mode rfl]
  rcases progress_eq_failed hD with hd | ⟨h, n, hd, ho⟩
  · exact ⟨v, feedHeader_refused hd⟩
  · obtain ⟨v', hv⟩ := openNew_of_unopened hs ho v
    exact ⟨v', feedHeader_unopened hd hv⟩

/-- The session that has gathered bytes that it refuses. -/
def Refusing (f : BundledFamily) (s : FamilySession σ CounterStream) (w : σ)
    (t : FamilySession σ CounterStream × σ) : Prop :=
  ∃ fed e, progress f s w fed = .failed e ∧ t.1 = { s with phase := .awaiting fed }

theorem dead_refusing (hs : Opens f s) (w : σ) : Session.Dead (Refusing f s w) where
  start := by
    rintro ⟨k, v⟩ ⟨fed, e, hD, rfl⟩
    exact ⟨_, start_decrypt (s := { s with phase := .awaiting fed }) hs.mode v, fed, e, hD, rfl⟩
  update := by
    rintro ⟨k, v⟩ ⟨fed, e, hD, rfl⟩ input
    have hD' := (grows_progress f s w).failed hD input
    obtain ⟨v', hu⟩ := update_refused hs hD' v
    exact ⟨e, _, hu, fed ++ input, e, hD', rfl⟩
  finalize := by
    rintro ⟨k, v⟩ ⟨fed, e, hD, rfl⟩
    exact ⟨_, _, finalize_awaiting hs.mode rfl, fed, e, hD, rfl⟩

/-- **A decrypting session of a bundled family that has refused a chunk is done for.** -/
theorem failStop (hs : Opens f s) {k : FamilySession σ CounterStream} (hk : After f s w fed k)
    {more : Bytes} {v : σ} {e : Error} {t : FamilySession σ CounterStream × σ}
    (hu : update more (k, v) = .error e t) : Session.FailStop t := by
  rcases update_after hs hk more v with ⟨e', t', hD, -⟩ | ⟨out, k', v', hok, -⟩
  · rcases hk with ⟨-, rfl⟩ | ⟨h, n, m, hd, ho, rfl⟩
    · obtain ⟨v', hu'⟩ := update_refused hs hD v
      rw [hu'] at hu
      cases hu
      exact (dead_refusing hs w).failStop ⟨fed ++ more, _, hD, rfl⟩
    · rw [update_stream rfl] at hu
      cases hu
  · rw [hok] at hu
    cases hu

end FamilySession

/-! ## Dispatchers -/

namespace Dispatcher

section

variable [Session κ σ] {d : Dispatcher σ κ} {id : UInt32}

/-- Whether a session is registered for the id, or else for the default type. -/
def Knows (d : Dispatcher σ κ) (id : UInt32) : Prop := ∃ p, d.select id d.defaultType = .ok p

omit [Session κ σ] in
theorem exists_error_of_not_knows (h : ¬ d.Knows id) :
    ∃ e, d.select id d.defaultType = .error e := by
  cases hs : d.select id d.defaultType with
  | error e => exact ⟨e, rfl⟩
  | ok p => exact absurd ⟨p, hs⟩ h

omit [Session κ σ] in
theorem take_idLen {fed : Bytes} (hi : Bytes.be32? fed = some id) :
    fed.take idLen = Bytes.be32 id := by
  rw [Bytes.eq_be32_append_of_be32? hi]
  exact List.take_left' rfl

/-- The dispatcher `d` that has gathered an id for which there is no session. -/
def Unknowing (d : Dispatcher σ κ) (t : Dispatcher σ κ × σ) : Prop :=
  ∃ id, ¬ d.Knows id ∧ t.1 = { d with phase := .selecting (Bytes.be32 id) }

theorem dead_unknowing (hm : d.context.mode = .decrypt) :
    Session.Dead (Unknowing d : Dispatcher σ κ × σ → Prop) where
  start := by
    rintro ⟨k, v⟩ ⟨id, hid, rfl⟩
    exact ⟨_, start_selecting (d := { d with phase := .selecting (Bytes.be32 id) }) hm rfl,
      id, hid, rfl⟩
  update := by
    rintro ⟨k, v⟩ ⟨id, hid, rfl⟩ input
    obtain ⟨e, he⟩ := exists_error_of_not_knows hid
    refine ⟨e, _, (update_selecting (d := { d with phase := .selecting (Bytes.be32 id) }) hm
      rfl).trans (feedId_unknown (Bytes.be32?_be32_append id input) he), id, hid, ?_⟩
    rw [take_idLen (Bytes.be32?_be32_append id input)]
  finalize := by
    rintro ⟨k, v⟩ ⟨id, hid, rfl⟩
    exact ⟨_, _, finalize_selecting (d := { d with phase := .selecting (Bytes.be32 id) }) hm rfl,
      id, hid, rfl⟩

/-- A dispatcher that has gathered `buffered` takes bytes as one at its beginning takes them behind
`buffered`. -/
theorem update_gathered (hm : d.context.mode = .decrypt) (hp : d.phase = .selecting [])
    (buffered rest : Bytes) (v : σ) :
    update rest (({ d with phase := .selecting buffered } : Dispatcher σ κ), v) =
      update (buffered ++ rest) (d, v) := by
  rw [update_selecting (d := { d with phase := .selecting buffered }) hm rfl,
    update_selecting hm hp]
  rfl

/-- Of a chunk that is refused while the id is gathered, and of what was gathered before it, the id
is all that is kept. -/
theorem feedId_refused {fed more : Bytes} {v : σ} {e : Error} {t : Dispatcher σ κ × σ}
    (hstart : ∀ {requested id k}, d.select requested d.defaultType = .ok (id, k) →
      (Session.start : Step (κ × σ) Bytes) (k, v) = .ok [] (k, v))
    (hu : feedId fed more (d, v) = .error e t) : ∃ id, Bytes.be32? (fed ++ more) = some id ∧
      t.1 = { d with phase := .selecting (Bytes.be32 id) } := by
  cases hi : Bytes.be32? (fed ++ more) with
  | none =>
    rw [feedId_short hi] at hu
    cases hu
  | some requested =>
    refine ⟨requested, rfl, ?_⟩
    rw [← take_idLen hi]
    cases hs : d.select requested d.defaultType with
    | error e' =>
      rw [feedId_unknown hi hs] at hu
      cases hu
      rfl
    | ok p =>
      rw [feedId_known hi hs (hstart hs)] at hu
      split at hu
      · cases hu
      · split at hu
        · cases hu
        · cases hu
          rfl

/-- A dispatcher that has gathered a known id, and no more, is not done for. -/
theorem not_failStop_of_knows (hm : d.context.mode = .decrypt) (hid : d.Knows id) {v : σ}
    (hstart : ∀ {requested id k}, d.select requested d.defaultType = .ok (id, k) →
      (Session.start : Step (κ × σ) Bytes) (k, v) = .ok [] (k, v)) :
    ¬ Session.FailStop (({ d with phase := .selecting (Bytes.be32 id) } : Dispatcher σ κ), v) := by
  intro hstop
  obtain ⟨⟨id', k⟩, hs⟩ := hid
  obtain ⟨e, t, hu⟩ := (hstop []).1 []
  have hi : Bytes.be32? (Bytes.be32 id ++ []) = some id := Bytes.be32?_be32_append id []
  have hok : update [] (({ d with phase := .selecting (Bytes.be32 id) } : Dispatcher σ κ), v) = _ :=
    (update_selecting (d := { d with phase := .selecting (Bytes.be32 id) }) hm rfl).trans
      (feedId_known hi hs (hstart hs))
  have hok' := hu.symm.trans hok
  cases hok'

end

variable {families : UInt32 → BundledFamily} {d : Dispatcher σ (FamilySession σ CounterStream)}

theorem start_of_select (ho : Opens families d) {requested id : UInt32} {v : σ}
    {k : FamilySession σ CounterStream} (hs : d.select requested d.defaultType = .ok (id, k)) :
    (Session.start : Step (FamilySession σ CounterStream × σ) Bytes) (k, v) = .ok [] (k, v) := by
  obtain ⟨make, hmake, rfl⟩ := select_eq_ok hs
  exact FamilySession.start_decrypt (ho.sessions hmake).mode v

/-- **When a decrypting dispatcher that has refused a chunk is done for**: if the id was complete
before that chunk, or if there is no session for it. Otherwise it goes on as if nothing but the four
bytes of the id had been fed, so that the rest of a stream under this id is read as if the refused
bytes had never come. -/
theorem failStop_iff (ho : Opens families d) {xs : List Bytes} {x : Bytes} {w : σ} {e : Error}
    {t : Dispatcher σ (FamilySession σ CounterStream) × σ}
    (hxs : (Feed.chunks xs (d, w)).error = none)
    (hx : Session.update x (Feed.chunks xs (d, w)).state = .error e t) :
    (Session.FailStop t ↔ idLen ≤ xs.flatten.length ∨
      ∀ id, Bytes.be32? (xs.flatten ++ x) = some id → ¬ d.Knows id) ∧
    (¬ Session.FailStop t → ∀ (rest : Bytes) (v : σ), Session.update rest (t.1, v) =
      Session.update ((xs.flatten ++ x).take idLen ++ rest) (d, v)) := by
  have hD := family_decodes ho w (xs.flatten ++ x)
  rcases hD.chunks_spec xs w (familyAfter_nil ho w _) (List.prefix_append _ _) with
    ⟨e', he', -⟩ | ⟨-, ⟨-, hk⟩, -⟩
  · rw [hxs] at he'
    cases he'
  · rw [List.nil_append] at hk
    generalize (Feed.chunks xs (d, w)).state = s at hk hx
    obtain ⟨k, v⟩ := s
    rcases hk with ⟨hi, rfl⟩ | ⟨requested, id, k₀, k₁, hi, hs, hk, rfl⟩
    · -- the chunk completes the id: what counts is whether there is a session for it
      have hlt : ¬ idLen ≤ xs.flatten.length :=
        Nat.not_le_of_lt (Bytes.be32?_eq_none_iff.mp hi)
      obtain ⟨id, hid, ht⟩ := feedId_refused (start_of_select ho)
        ((update_selecting (d := { d with phase := .selecting xs.flatten }) ho.mode rfl).symm.trans
          hx)
      obtain ⟨t, v'⟩ := t
      cases ht
      by_cases hknows : d.Knows id
      · have hgoes := not_failStop_of_knows (v := v') ho.mode hknows (start_of_select ho)
        refine ⟨iff_of_false hgoes ?_, fun _ rest v => ?_⟩
        · rintro (hle | hun)
          · exact hlt hle
          · exact hun id hid hknows
        · rw [take_idLen hid]
          exact update_gathered ho.mode ho.phase _ _ v
      · have hstop := (dead_unknowing ho.mode).failStop
          (s := (({ d with phase := .selecting (Bytes.be32 id) } : Dispatcher σ _), v'))
          ⟨id, hknows, rfl⟩
        refine ⟨iff_of_true hstop (.inr fun id' hid' => ?_), fun h => absurd hstop h⟩
        rw [hid] at hid'
        cases hid'
        exact hknows
    · -- the session was chosen before: it is done for, and the dispatcher with it
      have hle : idLen ≤ xs.flatten.length := by
        refine Nat.le_of_not_lt fun hlt => ?_
        rw [Bytes.be32?_eq_none_iff.mpr hlt] at hi
        cases hi
      obtain ⟨make, hmake, rfl⟩ := select_eq_ok hs
      have hstop : Session.FailStop t := by
        have hx' := hx
        rw [show Session.update x _ = _ from update_selected rfl] at hx'
        split at hx'
        · cases hx'
        · rename_i e' t' hu
          cases hx'
          exact (FamilySession.failStop (ho.sessions hmake) hk hu).map (run_choosing d id)
      exact ⟨iff_of_true hstop (.inl hle), fun h => absurd hstop h⟩

/-- A dispatcher that was given an id and refuses the version behind it in the next chunk is done
for. -/
theorem failStop_bareBuilder :
    outcome (Session.update (Bytes.be32 9) (Feed.chunks [Bytes.be32 2]
      (bareBuilder.dispatcher .decrypt (Registry.bundled id id) 1 (some 1), ())).state) =
        .error (.unsupportedVersion 9) ∧
    Session.FailStop (reached (Session.update (Bytes.be32 9) (Feed.chunks [Bytes.be32 2]
      (bareBuilder.dispatcher .decrypt (Registry.bundled id id) 1 (some 1), ())).state)) := by
  have hopens : Opens CipherBuilder.familyOf
      (bareBuilder.dispatcher .decrypt (Registry.bundled id id) 1 (some 1)) :=
    CipherBuilder.opens_dispatcher (fun _ _ _ => rfl) 1 (some 1)
  have hxs : (Feed.chunks [Bytes.be32 2] (bareBuilder.dispatcher .decrypt (Registry.bundled id id) 1
      (some 1), ())).error = none := rfl
  have hx : ∃ t, Session.update (Bytes.be32 9) (Feed.chunks [Bytes.be32 2]
      (bareBuilder.dispatcher .decrypt (Registry.bundled id id) 1 (some 1), ())).state =
        .error (.unsupportedVersion 9) t := ⟨_, rfl⟩
  obtain ⟨t, hx⟩ := hx
  rw [hx]
  exact ⟨rfl, (failStop_iff hopens hxs hx).1.mpr (.inl (Nat.le_refl 4))⟩

/-- One that refuses the same bytes in one chunk is not: it goes on to give out the plaintext of a
stream that comes without its id. -/
theorem not_failStop_bareBuilder :
    outcome (Session.update (Bytes.be32 2 ++ Bytes.be32 9)
      (bareBuilder.dispatcher .decrypt (Registry.bundled id id) 1 (some 1), ())) =
        .error (.unsupportedVersion 9) ∧
    (Session.emitted Session.Call.run [.update (bareHeader.encode ++ [5])]
      (reached (Session.update (Bytes.be32 2 ++ Bytes.be32 9)
        (bareBuilder.dispatcher .decrypt (Registry.bundled id id) 1 (some 1), ())))).length = 1 ∧
    ¬ Session.FailStop (reached (Session.update (Bytes.be32 2 ++ Bytes.be32 9)
      (bareBuilder.dispatcher .decrypt (Registry.bundled id id) 1 (some 1), ()))) := by
  have hemitted : (Session.emitted Session.Call.run [.update (bareHeader.encode ++ [5])]
      (reached (Session.update (Bytes.be32 2 ++ Bytes.be32 9)
        (bareBuilder.dispatcher .decrypt (Registry.bundled id id) 1 (some 1), ())))).length =
        1 := by
    decide +kernel
  refine ⟨rfl, hemitted, fun hstop => ?_⟩
  rw [(hstop [.update (bareHeader.encode ++ [5])]).2] at hemitted
  cases hemitted

end Dispatcher

end SealedStream
