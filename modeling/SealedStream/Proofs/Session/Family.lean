import SealedStream.Proofs.Header
import SealedStream.Proofs.KeyWrap
import SealedStream.Proofs.Session.Progress
import SealedStream.Session.Family

/-!
# Decrypting sessions of one family

`FamilySession.progress` is what a decrypting session of a bundled family makes of the bytes that it
was fed: the header decoder on all of them, then the opened keystream on those behind the header.
`FamilySession.decodes` says that the session, which gathers a header piece by piece and hands over
to its cipher in the middle of a piece, computes exactly this.
-/

namespace SealedStream

variable {σ γ : Type}

/-! ## Opening a header -/

namespace KeyMaterial

/-- Opening a header as a chain of calls and measurements. -/
theorem openHeader_eq (h : Header) (wrap : KeyWrap σ) (family : CipherFamily σ γ) :
    openHeader h wrap family = wrap.unwrap h.wrappedIv >>= fun iv =>
      if iv.length ≠ family.ivLen then
        throw (.header (.secretLength .iv family.name family.ivLen iv.length))
      else wrap.unwrap h.wrappedKey >>= fun key =>
        if key.length ≠ family.keyLen then
          throw (.header (.secretLength .key family.name family.keyLen key.length))
        else pure ⟨iv, key⟩ := rfl

theorem functional_openHeader {wrap : KeyWrap σ} (hw : wrap.Functional) (h : Header)
    (family : CipherFamily σ γ) : Functional (openHeader h wrap family) := by
  rw [openHeader_eq]
  refine (hw h.wrappedIv).bind fun iv => .ite _ (.throw _) ?_
  exact (hw h.wrappedKey).bind fun key => .ite _ (.throw _) (.pure _)

/-- What is opened has the lengths that the family asks for. -/
theorem length_openHeader {h : Header} {wrap : KeyWrap σ} {family : CipherFamily σ γ} {w w' : σ}
    {m : KeyMaterial} (ho : openHeader h wrap family w = .ok m w') :
    m.iv.length = family.ivLen ∧ m.key.length = family.keyLen := by
  rw [openHeader_eq] at ho
  obtain ⟨iv, w₁, -, ho⟩ := exists_of_bind_eq_ok ho
  rw [run_ite] at ho
  split at ho
  · cases ho
  · rename_i hiv
    obtain ⟨key, w₂, -, ho⟩ := exists_of_bind_eq_ok ho
    rw [run_ite] at ho
    split at ho
    · cases ho
    · rename_i hkey
      cases ho
      exact ⟨Decidable.not_not.mp hiv, Decidable.not_not.mp hkey⟩

end KeyMaterial

/-! ## The operations, case by case -/

namespace FamilySession

theorem start_decrypt {s : FamilySession σ γ} (hm : s.mode = .decrypt) (w : σ) :
    start (s, w) = .ok [] (s, w) := by
  simp only [start, run_bind, run_get, hm]
  cases s.phase <;> rfl

theorem start_ready {s : FamilySession σ γ} {c : γ} (hp : s.phase = .ready c) (w : σ) :
    start (s, w) = .ok [] (s, w) := by
  simp only [start, run_bind, run_get, hp]
  cases s.mode <;> rfl

variable [ContentCipher σ γ] {s : FamilySession σ γ} {w w' : σ} {buffered input : Bytes}

theorem update_awaiting (hm : s.mode = .decrypt) (hp : s.phase = .awaiting buffered) :
    update input (s, w) = feedHeader buffered input (s, w) := by
  simp only [update, run_bind, start_decrypt hm, run_get, hp]

theorem update_ready {c : γ} (hp : s.phase = .ready c) :
    update input (s, w) = match ContentCipher.update input (c, w) with
      | .ok out t => .ok out ({ s with phase := .ready t.1 }, t.2)
      | .error e t => .error e ({ s with phase := .ready t.1 }, t.2) := by
  simp only [update, run_bind, start_ready hp, run_get, hp, onCipher, run_zoom]
  cases ContentCipher.update input (c, w) <;> rfl

theorem feedHeader_refused {e : Error}
    (hd : Header.decode (buffered ++ input) s.expectedVersion = .error e) :
    feedHeader buffered input (s, w) =
      .error e ({ s with phase := .awaiting (buffered ++ input) }, w) := by
  simp only [feedHeader, setPhase, run_bind, run_get, run_modify, hd, run_check]

theorem feedHeader_needMore
    (hd : Header.decode (buffered ++ input) s.expectedVersion = .ok .needMore) :
    feedHeader buffered input (s, w) =
      .ok [] ({ s with phase := .awaiting (buffered ++ input) }, w) := by
  simp only [feedHeader, setPhase, run_bind, run_get, run_modify, hd, run_check, run_pure]

theorem feedHeader_unopened {h : Header} {n : Nat} {e : Error}
    (hd : Header.decode (buffered ++ input) s.expectedVersion = .ok (.complete h n))
    (ho : openNew s h w = .error e w') :
    feedHeader buffered input (s, w) =
      .error e ({ s with phase := .awaiting (buffered ++ input) }, w') := by
  simp only [feedHeader, setPhase, run_bind, run_get, run_modify, hd, run_check, run_onWorld, ho]

/-- The cipher takes what is behind the header, if that is anything. -/
theorem feedHeader_opened {h : Header} {n : Nat} {c : γ}
    (hd : Header.decode (buffered ++ input) s.expectedVersion = .ok (.complete h n))
    (ho : openNew s h w = .ok c w') :
    feedHeader buffered input (s, w) =
      if ((buffered ++ input).drop n).isEmpty then .ok [] ({ s with phase := .ready c }, w')
      else match ContentCipher.update ((buffered ++ input).drop n) (c, w') with
        | .ok out t => .ok out ({ s with phase := .ready t.1 }, t.2)
        | .error e t =>
          .error e ({ s with phase := .awaiting ((buffered ++ input).take n) }, t.2) := by
  simp only [feedHeader, setPhase, run_bind, run_get, run_modify, hd, run_check, run_onWorld, ho,
    run_ite, run_pure, run_runOn]
  by_cases hr : ((buffered ++ input).drop n).isEmpty
  · rw [if_pos hr, if_pos hr]
  · rw [if_neg hr, if_neg hr]
    cases ContentCipher.update ((buffered ++ input).drop n) (c, w') <;> rfl

theorem finalize_awaiting (hm : s.mode = .decrypt) (hp : s.phase = .awaiting buffered) :
    finalize (s, w) = .error (.truncatedHeader buffered.length) (s, w) := by
  simp only [finalize, run_bind, run_get, hm, hp, run_throw]

theorem finalize_ready {c : γ} (hp : s.phase = .ready c) :
    finalize (s, w) = match (ContentCipher.finalize : Step (γ × σ) Bytes) (c, w) with
      | .ok out t => .ok out ({ s with phase := .ready t.1 }, t.2)
      | .error e t => .error e ({ s with phase := .ready t.1 }, t.2) := by
  simp only [finalize, run_bind, run_get, hp, onCipher, run_zoom]
  cases (ContentCipher.finalize : Step (γ × σ) Bytes) (c, w) <;> rfl

end FamilySession

/-! ## What a session makes of its bytes -/

theorem CounterStream.length_apply (c : CounterStream) (input : Bytes) :
    (c.apply input).1.length = input.length := by
  simp [apply]

namespace FamilySession

/-- A decrypting session of the family `f` at its beginning. -/
structure Opens (f : BundledFamily) (s : FamilySession σ CounterStream) : Prop where
  mode : s.mode = .decrypt
  phase : s.phase = .awaiting []
  family : s.family = f.family
  wrap : s.wrap.Functional

/-- What a session of the family `f` makes of the bytes `fed`. The world `w` is the one that its key
wrap is asked in; a functional one says the same in any other. -/
def progress (f : BundledFamily) (s : FamilySession σ CounterStream) (w : σ) (fed : Bytes) :
    Progress :=
  match Header.decode fed s.expectedVersion with
  | .error e => .failed e
  | .ok .needMore => .awaiting fed.length
  | .ok (.complete h n) =>
    match outcome (KeyMaterial.openHeader h s.wrap s.family w) with
    | .error e => .failed e
    | .ok m => .ready ((f.stream m.key m.iv).apply (fed.drop n)).1

/-- Where the session `s` is after the bytes `fed`, if they were no failure. -/
def After (f : BundledFamily) (s : FamilySession σ CounterStream) (w : σ) (fed : Bytes)
    (k : FamilySession σ CounterStream) : Prop :=
  (Header.decode fed s.expectedVersion = .ok .needMore ∧ k = { s with phase := .awaiting fed }) ∨
    ∃ h n m, Header.decode fed s.expectedVersion = .ok (.complete h n) ∧
      outcome (KeyMaterial.openHeader h s.wrap s.family w) = .ok m ∧
      k = { s with phase := .ready ((f.stream m.key m.iv).apply (fed.drop n)).2 }

variable {f : BundledFamily} {s : FamilySession σ CounterStream} {w : σ} {fed : Bytes}
  {h : Header} {n : Nat} {e : Error} {m : KeyMaterial}

theorem progress_of_refused (hd : Header.decode fed s.expectedVersion = .error e) :
    progress f s w fed = .failed e := by
  simp only [progress, hd]

theorem progress_of_needMore (hd : Header.decode fed s.expectedVersion = .ok .needMore) :
    progress f s w fed = .awaiting fed.length := by
  simp only [progress, hd]

theorem progress_of_unopened (hd : Header.decode fed s.expectedVersion = .ok (.complete h n))
    (ho : outcome (KeyMaterial.openHeader h s.wrap s.family w) = .error e) :
    progress f s w fed = .failed e := by
  simp only [progress, hd, ho]

theorem progress_of_opened (hd : Header.decode fed s.expectedVersion = .ok (.complete h n))
    (ho : outcome (KeyMaterial.openHeader h s.wrap s.family w) = .ok m) :
    progress f s w fed = .ready ((f.stream m.key m.iv).apply (fed.drop n)).1 := by
  simp only [progress, hd, ho]

theorem progress_eq_ready {p : Bytes} (hD : progress f s w fed = .ready p) :
    ∃ h n m, Header.decode fed s.expectedVersion = .ok (.complete h n) ∧
      outcome (KeyMaterial.openHeader h s.wrap s.family w) = .ok m ∧
      p = ((f.stream m.key m.iv).apply (fed.drop n)).1 := by
  cases hd : Header.decode fed s.expectedVersion with
  | error e => rw [progress_of_refused hd] at hD; cases hD
  | ok d =>
    cases d with
    | needMore => rw [progress_of_needMore hd] at hD; cases hD
    | complete h n =>
      cases ho : outcome (KeyMaterial.openHeader h s.wrap s.family w) with
      | error e => rw [progress_of_unopened hd ho] at hD; cases hD
      | ok m =>
        rw [progress_of_opened hd ho] at hD
        cases hD
        exact ⟨h, n, m, rfl, ho, rfl⟩

/-- A complete header is complete with any bytes behind it, and they stand behind it. -/
theorem decode_more (hd : Header.decode fed s.expectedVersion = .ok (.complete h n))
    (more : Bytes) :
    Header.decode (fed ++ more) s.expectedVersion = .ok (.complete h n) ∧
      (fed ++ more).drop n = fed.drop n ++ more := by
  have hne : Header.decode fed s.expectedVersion ≠ .ok .needMore := by rw [hd]; simp
  obtain ⟨-, hn, hb⟩ := Header.decode_complete hd
  refine ⟨by rw [Header.decode_append more hne, hd], List.drop_append_of_le_length ?_⟩
  rw [hb, List.length_append, hn]
  omega

theorem grows_progress (f : BundledFamily) (s : FamilySession σ CounterStream) (w : σ) :
    Progress.Grows (progress f s w) where
  nil := progress_of_needMore (Header.decode_nil _)
  failed := by
    intro fed e hD more
    cases hd : Header.decode fed s.expectedVersion with
    | error e' =>
      have hne : Header.decode fed s.expectedVersion ≠ .ok .needMore := by rw [hd]; simp
      rw [progress_of_refused hd] at hD
      rw [progress_of_refused ((Header.decode_append more hne).trans hd), hD]
    | ok d =>
      cases d with
      | needMore => rw [progress_of_needMore hd] at hD; cases hD
      | complete h n =>
        cases ho : outcome (KeyMaterial.openHeader h s.wrap s.family w) with
        | error e' =>
          rw [progress_of_unopened hd ho] at hD
          rw [progress_of_unopened (decode_more hd more).1 ho, hD]
        | ok m => rw [progress_of_opened hd ho] at hD; cases hD
  ready := by
    intro fed p hD more
    obtain ⟨h, n, m, hd, ho, rfl⟩ := progress_eq_ready hD
    obtain ⟨hd', hdrop⟩ := decode_more hd more
    refine ⟨_, CounterStream.length_apply ((f.stream m.key m.iv).apply (fed.drop n)).2 more, ?_⟩
    rw [progress_of_opened hd' ho, hdrop, CounterStream.apply_append]

/-! ## Piece by piece -/

/-- A header that opens has its cipher made. -/
theorem openNew_eq_ok (hf : s.family = f.family)
    (ho : outcome (KeyMaterial.openHeader h s.wrap s.family w) = .ok m) :
    ∃ w', openNew s h w = .ok (f.stream m.key m.iv) w' := by
  obtain ⟨w', hw⟩ := outcome_eq_ok.mp ho
  obtain ⟨hiv, hkey⟩ := KeyMaterial.length_openHeader hw
  rw [hf] at hiv hkey
  refine ⟨w', ?_⟩
  simp only [openNew, run_bind, hw]
  rw [hf, BundledFamily.newCipher_eq f hkey hiv]
  rfl

theorem openNew_eq_error
    (ho : outcome (KeyMaterial.openHeader h s.wrap s.family w) = .error e) :
    ∃ w', openNew s h w = .error e w' := by
  obtain ⟨w', hw⟩ := outcome_eq_error.mp ho
  exact ⟨w', by simp only [openNew, run_bind, hw]⟩

/-- Over a functional key wrap, what does not open in one world opens in none. -/
theorem openNew_of_unopened (hs : Opens f s)
    (ho : outcome (KeyMaterial.openHeader h s.wrap s.family w) = .error e) (v : σ) :
    ∃ v', openNew s h v = .error e v' :=
  openNew_eq_error ((KeyMaterial.functional_openHeader hs.wrap h s.family v w).trans ho)

/-- The first bytes behind the header go through the cipher like any others, also if there are
none. -/
theorem feedHeader_stream {buffered input : Bytes} {c : CounterStream} {v v' : σ}
    (hd : Header.decode (buffered ++ input) s.expectedVersion = .ok (.complete h n))
    (ho : openNew s h v = .ok c v') :
    feedHeader buffered input (s, v) = .ok (c.apply ((buffered ++ input).drop n)).1
      ({ s with phase := .ready (c.apply ((buffered ++ input).drop n)).2 }, v') := by
  rw [feedHeader_opened hd ho]
  by_cases hr : ((buffered ++ input).drop n).isEmpty
  · rw [if_pos hr, List.isEmpty_iff.mp hr]
    rfl
  · rw [if_neg hr]
    rfl

theorem update_stream {c : CounterStream} {input : Bytes} {k : FamilySession σ CounterStream}
    (hp : k.phase = .ready c) (v : σ) :
    update input (k, v) = .ok (c.apply input).1 ({ k with phase := .ready (c.apply input).2 }, v) := by
  rw [update_ready hp]
  rfl

/-- A session that is not done for takes more bytes just as `progress` says, as long as the world is
the one that its key wrap is to be asked in. -/
theorem update_asked (hm : s.mode = .decrypt) (hf : s.family = f.family)
    {k : FamilySession σ CounterStream} (hk : After f s w fed k) (more : Bytes) {v : σ}
    (hv : (progress f s w fed).isReady = false → v = w) :
    (∃ e t, progress f s w (fed ++ more) = .failed e ∧ update more (k, v) = .error e t) ∨
    ∃ out k' v', update more (k, v) = .ok out (k', v') ∧ After f s w (fed ++ more) k' ∧
      ((progress f s w (fed ++ more)).isReady = false → v' = w) ∧
      (progress f s w (fed ++ more)).plain = (progress f s w fed).plain ++ out := by
  rcases hk with ⟨hd, rfl⟩ | ⟨h, n, m, hd, ho, rfl⟩
  · rw [progress_of_needMore hd] at hv
    obtain rfl := hv rfl
    rw [update_awaiting (s := { s with phase := .awaiting fed }) hm rfl, progress_of_needMore hd]
    cases hd' : Header.decode (fed ++ more) s.expectedVersion with
    | error e => exact .inl ⟨e, _, progress_of_refused hd', feedHeader_refused hd'⟩
    | ok d =>
      cases d with
      | needMore =>
        refine .inr ⟨[], _, _, feedHeader_needMore hd', .inl ⟨hd', rfl⟩, fun _ => rfl, ?_⟩
        rw [progress_of_needMore hd']
        rfl
      | complete h n =>
        cases ho : outcome (KeyMaterial.openHeader h s.wrap s.family v) with
        | error e =>
          obtain ⟨v', hv⟩ := openNew_eq_error ho
          exact .inl ⟨e, _, progress_of_unopened hd' ho, feedHeader_unopened hd' hv⟩
        | ok m =>
          obtain ⟨v', hv⟩ := openNew_eq_ok hf ho
          refine .inr ⟨_, _, _, feedHeader_stream hd' hv, .inr ⟨h, n, m, hd', ho, rfl⟩, ?_, ?_⟩
          · rw [progress_of_opened hd' ho]
            intro hr
            cases hr
          · rw [progress_of_opened hd' ho]
            rfl
  · obtain ⟨hd', hdrop⟩ := decode_more hd more
    refine .inr ⟨_, _, _, update_stream (k := { s with phase := .ready _ }) rfl v,
      .inr ⟨h, n, m, hd', ho, ?_⟩, ?_, ?_⟩
    · rw [hdrop, CounterStream.apply_append]
    · rw [progress_of_opened hd' ho]
      intro hr
      cases hr
    · rw [progress_of_opened hd' ho, progress_of_opened hd ho, hdrop, CounterStream.apply_append]
      rfl

/-- In which world a functional key wrap is asked does not matter. -/
theorem update_after (hs : Opens f s) {k : FamilySession σ CounterStream}
    (hk : After f s w fed k) (more : Bytes) (v : σ) :
    (∃ e t, progress f s w (fed ++ more) = .failed e ∧ update more (k, v) = .error e t) ∨
    ∃ out k' v', update more (k, v) = .ok out (k', v') ∧ After f s w (fed ++ more) k' ∧
      (progress f s w (fed ++ more)).plain = (progress f s w fed).plain ++ out := by
  have hsame (h : Header) : outcome (KeyMaterial.openHeader h s.wrap s.family w) =
      outcome (KeyMaterial.openHeader h s.wrap s.family v) :=
    KeyMaterial.functional_openHeader hs.wrap h s.family w v
  have hprogress : progress f s w = progress f s v := by
    funext fed
    simp only [progress, hsame]
  have hafter : After f s w = After f s v := by
    funext fed k
    simp only [After, hsame]
  rw [hafter] at hk
  rw [hprogress, hafter]
  rcases update_asked hs.mode hs.family hk more (fun _ => rfl) with
    herror | ⟨out, k', v', hu, hk', -, hplain⟩
  · exact .inl herror
  · exact .inr ⟨out, k', v', hu, hk', hplain⟩

theorem mode_after (hs : Opens f s) {k : FamilySession σ CounterStream} :
    After f s w fed k → k.mode = .decrypt
  | .inl ⟨_, hk⟩ => by rw [hk, ← hs.mode]
  | .inr ⟨_, _, _, _, _, hk⟩ => by rw [hk, ← hs.mode]

theorem after_nil (hs : Opens f s) (w : σ) : After f s w [] s :=
  .inl ⟨Header.decode_nil _, by rw [← hs.phase]⟩

/-- **A decrypting session of a bundled family computes `progress`**, however it is fed. -/
theorem decodes (hs : Opens f s) (w : σ) (whole : Bytes) :
    Decodes (progress f s w) (After f s w) whole where
  grows := grows_progress f s w
  mode := mode_after hs
  going := by
    rintro fed k (⟨hd, -⟩ | ⟨h, n, m, hd, ho, -⟩)
    · rw [progress_of_needMore hd]; rfl
    · rw [progress_of_opened hd ho]; rfl
  isReady := by
    rintro fed k (⟨hd, rfl⟩ | ⟨h, n, m, hd, ho, rfl⟩)
    · rw [progress_of_needMore hd]; rfl
    · rw [progress_of_opened hd ho]; rfl
  start hk v := start_decrypt (mode_after hs hk) v
  update hk _ v := update_after hs hk _ v
  finalize_awaiting := by
    rintro fed k n (⟨hd, rfl⟩ | ⟨h, n, m, hd, ho, -⟩) hD v
    · rw [progress_of_needMore hd] at hD
      cases hD
      exact ⟨_, finalize_awaiting hs.mode rfl⟩
    · rw [progress_of_opened hd ho] at hD
      cases hD
  finalize_ready := by
    rintro fed k p (⟨hd, -⟩ | ⟨h, n, m, hd, ho, rfl⟩) hD v
    · rw [progress_of_needMore hd] at hD
      cases hD
    · exact ⟨_, v, finalize_ready rfl, .inr ⟨h, n, m, hd, ho, rfl⟩⟩

/-- What did not fail has made the session ready if, and only if, a whole header is there. -/
theorem isReady_progress_iff (hf : (progress f s w fed).isFailed = false) :
    (progress f s w fed).isReady = true ↔ Header.AtFront fed := by
  cases hd : Header.decode fed s.expectedVersion with
  | error e =>
    rw [progress_of_refused hd] at hf
    cases hf
  | ok d =>
    cases d with
    | needMore =>
      rw [progress_of_needMore hd]
      constructor
      · intro hr
        cases hr
      · intro hh
        exact absurd hh (Header.not_atFront_of_needMore hd)
    | complete h n =>
      cases ho : outcome (KeyMaterial.openHeader h s.wrap s.family w) with
      | error e =>
        rw [progress_of_unopened hd ho] at hf
        cases hf
      | ok m =>
        rw [progress_of_opened hd ho]
        constructor
        · intro _
          exact Header.atFront_of_complete hd
        · intro _
          rfl

end FamilySession

end SealedStream
