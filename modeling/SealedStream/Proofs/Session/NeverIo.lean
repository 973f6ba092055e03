import SealedStream.Proofs.Session.Demanding

/-!
# Sessions that fail in their own words

A reader tells a failed transfer, which may be tried again, from a failure of its session by the error
alone. `Session.NeverIo` says of the sessions among `P`, which no call leaves, that they fail with no
error of the first kind. Sessions of one family do not if their collaborators do not
(`FamilySession.neverIo`).
-/

namespace SealedStream

variable {σ κ γ α : Type}

/-- What is so of a session stays so whatever is called, also once it starts over, and no failure of it
is taken for a failed transfer. -/
structure Session.NeverIo [Session κ σ] (P : κ → Prop) : Prop where
  run : ∀ {k}, P k → ∀ (call : Session.Call) (w : σ),
    Meets (fun _ t => P t.1) (fun e t => P t.1 ∧ e.isIo = false) (call.run (k, w))
  restart : ∀ {k}, P k → P (Session.restart k)

/-- No failure of a step is taken for a failed transfer. -/
abbrev Step.NeverIo (x : Step σ α) : Prop :=
  Ensures (fun _ => True) (fun _ _ => True) (fun e _ => e.isIo = false) x

namespace FamilySession

/-- No collaborator of the session fails with a failed transfer. -/
structure NeverIo [ContentCipher σ γ] (s : FamilySession σ γ) : Prop where
  fill : ∀ n, Step.NeverIo (s.random.fill n)
  generateIv : Step.NeverIo (s.family.generateIv s.random)
  newCipher : ∀ key iv mode, Step.NeverIo (s.family.newCipher key iv mode)
  wrap : ∀ plain, Step.NeverIo (s.wrap.wrap plain)
  unwrap : s.wrap.NeverIo
  update : ∀ input, Step.NeverIo (ContentCipher.update input : Step (γ × σ) Bytes)
  finalize : Step.NeverIo (ContentCipher.finalize : Step (γ × σ) Bytes)

variable [ContentCipher σ γ] {s : FamilySession σ γ}

theorem neverIo_drawKey (hs : s.NeverIo) (rejectZero : Bool) : ∀ n : Nat,
    Step.NeverIo (KeyMaterial.drawKey s.random s.family.keyLen rejectZero n)
  | 0 => .throw fun _ _ => rfl
  | n + 1 => .bind (hs.fill _) fun _ =>
      .ite _ (fun _ => neverIo_drawKey hs rejectZero n) fun _ => .pure fun _ h => h

theorem neverIo_sealNew (hs : s.NeverIo) : Step.NeverIo (sealNew s) := by
  have hgenerate : Step.NeverIo
      (KeyMaterial.generate s.family s.random s.options.rejectZero) :=
    .bind hs.generateIv fun _ => .bind (neverIo_drawKey hs _ _) fun _ => .pure fun _ h => h
  have hseal (m : KeyMaterial) : Step.NeverIo (m.sealHeader s.wrap s.options.version) :=
    .bind (hs.wrap _) fun _ => .bind (hs.wrap _) fun _ => .pure fun _ h => h
  exact .bind hgenerate fun _ => .bind (hs.newCipher _ _ _) fun _ => .bind (hseal _) fun _ =>
    .pure fun _ h => h

theorem neverIo_openNew (hs : s.NeverIo) (header : Header) : Step.NeverIo (openNew s header) := by
  refine .bind (J := fun _ _ => True) (fun w _ => ?_) fun m => hs.newCipher m.key m.iv .decrypt
  cases ho : KeyMaterial.openHeader header s.wrap s.family w with
  | ok m w' => trivial
  | error e w' => exact KeyMaterial.isIo_of_openHeader hs.unwrap ho

/-! ## Calls -/

/-- A step of a session that leaves it as it should be. -/
abbrev Sound (x : Step (FamilySession σ γ × σ) α) : Prop :=
  Ensures (fun t => t.1.NeverIo) (fun _ t => t.1.NeverIo) (fun e t => t.1.NeverIo ∧ e.isIo = false) x

theorem sound_pure (a : α) : Sound (pure a : Step (FamilySession σ γ × σ) α) := .pure fun _ h => h

theorem sound_setPhase (phase : FamilyPhase γ) : Sound (setPhase phase : Step (_ × σ) Unit) :=
  .modify fun _ h => ⟨h.fill, h.generateIv, h.newCipher, h.wrap, h.unwrap, h.update, h.finalize⟩

theorem sound_onWorld {x : Step σ α} (hx : Step.NeverIo x) :
    Sound (onWorld x : Step (FamilySession σ γ × σ) α) := by
  rintro ⟨t, w⟩ ht
  have hw := hx w trivial
  rw [run_onWorld]
  cases hrun : x w with
  | ok a w' => exact ht
  | error e w' =>
    rw [hrun] at hw
    exact ⟨ht, hw⟩

theorem sound_onCipher {x : Step (γ × σ) Bytes} (hx : Step.NeverIo x) (c : γ) :
    Sound (onCipher x c) := by
  refine .zoom fun t ht => ?_
  have hs (p : FamilyPhase γ) : ({ t.1 with phase := p } : FamilySession σ γ).NeverIo :=
    ⟨ht.fill, ht.generateIv, ht.newCipher, ht.wrap, ht.unwrap, ht.update, ht.finalize⟩
  exact (hx (c, t.2) trivial).mono (fun _ _ _ => hs _) fun _ _ h => ⟨hs _, h⟩

theorem sound_start : Sound (start : Step (FamilySession σ γ × σ) Bytes) := by
  refine .get_bind fun t ht => ?_
  obtain ⟨t, w⟩ := t
  dsimp only
  cases t.mode with
  | decrypt => exact ht
  | encrypt =>
    cases t.phase with
    | ready c => exact ht
    | awaiting buffered =>
      exact Ensures.bind (sound_onWorld (neverIo_sealNew ht))
        (fun p => .bind (sound_setPhase _) fun _ => sound_pure _) (t, w) ht

theorem sound_feedHeader (buffered input : Bytes) : Sound (feedHeader buffered input :
    Step (FamilySession σ γ × σ) Bytes) := by
  refine .get_bind fun t ht => ?_
  obtain ⟨t, w⟩ := t
  have hdecode : Sound (σ := σ) (γ := γ) (check (Header.decode (buffered ++ input) t.expectedVersion)) := by
    intro u hu
    rw [run_check]
    cases hd : Header.decode (buffered ++ input) t.expectedVersion with
    | ok d => exact hu
    | error e => exact ⟨hu, Header.isIo_of_refused hd⟩
  have hrun (c : γ) (rest : Bytes) : Step.NeverIo (σ := σ) (runOn c (ContentCipher.update rest)) := by
    intro v _
    have hv := ht.update rest (c, v) trivial
    rw [run_runOn]
    cases hrun : (ContentCipher.update rest : Step (γ × σ) Bytes) (c, v) with
    | ok out u => trivial
    | error e u =>
      rw [hrun] at hv
      exact hv
  refine Ensures.bind (sound_setPhase _) (fun _ => .bind hdecode fun d => ?_) (t, w) ht
  cases d with
  | needMore => exact sound_pure _
  | complete header n =>
    refine .bind (sound_onWorld (neverIo_openNew ht header)) fun c =>
      .bind (sound_setPhase _) fun _ => .ite _ (fun _ => ?_) fun _ => ?_
    · exact .bind (sound_setPhase _) fun _ => sound_pure _
    · exact .bind (sound_onWorld (hrun c _)) fun p => .bind (sound_setPhase _) fun _ =>
        sound_pure _

theorem sound_update (input : Bytes) :
    Sound (update input : Step (FamilySession σ γ × σ) Bytes) := by
  refine .bind sound_start fun head => .get_bind fun t ht => ?_
  obtain ⟨t, w⟩ := t
  dsimp only
  cases t.phase with
  | ready c =>
    exact Ensures.bind (sound_onCipher (ht.update input) _) (fun _ => sound_pure _) (t, w) ht
  | awaiting buffered => exact sound_feedHeader _ _ (t, w) ht

theorem sound_finalize : Sound (finalize : Step (FamilySession σ γ × σ) Bytes) := by
  refine .get_bind fun t ht => ?_
  obtain ⟨t, w⟩ := t
  dsimp only
  cases t.phase with
  | ready c => exact sound_onCipher ht.finalize _ (t, w) ht
  | awaiting buffered =>
    cases t.mode with
    | encrypt => exact ht
    | decrypt => exact ⟨ht, rfl⟩

/-- **Sessions of one family fail in their own words** if their collaborators do. -/
theorem neverIo : Session.NeverIo (NeverIo : FamilySession σ γ → Prop) where
  run := by
    intro k hk call w
    cases call with
    | start => exact sound_start (k, w) hk
    | update input => exact sound_update input (k, w) hk
    | finalize => exact sound_finalize (k, w) hk
  restart h := ⟨h.fill, h.generateIv, h.newCipher, h.wrap, h.unwrap, h.update, h.finalize⟩

end FamilySession

end SealedStream
