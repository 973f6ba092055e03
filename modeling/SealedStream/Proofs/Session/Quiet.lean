import SealedStream.Proofs.Session.HeaderFirst

/-!
# Nothing before the header

A decrypting session gives out nothing before its header is behind, whatever it is fed and whatever
its collaborators do: `Session.Quiet` says so for the sessions among `P`, which no call leaves. All
sessions of one family are quiet, of any family and over any key wrap (`FamilySession.quiet`), and
so are dispatchers whose registries make quiet sessions that go the dispatcher's own way
(`Dispatcher.quiet`).
-/

namespace SealedStream

variable {σ κ γ : Type}

/-- Sessions among `P` that give nothing, decrypting, before they are ready. -/
structure Session.Quiet [Session κ σ] (P : κ → Prop) : Prop where
  keeps : ∀ {k : κ}, P k → ∀ (call : Session.Call) (w : σ), P (reached (call.run (k, w))).1
  mode : ∀ {k : κ}, P k → ∀ (call : Session.Call) (w : σ),
    Session.mode (reached (call.run (k, w))).1 = Session.mode k
  start : ∀ {k : κ}, P k → Session.mode k = .decrypt → ∀ w : σ,
    Session.start (k, w) = .ok [] (k, w)
  silent : ∀ {k : κ}, P k → Session.mode k = .decrypt → ∀ (input : Bytes) (w : σ),
    Session.isReady (reached (Session.update input (k, w))).1 = false →
      given (Session.update input (k, w)) = []

/-! ## Sessions of one family -/

namespace FamilySession

/-- The session is `s`, in whatever phase. -/
def Moved (s : FamilySession σ γ) (t : FamilySession σ γ × σ) : Prop :=
  ∃ p, t.1 = { s with phase := p }

variable {s : FamilySession σ γ}

theorem keeps_setPhase (p : FamilyPhase γ) : Keeps (Moved s) (setPhase p) := by
  refine .modify ?_
  rintro ⟨t, w⟩ ⟨q, rfl⟩
  exact ⟨p, rfl⟩

theorem keeps_onWorld {α : Type} (x : Step σ α) :
    Keeps (Moved s) (onWorld x : Step (FamilySession σ γ × σ) α) := by
  unfold onWorld
  refine .zoom ?_ x
  intro w t ht
  exact ht

theorem keeps_start : Keeps (Moved s) start := by
  refine .bind .get fun (t, _) => ?_
  dsimp only
  split
  · refine .bind (keeps_onWorld _) fun p => ?_
    exact .bind (keeps_setPhase _) fun _ => .pure _
  · exact .pure _

variable [ContentCipher σ γ]

omit [ContentCipher σ γ] in
theorem keeps_onCipher (x : Step (γ × σ) Bytes) (c : γ) : Keeps (Moved s) (onCipher x c) := by
  refine .zoom ?_ x
  rintro u ⟨t, w⟩ ⟨q, rfl⟩
  exact ⟨_, rfl⟩

theorem keeps_feedHeader (buffered input : Bytes) :
    Keeps (Moved s) (feedHeader buffered input) := by
  refine .bind .get fun t => ?_
  refine .bind (keeps_setPhase _) fun _ => ?_
  refine .bind (.check _) fun d => ?_
  cases d with
  | needMore => exact .pure _
  | complete h n =>
    refine .bind (keeps_onWorld _) fun c => ?_
    refine .bind (keeps_setPhase _) fun _ => .ite _ ?_ ?_
    · exact .bind (keeps_setPhase _) fun _ => .pure _
    · refine .bind (keeps_onWorld _) fun p => ?_
      exact .bind (keeps_setPhase _) fun _ => .pure _

theorem keeps_update (input : Bytes) : Keeps (Moved s) (update input) := by
  refine .bind keeps_start fun head => ?_
  refine .bind .get fun (t, _) => ?_
  dsimp only
  split
  · exact .bind (keeps_onCipher _ _) fun _ => .pure _
  · exact keeps_feedHeader _ _

theorem keeps_finalize : Keeps (Moved s) (finalize : Step (FamilySession σ γ × σ) Bytes) := by
  refine .bind .get fun (t, _) => ?_
  dsimp only
  split
  · exact keeps_onCipher _ _
  · exact .pure _
  · exact .throw _

/-- A call moves a session to another phase and changes nothing else of it. -/
theorem moved_run (s : FamilySession σ γ) (call : Session.Call) (w : σ) :
    s.Moved (reached (call.run (s, w))) := by
  have hs : s.Moved (s, w) := ⟨s.phase, rfl⟩
  cases call with
  | start => exact keeps_start _ hs
  | update input => exact keeps_update input _ hs
  | finalize => exact keeps_finalize _ hs

/-- A session that is not ready after bytes has gathered them, or has failed. -/
theorem given_update (hm : s.mode = .decrypt) (input : Bytes) (w : σ)
    (hr : isReady (reached (update input (s, w))).1 = false) :
    given (update input (s, w)) = [] := by
  cases hp : s.phase with
  | ready c =>
    rw [update_ready hp] at hr
    cases hu : ContentCipher.update input (c, w) with
    | ok out t => rw [hu] at hr; cases hr
    | error e t => rw [hu] at hr; cases hr
  | awaiting b =>
    rw [update_awaiting hm hp] at hr ⊢
    cases hd : Header.decode (b ++ input) s.expectedVersion with
    | error e => rw [feedHeader_refused hd]; rfl
    | ok d =>
      cases d with
      | needMore => rw [feedHeader_needMore hd]; rfl
      | complete h n =>
        cases ho : openNew s h w with
        | error e w' => rw [feedHeader_unopened hd ho]; rfl
        | ok c w' =>
          rw [feedHeader_opened hd ho] at hr ⊢
          split at hr
          · cases hr
          · cases hu : ContentCipher.update ((b ++ input).drop n) (c, w') with
            | ok out t => rw [hu] at hr; cases hr
            | error e t =>
              rw [if_neg ‹_›]
              rfl

/-- **No session of a family gives anything before its header is behind.** -/
theorem quiet : Session.Quiet fun _ : FamilySession σ γ => True where
  keeps _ _ _ := trivial
  mode := by
    intro s _ call w
    obtain ⟨p, hp⟩ := moved_run s call w
    rw [hp]
    rfl
  start _ hm w := start_decrypt hm w
  silent _ hm input w hr := given_update hm input w hr

end FamilySession

/-! ## Dispatchers -/

namespace Dispatcher

variable [Session κ σ]

/-- The sessions that the dispatcher makes or has chosen are among `P` and work the way that it
does. -/
structure Loyal (P : κ → Prop) (d : Dispatcher σ κ) : Prop where
  makes : ∀ id make, d.registry.get? id = some make →
    P (make d.context) ∧ Session.mode (make d.context) = d.context.mode
  chosen : ∀ id k, d.phase = .selected id k → P k ∧ Session.mode k = d.context.mode

variable {P : κ → Prop} {d : Dispatcher σ κ}

namespace Loyal

theorem selecting (h : d.Loyal P) (b : Bytes) : Loyal P { d with phase := .selecting b } where
  makes := h.makes
  chosen := by
    intro id k hp
    cases hp

theorem selected (h : d.Loyal P) {id : UInt32} {k : κ}
    (hk : P k ∧ Session.mode k = d.context.mode) : Loyal P { d with phase := .selected id k } where
  makes := h.makes
  chosen := by
    intro id' k' hp
    cases hp
    exact hk

theorem select (h : d.Loyal P) {requested id : UInt32} {fallback : Option UInt32} {k : κ}
    (hs : d.select requested fallback = .ok (id, k)) :
    P k ∧ Session.mode k = d.context.mode := by
  obtain ⟨make, hmake, rfl⟩ := select_eq_ok hs
  exact h.makes id make hmake

end Loyal

/-- The dispatcher is `d`, in whatever phase, and loyal. -/
def Moved (P : κ → Prop) (d : Dispatcher σ κ) (t : Dispatcher σ κ × σ) : Prop :=
  t.1.Loyal P ∧ t.1.context = d.context

section

variable (hP : Session.Quiet P)

include hP

/-- What a call makes of a session that may be chosen may be chosen. -/
theorem chosen_run {k : κ} (hk : P k ∧ Session.mode k = d.context.mode) (call : Session.Call)
    (w : σ) : P (reached (call.run (k, w))).1 ∧
      Session.mode (reached (call.run (k, w))).1 = d.context.mode :=
  ⟨hP.keeps hk.1 call w, (hP.mode hk.1 call w).trans hk.2⟩

theorem moved_selected (hd : d.Loyal P) {id : UInt32} {k : κ} (hp : d.phase = .selected id k)
    (call : Session.Call) (w : σ) : d.Moved P (reached (call.run (d, w))) := by
  have hself : (d, w) = d.choosing id (k, w) := by
    cases d
    cases hp
    rfl
  rw [hself, run_choosing, reached_mapState]
  exact ⟨hd.selected (chosen_run hP (hd.chosen id k hp) call w), rfl⟩

/-- Beginning to encrypt leaves a dispatcher as it was, or with the session that it started. -/
theorem moved_beginEncrypt (hd : d.Loyal P) (w : σ) :
    d.Moved P (reached (beginEncrypt (d, w))) := by
  cases hs : d.select d.encryptType none with
  | error e =>
    rw [beginEncrypt_unknown hs]
    exact ⟨hd, rfl⟩
  | ok p =>
    obtain ⟨id, k⟩ := p
    rw [beginEncrypt_known hs]
    have hk := chosen_run hP (hd.select hs) .start w
    simp only [Session.Call.run] at hk
    cases hrun : (Session.start : Step (κ × σ) Bytes) (k, w) with
    | error e t => exact ⟨hd, rfl⟩
    | ok head t =>
      rw [hrun] at hk
      exact ⟨hd.selected hk, rfl⟩

theorem moved_update_encrypt (hd : d.Loyal P) (hm : d.context.mode = .encrypt) {b : Bytes}
    (hp : d.phase = .selecting b) (input : Bytes) (w : σ) :
    d.Moved P (reached (update input (d, w))) := by
  cases hs : d.select d.encryptType none with
  | error e =>
    simp only [update, run_bind, run_get, hm, hp, beginEncrypt_unknown hs]
    exact ⟨hd, rfl⟩
  | ok p =>
    obtain ⟨id, k⟩ := p
    have hbegin := moved_beginEncrypt hP hd w
    rw [beginEncrypt_known hs] at hbegin
    rw [update_beginEncrypt hm hp hs]
    cases hrun : (Session.start : Step (κ × σ) Bytes) (k, w) with
    | error e t => exact ⟨hd, rfl⟩
    | ok head t =>
      rw [hrun] at hbegin
      have hloyal : Loyal P { d with phase := .selected id t.1 } := hbegin.1
      have hmoved := moved_selected hP hloyal rfl (.update input) t.2
      simp only [Session.Call.run] at hmoved
      cases hu : Session.update input
          (({ d with phase := .selected id t.1 } : Dispatcher σ κ), t.2) with
      | error e u => rw [hu] at hmoved; simp only [hu]; exact hmoved
      | ok out u => rw [hu] at hmoved; simp only [hu]; exact hmoved

theorem moved_feedId (hd : d.Loyal P) (hm : d.context.mode = .decrypt) (b input : Bytes) (w : σ) :
    d.Moved P (reached (feedId b input (d, w))) := by
  cases hi : Bytes.be32? (b ++ input) with
  | none =>
    rw [feedId_short hi]
    exact ⟨hd.selecting _, rfl⟩
  | some requested =>
    cases hs : d.select requested d.defaultType with
    | error e =>
      rw [feedId_unknown hi hs]
      exact ⟨hd.selecting _, rfl⟩
    | ok p =>
      obtain ⟨id, k⟩ := p
      have hk := hd.select hs
      rw [feedId_known hi hs (hP.start hk.1 (hk.2.trans hm) w)]
      split
      · exact ⟨hd.selected hk, rfl⟩
      · have hk' := chosen_run hP hk (.update ((b ++ input).drop idLen)) w
        simp only [Session.Call.run] at hk'
        cases hu : Session.update ((b ++ input).drop idLen) (k, w) with
        | error e t => exact ⟨hd.selecting _, rfl⟩
        | ok out t =>
          rw [hu] at hk'
          exact ⟨hd.selected hk', rfl⟩

theorem moved_run (hd : d.Loyal P) (call : Session.Call) (w : σ) :
    d.Moved P (reached (call.run (d, w))) := by
  cases hp : d.phase with
  | selected id k => exact moved_selected hP hd hp call w
  | selecting b =>
    cases hm : d.context.mode with
    | encrypt =>
      cases call with
      | start =>
        simp only [Session.Call.run, Session.start, start_beginEncrypt hm hp]
        exact moved_beginEncrypt hP hd w
      | update input => exact moved_update_encrypt hP hd hm hp input w
      | finalize =>
        simp only [Session.Call.run, Session.finalize, finalize_fresh hm hp]
        exact ⟨hd, rfl⟩
    | decrypt =>
      cases call with
      | start =>
        simp only [Session.Call.run, Session.start, start_selecting hm hp]
        exact ⟨hd, rfl⟩
      | update input =>
        simp only [Session.Call.run, Session.update, update_selecting hm hp]
        exact moved_feedId hP hd hm b input w
      | finalize =>
        simp only [Session.Call.run, Session.finalize, finalize_selecting hm hp]
        exact ⟨hd, rfl⟩

/-- A dispatcher that bytes leave unready has not chosen, or its choice is not ready. -/
theorem given_update (hd : d.Loyal P) (hm : d.context.mode = .decrypt) (input : Bytes) (w : σ)
    (hr : Session.isReady (reached (update input (d, w))).1 = false) :
    given (update input (d, w)) = [] := by
  cases hp : d.phase with
  | selected id k =>
    have hk := hd.chosen id k hp
    have hsilent := hP.silent hk.1 (hk.2.trans hm) input w
    rw [update_selected hp] at hr ⊢
    cases hu : Session.update input (k, w) with
    | error e t => rfl
    | ok out t =>
      rw [hu] at hr hsilent
      exact hsilent hr
  | selecting b =>
    rw [update_selecting hm hp] at hr ⊢
    cases hi : Bytes.be32? (b ++ input) with
    | none => rw [feedId_short hi]; rfl
    | some requested =>
      cases hs : d.select requested d.defaultType with
      | error e => rw [feedId_unknown hi hs]; rfl
      | ok p =>
        obtain ⟨id, k⟩ := p
        have hk := hd.select hs
        have hsilent := hP.silent hk.1 (hk.2.trans hm) ((b ++ input).drop idLen) w
        rw [feedId_known hi hs (hP.start hk.1 (hk.2.trans hm) w)] at hr ⊢
        split at hr
        · rw [if_pos ‹_›]
          rfl
        · rw [if_neg ‹_›]
          cases hu : Session.update ((b ++ input).drop idLen) (k, w) with
          | error e t => rfl
          | ok out t =>
            rw [hu] at hr hsilent
            exact hsilent hr

/-- **No dispatcher gives anything before the header behind its id is**, if the sessions that it
chooses do not. -/
theorem quiet : Session.Quiet fun d : Dispatcher σ κ => d.Loyal P where
  keeps hd call w := (moved_run hP hd call w).1
  mode := by
    intro d hd call w
    exact congrArg SessionContext.mode (moved_run hP hd call w).2
  start := by
    intro d hd hm w
    cases hp : d.phase with
    | selecting b => exact start_selecting hm hp
    | selected id k =>
      have hk := hd.chosen id k hp
      refine (start_selected hp).trans ?_
      rw [hP.start hk.1 (hk.2.trans hm)]
      cases d
      cases hp
      rfl
  silent hd hm input w hr := given_update hP hd hm input w hr

end

end Dispatcher

/-- Dispatchers over the bundled families are loyal, in either mode. -/
theorem CipherBuilder.loyal_dispatcher (b : CipherBuilder σ) (mode : Mode) (encryptType : UInt32)
    (defaultType : Option UInt32) :
    (b.dispatcher mode (Registry.bundled id id) encryptType defaultType).Loyal fun _ => True where
  makes := by
    intro id make hmake
    rw [eq_familySession_of_bundled hmake]
    exact ⟨trivial, rfl⟩
  chosen := by
    intro id k hp
    cases hp

end SealedStream
