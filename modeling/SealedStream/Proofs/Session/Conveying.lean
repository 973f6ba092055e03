import SealedStream.Proofs.Session.HeaderFirst

/-!
# What becomes of a stream

Encrypting or decrypting, a session that is started, fed piece by piece and finalized makes of its
bytes what the bytes alone decide, in the world that it begins in: `Session.Conveys` says which
function of the bytes this is. The collaborators may have state and may fail. An encrypting session
that makes its content cipher conveys the head of the stream and its bytes under the keystream
(`Session.Begins.conveys`), a decrypting one conveys `progress` (`FamilySession.conveys`), and so do
dispatchers over them (`Dispatcher.conveys`).
-/

namespace SealedStream

variable {σ κ : Type}

/-- The session `k₀`, started in the world `w₀`, makes `D fed` of the bytes `fed`, and is then in
one of the states and worlds `At fed`. One that gives nothing at its start decrypts, and one that
gave something asks its collaborators no more. -/
structure Session.Conveys [Session κ σ] (D : Bytes → Progress) (At : Bytes → κ → σ → Prop)
    (k₀ : κ) (w₀ : σ) : Prop where
  lasts : Progress.Lasts D
  start : (∃ e t, (∀ fed, D fed = .failed e) ∧ Session.start (k₀, w₀) = .error e t) ∨
    ∃ k w, Session.start (k₀, w₀) = .ok (D []).plain (k, w) ∧ At [] k w
  mode : ∀ {k w}, At [] k w → (D []).plain = [] → Session.mode k = .decrypt
  isReady : ∀ {fed k w}, At fed k w → Session.isReady k = (D fed).isReady
  update : ∀ {fed k w more}, At fed k w → more ≠ [] →
    (∃ e t, D (fed ++ more) = .failed e ∧ Session.update more (k, w) = .error e t) ∨
    ∃ out k' w', Session.update more (k, w) = .ok out (k', w') ∧ At (fed ++ more) k' w' ∧
      (D (fed ++ more)).plain = (D fed).plain ++ out
  settled : ∀ {fed k w}, At fed k w → (D fed).plain ≠ [] → ∀ w', At fed k w'
  finalize : ∀ {fed k w}, At fed k w →
    (∃ n t, D fed = .awaiting n ∧ Session.finalize (k, w) = .error (.truncatedHeader n) t) ∨
    ∃ p t, D fed = .ready p ∧ Session.finalize (k, w) = .ok [] t

namespace Session

/-! ## Encrypting -/

/-- What a stream is that begins by `sealing` in the world `w`. -/
def sealed (sealing : Step σ (CounterStream × Bytes)) (w : σ) (fed : Bytes) : Progress :=
  match sealing w with
  | .ok p _ => .ready (p.2 ++ (p.1.apply fed).1)
  | .error e _ => .failed e

variable [Session κ σ] {k₀ : κ} {w₀ : σ} {running : CounterStream → κ}
  {sealing : Step σ (CounterStream × Bytes)}

/-- A session that cannot start conveys nothing but its error. -/
theorem conveys_of_start_error {e : Error} {t : κ × σ}
    (h : (Session.start : Step (κ × σ) Bytes) (k₀, w₀) = .error e t) :
    Conveys (fun _ => .failed e) (fun _ _ _ => False) k₀ w₀ where
  lasts := ⟨fun h _ => h, fun h => nomatch h⟩
  start := .inl ⟨e, t, fun _ => rfl, h⟩
  mode h := h.elim
  isReady h := h.elim
  update h := h.elim
  settled h := h.elim
  finalize h := h.elim

/-- An encrypting session conveys the head that it begins with and its bytes under the keystream. -/
theorem Begins.conveys (h : Begins k₀ running sealing)
    (hhead : ∀ {w c head w'}, sealing w = .ok (c, head) w' → head ≠ []) (w₀ : σ) :
    Conveys (sealed sealing w₀)
      (fun fed k _ => ∃ c head w', sealing w₀ = .ok (c, head) w' ∧ k = running (c.apply fed).2)
      k₀ w₀ where
  lasts := by
    unfold sealed
    cases sealing w₀ with
    | error e w' => exact ⟨fun hD _ => hD, fun hD => nomatch hD⟩
    | ok p w' =>
      refine ⟨fun hD _ => (nomatch hD), ?_⟩
      rintro fed _ ⟨⟩ more
      refine ⟨_, CounterStream.length_apply (p.1.apply fed).2 more, ?_⟩
      simp only [CounterStream.apply_append, List.append_assoc]
  start := by
    rw [h.start]
    unfold sealed
    cases hs : sealing w₀ with
    | error e w' => exact .inl ⟨e, _, fun _ => rfl, rfl⟩
    | ok p w' =>
      refine .inr ⟨_, w', ?_, p.1, p.2, w', rfl, rfl⟩
      exact congrArg (fun head => EStateM.Result.ok head _) (List.append_nil p.2).symm
  mode := by
    rintro k w ⟨c, head, w', hs, -⟩ hnil
    rw [sealed, hs] at hnil
    exact absurd (List.append_eq_nil_iff.mp hnil).1 (hhead hs)
  isReady := by
    rintro fed k w ⟨c, head, w', hs, rfl⟩
    rw [h.ready, sealed, hs]
    rfl
  update := by
    rintro fed _ w more ⟨c, head, w', hs, rfl⟩ -
    refine .inr ⟨((c.apply fed).2.apply more).1, _, w, h.run (.update more) ((c.apply fed).2, w),
      ⟨c, head, w', hs, ?_⟩, ?_⟩
    · rw [CounterStream.apply_append]
      rfl
    · simp only [sealed, hs, CounterStream.apply_append, Progress.plain, List.append_assoc]
  settled h _ _ := h
  finalize := by
    rintro fed _ w ⟨c, head, w', hs, rfl⟩
    refine .inr ⟨head ++ (c.apply fed).1, _, ?_, h.run .finalize ((c.apply fed).2, w)⟩
    rw [sealed, hs]

end Session

/-! ## Sessions of one family -/

namespace FamilySession

variable {s : FamilySession σ CounterStream} {f : BundledFamily}

theorem head_ne_nil {id head : Bytes} {c : CounterStream} {w w' : σ}
    (h : s.sealing id w = .ok (c, head) w') : head ≠ [] := by
  obtain ⟨hd, rfl, -⟩ := sealing_eq_ok h
  rw [← List.length_pos_iff, List.length_append, Header.length_encode, Header.encodedLen,
    Header.fixedLen]
  omega

/-- Where the session `s` is after the bytes `fed`, if they were no failure: until the header is
behind the world is the one at the beginning. -/
def Amid (f : BundledFamily) (s : FamilySession σ CounterStream) (w₀ : σ) (fed : Bytes)
    (k : FamilySession σ CounterStream) (w : σ) : Prop :=
  After f s w₀ fed k ∧ ((progress f s w₀ fed).isReady = false → w = w₀)

/-- A decrypting session conveys `progress`, whatever its key wrap does: it is asked in the world
that the session begins in, once. -/
theorem conveys (hm : s.mode = .decrypt) (hp : s.phase = .awaiting []) (hf : s.family = f.family)
    (w₀ : σ) : Session.Conveys (progress f s w₀) (Amid f s w₀) s w₀ where
  lasts := (grows_progress f s w₀).lasts
  start := by
    refine .inr ⟨s, w₀, ?_, .inl ⟨Header.decode_nil _, by rw [← hp]⟩, fun _ => rfl⟩
    rw [(grows_progress f s w₀).nil]
    exact start_decrypt hm w₀
  mode := by
    rintro k w ⟨⟨-, rfl⟩ | ⟨h, n, m, -, -, rfl⟩, -⟩ -
    · exact hm
    · exact hm
  isReady := by
    rintro fed k w ⟨⟨hd, rfl⟩ | ⟨h, n, m, hd, ho, rfl⟩, -⟩
    · rw [progress_of_needMore hd]
      rfl
    · rw [progress_of_opened hd ho]
      rfl
  update := by
    rintro fed k w more ⟨hk, hw⟩ -
    rcases update_asked hm hf hk more hw with herror | ⟨out, k', w', hu, hk', hw', hplain⟩
    · exact .inl herror
    · exact .inr ⟨out, k', w', hu, ⟨hk', hw'⟩, hplain⟩
  settled := by
    rintro fed k w ⟨hk, -⟩ hplain w'
    refine ⟨hk, fun hr => ?_⟩
    rw [Progress.isReady_of_plain hplain] at hr
    cases hr
  finalize := by
    rintro fed k w ⟨⟨hd, rfl⟩ | ⟨h, n, m, hd, ho, rfl⟩, -⟩
    · exact .inl ⟨fed.length, _, progress_of_needMore hd, finalize_awaiting hm rfl⟩
    · exact .inr ⟨_, _, progress_of_opened hd ho, finalize_ready rfl⟩

end FamilySession

/-! ## Dispatchers -/

namespace Dispatcher

variable [Session κ σ] {d : Dispatcher σ κ} {w₀ : σ} {fed more : Bytes}

/-- An encrypting dispatcher that has no session to encrypt with fails at its start. -/
theorem start_unknown {e : Error} (hm : d.context.mode = .encrypt) (hp : d.phase = .selecting [])
    (hs : d.select d.encryptType none = .error e) (w : σ) :
    (Session.start : Step (Dispatcher σ κ × σ) Bytes) (d, w) = .error e (d, w) :=
  (start_beginEncrypt hm hp w).trans (beginEncrypt_unknown hs w)

variable {inner : UInt32 → κ → Bytes → Progress} {At : UInt32 → κ → Bytes → κ → σ → Prop}

/-- What is asked of the sessions that can be chosen in the world `w₀`: each conveys its part, and
there is nothing to starting it. -/
def Conveyed (inner : UInt32 → κ → Bytes → Progress) (At : UInt32 → κ → Bytes → κ → σ → Prop)
    (d : Dispatcher σ κ) (w₀ : σ) : Prop :=
  ∀ {requested id k}, d.select requested d.defaultType = .ok (id, k) →
    Session.Conveys (inner id k) (At id k) k w₀ ∧
      (Session.start : Step (κ × σ) Bytes) (k, w₀) = .ok [] (k, w₀)

/-- A session whose start changes nothing begins where it is. -/
theorem at_nil {D : Bytes → Progress} {At : Bytes → κ → σ → Prop} {k : κ}
    (h : Session.Conveys D At k w₀)
    (hstart : (Session.start : Step (κ × σ) Bytes) (k, w₀) = .ok [] (k, w₀)) : At [] k w₀ := by
  rcases h.start with ⟨e, t, -, he⟩ | ⟨k', w', hok, hat⟩
  · rw [hstart] at he
    cases he
  · rw [hstart] at hok
    injection hok with _ hstate
    injection hstate with hk hw
    rwa [hk, hw]

/-- Where the dispatcher `d` is after the bytes `fed`, which were no failure: until a session is
chosen the world is the one at the beginning. -/
def Amid (At : UInt32 → κ → Bytes → κ → σ → Prop) (d : Dispatcher σ κ) (w₀ : σ) (fed : Bytes)
    (k : Dispatcher σ κ) (w : σ) : Prop :=
  After (fun id k₀ fed k₁ => At id k₀ fed k₁ w) d fed k ∧ (Bytes.be32? fed = none → w = w₀)

/-- The bytes that complete the id and those behind them. -/
theorem feedId_amid (hg : ∀ id k, Progress.Grows (inner id k)) (hc : Conveyed inner At d w₀) :
    (∃ e t, progress inner d (fed ++ more) = .failed e ∧ feedId fed more (d, w₀) = .error e t) ∨
    ∃ out k' w', feedId fed more (d, w₀) = .ok out (k', w') ∧ Amid At d w₀ (fed ++ more) k' w' ∧
      (progress inner d (fed ++ more)).plain = out := by
  cases hi : Bytes.be32? (fed ++ more) with
  | none =>
    refine .inr ⟨[], _, _, feedId_short hi, ⟨.inl ⟨hi, rfl⟩, fun _ => rfl⟩, ?_⟩
    rw [progress_of_short hi]
    rfl
  | some requested =>
    cases hs : d.select requested d.defaultType with
    | error e => exact .inl ⟨e, _, progress_of_unknown hi hs, feedId_unknown hi hs⟩
    | ok p =>
      obtain ⟨id, k⟩ := p
      obtain ⟨hconv, hstart⟩ := hc hs
      have hnone {v : σ} : Bytes.be32? (fed ++ more) = none → v = w₀ := by rw [hi]; simp
      rw [feedId_known hi hs hstart, progress_of_known hi hs]
      by_cases hr : ((fed ++ more).drop idLen).isEmpty
      · rw [if_pos hr]
        rw [List.isEmpty_iff] at hr
        refine .inr ⟨[], _, _, rfl, ⟨.inr ⟨requested, id, k, k, hi, hs, ?_, rfl⟩, hnone⟩, ?_⟩
        · rw [hr]
          exact at_nil hconv hstart
        · rw [hr, (hg id k).nil]
          rfl
      · rw [if_neg hr]
        rcases hconv.update (at_nil hconv hstart) (mt List.isEmpty_iff.mpr hr) with
          ⟨e, t, hD, hu⟩ | ⟨out, k', w', hu, hk', hplain⟩
        · rw [hu]
          exact .inl ⟨e, _, hD, rfl⟩
        · rw [hu]
          refine .inr ⟨out, _, w', rfl,
            ⟨.inr ⟨requested, id, k, k', hi, hs, hk', rfl⟩, hnone⟩, ?_⟩
          rw [(hg id k).nil] at hplain
          exact hplain

theorem update_amid (hm : d.context.mode = .decrypt) (hg : ∀ id k, Progress.Grows (inner id k))
    (hc : Conveyed inner At d w₀) {k : Dispatcher σ κ} {w : σ} (hk : Amid At d w₀ fed k w)
    (hmore : more ≠ []) :
    (∃ e t, progress inner d (fed ++ more) = .failed e ∧ update more (k, w) = .error e t) ∨
    ∃ out k' w', update more (k, w) = .ok out (k', w') ∧ Amid At d w₀ (fed ++ more) k' w' ∧
      (progress inner d (fed ++ more)).plain = (progress inner d fed).plain ++ out := by
  obtain ⟨⟨hi, rfl⟩ | ⟨requested, id, k₀, k₁, hi, hs, hk, rfl⟩, hw⟩ := hk
  · obtain rfl := hw hi
    rw [update_selecting (d := { d with phase := .selecting fed }) hm rfl, progress_of_short hi]
    exact feedId_amid hg hc
  · have hi' := Bytes.be32?_append hi more
    rw [update_selected rfl, progress_of_known hi' hs, progress_of_known hi hs,
      drop_idLen_append hi]
    rcases (hc hs).1.update hk hmore with ⟨e, t, hD, hu⟩ | ⟨out, k', w', hu, hk', hplain⟩
    · rw [hu]
      exact .inl ⟨e, _, hD, rfl⟩
    · rw [hu]
      refine .inr ⟨out, _, w', rfl, ⟨.inr ⟨requested, id, k₀, k', hi', hs, ?_, rfl⟩, ?_⟩, hplain⟩
      · rw [drop_idLen_append hi]
        exact hk'
      · rw [hi']
        intro hnone
        cases hnone

/-- **A decrypting dispatcher conveys `progress`**, if the sessions that it can choose convey their
parts. -/
theorem conveys (hm : d.context.mode = .decrypt) (hp : d.phase = .selecting [])
    (hg : ∀ id k, Progress.Grows (inner id k)) (hc : Conveyed inner At d w₀) :
    Session.Conveys (progress inner d) (Amid At d w₀) d w₀ where
  lasts := (grows_progress hg d).lasts
  start := by
    refine .inr ⟨d, w₀, start_selecting hm hp, ⟨.inl ⟨rfl, by rw [← hp]⟩, fun _ => rfl⟩⟩
  mode := by
    rintro k w ⟨⟨-, rfl⟩ | ⟨requested, id, k₀, k₁, -, -, -, rfl⟩, -⟩ -
    · exact hm
    · exact hm
  isReady := by
    rintro fed k w ⟨⟨hi, rfl⟩ | ⟨requested, id, k₀, k₁, hi, hs, hk, rfl⟩, -⟩
    · rw [progress_of_short hi]
      rfl
    · rw [progress_of_known hi hs]
      exact (hc hs).1.isReady hk
  update hk hmore := update_amid hm hg hc hk hmore
  settled := by
    rintro fed k w ⟨⟨hi, rfl⟩ | ⟨requested, id, k₀, k₁, hi, hs, hk, rfl⟩, -⟩ hplain w'
    · rw [progress_of_short hi] at hplain
      exact absurd rfl hplain
    · rw [progress_of_known hi hs] at hplain
      refine ⟨.inr ⟨requested, id, k₀, k₁, hi, hs, (hc hs).1.settled hk hplain w', rfl⟩, ?_⟩
      rw [hi]
      intro hnone
      cases hnone
  finalize := by
    rintro fed k w ⟨⟨hi, rfl⟩ | ⟨requested, id, k₀, k₁, hi, hs, hk, rfl⟩, -⟩
    · exact .inl ⟨_, _, progress_of_short hi,
        finalize_selecting (d := { d with phase := .selecting fed }) hm rfl⟩
    · rw [progress_of_known hi hs]
      rcases (hc hs).1.finalize hk with ⟨n, t, hD, hf⟩ | ⟨p, t, hD, hf⟩
      · refine .inl ⟨n, ({ d with phase := .selected id t.1 }, t.2), hD, ?_⟩
        refine (finalize_selected rfl).trans ?_
        rw [hf]
      · refine .inr ⟨p, ({ d with phase := .selected id t.1 }, t.2), hD, ?_⟩
        refine (finalize_selected rfl).trans ?_
        rw [hf]

end Dispatcher

/-! ## Over the bundled families -/

/-- A session of the family `f` at its beginning, in either mode, over any key wrap and random
source. -/
structure FamilySession.Bundled (f : BundledFamily) (s : FamilySession σ CounterStream) : Prop where
  phase : s.phase = .awaiting []
  family : s.family = f.family

/-- A dispatcher at its beginning, in either mode, whose registry holds sessions of bundled
families: under each bound id, one of `families id`. -/
structure Dispatcher.Bundled (families : UInt32 → BundledFamily)
    (d : Dispatcher σ (FamilySession σ CounterStream)) : Prop where
  phase : d.phase = .selecting []
  sessions : ∀ {id make}, d.registry.get? id = some make →
    (make d.context).Bundled (families id) ∧ (make d.context).mode = d.context.mode

/-- What a session of the family `f` conveys that begins in the world `w`. -/
def FamilySession.conveyed (f : BundledFamily) (s : FamilySession σ CounterStream) (w : σ) :
    Bytes → Progress :=
  match s.mode with
  | .encrypt => Session.sealed (s.sealing []) w
  | .decrypt => s.progress f w

/-- What a dispatcher conveys that begins in the world `w`: encrypting, the id and what the session
for it conveys. -/
def Dispatcher.conveyed (families : UInt32 → BundledFamily)
    (d : Dispatcher σ (FamilySession σ CounterStream)) (w : σ) : Bytes → Progress :=
  match d.context.mode with
  | .encrypt =>
    match d.select d.encryptType none with
    | .ok (id, s) => Session.sealed (s.sealing (Bytes.be32 id)) w
    | .error e => fun _ => .failed e
  | .decrypt => d.familyProgress families w

theorem FamilySession.Bundled.conveys {f : BundledFamily} {s : FamilySession σ CounterStream}
    (h : s.Bundled f) (w : σ) : ∃ At, Session.Conveys (s.conveyed f w) At s w := by
  unfold conveyed
  cases hm : s.mode with
  | encrypt => exact ⟨_, (FamilySession.begins hm h.phase).conveys head_ne_nil w⟩
  | decrypt => exact ⟨_, FamilySession.conveys hm h.phase h.family w⟩

theorem Dispatcher.Bundled.conveys {families : UInt32 → BundledFamily}
    {d : Dispatcher σ (FamilySession σ CounterStream)} (h : d.Bundled families) (w : σ) :
    ∃ At, Session.Conveys (d.conveyed families w) At d w := by
  unfold conveyed
  cases hm : d.context.mode with
  | encrypt =>
    cases hs : d.select d.encryptType none with
    | error e =>
      exact ⟨_, Session.conveys_of_start_error (start_unknown hm h.phase hs w)⟩
    | ok p =>
      obtain ⟨make, hmake, hk⟩ := select_eq_ok hs
      obtain ⟨hbundled, hmode⟩ := h.sessions hmake
      rw [← hk] at hbundled hmode
      have hbegins := Dispatcher.begins hm h.phase hs
        (FamilySession.begins (hmode.trans hm) hbundled.phase)
      rw [List.append_nil] at hbegins
      exact ⟨_, hbegins.conveys FamilySession.head_ne_nil w⟩
  | decrypt =>
    have hc : Dispatcher.Conveyed (fun id k => k.progress (families id) w)
        (fun id k => k.Amid (families id) w) d w := by
      intro requested id k hs
      obtain ⟨make, hmake, rfl⟩ := select_eq_ok hs
      obtain ⟨hbundled, hmode⟩ := h.sessions hmake
      exact ⟨FamilySession.conveys (hmode.trans hm) hbundled.phase hbundled.family w,
        FamilySession.start_decrypt (hmode.trans hm) w⟩
    exact ⟨_, Dispatcher.conveys hm h.phase
      (fun id k => FamilySession.grows_progress (families id) k w) hc⟩

namespace CipherBuilder

theorem bundled_familySession (b : CipherBuilder σ) (f : BundledFamily) (mode : Mode) :
    (b.familySession f.family mode).Bundled f :=
  ⟨rfl, rfl⟩

theorem bundled_dispatcher (b : CipherBuilder σ) (mode : Mode) (encryptType : UInt32)
    (defaultType : Option UInt32) :
    (b.dispatcher mode (Registry.bundled id id) encryptType defaultType).Bundled familyOf where
  phase := rfl
  sessions := by
    intro id make hmake
    rw [eq_familySession_of_bundled hmake]
    exact ⟨⟨rfl, rfl⟩, rfl⟩

end CipherBuilder

end SealedStream
