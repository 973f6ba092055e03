import SealedStream.Proofs.Session.Conveying

/-!
# Sessions that demand a header

A decrypting session does not end before its header is behind, and what it does not take is never
taken for a failed transfer (`Session.Demands`): it ends after bytes that begin with a whole header
which was opened, or it fails for good. Its key wrap may answer differently each time it is asked, as
long as it does not fail with a failed transfer.
-/

namespace SealedStream

variable {σ κ : Type}

/-- The session `k₀`, which is in one of the states `At fed` after it was fed the bytes `fed`, ends only
if they are `enough`; and if it fails, this is not a failed transfer. -/
structure Session.Demands [Session κ σ] (enough : Bytes → Prop) (At : Bytes → κ → Prop) (k₀ : κ) :
    Prop where
  fresh : At [] k₀
  mono : ∀ {fed}, enough fed → ∀ more, enough (fed ++ more)
  run : ∀ {fed k}, At fed k → ∀ (call : Session.Call) (w : σ),
    (∃ e t, e.isIo = false ∧ call.run (k, w) = .error e t) ∨
    ∃ out k' w', call.run (k, w) = .ok out (k', w') ∧ At (fed ++ Session.fed [call]) k'
  finalize : ∀ {fed k}, At fed k → ∀ {w : σ} {out t}, Session.finalize (k, w) = .ok out t → enough fed

/-- No secret that is not unwrapped is taken for a failed transfer. -/
def KeyWrap.NeverIo (wrap : KeyWrap σ) : Prop :=
  ∀ {wrapped : Bytes} {w w' : σ} {e : Error}, wrap.unwrap wrapped w = .error e w' → e.isIo = false

/-! ## Sessions of one family -/

theorem KeyMaterial.isIo_of_openHeader {γ : Type} {h : Header} {wrap : KeyWrap σ}
    {family : CipherFamily σ γ} (hw : wrap.NeverIo) {w w' : σ} {e : Error}
    (ho : openHeader h wrap family w = .error e w') : e.isIo = false := by
  rw [openHeader_eq, run_bind] at ho
  cases hiv : wrap.unwrap h.wrappedIv w with
  | error e' w₁ =>
    rw [hiv] at ho
    cases ho
    exact hw hiv
  | ok iv w₁ =>
    simp only [hiv, run_ite] at ho
    split at ho
    · cases ho
      rfl
    · rw [run_bind] at ho
      cases hkey : wrap.unwrap h.wrappedKey w₁ with
      | error e' w₂ =>
        rw [hkey] at ho
        cases ho
        exact hw hkey
      | ok key w₂ =>
        simp only [hkey, run_ite] at ho
        split at ho
        · cases ho
          rfl
        · cases ho

namespace FamilySession

variable {s : FamilySession σ CounterStream} {f : BundledFamily} {fed : Bytes}

theorem isIo_of_progress (hw : s.wrap.NeverIo) {w : σ} {e : Error}
    (hD : s.progress f w fed = .failed e) : e.isIo = false := by
  unfold progress at hD
  cases hd : Header.decode fed s.expectedVersion with
  | error e' =>
    rw [hd] at hD
    cases hD
    exact Header.isIo_of_refused hd
  | ok d =>
    cases d with
    | needMore =>
      rw [hd] at hD
      cases hD
    | complete h n =>
      simp only [hd] at hD
      cases ho : outcome (KeyMaterial.openHeader h s.wrap s.family w) with
      | ok m =>
        rw [ho] at hD
        cases hD
      | error e' =>
        rw [ho] at hD
        cases hD
        obtain ⟨w', ho⟩ := outcome_eq_error.mp ho
        exact KeyMaterial.isIo_of_openHeader hw ho

/-- The bytes begin with a header that the key wrap opens in some world. -/
def Opened (f : BundledFamily) (s : FamilySession σ CounterStream) (fed : Bytes) : Prop :=
  ∃ w, (s.progress f w fed).isReady = true

/-- Where the session may be after the bytes `fed`. -/
def Past (f : BundledFamily) (s : FamilySession σ CounterStream) (fed : Bytes)
    (k : FamilySession σ CounterStream) : Prop :=
  ∃ w, s.After f w fed k

theorem mode_of_past {k : FamilySession σ CounterStream} (hk : s.Past f fed k) : k.mode = s.mode := by
  obtain ⟨w, ⟨-, rfl⟩ | ⟨h, n, m, -, -, rfl⟩⟩ := hk <;> rfl

/-- Before the header is behind any world may be the one that the session began in. -/
theorem Past.now {k : FamilySession σ CounterStream} (hk : s.Past f fed k) (v : σ) :
    ∃ w, s.After f w fed k ∧ ((s.progress f w fed).isReady = false → v = w) := by
  obtain ⟨w, hneed | ⟨h, n, m, hd, ho, hk⟩⟩ := hk
  · exact ⟨v, .inl hneed, fun _ => rfl⟩
  · refine ⟨w, .inr ⟨h, n, m, hd, ho, hk⟩, fun hr => ?_⟩
    rw [progress_of_opened hd ho] at hr
    cases hr

theorem demands (hm : s.mode = .decrypt) (hp : s.phase = .awaiting []) (hf : s.family = f.family)
    (hw : s.wrap.NeverIo) (w₀ : σ) : Session.Demands (σ := σ) (s.Opened f) (s.Past f) s where
  fresh := ⟨w₀, .inl ⟨Header.decode_nil _, by rw [← hp]⟩⟩
  mono := fun ⟨w, hr⟩ _ => ⟨w, (grows_progress f s w).isReady_append hr⟩
  run := by
    intro fed k hk call v
    obtain ⟨w, hk, hv⟩ := hk.now v
    cases call with
    | start =>
      refine .inr ⟨[], k, v, start_decrypt ((mode_of_past ⟨w, hk⟩).trans hm) v, ?_⟩
      simp only [Session.fed, List.append_nil]
      exact ⟨w, hk⟩
    | update more =>
      simp only [Session.fed, List.append_nil]
      rcases update_asked hm hf hk more hv with ⟨e, t, hD, hu⟩ | ⟨out, k', v', hu, hk', -⟩
      · exact .inl ⟨e, t, isIo_of_progress hw hD, hu⟩
      · exact .inr ⟨out, k', v', hu, w, hk'⟩
    | finalize =>
      simp only [Session.fed, List.append_nil]
      rcases hk with ⟨hd, rfl⟩ | ⟨h, n, m, hd, ho, rfl⟩
      · exact .inl ⟨_, _, rfl, finalize_awaiting hm rfl⟩
      · refine .inr ⟨[], _, v, ?_, w, .inr ⟨h, n, m, hd, ho, rfl⟩⟩
        exact finalize_ready (s := { s with phase := _ }) rfl
  finalize := by
    rintro fed k ⟨w, ⟨hd, rfl⟩ | ⟨h, n, m, hd, ho, rfl⟩⟩ v out t hrun
    · rw [show Session.finalize (_, v) = _ from
        finalize_awaiting (s := { s with phase := .awaiting fed }) hm rfl] at hrun
      cases hrun
    · refine ⟨w, ?_⟩
      rw [progress_of_opened hd ho]
      rfl

end FamilySession

/-! ## Dispatchers -/

namespace Dispatcher

variable [Session κ σ] {d : Dispatcher σ κ} {fed more : Bytes} {w : σ}
  {enough : UInt32 → κ → Bytes → Prop} {At : UInt32 → κ → Bytes → κ → Prop}

omit [Session κ σ] in
theorem isIo_of_select {requested : UInt32} {fallback : Option UInt32} {e : Error}
    (h : d.select requested fallback = .error e) : e.isIo = false := by
  unfold select at h
  split at h
  · cases h
  · split at h
    · cases h
    · cases h
      rfl

/-- The id is there, and what is behind it is enough for the session that it leads to. -/
def Enough (enough : UInt32 → κ → Bytes → Prop) (d : Dispatcher σ κ) (fed : Bytes) : Prop :=
  ∃ requested id k, Bytes.be32? fed = some requested ∧
    d.select requested d.defaultType = .ok (id, k) ∧ enough id k (fed.drop idLen)

/-- What is asked of the sessions that can be chosen: there is nothing to starting them, and they
demand what is `enough`. -/
def Demanding (enough : UInt32 → κ → Bytes → Prop) (At : UInt32 → κ → Bytes → κ → Prop)
    (d : Dispatcher σ κ) : Prop :=
  ∀ {requested id k}, d.select requested d.defaultType = .ok (id, k) →
    Session.Demands (σ := σ) (enough id k) (At id k) k ∧
      ∀ w : σ, (Session.start : Step (κ × σ) Bytes) (k, w) = .ok [] (k, w)

theorem feedId_demands (hc : Demanding enough At d) (w : σ) :
    (∃ e t, e.isIo = false ∧ feedId fed more (d, w) = .error e t) ∨
    ∃ out k' w', feedId fed more (d, w) = .ok out (k', w') ∧ After At d (fed ++ more) k' := by
  cases hi : Bytes.be32? (fed ++ more) with
  | none => exact .inr ⟨[], _, w, feedId_short hi, .inl ⟨hi, rfl⟩⟩
  | some requested =>
    cases hs : d.select requested d.defaultType with
    | error e => exact .inl ⟨e, _, isIo_of_select hs, feedId_unknown hi hs⟩
    | ok p =>
      obtain ⟨id, k⟩ := p
      obtain ⟨hk, hstart⟩ := hc hs
      rw [feedId_known hi hs (hstart w)]
      by_cases hr : ((fed ++ more).drop idLen).isEmpty
      · rw [if_pos hr]
        rw [List.isEmpty_iff] at hr
        refine .inr ⟨[], _, w, rfl, .inr ⟨requested, id, k, k, hi, hs, ?_, rfl⟩⟩
        rw [hr]
        exact hk.fresh
      · rw [if_neg hr]
        rcases hk.run hk.fresh (.update ((fed ++ more).drop idLen)) w with
          ⟨e, t, he, hu⟩ | ⟨out, k', w', hu, hk'⟩
        · rw [show Session.update _ (k, w) = _ from hu]
          exact .inl ⟨e, _, he, rfl⟩
        · rw [show Session.update _ (k, w) = _ from hu]
          simp only [Session.fed, List.append_nil, List.nil_append] at hk'
          exact .inr ⟨out, _, w', rfl, .inr ⟨requested, id, k, k', hi, hs, hk', rfl⟩⟩

theorem demands (hm : d.context.mode = .decrypt) (hp : d.phase = .selecting [])
    (hc : Demanding enough At d) :
    Session.Demands (σ := σ) (Enough enough d) (After At d) d where
  fresh := .inl ⟨rfl, by rw [← hp]⟩
  mono := by
    rintro fed ⟨requested, id, k, hi, hs, hk⟩ more
    refine ⟨requested, id, k, Bytes.be32?_append hi more, hs, ?_⟩
    rw [drop_idLen_append hi]
    exact (hc hs).1.mono hk more
  run := by
    rintro fed k (⟨hi, rfl⟩ | ⟨requested, id, k₀, k₁, hi, hs, hk, rfl⟩) call w
    · cases call with
      | start =>
        refine .inr ⟨[], _, w, start_selecting (d := { d with phase := .selecting fed }) hm rfl, ?_⟩
        simp only [Session.fed, List.append_nil]
        exact .inl ⟨hi, rfl⟩
      | update more =>
        simp only [Session.fed, List.append_nil]
        rw [Session.Call.run, show Session.update more (_, w) = _ from
          update_selecting (d := { d with phase := .selecting fed }) hm rfl]
        exact feedId_demands (d := { d with phase := .selecting fed }) hc w
      | finalize =>
        exact .inl ⟨_, _, rfl, finalize_selecting (d := { d with phase := .selecting fed }) hm rfl⟩
    · have hrun := run_choosing d id call (k₁, w)
      rw [choosing] at hrun
      rw [hrun]
      rcases (hc hs).1.run hk call w with ⟨e, t, he, hcall⟩ | ⟨out, k', w', hcall, hk'⟩
      · rw [hcall]
        exact .inl ⟨e, _, he, rfl⟩
      · rw [hcall]
        refine .inr ⟨out, _, w', rfl, .inr ⟨requested, id, k₀, k', Bytes.be32?_append hi _, hs,
          ?_, rfl⟩⟩
        rw [drop_idLen_append hi]
        exact hk'
  finalize := by
    rintro fed k (⟨hi, rfl⟩ | ⟨requested, id, k₀, k₁, hi, hs, hk, rfl⟩) w out t hrun
    · rw [show Session.finalize (_, w) = _ from
        finalize_selecting (d := { d with phase := .selecting fed }) hm rfl] at hrun
      cases hrun
    · rw [show Session.finalize (_, w) = _ from finalize_selected rfl] at hrun
      cases hf : (Session.finalize : Step (κ × σ) Bytes) (k₁, w) with
      | error e u =>
        rw [hf] at hrun
        cases hrun
      | ok out' u => exact ⟨requested, id, k₀, hi, hs, (hc hs).1.finalize hk hf⟩

/-- What the dispatcher over the bundled families makes of the bytes begins with a header that the
key wrap opens in some world. -/
def Opened (families : UInt32 → BundledFamily) (d : Dispatcher σ (FamilySession σ CounterStream))
    (fed : Bytes) : Prop :=
  ∃ w, (d.familyProgress families w fed).isReady = true

theorem opened_of_enough {families : UInt32 → BundledFamily}
    {d : Dispatcher σ (FamilySession σ CounterStream)}
    (h : Enough (fun id k => k.Opened (families id)) d fed) : d.Opened families fed := by
  obtain ⟨requested, id, k, hi, hs, w, hr⟩ := h
  refine ⟨w, ?_⟩
  rw [familyProgress, progress_of_known hi hs]
  exact hr

theorem Bundled.demanding {families : UInt32 → BundledFamily}
    {d : Dispatcher σ (FamilySession σ CounterStream)} (h : d.Bundled families)
    (hm : d.context.mode = .decrypt)
    (hw : ∀ {id make}, d.registry.get? id = some make → (make d.context).wrap.NeverIo) (w₀ : σ) :
    Demanding (fun id k => k.Opened (families id)) (fun id k => k.Past (families id)) d := by
  intro requested id k hs
  obtain ⟨make, hmake, rfl⟩ := select_eq_ok hs
  obtain ⟨hbundled, hmode⟩ := h.sessions hmake
  exact ⟨FamilySession.demands (hmode.trans hm) hbundled.phase hbundled.family (hw hmake) w₀,
    FamilySession.start_decrypt (hmode.trans hm)⟩

end Dispatcher

end SealedStream
