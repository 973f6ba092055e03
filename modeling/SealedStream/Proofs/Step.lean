import SealedStream.Step

/-!
# Running steps

How a step runs on a state, construct by construct: with these lemmas `simp only` turns an operation
applied to a state into the result that it comes to. `outcome` is that result without the state
reached, for what has to be said of a collaborator in whatever state it is.
-/

namespace SealedStream

variable {ε σ τ ο α β : Type}

theorem run_pure (a : α) (s : σ) : (pure a : EStateM ε σ α) s = .ok a s := rfl

theorem run_bind (x : EStateM ε σ α) (f : α → EStateM ε σ β) (s : σ) :
    (x >>= f) s = match x s with
      | .ok a t => f a t
      | .error e t => .error e t := rfl

/-- A sequence that succeeds does so in both of its parts. -/
theorem exists_of_bind_eq_ok {x : EStateM ε σ α} {f : α → EStateM ε σ β} {s t : σ} {b : β}
    (h : (x >>= f) s = .ok b t) : ∃ a s', x s = .ok a s' ∧ f a s' = .ok b t := by
  rw [run_bind] at h
  cases hx : x s with
  | error e s' => rw [hx] at h; cases h
  | ok a s' =>
    rw [hx] at h
    exact ⟨a, s', rfl, h⟩

theorem run_get (s : σ) : (get : EStateM ε σ σ) s = .ok s s := rfl

theorem run_modify (f : σ → σ) (s : σ) : (modify f : EStateM ε σ PUnit) s = .ok ⟨⟩ (f s) := rfl

theorem run_throw (e : ε) (s : σ) : (throw e : EStateM ε σ α) s = .error e s := rfl

theorem run_ite (p : Prop) [Decidable p] (x y : EStateM ε σ α) (s : σ) :
    (if p then x else y) s = if p then x s else y s := by
  split <;> rfl

theorem run_adaptExcept {δ : Type} (f : ε → δ) (x : EStateM ε σ α) (s : σ) :
    EStateM.adaptExcept f x s = match x s with
      | .ok a t => .ok a t
      | .error e t => .error (f e) t := by
  unfold EStateM.adaptExcept
  cases x s <;> rfl

theorem run_check (x : Except ε α) (s : σ) :
    check x s = match x with
      | .ok a => .ok a s
      | .error e => .error e s := by
  cases x <;> rfl

theorem run_zoom (get : τ → σ) (set : σ → τ → τ) (x : EStateM ε σ α) (t : τ) :
    zoom get set x t = match x (get t) with
      | .ok a s => .ok a (set s t)
      | .error e s => .error e (set s t) := by
  unfold zoom
  cases x (get t) <;> rfl

theorem run_onWorld (x : EStateM ε σ α) (o : ο) (s : σ) :
    onWorld x (o, s) = match x s with
      | .ok a t => .ok a (o, t)
      | .error e t => .error e (o, t) := by
  rw [onWorld, run_zoom]

theorem run_runOn (o : ο) (x : EStateM ε (ο × σ) α) (s : σ) :
    runOn o x s = match x (o, s) with
      | .ok a t => .ok (a, t.1) t.2
      | .error e t => .error e t.2 := by
  unfold runOn
  cases x (o, s) <;> rfl

/-! ## Outcomes -/

/-- What a result comes to, whatever state was reached. -/
def outcome : EStateM.Result ε σ α → Except ε α
  | .ok a _ => .ok a
  | .error e _ => .error e

/-- The state reached, also by a failure. -/
def reached : EStateM.Result ε σ α → σ
  | .ok _ s => s
  | .error _ s => s

theorem reached_adaptExcept {δ : Type} (f : ε → δ) (x : EStateM ε σ α) (s : σ) :
    reached (EStateM.adaptExcept f x s) = reached (x s) := by
  rw [run_adaptExcept]
  cases x s <;> rfl

theorem reached_bind_pure (x : EStateM ε σ α) (f : α → β) (s : σ) :
    reached ((x >>= fun a => pure (f a)) s) = reached (x s) := by
  rw [run_bind]
  cases x s <;> rfl

theorem outcome_eq_ok {r : EStateM.Result ε σ α} {a : α} :
    outcome r = .ok a ↔ ∃ s, r = .ok a s := by
  cases r <;> simp [outcome]

theorem outcome_eq_error {r : EStateM.Result ε σ α} {e : ε} :
    outcome r = .error e ↔ ∃ s, r = .error e s := by
  cases r <;> simp [outcome]

/-- A step whose outcome does not depend on the state it is run in. -/
def Functional (x : EStateM ε σ α) : Prop := ∀ s t, outcome (x s) = outcome (x t)

theorem Functional.bind {x : EStateM ε σ α} {f : α → EStateM ε σ β} (hx : Functional x)
    (hf : ∀ a, Functional (f a)) : Functional (x >>= f) := by
  intro s t
  have hst := hx s t
  rw [run_bind, run_bind]
  cases hs : x s with
  | error e s' =>
    rw [hs] at hst
    obtain ⟨t', ht⟩ := outcome_eq_error.mp hst.symm
    rw [ht]
    rfl
  | ok a s' =>
    rw [hs] at hst
    obtain ⟨t', ht⟩ := outcome_eq_ok.mp hst.symm
    rw [ht]
    exact hf a s' t'

theorem Functional.pure (a : α) : Functional (Pure.pure a : EStateM ε σ α) := fun _ _ => rfl

theorem Functional.throw (e : ε) : Functional (MonadExcept.throw e : EStateM ε σ α) :=
  fun _ _ => rfl

theorem Functional.ite (p : Prop) [Decidable p] {x y : EStateM ε σ α} (hx : Functional x)
    (hy : Functional y) : Functional (if p then x else y) := by
  split
  · exact hx
  · exact hy

/-! ## What steps keep -/

/-- A step that does not leave `I`, also if it fails. -/
def Keeps (I : σ → Prop) (x : EStateM ε σ α) : Prop := ∀ s, I s → I (reached (x s))

namespace Keeps

variable {I : σ → Prop}

theorem bind {x : EStateM ε σ α} {f : α → EStateM ε σ β} (hx : Keeps I x)
    (hf : ∀ a, Keeps I (f a)) : Keeps I (x >>= f) := by
  intro s hs
  have hs' := hx s hs
  rw [run_bind]
  cases hrun : x s with
  | error e t =>
    rw [hrun] at hs'
    exact hs'
  | ok a t =>
    rw [hrun] at hs'
    exact hf a t hs'

theorem pure (a : α) : Keeps I (Pure.pure a : EStateM ε σ α) := fun _ hs => hs

theorem throw (e : ε) : Keeps I (MonadExcept.throw e : EStateM ε σ α) := fun _ hs => hs

theorem get : Keeps I (MonadState.get : EStateM ε σ σ) := fun _ hs => hs

theorem modify {f : σ → σ} (hf : ∀ s, I s → I (f s)) : Keeps I (modify f : EStateM ε σ PUnit) :=
  hf

theorem check (x : Except ε α) : Keeps I (check x) := by
  intro s hs
  rw [run_check]
  cases x <;> exact hs

theorem ite (p : Prop) [Decidable p] {x y : EStateM ε σ α} (hx : Keeps I x) (hy : Keeps I y) :
    Keeps I (if p then x else y) := by
  split
  · exact hx
  · exact hy

theorem zoom_reached {I : τ → Prop} {get : τ → σ} {set : σ → τ → τ} {x : EStateM ε σ α}
    (h : ∀ t, I t → I (set (reached (x (get t))) t)) : Keeps I (zoom get set x) := by
  intro t ht
  have ht' := h t ht
  rw [run_zoom]
  cases hrun : x (get t) <;> rw [hrun] at ht' <;> exact ht'

theorem zoom {I : τ → Prop} {get : τ → σ} {set : σ → τ → τ} (h : ∀ s t, I t → I (set s t))
    (x : EStateM ε σ α) : Keeps I (zoom get set x) :=
  zoom_reached fun t ht => h _ t ht

theorem adaptExcept {δ : Type} {x : EStateM ε σ α} (h : Keeps I x) (f : ε → δ) :
    Keeps I (x.adaptExcept f) := by
  intro s hs
  rw [reached_adaptExcept]
  exact h s hs

end Keeps

/-! ## Runs side by side -/

/-- What two runs side by side came to: the same, in states that `R` relates; unless the first one was
cut short, by an error and in a state that `C` allows for. -/
inductive Paired (R : σ → τ → Prop) (C : ε → σ → Prop) :
    EStateM.Result ε σ α → EStateM.Result ε τ α → Prop
  | ok (a : α) {s : σ} {t : τ} : R s t → Paired R C (.ok a s) (.ok a t)
  | error (e : ε) {s : σ} {t : τ} : R s t → Paired R C (.error e s) (.error e t)
  | cut {e : ε} {s : σ} (res : EStateM.Result ε τ α) : C e s → Paired R C (.error e s) res

/-- Side by side, `x` does what `y` does unless it is cut short. -/
def Alike (R : σ → τ → Prop) (C : ε → σ → Prop) (x : EStateM ε σ α) (y : EStateM ε τ α) : Prop :=
  ∀ s t, R s t → Paired R C (x s) (y t)

/-- Also in the states that they reached, by a failure or not. -/
theorem Paired.cases_reached {R : σ → τ → Prop} {C : ε → σ → Prop} {p : EStateM.Result ε σ α}
    {q : EStateM.Result ε τ α} (h : Paired R C p q) :
    R (reached p) (reached q) ∨ ∃ e, C e (reached p) := by
  cases h with
  | ok a h => exact .inl h
  | error e h => exact .inl h
  | @cut e s res h => exact .inr ⟨e, h⟩

theorem Paired.outcome_eq {R : σ → τ → Prop} {p : EStateM.Result ε σ α} {q : EStateM.Result ε τ α}
    (h : Paired R (fun _ _ => False) p q) : outcome p = outcome q := by
  cases h with
  | ok a h => rfl
  | error e h => rfl
  | cut res h => exact h.elim

theorem Paired.related {R : σ → τ → Prop} {p : EStateM.Result ε σ α} {q : EStateM.Result ε τ α}
    (h : Paired R (fun _ _ => False) p q) : R (reached p) (reached q) :=
  h.cases_reached.elim id fun ⟨_, hfalse⟩ => hfalse.elim

namespace Alike

variable {R : σ → τ → Prop} {C : ε → σ → Prop}

theorem bind {x : EStateM ε σ α} {y : EStateM ε τ α} {f : α → EStateM ε σ β}
    {g : α → EStateM ε τ β} (hxy : Alike R C x y) (hfg : ∀ a, Alike R C (f a) (g a)) :
    Alike R C (x >>= f) (y >>= g) := by
  intro s t h
  have hst := hxy s t h
  rw [run_bind, run_bind]
  generalize x s = p, y t = q at hst
  cases hst with
  | ok a h => exact hfg a _ _ h
  | error e h => exact .error e h
  | cut res h => exact .cut _ h

theorem pure (a : α) : Alike R C (Pure.pure a) (Pure.pure a) := fun _ _ h => .ok a h

theorem throw (e : ε) : Alike R C (MonadExcept.throw e : EStateM ε σ α) (MonadExcept.throw e) :=
  fun _ _ h => .error e h

/-- The steps go on with the states that they find, which are not the same. -/
theorem get_bind {f : σ → EStateM ε σ α} {g : τ → EStateM ε τ α}
    (h : ∀ s t, R s t → Paired R C (f s s) (g t t)) :
    Alike R C (MonadState.get >>= f) (MonadState.get >>= g) := h

theorem modify {f : σ → σ} {g : τ → τ} (h : ∀ s t, R s t → R (f s) (g t)) :
    Alike R C (modify f : EStateM ε σ PUnit) (modify g) := fun s t hst => .ok PUnit.unit (h s t hst)

theorem check (x : Except ε α) : Alike R C (check x) (check x) := by
  cases x with
  | ok a => exact pure a
  | error e => exact throw e

theorem ite (p : Prop) [Decidable p] {x x' : EStateM ε σ α} {y y' : EStateM ε τ α}
    (h : Alike R C x y) (h' : Alike R C x' y') :
    Alike R C (if p then x else x') (if p then y else y') := by
  split
  · exact h
  · exact h'

theorem mono {D : ε → σ → Prop} {x : EStateM ε σ α} {y : EStateM ε τ α} (h : Alike R C x y)
    (hCD : ∀ e s, C e s → D e s) : Alike R D x y := by
  intro s t hst
  have hxy := h s t hst
  generalize x s = p, y t = q at hxy
  cases hxy with
  | ok a h => exact .ok a h
  | error e h => exact .error e h
  | cut res h => exact .cut _ (hCD _ _ h)

theorem adaptExcept {δ : Type} {D : δ → σ → Prop} {x : EStateM ε σ α} {y : EStateM ε τ α}
    (h : Alike R C x y) (f : ε → δ) (hCD : ∀ e s, C e s → D (f e) s) :
    Alike R D (x.adaptExcept f) (y.adaptExcept f) := by
  intro s t hst
  have hxy := h s t hst
  rw [run_adaptExcept, run_adaptExcept]
  generalize x s = p, y t = q at hxy
  cases hxy with
  | ok a h => exact .ok a h
  | error e h => exact .error _ h
  | cut res h => exact .cut _ (hCD _ _ h)

/-- Steps that come to the same in all states, with nothing said of the states that they reach. -/
theorem of_outcome {C : ε → σ → Prop} {x : EStateM ε σ α} {y : EStateM ε τ α}
    (h : ∀ s t, outcome (x s) = outcome (y t)) : Alike (fun _ _ => True) C x y := by
  intro s t _
  have hst := h s t
  cases hx : x s with
  | ok a s' =>
    rw [hx] at hst
    obtain ⟨t', ht⟩ := outcome_eq_ok.mp hst.symm
    rw [ht]
    exact .ok a trivial
  | error e s' =>
    rw [hx] at hst
    obtain ⟨t', ht⟩ := outcome_eq_error.mp hst.symm
    rw [ht]
    exact .error e trivial

/-- A step beside the same step, seen through a map. -/
theorem of_map {f : σ → τ} {I : σ → Prop} {C : ε → σ → Prop} {x : EStateM ε σ α}
    {y : EStateM ε τ α} (hy : ∀ s, I s → y (f s) = mapState f (x s)) (hI : Keeps I x) :
    Alike (fun s t => t = f s ∧ I s) C x y := by
  rintro s _ ⟨rfl, hs⟩
  have hs' := hI s hs
  rw [hy s hs]
  cases hx : x s with
  | ok a t =>
    rw [hx] at hs'
    exact .ok a ⟨rfl, hs'⟩
  | error e t =>
    rw [hx] at hs'
    exact .error e ⟨rfl, hs'⟩

/-- If it is beside no other, it is that step seen through the map. -/
theorem eq_mapState {f : σ → τ} {x : EStateM ε σ α} {y : EStateM ε τ α}
    (h : Alike (fun s t => t = f s) (fun _ _ => False) x y) (s : σ) :
    y (f s) = mapState f (x s) := by
  have hs := h s (f s) rfl
  generalize x s = p, y (f s) = q at hs
  cases hs with
  | ok a h => rw [h]; rfl
  | error e h => rw [h]; rfl
  | cut _ hfalse => exact hfalse.elim

/-- What a step keeps it keeps beside itself, -/
theorem of_keeps {I : σ → Prop} {C : ε → σ → Prop} {x : EStateM ε σ α} (h : Keeps I x) :
    Alike (fun s t => t = s ∧ I s) C x x :=
  of_map (fun s _ => by cases x s <;> rfl) h

/-- and the other way round, if that is so when it is cut short too. -/
theorem keeps {I : σ → Prop} {C : ε → σ → Prop} {x : EStateM ε σ α}
    (h : Alike (fun s t => t = s ∧ I s) C x x) (hC : ∀ e s, C e s → I s) : Keeps I x := by
  intro s hs
  rcases (h s s ⟨rfl, hs⟩).cases_reached with hR | ⟨e, he⟩
  · exact hR.2
  · exact hC e _ he

end Alike

/-! ## Runs of which one trails behind -/

/-- What two runs side by side came to: the same, in states that `R` relates; unless the first one was
cut short by an error `P`, and is where `L` links it to wherever the second one came. -/
inductive Trailed (R : σ → τ → Prop) (P : ε → Prop) (L : σ → τ → Prop) :
    EStateM.Result ε σ α → EStateM.Result ε τ α → Prop
  | ok (a : α) {s : σ} {t : τ} : R s t → Trailed R P L (.ok a s) (.ok a t)
  | error (e : ε) {s : σ} {t : τ} : R s t → Trailed R P L (.error e s) (.error e t)
  | cut {e : ε} {s : σ} (res : EStateM.Result ε τ α) : P e → L s (reached res) →
      Trailed R P L (.error e s) res

/-- Side by side, `x` does what `y` does unless it is cut short, and `y` keeps the link to a run that
was. -/
structure Trails (R : σ → τ → Prop) (P : ε → Prop) (L : σ → τ → Prop) (x : EStateM ε σ α)
    (y : EStateM ε τ α) : Prop where
  run : ∀ s t, R s t → Trailed R P L (x s) (y t)
  keeps : ∀ s, Keeps (L s) y

theorem Trailed.related {R : σ → τ → Prop} {P : ε → Prop} {L : σ → τ → Prop}
    {p : EStateM.Result ε σ α} {q : EStateM.Result ε τ α} (h : Trailed R P L p q) :
    R (reached p) (reached q) ∨ L (reached p) (reached q) := by
  cases h with
  | ok a h => exact .inl h
  | error e h => exact .inl h
  | cut res _ h => exact .inr h

namespace Trails

variable {R : σ → τ → Prop} {P : ε → Prop} {L : σ → τ → Prop}

theorem bind {x : EStateM ε σ α} {y : EStateM ε τ α} {f : α → EStateM ε σ β}
    {g : α → EStateM ε τ β} (hxy : Trails R P L x y) (hfg : ∀ a, Trails R P L (f a) (g a)) :
    Trails R P L (x >>= f) (y >>= g) where
  run := by
    intro s t h
    have hst := hxy.run s t h
    rw [run_bind, run_bind]
    generalize x s = p, y t = q at hst
    cases hst with
    | ok a h => exact (hfg a).run _ _ h
    | error e h => exact .error e h
    | cut _ hP h =>
      cases q with
      | ok a t => exact .cut _ hP ((hfg a).keeps _ t h)
      | error e t => exact .cut _ hP h
  keeps s := (hxy.keeps s).bind fun a => (hfg a).keeps s

theorem pure (a : α) : Trails R P L (Pure.pure a) (Pure.pure a) :=
  ⟨fun _ _ h => .ok a h, fun _ => .pure a⟩

theorem throw (e : ε) : Trails R P L (MonadExcept.throw e : EStateM ε σ α) (MonadExcept.throw e) :=
  ⟨fun _ _ h => .error e h, fun _ => .throw e⟩

/-- The steps go on with the states that they find, which are not the same. -/
theorem get_bind {f : σ → EStateM ε σ α} {g : τ → EStateM ε τ α}
    (h : ∀ s t, R s t → Trailed R P L (f s s) (g t t)) (hg : ∀ s t, Keeps (L s) (g t)) :
    Trails R P L (MonadState.get >>= f) (MonadState.get >>= g) :=
  ⟨h, fun s => Keeps.get.bind fun t => hg s t⟩

theorem modify {f : σ → σ} {g : τ → τ} (h : ∀ s t, R s t → R (f s) (g t))
    (hg : ∀ s t, L s t → L s (g t)) :
    Trails R P L (modify f : EStateM ε σ PUnit) (modify g) :=
  ⟨fun s t hst => .ok PUnit.unit (h s t hst), fun s => .modify (hg s)⟩

theorem ite (p : Prop) [Decidable p] {x x' : EStateM ε σ α} {y y' : EStateM ε τ α}
    (h : Trails R P L x y) (h' : Trails R P L x' y') :
    Trails R P L (if p then x else x') (if p then y else y') := by
  split
  · exact h
  · exact h'

theorem adaptExcept {δ : Type} {Q : δ → Prop} {x : EStateM ε σ α} {y : EStateM ε τ α}
    (h : Trails R P L x y) (f : ε → δ) (hf : ∀ e, P e → Q (f e)) :
    Trails R Q L (x.adaptExcept f) (y.adaptExcept f) where
  run := by
    intro s t hst
    have hxy := h.run s t hst
    rw [run_adaptExcept, run_adaptExcept]
    generalize x s = p, y t = q at hxy
    cases hxy with
    | ok a h => exact .ok a h
    | error e h => exact .error _ h
    | cut _ hP h =>
      cases q with
      | ok a t => exact .cut _ (hf _ hP) h
      | error e t => exact .cut _ (hf _ hP) h
  keeps s := (h.keeps s).adaptExcept f

theorem mono {Q : ε → Prop} {x : EStateM ε σ α} {y : EStateM ε τ α} (h : Trails R P L x y)
    (hPQ : ∀ e, P e → Q e) : Trails R Q L x y where
  run := by
    intro s t hst
    have hxy := h.run s t hst
    generalize x s = p, y t = q at hxy
    cases hxy with
    | ok a h => exact .ok a h
    | error e h => exact .error e h
    | cut _ hP h => exact .cut _ (hPQ _ hP) h
  keeps := h.keeps

/-- Steps of which neither is cut short. -/
theorem of_alike {x : EStateM ε σ α} {y : EStateM ε τ α} (h : Alike R (fun _ _ => False) x y) :
    Trails R P (fun _ _ => False) x y where
  run := by
    intro s t hst
    have hxy := h s t hst
    generalize x s = p, y t = q at hxy
    cases hxy with
    | ok a h => exact .ok a h
    | error e h => exact .error e h
    | cut _ hfalse => exact hfalse.elim
  keeps _ _ hfalse := hfalse.elim

theorem alike {x : EStateM ε σ α} {y : EStateM ε τ α} (h : Trails R P (fun _ _ => False) x y) :
    Alike R (fun _ _ => False) x y := by
  intro s t hst
  have hxy := h.run s t hst
  generalize x s = p, y t = q at hxy
  cases hxy with
  | ok a h => exact .ok a h
  | error e h => exact .error e h
  | cut _ _ hfalse => exact hfalse.elim

end Trails

/-! ## What steps come to -/

/-- A result as `J` says of what was given and the state reached, or as `Q` says of a failure. -/
def Meets (J : α → σ → Prop) (Q : ε → σ → Prop) : EStateM.Result ε σ α → Prop
  | .ok a s => J a s
  | .error e s => Q e s

theorem Meets.mono {J J' : α → σ → Prop} {Q Q' : ε → σ → Prop} {p : EStateM.Result ε σ α}
    (h : Meets J Q p) (hJ : ∀ a s, J a s → J' a s) (hQ : ∀ e s, Q e s → Q' e s) : Meets J' Q' p := by
  cases p with
  | ok a s => exact hJ a s h
  | error e s => exact hQ e s h

theorem Meets.reached {I : σ → Prop} {p : EStateM.Result ε σ α}
    (h : Meets (fun _ => I) (fun _ => I) p) : I (reached p) := by
  cases p <;> exact h

theorem meets_mapState {f : σ → τ} {J : α → τ → Prop} {Q : ε → τ → Prop}
    {p : EStateM.Result ε σ α} :
    Meets J Q (mapState f p) ↔ Meets (fun a s => J a (f s)) (fun e s => Q e (f s)) p := by
  cases p <;> rfl

theorem meets_adaptExcept {δ : Type} {f : ε → δ} {J : α → σ → Prop} {Q : δ → σ → Prop}
    {x : EStateM ε σ α} {s : σ} :
    Meets J Q (EStateM.adaptExcept f x s) ↔ Meets J (fun e t => Q (f e) t) (x s) := by
  rw [run_adaptExcept]
  cases x s <;> rfl

/-- Where `I` is so, a step gives what `J` says, or fails as `Q` says. -/
def Ensures (I : σ → Prop) (J : α → σ → Prop) (Q : ε → σ → Prop) (x : EStateM ε σ α) : Prop :=
  ∀ s, I s → Meets J Q (x s)

theorem Keeps.ensures {I : σ → Prop} {x : EStateM ε σ α} (h : Keeps I x) :
    Ensures I (fun _ => I) (fun _ => I) x := by
  intro s hs
  have hs' := h s hs
  cases hx : x s with
  | ok a t =>
    rw [hx] at hs'
    exact hs'
  | error e t =>
    rw [hx] at hs'
    exact hs'

namespace Ensures

variable {I : σ → Prop} {J : α → σ → Prop} {Q : ε → σ → Prop}

theorem bind {K : β → σ → Prop} {x : EStateM ε σ α} {f : α → EStateM ε σ β} (hx : Ensures I J Q x)
    (hf : ∀ a, Ensures (J a) K Q (f a)) : Ensures I K Q (x >>= f) := by
  intro s hs
  have hs' := hx s hs
  rw [run_bind]
  cases hrun : x s with
  | error e t =>
    rw [hrun] at hs'
    exact hs'
  | ok a t =>
    rw [hrun] at hs'
    exact hf a t hs'

theorem pure {a : α} (h : ∀ s, I s → J a s) : Ensures I J Q (Pure.pure a) := h

theorem throw {e : ε} (h : ∀ s, I s → Q e s) : Ensures I J Q (MonadExcept.throw e) := h

/-- The step goes on with the state that it finds. -/
theorem get_bind {f : σ → EStateM ε σ α} (h : ∀ s, I s → Meets J Q (f s s)) :
    Ensures I J Q (MonadState.get >>= f) := h

theorem modify {f : σ → σ} {J : PUnit → σ → Prop} (h : ∀ s, I s → J ⟨⟩ (f s)) :
    Ensures I J Q (modify f) := h

theorem ite (p : Prop) [Decidable p] {x y : EStateM ε σ α} (hx : p → Ensures I J Q x)
    (hy : ¬ p → Ensures I J Q y) : Ensures I J Q (if p then x else y) := by
  split
  · exact hx ‹p›
  · exact hy ‹¬ p›

theorem zoom {I : τ → Prop} {J : α → τ → Prop} {Q : ε → τ → Prop} {get : τ → σ} {set : σ → τ → τ}
    {x : EStateM ε σ α}
    (h : ∀ t, I t → Meets (fun a s => J a (set s t)) (fun e s => Q e (set s t)) (x (get t))) :
    Ensures I J Q (zoom get set x) := by
  intro t ht
  have ht' := h t ht
  rw [run_zoom]
  cases hrun : x (get t) <;> rw [hrun] at ht' <;> exact ht'

theorem adaptExcept {δ : Type} {Q : δ → σ → Prop} {f : ε → δ} {x : EStateM ε σ α}
    (h : Ensures I J (fun e t => Q (f e) t) x) : Ensures I J Q (x.adaptExcept f) :=
  fun s hs => meets_adaptExcept.mpr (h s hs)

theorem keeps {x : EStateM ε σ α} (h : Ensures I (fun _ => I) (fun _ => I) x) : Keeps I x :=
  fun s hs => (h s hs).reached

theorem mono {I' : σ → Prop} {J' : α → σ → Prop} {Q' : ε → σ → Prop} {x : EStateM ε σ α}
    (h : Ensures I J Q x) (hI : ∀ s, I' s → I s) (hJ : ∀ a s, J a s → J' a s)
    (hQ : ∀ e s, Q e s → Q' e s) : Ensures I' J' Q' x :=
  fun s hs => (h s (hI s hs)).mono hJ hQ

end Ensures

end SealedStream
