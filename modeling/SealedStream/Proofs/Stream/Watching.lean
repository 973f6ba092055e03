import SealedStream.Proofs.Stream.ReadTower
import SealedStream.Proofs.Stream.Recording

/-!
# Towers of readers that are watched

A tower of readers in which every adapter, every session and the source keep a record of what they
fail with (`Watched`). It does what the tower does without the records
(`Watched.read_eq_watchedRead`), and on each of its levels one can look up what has failed there.
-/

namespace SealedStream

variable {σ κ κ' γ ρ ρ' : Type}

/-! ## One adapter -/

namespace ReadLayer

/-- What the session of a cipher reader has failed with. -/
def sessionFailure : ReadLayer (Logged Error κ) γ ρ → Option Error
  | .cipher r => r.session.failure
  | _ => none

/-- No failed transfer is stored. -/
def Tidy : ReadLayer κ γ ρ → Prop
  | .cipher r => r.Tidy
  | _ => True

/-- The adapter with its session and what it stands on seen through maps. -/
def bimap (ι : κ → κ') (j : ρ → ρ') : ReadLayer κ γ ρ → ReadLayer κ' γ ρ'
  | .abortable r => .abortable ⟨j r.inner, r.abort⟩
  | .checked r => .checked ⟨j r.inner, r.checksum⟩
  | .buffered r => .buffered ⟨j r.inner, r.capacity, r.buffer⟩
  | .cipher r => .cipher (r.bimap ι j)
  | .removed i => .removed (j i)

end ReadLayer

/-- Maps that change nothing below an adapter change nothing for it. -/
theorem ReadLayer.read_bimap [Accumulator γ] [Session κ σ] [Session κ' σ] [Source σ ρ] [Source σ ρ']
    {ι : κ → κ'} {j : ρ → ρ'} {fuel : Nat} (hι : Session.Embeds ι) (hj : Source.Embeds σ fuel j)
    (n : Nat) (layer : ReadLayer κ γ ρ) (env : Env σ) :
    (Source.read fuel n : Transfer σ (ReadLayer κ' γ ρ') Bytes) (layer.bimap ι j, env) =
      mapState (fun t => (t.1.bimap ι j, t.2))
        ((Source.read fuel n : Transfer σ (ReadLayer κ γ ρ) Bytes) (layer, env)) := by
  cases layer with
  | abortable r =>
    simp only [bimap, Source.read, AbortableReader.checkAbort, AbortableReader.onInner, run_bind,
      run_get, run_adaptExcept, run_check, run_zoom, run_pure]
    cases r.abort.check env with
    | error e => rfl
    | ok _ =>
      simp only [hj _]
      cases (Source.read fuel n : Transfer σ ρ Bytes) (r.inner, env) with
      | error z t => rfl
      | ok out t =>
        simp only [mapState]
        cases r.abort.check t.2 <;> rfl
  | checked r =>
    simp only [bimap, Source.read, CheckedReader.onInner, run_bind, run_zoom, run_modify, run_pure, hj _]
    cases (Source.read fuel n : Transfer σ ρ Bytes) (r.inner, env) <;> rfl
  | buffered r =>
    simp only [bimap, Source.read, BufferedReader.onInner, BufferedReader.setBuffer, run_bind, run_get,
      run_ite, run_zoom, run_modify, run_pure, hj _]
    split
    · cases (Source.read fuel n : Transfer σ ρ Bytes) (r.inner, env) <;> rfl
    · split
      · cases (Source.read fuel r.capacity : Transfer σ ρ Bytes) (r.inner, env) <;> rfl
      · rfl
  | cipher r =>
    show mapState _ _ = mapState _ (mapState _ _)
    rw [CipherReader.read_bimap hι hj]
    cases (Source.read fuel n : Transfer σ (CipherReader κ ρ) Bytes) (r, env) <;> rfl
  | removed i => rfl

theorem ReadLayer.bimap_bimap {κ'' ρ'' : Type} (ι : κ → κ') (ι' : κ' → κ'') (j : ρ → ρ') (j' : ρ' → ρ'')
    (layer : ReadLayer κ γ ρ) :
    (layer.bimap ι j).bimap ι' j' = layer.bimap (fun k => ι' (ι k)) fun i => j' (j i) := by
  cases layer <;> rfl

theorem ReadLayer.bimap_id (layer : ReadLayer κ γ ρ) : layer.bimap id id = layer := by
  cases layer <;> rfl

theorem ReadLayer.inner_bimap {ι : κ → κ'} {j : ρ → ρ'} (layer : ReadLayer κ γ ρ) :
    (layer.bimap ι j).inner = j layer.inner := by
  cases layer <;> rfl

/-! ## Towers that are watched -/

/-- A tower whose adapters, sessions and source keep records. -/
def Watched (κ γ ρ : Type) : Nat → Type
  | 0 => Logged IoError ρ
  | n + 1 => Logged IoError (ReadLayer (Logged Error κ) γ (Watched κ γ ρ n))

/-- No reader of the tower has stored a failed transfer. -/
def ReadTower.Tidy : (n : Nat) → ReadTower κ γ ρ n → Prop
  | 0, _ => True
  | n + 1, layer => ReadLayer.Tidy layer ∧ Tidy n (ReadLayer.inner layer)

namespace Watched

instance sourceInst [Accumulator γ] [Session κ σ] [Source σ ρ] :
    (n : Nat) → Source σ (Watched κ γ ρ n)
  | 0 => inferInstanceAs (Source σ (Logged IoError ρ))
  | n + 1 =>
    have := sourceInst n
    inferInstanceAs (Source σ (Logged IoError (ReadLayer (Logged Error κ) γ (Watched κ γ ρ n))))

/-- The tower without the records. -/
def plain : (n : Nat) → Watched κ γ ρ n → ReadTower κ γ ρ n
  | 0, w => Logged.it w
  | n + 1, w => ReadLayer.bimap (·.it) (plain n) (Logged.it w)

/-- A record changes nothing, by induction on the height. -/
theorem embeds_plain [Accumulator γ] [Session κ σ] [Source σ ρ] (fuel : Nat) :
    ∀ n, Source.Embeds σ fuel (plain n : Watched κ γ ρ n → ReadTower κ γ ρ n)
  | 0, k, w, env => Logged.plain_run (Source.read fuel k) (w, env)
  | n + 1, k, w, env => by
    have hlayer := ReadLayer.read_bimap (γ := γ) Logged.embeds (embeds_plain fuel n) k (Logged.it w) env
    have hlog := Logged.plain_run (Source.read fuel k) ((w, env) :
      Logged IoError (ReadLayer (Logged Error κ) γ (Watched κ γ ρ n)) × Env σ)
    refine hlayer.trans ((congrArg _ hlog).trans ?_)
    show mapState _ (mapState _ (Logged.run (Source.read fuel k) (w, env))) =
      mapState _ (Logged.run (Source.read fuel k) (w, env))
    cases Logged.run (Source.read fuel k) ((w, env) :
      Logged IoError (ReadLayer (Logged Error κ) γ (Watched κ γ ρ n)) × Env σ) <;> rfl

/-- A tower with no record yet. -/
def new : (n : Nat) → ReadTower κ γ ρ n → Watched κ γ ρ n
  | 0, source => Logged.mk source none
  | n + 1, layer => Logged.mk (ReadLayer.bimap (Logged.mk · none) (new n) layer) none

/-- An adapter of such a tower, on so many others. -/
abbrev Adapter (κ γ ρ : Type) := Σ m, ReadLayer (Logged Error κ) γ (Watched κ γ ρ m)

/-- The adapter of a level, counted from the source at level 0. -/
def layerAt : (n : Nat) → Watched κ γ ρ n → Nat → Option (Adapter κ γ ρ)
  | 0, _, _ => none
  | n + 1, w, level =>
    if level ≤ n then layerAt n (ReadLayer.inner (Logged.it w)) level else some ⟨n, Logged.it w⟩

/-- What the reads of a level have failed with. -/
def failureAt : (n : Nat) → Watched κ γ ρ n → Nat → Option IoError
  | 0, w, _ => Logged.failure w
  | n + 1, w, level =>
    if level ≤ n then failureAt n (ReadLayer.inner (Logged.it w)) level else Logged.failure w

/-- What the session of a level has failed with. -/
def sessionFailureAt (n : Nat) (w : Watched κ γ ρ n) (level : Nat) : Option Error :=
  (layerAt n w level).bind (·.2.sessionFailure)

section

variable {n level : Nat} {layer : ReadLayer (Logged Error κ) γ (Watched κ γ ρ n)}
  {failure : Option IoError}

theorem layerAt_below (h : level ≤ n) :
    layerAt (n + 1) (Logged.mk layer failure) level = layerAt n layer.inner level :=
  if_pos h

theorem layerAt_top : layerAt (n + 1) (Logged.mk layer failure) (n + 1) = some ⟨n, layer⟩ :=
  if_neg (Nat.not_succ_le_self n)

theorem failureAt_below (h : level ≤ n) :
    failureAt (n + 1) (Logged.mk layer failure) level = failureAt n layer.inner level :=
  if_pos h

theorem failureAt_top : failureAt (n + 1) (Logged.mk layer failure) (n + 1) = failure :=
  if_neg (Nat.not_succ_le_self n)

theorem sessionFailureAt_below (h : level ≤ n) :
    sessionFailureAt (n + 1) (Logged.mk layer failure) level =
      sessionFailureAt n layer.inner level :=
  congrArg (fun p : Option (Adapter κ γ ρ) => p.bind (·.2.sessionFailure)) (layerAt_below h)

theorem sessionFailureAt_top :
    sessionFailureAt (n + 1) (Logged.mk layer failure) (n + 1) = layer.sessionFailure :=
  congrArg (fun p : Option (Adapter κ γ ρ) => p.bind (·.2.sessionFailure)) layerAt_top

end

theorem plain_new : ∀ (n : Nat) (s : ReadTower κ γ ρ n), plain n (new n s) = s
  | 0, _ => rfl
  | n + 1, layer => by
    have hinner : (fun i => plain n (new n i)) = (id : ReadTower κ γ ρ n → _) :=
      funext (plain_new n)
    refine (ReadLayer.bimap_bimap _ _ _ _ layer).trans ?_
    exact (congrArg (ReadLayer.bimap id · layer) hinner).trans (ReadLayer.bimap_id layer)

/-- An adapter without the records. -/
def Adapter.plain (p : Adapter κ γ ρ) : Σ m, ReadLayer κ γ (ReadTower κ γ ρ m) :=
  ⟨p.1, p.2.bimap (·.it) (Watched.plain p.1)⟩

/-- By induction on the height. -/
theorem adapterAt_plain [Abortable σ ρ] (token : ρ → Option AbortHandle) (level : Nat) :
    ∀ (n : Nat) (w : Watched κ γ ρ n),
      (ReadTower.stack (σ := σ) κ γ token).adapterAt n (plain n w) level =
        (layerAt n w level).map Adapter.plain
  | 0, _ => rfl
  | n + 1, ⟨layer, failure⟩ => by
    by_cases hn : level ≤ n
    · refine (if_pos hn).trans (Eq.trans ?_ (congrArg (Option.map _) (layerAt_below hn).symm))
      exact (congrArg ((ReadTower.stack (σ := σ) κ γ token).adapterAt n · level)
        (ReadLayer.inner_bimap layer)).trans (adapterAt_plain token level n layer.inner)
    · have htop : layerAt (n + 1) (Logged.mk layer failure) level = some ⟨n, layer⟩ := if_neg hn
      exact (if_neg hn).trans (congrArg (Option.map Adapter.plain) htop.symm)

/-- The source is no adapter. -/
theorem layerAt_zero : ∀ (n : Nat) (w : Watched κ γ ρ n), layerAt n w 0 = none
  | 0, _ => rfl
  | n + 1, ⟨layer, _⟩ => (layerAt_below (Nat.zero_le n)).trans (layerAt_zero n layer.inner)

theorem tidy_plain : ∀ {n : Nat} {w : Watched κ γ ρ n},
    (∀ level p, level ≤ n → layerAt n w level = some p → p.2.Tidy) → (plain n w).Tidy
  | 0, _, _ => trivial
  | n + 1, ⟨layer, failure⟩, h => by
    have htop : layer.Tidy := h (n + 1) ⟨n, layer⟩ (Nat.le_refl _) layerAt_top
    have hbelow : (plain n layer.inner).Tidy := tidy_plain fun level p hlevel hp =>
      h level p (Nat.le_succ_of_le hlevel) ((layerAt_below hlevel).trans hp)
    constructor
    · cases layer <;> exact htop
    · exact (congrArg (ReadTower.Tidy n) (ReadLayer.inner_bimap layer)).mpr hbelow

section

variable [Accumulator γ] [Session κ σ] [Source σ ρ] {n : Nat}

/-- A read of the tower while it is watched. -/
def watchedRead (fuel k : Nat) (s : ReadTower κ γ ρ n × Env σ) :
    EStateM.Result IoError (Watched κ γ ρ n × Env σ) Bytes :=
  (Source.read fuel k : Transfer σ (Watched κ γ ρ n) Bytes) (new n s.1, s.2)

/-- **A tower that is watched does the same.** -/
theorem read_eq_watchedRead (fuel k : Nat) (s : ReadTower κ γ ρ n × Env σ) :
    (Source.read fuel k : Transfer σ (ReadTower κ γ ρ n) Bytes) s =
      mapState (fun w => (plain n w.1, w.2)) (watchedRead fuel k s) := by
  have hread := embeds_plain fuel n k (new n s.1) s.2
  rwa [plain_new] at hread

end

end Watched

end SealedStream
