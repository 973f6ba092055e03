import SealedStream.Proofs.Session.Calls
import SealedStream.Proofs.Stream.Flags

/-!
# Stacks of streams

Adapters that stand on each other, each with a flag to look at or without one. Whatever is done to one
of them, if it goes on with the flag that it looks at and with what it stands on, so does the stack
(`Stack.goes_of_leads`), and flags that are up stay up. An abort reaches from its adapter through all
adapters that pass it on, down to the first that does not or to the bottom (`Stack.Aborts.stops`).
-/

namespace SealedStream

variable {σ ι : Type}

/-- Streams `T n` that consist of `n` adapters on top of a stream `T 0`. -/
structure Stack (σ : Type) (T : Nat → Type) where
  /-- What the topmost adapter stands on. -/
  inner : {n : Nat} → T (n + 1) → T n
  setInner : {n : Nat} → T n → T (n + 1) → T (n + 1)
  /-- The flag that is looked at on top. -/
  token : {n : Nat} → T n → Option AbortHandle
  /-- Whether the topmost adapter passes an abort on. -/
  PassesOn : {n : Nat} → T (n + 1) → Prop
  abort : {n : Nat} → T n × Env σ → T n × Env σ
  /-- How the topmost adapter may go on, whatever it stands on. -/
  Onward : {n : Nat} → T (n + 1) → T (n + 1) → Prop
  inner_setInner : ∀ {n : Nat} (i : T n) (t : T (n + 1)), inner (setInner i t) = i
  onward_setInner : ∀ {n : Nat} (i : T n) (t : T (n + 1)), Onward t (setInner i t)
  onward_trans : ∀ {n : Nat} {s t u : T (n + 1)}, Onward s t → Onward t u → Onward s u
  onward_refl : ∀ {n : Nat} (t : T (n + 1)), Onward t t
  onward_token : ∀ {n : Nat} {s t : T (n + 1)}, Onward s t →
    AbortHandle.Onward (token s) (token t)

namespace Stack

variable {T : Nat → Type} (S : Stack σ T)

/-- What is looked at on a level, counted from the bottom at level 0. -/
def tokenAt : (n : Nat) → T n → Nat → Option AbortHandle
  | 0, bottom, _ => S.token bottom
  | n + 1, stack, level =>
    if level ≤ n then tokenAt n (S.inner stack) level else S.token stack

/-- Whether an abort is passed on there. -/
def PassesOnAt : (n : Nat) → T n → Nat → Prop
  | 0, _, _ => False
  | n + 1, stack, level => if level ≤ n then PassesOnAt n (S.inner stack) level else S.PassesOn stack

/-- An abort at `level` reaches the level `j`: all adapters from the one down to above the other pass
it on. -/
def Told {n : Nat} (stack : T n) (level j : Nat) : Prop :=
  j ≤ level ∧ ∀ k, j < k → k ≤ level → S.PassesOnAt n stack k

/-- Does something at the bottom (`level` 0) or with the adapter of a level. -/
def onLevel (level : Nat) (bottom : T 0 × Env σ → T 0 × Env σ)
    (adapter : (m : Nat) → T (m + 1) × Env σ → T (m + 1) × Env σ) :
    (n : Nat) → T n × Env σ → T n × Env σ
  | 0, s => bottom s
  | n + 1, s =>
    if level ≤ n then
      let u := onLevel level bottom adapter n (S.inner s.1, s.2)
      (S.setInner u.1 s.1, u.2)
    else adapter n s

/-- The adapter of a level. -/
def adapterAt : (n : Nat) → T n → Nat → Option (Σ m, T (m + 1))
  | 0, _, _ => none
  | n + 1, stack, level => if level ≤ n then adapterAt n (S.inner stack) level else some ⟨n, stack⟩

/-- A step at the bottom or with the adapter of a level. -/
def atLevel {ε α : Type} (level : Nat) (bottom : EStateM ε (T 0 × Env σ) α)
    (adapter : (m : Nat) → EStateM ε (T (m + 1) × Env σ) α) : (n : Nat) → EStateM ε (T n × Env σ) α
  | 0 => bottom
  | n + 1 =>
    if level ≤ n then
      zoom (fun t => (S.inner t.1, t.2)) (fun u t => (S.setInner u.1 t.1, u.2))
        (atLevel level bottom adapter n)
    else adapter n

/-- Every adapter goes on, the bottom keeps the flag that it looks at, and no flag is lowered. -/
def Goes : (n : Nat) → T n × Env σ → T n × Env σ → Prop
  | 0 => SealedStream.Goes S.token
  | n + 1 => fun s t => S.Onward s.1 t.1 ∧ Goes n (S.inner s.1, s.2) (S.inner t.1, t.2)

section

variable {S}

theorem Goes.below : ∀ {n : Nat} {s t : T n × Env σ}, S.Goes n s t → s.2.Below t.2
  | 0, _, _, h => h.2
  | _ + 1, _, _, h => h.2.below

theorem Goes.trans : ∀ {n : Nat} {s t u : T n × Env σ}, S.Goes n s t → S.Goes n t u → S.Goes n s u
  | 0, _, _, _, h, h' => ⟨h.1.trans h'.1, h.2.trans h'.2⟩
  | _ + 1, _, _, _, h, h' => ⟨S.onward_trans h.1 h'.1, h.2.trans h'.2⟩

theorem Goes.elsewhere : ∀ {n : Nat} {s : T n × Env σ} {env : Env σ}, s.2.Below env →
    S.Goes n s (s.1, env)
  | 0, _, _, henv => ⟨.refl _, henv⟩
  | _ + 1, s, _, henv => ⟨S.onward_refl s.1, Goes.elsewhere (s := (S.inner s.1, s.2)) henv⟩

theorem Goes.refl {n : Nat} (s : T n × Env σ) : S.Goes n s s := Goes.elsewhere (.refl s.2)

/-- By induction on the height. -/
theorem Goes.onward_tokenAt : ∀ {n : Nat} {s t : T n × Env σ}, S.Goes n s t → ∀ level,
    AbortHandle.Onward (S.tokenAt n s.1 level) (S.tokenAt n t.1 level)
  | 0, _, _, h, _ => h.1
  | n + 1, s, t, h, level => by
    unfold tokenAt
    split
    · exact h.2.onward_tokenAt level
    · exact S.onward_token h.1

/-- The adapter of a level goes on with the stack, by induction on the height. -/
theorem Goes.onward_adapterAt {level m : Nat} {t' : T (m + 1)} : ∀ {n : Nat} {s t : T n × Env σ},
    S.Goes n s t → S.adapterAt n t.1 level = some ⟨m, t'⟩ →
      ∃ s', S.adapterAt n s.1 level = some ⟨m, s'⟩ ∧ S.Onward s' t'
  | 0, _, _, _, ht => by cases ht
  | n + 1, s, t, h, ht => by
    by_cases hn : level ≤ n
    · rw [adapterAt, if_pos hn] at ht ⊢
      exact h.2.onward_adapterAt ht
    · rw [adapterAt, if_neg hn] at ht ⊢
      cases ht
      exact ⟨s.1, rfl, h.1⟩

/-- What is looked at on a level is what its adapter looks at. -/
theorem tokenAt_of_adapterAt {level m : Nat} {t : T (m + 1)} : ∀ {n : Nat} {stack : T n},
    S.adapterAt n stack level = some ⟨m, t⟩ → S.tokenAt n stack level = S.token t
  | 0, _, ht => by cases ht
  | n + 1, stack, ht => by
    by_cases hn : level ≤ n
    · rw [adapterAt, if_pos hn] at ht
      rw [tokenAt, if_pos hn]
      exact tokenAt_of_adapterAt ht
    · rw [adapterAt, if_neg hn] at ht
      cases ht
      rw [tokenAt, if_neg hn]

/-- What a step at a level comes to is what it comes to with the adapter. -/
theorem outcome_atLevel {ε α : Type} {level m : Nat} {t : T (m + 1)}
    {bottom : EStateM ε (T 0 × Env σ) α} {adapter : (m : Nat) → EStateM ε (T (m + 1) × Env σ) α} :
    ∀ {n : Nat} {s : T n × Env σ}, S.adapterAt n s.1 level = some ⟨m, t⟩ →
      outcome (S.atLevel level bottom adapter n s) = outcome (adapter m (t, s.2))
  | 0, _, ht => by cases ht
  | n + 1, s, ht => by
    by_cases hn : level ≤ n
    · rw [adapterAt, if_pos hn] at ht
      rw [atLevel, if_pos hn]
      exact (outcome_mapState _ _).trans (outcome_atLevel (s := (S.inner s.1, s.2)) ht)
    · rw [adapterAt, if_neg hn] at ht
      cases ht
      rw [atLevel, if_neg hn]

/-- Where a step at a level leads. -/
theorem reached_atLevel {ε α : Type} {level : Nat} {bottom : EStateM ε (T 0 × Env σ) α}
    {adapter : (m : Nat) → EStateM ε (T (m + 1) × Env σ) α} : ∀ (n : Nat) (s : T n × Env σ),
      reached (S.atLevel level bottom adapter n s) =
        S.onLevel level (fun u => reached (bottom u)) (fun m u => reached (adapter m u)) n s
  | 0, _ => rfl
  | n + 1, s => by
    unfold atLevel onLevel
    split
    · exact (reached_mapState _ _).trans (by rw [reached_atLevel n])
    · rfl

/-- What goes on with the bottom or with one adapter does so with the stack. -/
theorem goes_onLevel {level : Nat} {bottom : T 0 × Env σ → T 0 × Env σ}
    {adapter : (m : Nat) → T (m + 1) × Env σ → T (m + 1) × Env σ}
    (hbottom : ∀ s, S.Goes 0 s (bottom s)) (hadapter : ∀ m s, S.Goes (m + 1) s (adapter m s)) :
    ∀ (n : Nat) (s : T n × Env σ), S.Goes n s (S.onLevel level bottom adapter n s)
  | 0, s => hbottom s
  | n + 1, s => by
    unfold onLevel
    split
    · refine ⟨S.onward_setInner _ _, ?_⟩
      rw [S.inner_setInner]
      exact goes_onLevel hbottom hadapter n _
    · exact hadapter n s

end

/-! ## Runs -/

/-- Where what is asked of the adapters may lead a stack. In between, anything may happen at the bottom
and elsewhere, except that a flag is lowered. -/
inductive Leads {n : Nat} (asked : Nat → ι → T n × Env σ → T n × Env σ) (s : T n × Env σ) :
    T n × Env σ → Prop
  | refl : Leads asked s s
  | asked {t : T n × Env σ} (level : Nat) (request : ι) :
      Leads asked s t → Leads asked s (asked level request t)
  | bottom {t : T n × Env σ} (x : T 0 × Env σ → T 0 × Env σ) :
      (∀ u, S.Goes 0 u (x u)) → Leads asked s t →
        Leads asked s (S.onLevel 0 x (fun _ => id) n t)
  | elsewhere {t : T n × Env σ} {env : Env σ} :
      t.2.Below env → Leads asked s t → Leads asked s (t.1, env)

variable {S} {n : Nat} {asked : Nat → ι → T n × Env σ → T n × Env σ} {s t : T n × Env σ}

/-- **Whatever is asked of its adapters, a stack goes on**, by induction on what is asked. -/
theorem goes_of_leads (hasked : ∀ level request s, S.Goes n s (asked level request s))
    (h : S.Leads asked s t) : S.Goes n s t := by
  induction h with
  | refl => exact .refl s
  | asked level request _ ih => exact ih.trans (hasked level request _)
  | bottom x hx _ ih => exact ih.trans (goes_onLevel hx (fun _ u => .refl u) n _)
  | elsewhere henv _ ih => exact ih.trans (.elsewhere henv)

/-! ## Aborts -/

/-- Aborting a stack raises the flag that is looked at on top. Then what the topmost adapter stands on
is aborted, if this passes it on. -/
structure Aborts (S : Stack σ T) : Prop where
  raises : ∀ {n : Nat} (s : T n × Env σ) {h : AbortHandle}, S.token s.1 = some h →
    ∃ h', S.token (S.abort s).1 = some h' ∧ h.Becomes h' ∧ h'.isAborted (S.abort s).2 = true
  passed : ∀ {n : Nat} {stack : T (n + 1)}, S.PassesOn stack → ∀ env, ∃ env₁,
    S.inner (S.abort (stack, env)).1 = (S.abort (S.inner stack, env₁)).1 ∧
      (S.abort (stack, env)).2 = (S.abort (S.inner stack, env₁)).2

section

variable {level : Nat} {stack : T (n + 1)}

theorem tokenAt_below (hl : level ≤ n) :
    S.tokenAt (n + 1) stack level = S.tokenAt n (S.inner stack) level :=
  if_pos hl

theorem tokenAt_top (hl : ¬ level ≤ n) : S.tokenAt (n + 1) stack level = S.token stack :=
  if_neg hl

theorem Told.below {j : Nat} (h : S.Told stack level j) (hl : level ≤ n) :
    S.Told (S.inner stack) level j := by
  refine ⟨h.1, fun k hjk hk => ?_⟩
  have hpasses := h.2 k hjk hk
  rwa [PassesOnAt, if_pos (Nat.le_trans hk hl)] at hpasses

/-- An abort from above what is still reached is passed on. -/
theorem Told.passed {j : Nat} (h : S.Told stack (n + 1) j) (hj : j ≤ n) :
    S.PassesOn stack ∧ S.Told (S.inner stack) n j := by
  constructor
  · have hpasses := h.2 (n + 1) (by omega) (Nat.le_refl _)
    rwa [PassesOnAt, if_neg (by omega)] at hpasses
  · exact Told.below ⟨hj, fun k hjk hk => h.2 k hjk (by omega)⟩ (Nat.le_refl n)

end

/-- An abort reaches every level that it is passed on to; by induction on the height. -/
theorem Aborts.raised_of_told (hS : S.Aborts) : ∀ {n : Nat} {s : T n × Env σ} {j : Nat},
    S.Told s.1 n j → ∀ {h}, S.tokenAt n s.1 j = some h → ∃ h',
      S.tokenAt n (S.abort s).1 j = some h' ∧ h.Becomes h' ∧ h'.isAborted (S.abort s).2 = true
  | 0, s, _, _, _, ht => hS.raises s ht
  | n + 1, s, j, htold, h, ht => by
    by_cases hj : j ≤ n
    · obtain ⟨hpasses, htold⟩ := htold.passed hj
      obtain ⟨env₁, hinner, henv⟩ := hS.passed hpasses s.2
      rw [tokenAt_below hj] at ht ⊢
      rw [hinner, henv]
      exact hS.raised_of_told (s := (S.inner s.1, env₁)) htold ht
    · rw [tokenAt_top hj] at ht ⊢
      exact hS.raises s ht

/-- Also from a level in between. -/
theorem Aborts.raised_onLevel (hS : S.Aborts) {level j : Nat} (h0 : level ≠ 0) :
    ∀ {n : Nat} {s : T n × Env σ}, level ≤ n → S.Told s.1 level j → ∀ {h},
      S.tokenAt n s.1 j = some h → ∃ h',
        S.tokenAt n (S.onLevel level id (fun _ => S.abort) n s).1 j = some h' ∧ h.Becomes h' ∧
          h'.isAborted (S.onLevel level id (fun _ => S.abort) n s).2 = true
  | 0, _, hl, _, _, _ => absurd (Nat.le_zero.mp hl) h0
  | n + 1, s, hl, htold, h, ht => by
    by_cases hn : level ≤ n
    · have hj : j ≤ n := Nat.le_trans htold.1 hn
      simp only [onLevel, if_pos hn]
      rw [tokenAt_below hj] at ht ⊢
      rw [S.inner_setInner]
      exact hS.raised_onLevel h0 (s := (S.inner s.1, s.2)) hn (htold.below hn) ht
    · obtain rfl : level = n + 1 := by omega
      simp only [onLevel, if_neg hn]
      exact hS.raised_of_told htold ht

/-- What a raised flag comes to in a stack. -/
structure Stops (S : Stack σ T) (n : Nat) (asked : Nat → ι → T n × Env σ → T n × Env σ) (abort : ι) :
    Prop where
  /-- It stays up, whatever is asked of whichever adapter. -/
  stays : ∀ {s t : T n × Env σ}, S.Leads asked s t → ∀ {level : Nat},
    (∀ h, S.tokenAt n s.1 level = some h → h.isAborted s.2 = true) →
      ∀ h, S.tokenAt n t.1 level = some h → h.isAborted t.2 = true
  /-- An abort raises the flags of all that it reaches for good, and with them those of all that share
  one. -/
  reaches : ∀ {s t : T n × Env σ} {level j : Nat}, level ≠ 0 → level ≤ n → S.Told s.1 level j →
    S.Leads asked (asked level abort s) t →
      (∀ h, S.tokenAt n t.1 j = some h → h.isAborted t.2 = true) ∧
        ∀ flag, S.tokenAt n s.1 j = some (.shared flag) → t.2.isRaised flag = true

/-- **An abort stays and reaches down.** -/
theorem Aborts.stops (hS : S.Aborts) {abort : ι}
    (hasked : ∀ level request s, S.Goes n s (asked level request s))
    (habort : ∀ level s, asked level abort s = S.onLevel level id (fun _ => S.abort) n s) :
    S.Stops n asked abort where
  stays h level := by
    have hgo := goes_of_leads hasked h
    exact (hgo.onward_tokenAt level).isAborted hgo.below
  reaches := by
    intro s t level j h0 hl htold h
    have hgo := goes_of_leads hasked h
    have hraised := fun {h} => hS.raised_onLevel h0 hl htold (h := h)
    rw [← habort] at hraised
    constructor
    · refine (hgo.onward_tokenAt j).isAborted hgo.below fun h' ht' => ?_
      cases ht : S.tokenAt n s.1 j with
      | none =>
        have honward := (hasked level abort s).onward_tokenAt j
        rw [ht, ht'] at honward
        cases honward
      | some h =>
        obtain ⟨h'', ht'', -, ha⟩ := hraised ht
        rw [ht''] at ht'
        cases ht'
        exact ha
    · intro flag ht
      obtain ⟨h', -, hbecomes, ha⟩ := hraised ht
      cases hbecomes
      exact hgo.below flag ha

end Stack

end SealedStream
