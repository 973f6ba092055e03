import Mathlib.Logic.Relation
import SealedStream.Proofs.Stream.Working

/-!
# Sinks that stutter

A stuttering sink works, but a write may be interrupted a few times before it takes anything. Loops
over such a sink end all the same (`Sink.writeAll_comesTo`). How much fuel this takes is the sink's
own affair: `ComesTo` says what a step comes to with enough of it.
-/

namespace SealedStream

variable {σ ς : Type}

/-- With enough fuel the step comes to the result `r`. -/
def ComesTo {ε τ α : Type} (x : Nat → EStateM ε τ α) (s : τ) (r : EStateM.Result ε τ α) : Prop :=
  ∃ enough, ∀ fuel, enough ≤ fuel → x fuel s = r

namespace ComesTo

variable {ε τ α β : Type} {x : Nat → EStateM ε τ α} {s t : τ} {a : α}
  {r : EStateM.Result ε τ β}

theorem of_eq {r : EStateM.Result ε τ α} (h : ∀ fuel, x fuel s = r) : ComesTo x s r :=
  ⟨0, fun fuel _ => h fuel⟩

/-- There is one result that a step comes to. -/
theorem unique {r r' : EStateM.Result ε τ α} (h : ComesTo x s r) (h' : ComesTo x s r') : r = r' := by
  obtain ⟨n, h⟩ := h
  obtain ⟨m, h'⟩ := h'
  rw [← h (max n m) (Nat.le_max_left n m), h' (max n m) (Nat.le_max_right n m)]

theorem bind {f : Nat → α → EStateM ε τ β} (hx : ComesTo x s (.ok a t))
    (hf : ComesTo (fun fuel => f fuel a) t r) : ComesTo (fun fuel => x fuel >>= f fuel) s r := by
  obtain ⟨n, hx⟩ := hx
  obtain ⟨m, hf⟩ := hf
  refine ⟨max n m, fun fuel hfuel => ?_⟩
  simp only [run_bind, hx fuel (by omega)]
  exact hf fuel (by omega)

end ComesTo

/-- Where sinks of the type `ς` work although writes may be interrupted, and what they have taken
there. -/
structure StutteringSink (σ ς : Type) [Sink σ ς] where
  works : ς → Prop
  content : ς → Bytes
  /-- What using the sink may make of the environment. -/
  moves : Env σ → Env σ → Prop
  /-- How often a write of these bytes is yet to be interrupted. -/
  delay : ς → Env σ → Bytes → Nat
  /-- A write takes at least the first of the bytes offered, or is interrupted. -/
  write : ∀ {s}, works s → ∀ {bytes : Bytes}, bytes ≠ [] → ∀ env : Env σ,
    ∃ s' env', works s' ∧ moves env env' ∧
      ((∃ n, ComesTo (Sink.write · bytes) (s, env) (.ok (n + 1) (s', env')) ∧ n < bytes.length ∧
          content s' = content s ++ bytes.take (n + 1)) ∨
        ∃ e, ComesTo (Sink.write · bytes) (s, env) (.error e (s', env')) ∧
          e.isInterrupted = true ∧ content s' = content s ∧ delay s' env' bytes < delay s env bytes)
  flush : ∀ {s}, works s → ∀ env : Env σ, ∃ s' env',
    ComesTo Sink.flush (s, env) (.ok () (s', env')) ∧ works s' ∧ moves env env' ∧
      content s' = content s

/-- Using the sink does not raise the flag. -/
def StutteringSink.Spares [Sink σ ς] (K : StutteringSink σ ς) (h : AbortHandle) : Prop :=
  ∀ env env' : Env σ, K.moves env env' → h.isAborted env = false → h.isAborted env' = false

theorem StutteringSink.Spares.moved [Sink σ ς] {K : StutteringSink σ ς} {h : AbortHandle}
    {env env' : Env σ} (hspares : K.Spares h) (hmoves : Relation.ReflTransGen K.moves env env')
    (hquiet : h.isAborted env = false) : h.isAborted env' = false := by
  induction hmoves with
  | refl => exact hquiet
  | tail _ hmove ih => exact hspares _ _ hmove ih

/-! ## Writing all of it -/

namespace Sink

variable [Sink σ ς] (K : StutteringSink σ ς)

/-- A round takes some of the bytes or is one interruption less to come, so their number and then
the delay of what is left bound the rounds. -/
theorem writeAllLoop_comesTo (bytes : Bytes) {s : ς} (hs : K.works s) (env : Env σ) :
    ∃ s' env' enough, (∀ fuel rounds, enough ≤ fuel → enough ≤ rounds →
        writeAllLoop fuel rounds bytes (s, env) = .ok () (s', env')) ∧ K.works s' ∧
      Relation.ReflTransGen K.moves env env' ∧ K.content s' = K.content s ++ bytes := by
  cases bytes with
  | nil =>
    refine ⟨s, env, 0, fun fuel rounds _ _ => ?_, hs, .refl, (List.append_nil _).symm⟩
    cases rounds <;> rfl
  | cons b bs =>
    obtain ⟨s₁, env₁, hs₁, hmoves, hwrite⟩ := K.write hs (List.cons_ne_nil b bs) env
    rcases hwrite with ⟨n, ⟨enough, hw⟩, hn, hc⟩ | ⟨e, ⟨enough, hw⟩, he, hc, hdelay⟩
    · have hless : ((b :: bs).drop (n + 1)).length < (b :: bs).length := by
        rw [List.length_drop]
        omega
      obtain ⟨s₂, env₂, more, hloop, hs₂, hmoves', hc₂⟩ :=
        writeAllLoop_comesTo ((b :: bs).drop (n + 1)) hs₁ env₁
      refine ⟨s₂, env₂, max enough more + 1, fun fuel rounds hfuel hrounds => ?_, hs₂,
        .head hmoves hmoves', ?_⟩
      · cases rounds with
        | zero => omega
        | succ rounds =>
          simp only [writeAllLoop, hw fuel (by omega)]
          exact hloop fuel rounds (by omega) (by omega)
      · rw [hc₂, hc, List.append_assoc, List.take_append_drop]
    · obtain ⟨s₂, env₂, more, hloop, hs₂, hmoves', hc₂⟩ :=
        writeAllLoop_comesTo (b :: bs) hs₁ env₁
      refine ⟨s₂, env₂, max enough more + 1, fun fuel rounds hfuel hrounds => ?_, hs₂,
        .head hmoves hmoves', hc₂.trans (by rw [hc])⟩
      cases rounds with
      | zero => omega
      | succ rounds =>
        simp only [writeAllLoop, hw fuel (by omega), he, if_true]
        exact hloop fuel rounds (by omega) (by omega)
termination_by (bytes.length, K.delay s env bytes)

/-- **All bytes arrive**, whatever pieces the sink takes and however often it is interrupted. -/
theorem writeAll_comesTo (bytes : Bytes) {s : ς} (hs : K.works s) (env : Env σ) :
    ∃ s' env', ComesTo (writeAll · bytes) (s, env) (.ok () (s', env')) ∧ K.works s' ∧
      Relation.ReflTransGen K.moves env env' ∧ K.content s' = K.content s ++ bytes := by
  obtain ⟨s', env', enough, hloop, h⟩ := writeAllLoop_comesTo K bytes hs env
  exact ⟨s', env', ⟨enough, fun fuel hfuel => hloop fuel fuel hfuel hfuel⟩, h⟩

end Sink

/-! ## Scripted sinks that are interrupted -/

namespace Scripted

/-- All that befalls a call is that it is interrupted. -/
def Interruptions (events : Schedule) : Prop :=
  ∀ k event, (k, event) ∈ events → ∃ e : IoError, event = .fail e ∧ e.isInterrupted = true

theorem runEvents_interruptions {events : Schedule} (h : Interruptions events) (k : Nat)
    (env : Env σ) : runEvents k events env = (none, env) ∨
      ∃ e, runEvents k events env = (some (.fail e), env) ∧ e.isInterrupted = true ∧
        ∃ event ∈ events, event.1 = k := by
  induction events with
  | nil => exact .inl rfl
  | cons event events ih =>
    obtain ⟨call, event⟩ := event
    obtain ⟨e, rfl, he⟩ := h call event List.mem_cons_self
    by_cases hcall : call = k
    · refine .inr ⟨e, ?_, he, (call, .fail e), List.mem_cons_self, hcall⟩
      simp only [runEvents, if_pos hcall]
    · have hskip : runEvents k ((call, .fail e) :: events) env = runEvents k events env := by
        simp only [runEvents, if_neg hcall]
      rw [hskip]
      rcases ih fun k event hmem => h k event (List.mem_cons_of_mem _ hmem) with
        hnone | ⟨e', hrun, he', event, hmem, hk⟩
      · exact .inl hnone
      · exact .inr ⟨e', hrun, he', event, List.mem_cons_of_mem _ hmem, hk⟩

/-- The number of the events of call `k` and those behind it. -/
def ahead (k : Nat) (events : Schedule) : Nat := events.countP (k ≤ ·.1)

theorem ahead_succ_le (k : Nat) (events : Schedule) : ahead (k + 1) events ≤ ahead k events :=
  List.countP_mono_left fun event _ h => by
    rw [decide_eq_true_eq] at h ⊢
    omega

theorem ahead_succ_lt {k : Nat} {events : Schedule} (h : ∃ event ∈ events, event.1 = k) :
    ahead (k + 1) events < ahead k events := by
  obtain ⟨event, hmem, rfl⟩ := h
  induction events with
  | nil => cases hmem
  | cons first events ih =>
    simp only [ahead, List.countP_cons]
    rcases List.mem_cons.mp hmem with rfl | hmem
    · have hle := ahead_succ_le event.1 events
      simp only [ahead] at hle
      simp only [decide_eq_true_eq, Nat.le_refl, if_true, if_neg (Nat.not_succ_le_self event.1)]
      omega
    · have hlt := ih hmem
      simp only [ahead] at hlt
      simp only [decide_eq_true_eq]
      split <;> split <;> omega

/-- A scripted sink that takes at least a byte at a time, unless it is interrupted. -/
def ScriptedSink.stuttering : StutteringSink σ ScriptedSink where
  works s := Interruptions s.writeEvents ∧ s.flushEvents = [] ∧ s.chunk ≠ some 0
  content := ScriptedSink.content
  moves := Eq
  delay s _ _ := ahead s.writes s.writeEvents
  write := by
    rintro s ⟨hevents, hflush, hchunk⟩ bytes hne env
    rcases runEvents_interruptions hevents s.writes env with hrun | ⟨e, hrun, he, hahead⟩
    · obtain ⟨n, hn, hpart⟩ := exists_take_limited hchunk hne
      have hlen : (bytes.take (n + 1)).length = n + 1 := List.length_take_of_le hn
      refine ⟨{ s with writes := s.writes + 1, parts := bytes.take (n + 1) :: s.parts }, env,
        ⟨hevents, hflush, hchunk⟩, rfl, .inl ⟨n, .of_eq fun fuel => ?_, hn, ?_⟩⟩
      · simp only [Sink.write, hrun, hpart, hlen]
      · simp [content]
    · refine ⟨{ s with writes := s.writes + 1 }, env, ⟨hevents, hflush, hchunk⟩, rfl,
        .inr ⟨e, .of_eq fun fuel => ?_, he, rfl, ahead_succ_lt hahead⟩⟩
      simp only [Sink.write, hrun]
  flush := by
    rintro s ⟨hevents, hflush, hchunk⟩ env
    refine ⟨{ s with flushes := s.flushes + 1 }, env, .of_eq fun fuel => ?_,
      ⟨hevents, hflush, hchunk⟩, rfl, rfl⟩
    simp only [Sink.flush, hflush, runEvents]

end Scripted

end SealedStream
