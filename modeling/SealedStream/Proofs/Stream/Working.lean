import SealedStream.Proofs.Step
import SealedStream.Scripted.Streams

/-!
# Sources and sinks that work

A working source gives its bytes in pieces of its own choice, a working sink takes what it is
offered in pieces of its own choice, and neither fails. What else they do to the environment is left
open. `Sink.writeAllLoop_spec` says that all bytes arrive, and the scripted streams without events
are instances.
-/

namespace SealedStream

variable {σ ρ ς : Type}

/-- Where sources of the type `ρ` work, and what they have yet to give there. -/
structure WorkingSource (σ ρ : Type) [Source σ ρ] where
  works : ρ → Prop
  remaining : ρ → Bytes
  /-- A read gives some of the bytes that remain, and none only at their end. -/
  read : ∀ {r}, works r → ∀ (fuel : Nat) {n : Nat}, 0 < n → ∀ env : Env σ, ∃ bytes r' env',
    Source.read fuel n (r, env) = .ok bytes (r', env') ∧ works r' ∧ bytes.length ≤ n ∧
      remaining r = bytes ++ remaining r' ∧ (bytes = [] → remaining r = [])

/-- Reading leaves the world of the sessions' collaborators alone. -/
def Source.Aloof (σ ρ : Type) [Source σ ρ] : Prop :=
  ∀ (fuel n : Nat) (s : ρ × Env σ),
    (reached (Source.read fuel n s : EStateM.Result IoError (ρ × Env σ) Bytes)).2.world = s.2.world

/-- Where sinks of the type `ς` work, and what they have taken there. -/
structure WorkingSink (σ ς : Type) [Sink σ ς] where
  works : ς → Prop
  content : ς → Bytes
  /-- A write takes at least the first of the bytes offered. -/
  write : ∀ {s}, works s → ∀ (fuel : Nat) {bytes : Bytes}, bytes ≠ [] → ∀ env : Env σ,
    ∃ n s' env', Sink.write fuel bytes (s, env) = .ok (n + 1) (s', env') ∧ works s' ∧
      n < bytes.length ∧ content s' = content s ++ bytes.take (n + 1)
  flush : ∀ {s}, works s → ∀ (fuel : Nat) (env : Env σ), ∃ s' env',
    Sink.flush fuel (s, env) = .ok () (s', env') ∧ works s' ∧ content s' = content s

/-! ## Writing all of it -/

namespace Sink

variable [Sink σ ς] (K : WorkingSink σ ς)

/-- Each round takes at least one byte, so as many rounds as there are bytes are enough. -/
theorem writeAllLoop_spec (fuel : Nat) : ∀ {rounds : Nat} {bytes : Bytes} {s : ς}, K.works s →
    bytes.length ≤ rounds → ∀ env : Env σ, ∃ s' env',
      writeAllLoop fuel rounds bytes (s, env) = .ok () (s', env') ∧ K.works s' ∧
        K.content s' = K.content s ++ bytes
  | 0, [], s, hs, _, env => ⟨s, env, rfl, hs, (List.append_nil _).symm⟩
  | rounds + 1, [], s, hs, _, env => ⟨s, env, rfl, hs, (List.append_nil _).symm⟩
  | rounds + 1, b :: bs, s, hs, h, env => by
    obtain ⟨n, s₁, env₁, hw, hs₁, hn, hc₁⟩ := K.write hs fuel (List.cons_ne_nil b bs) env
    have hlen : ((b :: bs).drop (n + 1)).length ≤ rounds := by
      rw [List.length_drop]
      omega
    obtain ⟨s₂, env₂, hl, hs₂, hc₂⟩ := writeAllLoop_spec fuel hs₁ hlen env₁
    refine ⟨s₂, env₂, ?_, hs₂, ?_⟩
    · simp only [writeAllLoop, hw]
      exact hl
    · rw [hc₂, hc₁, List.append_assoc, List.take_append_drop]

omit K in
theorem writeAll_nil (fuel : Nat) (t : ς × Env σ) :
    (writeAll fuel [] : Transfer σ ς Unit) t = .ok () t := by
  cases fuel <;> rfl

theorem writeAll_spec {fuel : Nat} {bytes : Bytes} {s : ς} (hs : K.works s)
    (h : bytes.length ≤ fuel) (env : Env σ) : ∃ s' env',
      writeAll fuel bytes (s, env) = .ok () (s', env') ∧ K.works s' ∧
        K.content s' = K.content s ++ bytes :=
  writeAllLoop_spec K fuel hs h env

/-- With any number of rounds, all bytes arrive or the rounds run out. -/
theorem writeAllLoop_or_stalled (fuel : Nat) : ∀ (rounds : Nat) (bytes : Bytes) {s : ς},
    K.works s → ∀ env : Env σ,
    (∃ s' env', writeAllLoop fuel rounds bytes (s, env) = .ok () (s', env') ∧ K.works s' ∧
      K.content s' = K.content s ++ bytes) ∨
    ∃ t, writeAllLoop fuel rounds bytes (s, env) = .error .stalled t
  | 0, [], s, hs, env => .inl ⟨s, env, rfl, hs, (List.append_nil _).symm⟩
  | 0, b :: bs, s, hs, env => .inr ⟨(s, env), rfl⟩
  | rounds + 1, [], s, hs, env => .inl ⟨s, env, rfl, hs, (List.append_nil _).symm⟩
  | rounds + 1, b :: bs, s, hs, env => by
    obtain ⟨n, s₁, env₁, hw, hs₁, -, hc₁⟩ := K.write hs fuel (List.cons_ne_nil b bs) env
    simp only [writeAllLoop, hw]
    rcases writeAllLoop_or_stalled fuel rounds ((b :: bs).drop (n + 1)) hs₁ env₁ with
      ⟨s₂, env₂, hl, hs₂, hc₂⟩ | hstalled
    · refine .inl ⟨s₂, env₂, hl, hs₂, ?_⟩
      rw [hc₂, hc₁, List.append_assoc, List.take_append_drop]
    · exact .inr hstalled

end Sink

/-! ## Scripted streams without events -/

namespace Scripted

/-- At least one byte is moved if one is asked for and the limit is not zero. -/
theorem limited_bounds {limit : Option Nat} (h : limit ≠ some 0) {n : Nat} (hn : 0 < n) :
    0 < limited limit n ∧ limited limit n ≤ n := by
  cases limit with
  | none => exact ⟨hn, Nat.le_refl n⟩
  | some c =>
    have hc : c ≠ 0 := fun hc => h (by rw [hc])
    simp only [limited]
    omega

/-- The bytes of one read. -/
def ScriptedSource.part (r : ScriptedSource) (n : Nat) : Bytes :=
  (r.data.toList.drop r.pos).take (limited r.chunk n)

theorem ScriptedSource.read_eq {r : ScriptedSource} {env : Env σ}
    (h : runEvents r.reads r.readEvents env = (none, env)) (fuel n : Nat) :
    Source.read fuel n (r, env) = .ok (r.part n)
      ({ r with reads := r.reads + 1, pos := r.pos + (r.part n).length }, env) := by
  have hpart : (r.data.extract r.pos (r.pos + limited r.chunk n)).toList = r.part n := by
    rw [Array.toList_extract, List.extract_eq_take_drop, Nat.add_sub_cancel_left, part]
  simp only [Source.read, h, hpart]
  rw [← hpart, Array.length_toList]

/-- What a read gives is taken off the front. -/
theorem ScriptedSource.part_append_drop (r : ScriptedSource) (n : Nat) :
    r.data.toList.drop r.pos =
      r.part n ++ r.data.toList.drop (r.pos + (r.part n).length) := by
  rw [← List.drop_drop, part, List.length_take]
  generalize r.data.toList.drop r.pos = rest
  rw [Nat.min_def]
  split
  · rw [List.take_append_drop]
  · rename_i hlen
    rw [List.drop_length, List.append_nil, List.take_of_length_le (by omega)]

theorem ScriptedSource.length_part_le {r : ScriptedSource} (hchunk : r.chunk ≠ some 0) {n : Nat}
    (hn : 0 < n) : (r.part n).length ≤ n := by
  have hle := (limited_bounds hchunk hn).2
  rw [part, List.length_take]
  omega

/-- A read gives nothing only at the end. -/
theorem ScriptedSource.drop_eq_nil_of_part {r : ScriptedSource} (hchunk : r.chunk ≠ some 0)
    {n : Nat} (hn : 0 < n) (hnil : r.part n = []) : r.data.toList.drop r.pos = [] := by
  have hpos := (limited_bounds hchunk hn).1
  exact (List.take_eq_nil_iff.mp hnil).resolve_left (by omega)

/-- A scripted source that nothing befalls and that moves at least a byte at a time. -/
def ScriptedSource.working : WorkingSource σ ScriptedSource where
  works r := r.readEvents = [] ∧ r.chunk ≠ some 0
  remaining r := r.data.toList.drop r.pos
  read := by
    rintro r ⟨hevents, hchunk⟩ fuel n hn env
    have hrun : runEvents r.reads r.readEvents env = (none, env) := by rw [hevents, runEvents]
    exact ⟨_, _, env, ScriptedSource.read_eq hrun fuel n, ⟨hevents, hchunk⟩,
      length_part_le hchunk hn, r.part_append_drop n, drop_eq_nil_of_part hchunk hn⟩

theorem world_runEvents (k : Nat) (events : Schedule) (env : Env σ) :
    (runEvents k events env).2.world = env.world := by
  induction events generalizing env with
  | nil => rfl
  | cons e events ih =>
    obtain ⟨call, event⟩ := e
    by_cases hcall : call = k
    · cases event with
      | fail e => simp only [runEvents, if_pos hcall]
      | zero => simp only [runEvents, if_pos hcall]
      | raise flag =>
        simp only [runEvents, if_pos hcall]
        exact ih (env.raise flag)
    · cases event <;> simp only [runEvents, if_neg hcall] <;> exact ih env

/-- A scripted source raises flags at most, whatever befalls it. -/
theorem ScriptedSource.aloof : Source.Aloof σ ScriptedSource := by
  rintro fuel n ⟨r, env⟩
  have h := world_runEvents r.reads r.readEvents env
  simp only [Source.read]
  rcases hrun : runEvents r.reads r.readEvents env with ⟨_ | _ | _, env'⟩ <;> rw [hrun] at h <;>
    exact h

/-- At least a byte is taken of those offered if the limit is not zero. -/
theorem exists_take_limited {chunk : Option Nat} (h : chunk ≠ some 0) {bytes : Bytes}
    (hne : bytes ≠ []) : ∃ n, n < bytes.length ∧
      bytes.take (chunk.getD bytes.length) = bytes.take (n + 1) := by
  have hlen : 0 < bytes.length := List.length_pos_iff.mpr hne
  have hpos : 0 < min (chunk.getD bytes.length) bytes.length := by
    cases chunk with
    | none => simpa using hlen
    | some c =>
      have : c ≠ 0 := fun hc => h (by rw [hc])
      rw [Option.getD_some]
      omega
  refine ⟨min (chunk.getD bytes.length) bytes.length - 1, by omega, ?_⟩
  rw [Nat.sub_add_cancel hpos, ← List.take_take, List.take_length]

/-- A scripted sink that nothing befalls and that takes at least a byte at a time. -/
def ScriptedSink.working : WorkingSink σ ScriptedSink where
  works s := s.writeEvents = [] ∧ s.flushEvents = [] ∧ s.chunk ≠ some 0
  content := ScriptedSink.content
  write := by
    rintro s ⟨hevents, hflush, hchunk⟩ fuel bytes hne env
    obtain ⟨n, hn, hpart⟩ := exists_take_limited hchunk hne
    refine ⟨n, { s with writes := s.writes + 1, parts := bytes.take (n + 1) :: s.parts }, env, ?_,
      ⟨hevents, hflush, hchunk⟩, hn, ?_⟩
    · simp only [Sink.write, hevents, runEvents, hpart, List.length_take_of_le hn]
    · simp [content]
  flush := by
    rintro s ⟨hevents, hflush, hchunk⟩ fuel env
    refine ⟨{ s with flushes := s.flushes + 1 }, env, ?_, ⟨hevents, hflush, hchunk⟩, rfl⟩
    simp only [Sink.flush, hflush, runEvents]

end Scripted

end SealedStream
