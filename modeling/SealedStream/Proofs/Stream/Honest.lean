import SealedStream.Proofs.Session.Calls
import SealedStream.Proofs.Stream.Working

/-!
# Sinks that may fail

An honest sink may fail in any call, but it says how many bytes it took, and a call that fails took
none. Writing all of some bytes then leaves a beginning of them in the sink, and all of them if it
does not fail (`HonestSink.writeAll_spec`). Sinks that work are honest, and so is every scripted
sink.
-/

namespace SealedStream

variable {σ ς : Type}

/-- How many bytes a write took. -/
def taken {ε τ : Type} : EStateM.Result ε τ Nat → Nat
  | .ok n _ => n
  | .error _ _ => 0

/-- Where sinks of the type `ς` are honest, and what they have taken there. -/
structure HonestSink (σ ς : Type) [Sink σ ς] where
  holds : ς → Prop
  content : ς → Bytes
  write : ∀ {s}, holds s → ∀ (fuel : Nat) {bytes : Bytes}, bytes ≠ [] → ∀ env : Env σ,
    holds (reached (Sink.write fuel bytes (s, env))).1 ∧
      taken (Sink.write fuel bytes (s, env)) ≤ bytes.length ∧
      content (reached (Sink.write fuel bytes (s, env))).1 =
        content s ++ bytes.take (taken (Sink.write fuel bytes (s, env)))
  flush : ∀ {s}, holds s → ∀ (fuel : Nat) (env : Env σ),
    holds (reached (Sink.flush fuel (s, env))).1 ∧
      content (reached (Sink.flush fuel (s, env))).1 = content s

namespace HonestSink

variable [Sink σ ς] (K : HonestSink σ ς)

/-- The sink took the first `n` of the bytes: all of them, or the writing failed. -/
structure Took (bytes : Bytes) (s : ς) (r : EStateM.Result IoError (ς × Env σ) Unit) (n : Nat) :
    Prop where
  holds : K.holds (reached r).1
  le : n ≤ bytes.length
  content : K.content (reached r).1 = K.content s ++ bytes.take n
  failed : failed r = true ↔ n < bytes.length

variable {K}

theorem took_nothing {s t : ς} {env : Env σ} {b : UInt8} {bs : Bytes} {e : IoError} (ht : K.holds t)
    (hc : K.content t = K.content s) : K.Took (b :: bs) s (.error e (t, env)) 0 where
  holds := ht
  le := Nat.zero_le _
  content := by
    show K.content t = _
    rw [hc, List.take_zero, List.append_nil]
  failed := iff_of_true rfl (Nat.succ_pos _)

/-- What is written after the first `m` bytes adds to these. -/
theorem Took.add {bytes : Bytes} {s s₁ : ς} {r : EStateM.Result IoError (ς × Env σ) Unit}
    {m n : Nat}
    (hc : K.content s₁ = K.content s ++ bytes.take m) (hm : m ≤ bytes.length)
    (h : K.Took (bytes.drop m) s₁ r n) : K.Took bytes s r (m + n) where
  holds := h.holds
  le := by
    have := h.le
    rw [List.length_drop] at this
    omega
  content := by rw [h.content, hc, List.append_assoc, ← List.take_add]
  failed := by
    rw [h.failed, List.length_drop]
    omega

theorem took_nil {s : ς} (hs : K.holds s) (env : Env σ) : K.Took [] s (.ok () (s, env)) 0 where
  holds := hs
  le := Nat.le_refl 0
  content := (List.append_nil _).symm
  failed := iff_of_false Bool.false_ne_true (Nat.lt_irrefl 0)

/-- By induction on the rounds: one that fails for good took nothing, and what the others took adds
up. -/
theorem writeAllLoop_spec (fuel : Nat) : ∀ (rounds : Nat) (bytes : Bytes) {s : ς}, K.holds s →
    ∀ env : Env σ, ∃ n, K.Took bytes s (Sink.writeAllLoop fuel rounds bytes (s, env)) n
  | 0, [], s, hs, env => ⟨0, took_nil hs env⟩
  | 0, b :: bs, s, hs, env => ⟨0, took_nothing hs rfl⟩
  | rounds + 1, [], s, hs, env => ⟨0, took_nil hs env⟩
  | rounds + 1, b :: bs, s, hs, env => by
    obtain ⟨hs₁, hle, hc₁⟩ := K.write hs fuel (List.cons_ne_nil b bs) env
    unfold Sink.writeAllLoop
    cases hw : (Sink.write fuel (b :: bs) : Transfer σ ς Nat) (s, env) with
    | error e t =>
      obtain ⟨s₁, env₁⟩ := t
      rw [hw] at hs₁ hc₁
      have hsame : K.content s₁ = K.content s := hc₁.trans (List.append_nil _)
      simp only []
      split
      · obtain ⟨n, h⟩ := writeAllLoop_spec fuel rounds (b :: bs) hs₁ env₁
        exact ⟨0 + n, Took.add hc₁ (Nat.zero_le _) h⟩
      · exact ⟨0, took_nothing hs₁ hsame⟩
    | ok n t =>
      obtain ⟨s₁, env₁⟩ := t
      rw [hw] at hs₁ hle hc₁
      cases n with
      | zero => exact ⟨0, took_nothing hs₁ (hc₁.trans (List.append_nil _))⟩
      | succ m =>
        obtain ⟨n, h⟩ := writeAllLoop_spec fuel rounds ((b :: bs).drop (m + 1)) hs₁ env₁
        exact ⟨m + 1 + n, h.add hc₁ hle⟩

theorem writeAll_spec {s : ς} (hs : K.holds s) (fuel : Nat) (bytes : Bytes) (env : Env σ) :
    ∃ n, K.Took bytes s (Sink.writeAll fuel bytes (s, env)) n :=
  writeAllLoop_spec fuel fuel bytes hs env

end HonestSink

/-! ## Instances -/

/-- A sink that works is honest. -/
def WorkingSink.honest [Sink σ ς] (K : WorkingSink σ ς) : HonestSink σ ς where
  holds := K.works
  content := K.content
  write := by
    intro s hs fuel bytes hne env
    obtain ⟨n, s', env', hw, hs', hn, hc⟩ := K.write hs fuel hne env
    rw [hw]
    exact ⟨hs', hn, hc⟩
  flush := by
    intro s hs fuel env
    obtain ⟨s', env', hf, hs', hc⟩ := K.flush hs fuel env
    rw [hf]
    exact ⟨hs', hc⟩

/-- A scripted sink is honest, whatever befalls it. -/
def Scripted.ScriptedSink.honest : HonestSink σ Scripted.ScriptedSink where
  holds _ := True
  content := content
  write := by
    intro s _ fuel bytes _ env
    refine ⟨trivial, ?_⟩
    simp only [Sink.write]
    rcases runEvents s.writes s.writeEvents env with ⟨_ | _ | _, env'⟩
    · refine ⟨List.length_take_le' _ _, ?_⟩
      have hpart : bytes.take (bytes.take (s.chunk.getD bytes.length)).length =
          bytes.take (s.chunk.getD bytes.length) := by
        rw [List.length_take, ← List.take_take, List.take_length]
      simp only [taken, reached, hpart]
      simp [content]
    · exact ⟨Nat.zero_le _, (List.append_nil _).symm⟩
    · exact ⟨Nat.zero_le _, (List.append_nil _).symm⟩
  flush := by
    intro s _ fuel env
    refine ⟨trivial, ?_⟩
    simp only [Sink.flush]
    rcases runEvents s.flushes s.flushEvents env with ⟨_ | _ | _, env'⟩ <;> rfl

theorem Scripted.ScriptedSink.content_honest (s : Scripted.ScriptedSink) :
    (honest : HonestSink σ Scripted.ScriptedSink).content s = s.content := rfl

end SealedStream
