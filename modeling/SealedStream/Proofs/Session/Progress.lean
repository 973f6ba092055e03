import SealedStream.Session.Basic

/-!
# What a decrypting session makes of its bytes

A decrypting session is fed in pieces, but what it says depends on the bytes alone. `Progress` is
that answer for a byte string, a `Grows` function gives it for every one, and `Decodes` says that a
session computes such a function piece by piece: the rest of the theory of decrypting sessions knows
them through these laws only.
-/

namespace SealedStream

/-- What the bytes seen so far amount to. -/
inductive Progress
  /-- They do not begin a stream, whatever follows. -/
  | failed (error : Error)
  /-- The header is not complete, and of it `buffered` bytes are there. -/
  | awaiting (buffered : Nat)
  /-- The header is behind, and `plain` is the plaintext of what follows it. -/
  | ready (plain : Bytes)

namespace Progress

/-- The plaintext so far. -/
def plain : Progress → Bytes
  | .ready p => p
  | _ => []

def isReady : Progress → Bool
  | .ready _ => true
  | _ => false

def isFailed : Progress → Bool
  | .failed _ => true
  | _ => false

/-- The error that a stream of these bytes ends with. -/
def error? : Progress → Option Error
  | .failed e => some e
  | .awaiting n => some (.truncatedHeader n)
  | .ready _ => none

/-- What ends with a failed transfer has failed with it. -/
theorem eq_failed {p : Progress} {e : IoError} (h : p.error? = some (.io e)) :
    p = .failed (.io e) := by
  cases p with
  | failed _ =>
    cases h
    rfl
  | awaiting _ => cases h
  | ready _ => cases h

theorem plain_of_error? {p : Progress} {e : Error} (h : p.error? = some e) : p.plain = [] := by
  cases p with
  | failed _ => rfl
  | awaiting _ => rfl
  | ready _ => cases h

theorem isReady_of_plain {p : Progress} (h : p.plain ≠ []) : p.isReady = true := by
  cases p with
  | failed _ => exact absurd rfl h
  | awaiting _ => exact absurd rfl h
  | ready _ => rfl

/-- More bytes never take back what was said: an error stays, and each byte behind a header makes
one byte more. -/
structure Lasts (D : Bytes → Progress) : Prop where
  failed : ∀ {fed e}, D fed = .failed e → ∀ more, D (fed ++ more) = .failed e
  ready : ∀ {fed p}, D fed = .ready p → ∀ more,
    ∃ q, q.length = more.length ∧ D (fed ++ more) = .ready (p ++ q)

namespace Lasts

variable {D : Bytes → Progress} (h : Lasts D) {fed more : Bytes}

include h

theorem isReady_append (hr : (D fed).isReady = true) : (D (fed ++ more)).isReady = true := by
  cases hD : D fed with
  | failed e => rw [hD] at hr; cases hr
  | awaiting n => rw [hD] at hr; cases hr
  | ready p =>
    obtain ⟨q, -, hq⟩ := h.ready hD more
    rw [hq]
    rfl

theorem plain_mono : (D fed).plain <+: (D (fed ++ more)).plain := by
  cases hD : D fed with
  | failed e => exact List.nil_prefix
  | awaiting n => exact List.nil_prefix
  | ready p =>
    obtain ⟨q, -, hq⟩ := h.ready hD more
    rw [hq]
    exact List.prefix_append p q

/-- What fails has given nothing before. -/
theorem plain_of_failed {e : Error} (hf : D (fed ++ more) = .failed e) : (D fed).plain = [] := by
  cases hD : D fed with
  | failed _ => rfl
  | awaiting _ => rfl
  | ready p =>
    obtain ⟨q, -, hq⟩ := h.ready hD more
    rw [hq] at hf
    cases hf

/-- What is ready gives something for whatever it is fed. -/
theorem ne_nil_of_isReady {out : Bytes} (hr : (D fed).isReady = true) (hmore : more ≠ [])
    (hout : (D (fed ++ more)).plain = (D fed).plain ++ out) : out ≠ [] := by
  cases hD : D fed with
  | failed e => rw [hD] at hr; cases hr
  | awaiting n => rw [hD] at hr; cases hr
  | ready p =>
    obtain ⟨q, hlen, hq⟩ := h.ready hD more
    rw [hq, hD] at hout
    obtain rfl : q = out := List.append_cancel_left hout
    rw [← List.length_pos_iff, hlen]
    exact List.length_pos_iff.mpr hmore

end Lasts

/-- What lasts and begins with nothing said, as decrypting does. -/
structure Grows (D : Bytes → Progress) : Prop where
  nil : D [] = .awaiting 0
  failed : ∀ {fed e}, D fed = .failed e → ∀ more, D (fed ++ more) = .failed e
  ready : ∀ {fed p}, D fed = .ready p → ∀ more,
    ∃ q, q.length = more.length ∧ D (fed ++ more) = .ready (p ++ q)

namespace Grows

variable {D : Bytes → Progress} (h : Grows D) {fed more : Bytes}

include h

theorem lasts : Lasts D := ⟨h.failed, h.ready⟩

theorem isReady_append (hr : (D fed).isReady = true) : (D (fed ++ more)).isReady = true :=
  h.lasts.isReady_append hr

/-- What is not decided was not decided before. -/
theorem awaiting_of_append {n : Nat} (hn : D (fed ++ more) = .awaiting n) :
    ∃ m, D fed = .awaiting m := by
  cases hD : D fed with
  | failed e =>
    rw [h.failed hD more] at hn
    cases hn
  | awaiting m => exact ⟨m, rfl⟩
  | ready p =>
    obtain ⟨q, -, hq⟩ := h.ready hD more
    rw [hq] at hn
    cases hn

/-- What fails has given no plaintext before. -/
theorem plain_of_failed {e : Error} (hf : D (fed ++ more) = .failed e) : (D fed).plain = [] :=
  h.lasts.plain_of_failed hf

end Grows

end Progress

/-- A session in the states `At fed` makes `D fed` of the bytes `fed` that it was fed. The laws hold
as long as these are the beginning of `whole`. -/
structure Decodes {κ σ : Type} [Session κ σ] (D : Bytes → Progress) (At : Bytes → κ → Prop)
    (whole : Bytes) : Prop where
  grows : Progress.Grows D
  mode : ∀ {fed k}, At fed k → Session.mode k = .decrypt
  going : ∀ {fed k}, At fed k → (D fed).isFailed = false
  isReady : ∀ {fed k}, At fed k → Session.isReady k = (D fed).isReady
  start : ∀ {fed k}, At fed k → ∀ w : σ, Session.start (k, w) = .ok [] (k, w)
  update : ∀ {fed k more}, At fed k → fed ++ more <+: whole → ∀ w : σ,
    (∃ e t, D (fed ++ more) = .failed e ∧ Session.update more (k, w) = .error e t) ∨
    ∃ out k' w', Session.update more (k, w) = .ok out (k', w') ∧ At (fed ++ more) k' ∧
      (D (fed ++ more)).plain = (D fed).plain ++ out
  finalize_awaiting : ∀ {fed k n}, At fed k → D fed = .awaiting n →
    ∀ w : σ, ∃ t, Session.finalize (k, w) = .error (.truncatedHeader n) t
  finalize_ready : ∀ {fed k p}, At fed k → D fed = .ready p →
    ∀ w : σ, ∃ k' w', Session.finalize (k, w) = .ok [] (k', w') ∧ At fed k'

end SealedStream
