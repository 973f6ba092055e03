import SealedStream.Proofs.Session.Dispatch
import SealedStream.Proofs.Session.Embedding

/-!
# Callers that go on

A failed call rolls nothing back, and its caller may go on all the same. `Session.after` is where a
series of calls leaves a session, each call made where the one before left it, and `Session.emitted`
is what they gave out in all; `Session.inTurn` is the caller who stops at the first failure. A
session that does what another one does, seen through a map, does so over every series of calls
(`after_map`, `emitted_map`, `inTurn_map`): a session among others, and the one that a dispatcher
has chosen.
-/

namespace SealedStream

variable {σ κ γ τ υ : Type}

/-- What a caller may ask of a session. -/
inductive Session.Call
  | start
  | update (input : Bytes)
  | finalize
  deriving DecidableEq, Repr

/-- The bytes that a result gives out: none, if it is a failure. -/
def given {ε : Type} : EStateM.Result ε τ Bytes → Bytes
  | .ok out _ => out
  | .error _ _ => []

def failed {ε α : Type} : EStateM.Result ε τ α → Bool
  | .ok _ _ => false
  | .error _ _ => true

theorem reached_mapState {ε α : Type} (f : τ → υ) (r : EStateM.Result ε τ α) :
    reached (mapState f r) = f (reached r) := by
  cases r <;> rfl

theorem outcome_mapState {ε α : Type} (f : τ → υ) (r : EStateM.Result ε τ α) :
    outcome (mapState f r) = outcome r := by
  cases r <;> rfl

theorem mapState_eq_ok {ε α : Type} {f : τ → υ} {r : EStateM.Result ε τ α} {a : α} {u : υ} :
    mapState f r = .ok a u ↔ ∃ t, r = .ok a t ∧ u = f t := by
  cases r with
  | error e t => exact ⟨fun h => (nomatch h), fun ⟨_, h, _⟩ => nomatch h⟩
  | ok b t =>
    constructor
    · intro h
      cases h
      exact ⟨t, rfl, rfl⟩
    · rintro ⟨_, ⟨⟩, rfl⟩
      rfl

theorem given_mapState {ε : Type} (f : τ → υ) (r : EStateM.Result ε τ Bytes) :
    given (mapState f r) = given r := by
  cases r <;> rfl

theorem eq_ok_of_given {ε : Type} {r : EStateM.Result ε τ Bytes} {out : Bytes}
    (h : failed r = false ∧ given r = out) : ∃ t, r = .ok out t := by
  obtain ⟨hfailed, rfl⟩ := h
  cases r with
  | ok out t => exact ⟨t, rfl⟩
  | error e t => cases hfailed

namespace Session

namespace Call

def run [Session κ σ] : Call → Step (κ × σ) Bytes
  | .start => Session.start
  | .update input => Session.update input
  | .finalize => Session.finalize

/-- The call that feeds the bytes, if there are any. -/
def feeding (bytes : Bytes) : List Call := if bytes.isEmpty then [] else [.update bytes]

/-- What a call of a session comes to in its content cipher, which has nothing to start. -/
def through [ContentCipher σ γ] : Call → Step (γ × σ) Bytes
  | .start => pure []
  | .update input => ContentCipher.update input
  | .finalize => ContentCipher.finalize

end Call

/-! ## Series of calls -/

/-- Where the calls leave a state, if `run` makes each. -/
def after (run : Call → Step τ Bytes) : List Call → τ → τ
  | [], s => s
  | call :: calls, s => after run calls (reached (run call s))

/-- What the calls give out, if `run` makes each. -/
def emitted (run : Call → Step τ Bytes) : List Call → τ → Bytes
  | [], _ => []
  | call :: calls, s => given (run call s) ++ emitted run calls (reached (run call s))

theorem after_append (run : Call → Step τ Bytes) (calls more : List Call) (s : τ) :
    after run (calls ++ more) s = after run more (after run calls s) := by
  induction calls generalizing s with
  | nil => rfl
  | cons call calls ih => rw [List.cons_append, after, ih, after]

theorem emitted_append (run : Call → Step τ Bytes) (calls more : List Call) (s : τ) :
    emitted run (calls ++ more) s = emitted run calls s ++ emitted run more (after run calls s) := by
  induction calls generalizing s with
  | nil => rfl
  | cons call calls ih => rw [List.cons_append, emitted, ih, emitted, after, List.append_assoc]

section

variable {run : Call → Step τ Bytes} {run' : Call → Step υ Bytes} {ι : τ → υ}

theorem after_map (h : ∀ (call : Call) (s : τ), run' call (ι s) = mapState ι (run call s))
    (calls : List Call) (s : τ) : after run' calls (ι s) = ι (after run calls s) := by
  induction calls generalizing s with
  | nil => rfl
  | cons call calls ih => rw [after, after, h, reached_mapState, ih]

theorem emitted_map (h : ∀ (call : Call) (s : τ), run' call (ι s) = mapState ι (run call s))
    (calls : List Call) (s : τ) : emitted run' calls (ι s) = emitted run calls s := by
  induction calls generalizing s with
  | nil => rfl
  | cons call calls ih => rw [emitted, emitted, h, reached_mapState, given_mapState, ih]

end

/-! ## Series without a failure -/

/-- The bytes that the calls feed. -/
def fed : List Call → Bytes
  | [] => []
  | .update input :: calls => input ++ fed calls
  | _ :: calls => fed calls

/-- Makes the calls in turn, up to the first that fails, and gives out what they give. -/
def inTurn (run : Call → Step τ Bytes) : List Call → Step τ Bytes
  | [] => pure []
  | call :: calls => do
    let out ← run call
    let rest ← inTurn run calls
    return out ++ rest

theorem fed_append (calls more : List Call) : fed (calls ++ more) = fed calls ++ fed more := by
  induction calls with
  | nil => rfl
  | cons call calls ih => cases call <;> simp [fed, ih]

section

variable {run : Call → Step τ Bytes} {run' : Call → Step υ Bytes} {ι : τ → υ} {s u : τ}
  {out : Bytes}

theorem inTurn_cons_eq_ok {call : Call} {calls : List Call} :
    inTurn run (call :: calls) s = .ok out u ↔
      ∃ o t rest, run call s = .ok o t ∧ inTurn run calls t = .ok rest u ∧ out = o ++ rest := by
  constructor
  · intro h
    obtain ⟨o, t, ho, h⟩ := exists_of_bind_eq_ok h
    obtain ⟨rest, v, hrest, h⟩ := exists_of_bind_eq_ok h
    cases h
    exact ⟨o, t, rest, ho, hrest, rfl⟩
  · rintro ⟨o, t, rest, ho, hrest, rfl⟩
    simp only [inTurn, run_bind, ho, hrest, run_pure]

theorem inTurn_single (call : Call) : inTurn run [call] s = run call s := by
  simp only [inTurn, run_bind, run_pure, List.append_nil]
  cases run call s <;> rfl

/-- A call that gives nothing only moves the state. -/
theorem inTurn_cons_silent {call : Call} (h : run call s = .ok [] u) (calls : List Call) :
    inTurn run (call :: calls) s = inTurn run calls u := by
  simp only [inTurn, run_bind, h, run_pure, List.nil_append]
  cases inTurn run calls u <;> rfl

theorem inTurn_append_eq_ok {calls more : List Call} :
    inTurn run (calls ++ more) s = .ok out u ↔
      ∃ o t rest, inTurn run calls s = .ok o t ∧ inTurn run more t = .ok rest u ∧
        out = o ++ rest := by
  induction calls generalizing s out with
  | nil =>
    constructor
    · intro h
      exact ⟨[], s, out, rfl, h, rfl⟩
    · rintro ⟨o, t, rest, ho, hrest, rfl⟩
      cases ho
      exact hrest
  | cons call calls ih =>
    rw [List.cons_append, inTurn_cons_eq_ok]
    constructor
    · rintro ⟨o, t, rest, ho, hrest, rfl⟩
      obtain ⟨o', t', rest', ho', hrest', rfl⟩ := ih.mp hrest
      exact ⟨o ++ o', t', rest', inTurn_cons_eq_ok.mpr ⟨o, t, o', ho, ho', rfl⟩, hrest',
        (List.append_assoc _ _ _).symm⟩
    · rintro ⟨o, t, rest, ho, hrest, rfl⟩
      obtain ⟨o', t', rest', ho', hrest', rfl⟩ := inTurn_cons_eq_ok.mp ho
      exact ⟨o', t', rest' ++ rest, ho', ih.mpr ⟨rest', t, rest, hrest', hrest, rfl⟩,
        List.append_assoc _ _ _⟩

theorem inTurn_map (h : ∀ (call : Call) (s : τ), run' call (ι s) = mapState ι (run call s))
    (calls : List Call) (s : τ) :
    inTurn run' calls (ι s) = mapState ι (inTurn run calls s) := by
  induction calls generalizing s with
  | nil => rfl
  | cons call calls ih =>
    simp only [inTurn, run_bind, h, run_pure]
    cases run call s with
    | error e t => rfl
    | ok o t =>
      simp only [mapState, ih]
      cases inTurn run calls t <;> rfl

end

end Session

namespace Dispatcher

variable [Session κ σ]

/-- The dispatcher `d` that has chosen the session `s` under the id. -/
def choosing (d : Dispatcher σ κ) (id : UInt32) (s : κ × σ) : Dispatcher σ κ × σ :=
  ({ d with phase := .selected id s.1 }, s.2)

/-- A dispatcher that has chosen does what the chosen session does. -/
theorem run_choosing (d : Dispatcher σ κ) (id : UInt32) (call : Session.Call) (s : κ × σ) :
    call.run (d.choosing id s) = mapState (d.choosing id) (call.run s) := by
  cases call with
  | start =>
    refine (start_selected (d := (d.choosing id s).1) rfl).trans ?_
    simp only [Session.Call.run, choosing]
    cases (Session.start : Step (κ × σ) Bytes) s <;> rfl
  | update input =>
    refine (update_selected (d := (d.choosing id s).1) rfl).trans ?_
    simp only [Session.Call.run, choosing]
    cases Session.update input s <;> rfl
  | finalize =>
    refine (finalize_selected (d := (d.choosing id s).1) rfl).trans ?_
    simp only [Session.Call.run, choosing]
    cases (Session.finalize : Step (κ × σ) Bytes) s <;> rfl

end Dispatcher

end SealedStream
