import SealedStream.Proofs.Session.Calls
import SealedStream.Stream.Sink

/-!
# A journal of calls

What an adapter asks of its session and what its sink takes can be written down as it happens: the
world keeps a `Journal`, the instances of a session are `Numbered`, and a stream is `Observed` in such
a world. `Journal.Kept` is the discipline of the calls, each of them judged by the entries before it.
-/

namespace SealedStream

variable {ε σ κ ρ ς ο α : Type}

/-! ## Entries -/

/-- What is entered in a journal. The instances of a session are numbered, from zero on. -/
inductive Journal.Entry
  /-- A call of an instance, and what it gave unless it failed. -/
  | called (number : Nat) (call : Session.Call) (given : Option Bytes)
  /-- The instance was replaced. -/
  | replaced (number : Nat)
  /-- The sink took so many bytes. -/
  | took (count : Nat)
  deriving DecidableEq

/-- What happened, the latest first. -/
abbrev Journal := List Journal.Entry

namespace Journal

variable {number count : Nat} {call : Session.Call} {out : Option Bytes} {entry : Entry}
  {journal : Journal} {again : Nat → Journal → Prop}

/-- The instance was not started. -/
def Unstarted (number : Nat) (journal : Journal) : Prop :=
  ∀ out, .called number .start out ∉ journal

/-- The instance was started, and this has not failed. -/
def Begun (number : Nat) (journal : Journal) : Prop :=
  ∃ header, .called number .start (some header) ∈ journal

/-- The instance was not finalized. -/
def Unended (number : Nat) (journal : Journal) : Prop :=
  ∀ out, .called number .finalize out ∉ journal

/-- What the latest start of the instance gave, unless it failed, and how much the sink took since. -/
def latestStart (number : Nat) : Journal → Option (Bytes × Nat)
  | [] => none
  | .called m .start out :: journal =>
    if m = number then out.map (·, 0) else latestStart number journal
  | .took count :: journal => (latestStart number journal).map fun p => (p.1, p.2 + count)
  | _ :: journal => latestStart number journal

/-- The latest start of the instance failed, or the sink has not taken all that it gave. -/
def Unsettled (number : Nat) (journal : Journal) : Prop :=
  ∀ header count, latestStart number journal = some (header, count) → count < header.length

/-- A call of an instance that was neither replaced nor finalized, nor is it fed before it was started.
When it may be started is left open. -/
structure Proper (again : Nat → Journal → Prop) (number : Nat) (call : Session.Call)
    (earlier : Journal) : Prop where
  current : .replaced number ∉ earlier
  unended : Unended number earlier
  begun : ∀ input, call = .update input → Begun number earlier
  again : call = .start → again number earlier

/-- Every call was a proper one after what was entered before it. -/
def Kept (again : Nat → Journal → Prop) (journal : Journal) : Prop :=
  ∀ later number call out earlier, journal = later ++ .called number call out :: earlier →
    Proper again number call earlier

theorem Begun.cons (h : Begun number journal) (entry : Entry) : Begun number (entry :: journal) :=
  h.imp fun _ => List.mem_cons_of_mem _

theorem Unended.called (h : Unended number journal) (hcall : call ≠ .finalize) :
    Unended number (.called number call out :: journal) := by
  intro out' hmem
  rcases List.mem_cons.mp hmem with heq | hmem
  · cases heq
    exact hcall rfl
  · exact h out' hmem

theorem kept_nil : Kept again [] := by
  intro later number call out earlier h
  cases later <;> cases h

theorem Kept.cons (h : Kept again journal)
    (hentry : ∀ number call out, entry = .called number call out → Proper again number call journal) :
    Kept again (entry :: journal) := by
  intro later number call out earlier heq
  cases later with
  | nil =>
    cases heq
    exact hentry number call out rfl
  | cons later' later =>
    cases heq
    exact h later number call out earlier rfl

theorem Kept.called (h : Kept again journal) (hcall : Proper again number call journal) :
    Kept again (.called number call out :: journal) := by
  refine h.cons fun _ _ _ heq => ?_
  cases heq
  exact hcall

theorem Kept.replaced (h : Kept again journal) : Kept again (.replaced number :: journal) :=
  h.cons nofun

/-! ## What a sink takes -/

/-- Nothing else was entered since than that the sink took so much in all. -/
inductive Takes (journal : Journal) : Nat → Journal → Prop
  | nothing : Takes journal 0 journal
  | more {total : Nat} {later : Journal} (count : Nat) :
      Takes journal total later → Takes journal (total + count) (.took count :: later)

variable {later : Journal} {total : Nat}

theorem Takes.first (h : Takes (.took count :: journal) total later) :
    Takes journal (total + count) later := by
  induction h with
  | nothing => exact .more count .nothing
  | more count' _ ih =>
    rw [Nat.add_right_comm]
    exact .more count' ih

theorem Takes.mem_iff (h : Takes journal total later) (hentry : ∀ count, entry ≠ .took count) :
    entry ∈ later ↔ entry ∈ journal := by
  induction h with
  | nothing => rfl
  | more count _ ih =>
    rw [List.mem_cons, ih]
    exact or_iff_right (hentry count)

theorem Kept.takes (h : Kept again journal) (htakes : Takes journal total later) :
    Kept again later := by
  induction htakes with
  | nothing => exact h
  | more count _ ih => exact ih.cons nofun

theorem Begun.takes (h : Begun number journal) (htakes : Takes journal total later) :
    Begun number later := by
  obtain ⟨header, hmem⟩ := h
  exact ⟨header, (htakes.mem_iff (by rintro _ ⟨⟩)).mpr hmem⟩

theorem Unended.takes (h : Unended number journal) (htakes : Takes journal total later) :
    Unended number later :=
  fun out hmem => h out ((htakes.mem_iff (by rintro _ ⟨⟩)).mp hmem)

theorem Takes.latestStart_eq {header : Bytes}
    (h : Takes (.called number .start (some header) :: journal) total later) :
    latestStart number later = some (header, total) := by
  induction h with
  | nothing => simp [latestStart]
  | more count _ ih => simp only [latestStart, ih, Option.map_some]

/-- A sink that has not taken the header leaves the instance unsettled. -/
theorem Takes.unsettled {header : Bytes}
    (h : Takes (.called number .start (some header) :: journal) total later)
    (hlt : total < header.length) : Unsettled number later := by
  intro header' count heq
  rw [h.latestStart_eq] at heq
  cases heq
  exact hlt

theorem unsettled_failed : Unsettled number (.called number .start none :: journal) := by
  intro header count heq
  simp [latestStart] at heq

end Journal

/-! ## Worlds, sessions and streams with a journal -/

/-- A world that keeps a journal. -/
structure Journaled (σ : Type) where
  world : σ
  journal : Journal

/-- An instance of a session. Starting over makes the next one. -/
structure Numbered (κ : Type) where
  session : κ
  number : Nat

/-- Makes a call of an instance and enters it. -/
def Session.Call.entered [Session κ σ] (call : Session.Call) :
    Step (Numbered κ × Journaled σ) Bytes := fun (k, w) =>
  match call.run (k.session, w.world) with
  | .ok out t =>
    .ok out ({ k with session := t.1 }, ⟨t.2, .called k.number call (some out) :: w.journal⟩)
  | .error e t =>
    .error e ({ k with session := t.1 }, ⟨t.2, .called k.number call none :: w.journal⟩)

instance [Session κ σ] : Session (Numbered κ) (Journaled σ) where
  mode k := Session.mode k.session
  version k := Session.version k.session
  isReady k := Session.isReady k.session
  start := Session.Call.entered .start
  update input := Session.Call.entered (.update input)
  finalize := Session.Call.entered .finalize
  restart k := ⟨Session.restart k.session, k.number + 1⟩

theorem run_numbered [Session κ σ] (call : Session.Call) :
    (call.run : Step (Numbered κ × Journaled σ) Bytes) = call.entered := by
  cases call <;> rfl

theorem Session.Call.journal_entered [Session κ σ] (call : Session.Call)
    (s : Numbered κ × Journaled σ) : ∃ out,
      (reached (call.entered s)).2.journal = .called s.1.number call out :: s.2.journal := by
  obtain ⟨k, w⟩ := s
  simp only [Session.Call.entered]
  cases call.run (k.session, w.world) with
  | ok out t => exact ⟨some out, rfl⟩
  | error e t => exact ⟨none, rfl⟩

namespace Env

/-- Without the journal. -/
def unjournaled (env : Env (Journaled σ)) : Env σ := ⟨env.raised, env.world.world⟩

def journaled (env : Env σ) (journal : Journal) : Env (Journaled σ) :=
  ⟨env.raised, ⟨env.world, journal⟩⟩

def journal (env : Env (Journaled σ)) : Journal := env.world.journal

/-- One more entry. -/
def enter (env : Env (Journaled σ)) (entry : Journal.Entry) : Env (Journaled σ) :=
  env.unjournaled.journaled (entry :: env.journal)

end Env

theorem check_unjournaled (handle : AbortHandle) (env : Env (Journaled σ)) :
    handle.check env.unjournaled = handle.check env := by
  cases handle <;> rfl

theorem abort_unjournaled (handle : AbortHandle) (env : Env (Journaled σ)) :
    handle.abort env.unjournaled = ((handle.abort env).1, (handle.abort env).2.unjournaled) := by
  cases handle <;> rfl

theorem journal_abort (handle : AbortHandle) (env : Env (Journaled σ)) :
    (handle.abort env).2.journal = env.journal := by
  cases handle <;> rfl

/-- A stream in a world that keeps a journal. -/
structure Observed (ο : Type) where
  it : ο

namespace Observed

/-- The stream in the world without the journal. -/
def bare (s : Observed ο × Env (Journaled σ)) : ο × Env σ := (s.1.it, s.2.unjournaled)

/-- Runs a transfer, which enters nothing. -/
def run (x : EStateM ε (ο × Env σ) α) : EStateM ε (Observed ο × Env (Journaled σ)) α := fun s =>
  mapState (fun t => (⟨t.1⟩, t.2.journaled s.2.journal)) (x (bare s))

/-- Nor does an abort. -/
def aborted [Abortable σ ο] (s : Observed ο × Env (Journaled σ)) : Observed ο × Env (Journaled σ) :=
  (⟨(Abortable.abort (bare s)).1⟩, (Abortable.abort (bare s)).2.journaled s.2.journal)

instance [Source σ ρ] : Source (Journaled σ) (Observed ρ) where
  read fuel n := run (Source.read fuel n)

instance [Seekable σ ρ] : Seekable (Journaled σ) (Observed ρ) where
  position := run Seekable.position
  seek position := run (Seekable.seek position)

instance [Abortable σ ο] : Abortable (Journaled σ) (Observed ο) where
  abort := aborted

/-- What a sink takes is entered. -/
instance [Sink σ ς] : Sink (Journaled σ) (Observed ς) where
  write fuel bytes s :=
    match run (Sink.write fuel bytes) s with
    | .ok n t => .ok n (t.1, t.2.enter (.took n))
    | .error e t => .error e t
  flush fuel := run (Sink.flush fuel)

theorem bare_run (x : EStateM ε (ο × Env σ) α) (s : Observed ο × Env (Journaled σ)) :
    x (bare s) = mapState bare (run x s) := by
  unfold run
  cases x (bare s) <;> rfl

theorem journal_run (x : EStateM ε (ο × Env σ) α) (s : Observed ο × Env (Journaled σ)) :
    (reached (run x s)).2.journal = s.2.journal := by
  unfold run
  cases x (bare s) <;> rfl

section

variable [Sink σ ς]

theorem bare_write (fuel : Nat) (bytes : Bytes) (s : Observed ς × Env (Journaled σ)) :
    (Sink.write fuel bytes : Transfer σ ς Nat) (bare s) = mapState bare (Sink.write fuel bytes s) := by
  refine (bare_run (Sink.write fuel bytes) s).trans ?_
  show _ = mapState bare (match run (Sink.write fuel bytes) s with
    | .ok n t => EStateM.Result.ok n (t.1, t.2.enter (.took n))
    | .error e t => .error e t)
  cases run (Sink.write fuel bytes : Transfer σ ς Nat) s <;> rfl

/-- By induction on the rounds. -/
theorem bare_writeAllLoop (fuel : Nat) : ∀ (rounds : Nat) (bytes : Bytes)
    (s : Observed ς × Env (Journaled σ)),
    (Sink.writeAllLoop fuel rounds bytes : Transfer σ ς Unit) (bare s) =
      mapState bare (Sink.writeAllLoop fuel rounds bytes s)
  | 0, [], s => rfl
  | 0, b :: bs, s => rfl
  | rounds + 1, [], s => rfl
  | rounds + 1, b :: bs, s => by
    simp only [Sink.writeAllLoop, bare_write]
    cases (Sink.write fuel (b :: bs) : Transfer (Journaled σ) (Observed ς) Nat) s with
    | ok n t =>
      cases n with
      | zero => rfl
      | succ n => exact bare_writeAllLoop fuel rounds _ t
    | error e t =>
      simp only [mapState]
      split
      · exact bare_writeAllLoop fuel rounds _ t
      · rfl

theorem journal_write (fuel : Nat) (bytes : Bytes) (s : Observed ς × Env (Journaled σ)) :
    Meets (fun n t => t.2.journal = .took n :: s.2.journal) (fun _ t => t.2.journal = s.2.journal)
      ((Sink.write fuel bytes : Transfer (Journaled σ) (Observed ς) Nat) s) := by
  have hrun := journal_run (Sink.write fuel bytes : Transfer σ ς Nat) s
  show Meets _ _ (match run (Sink.write fuel bytes) s with
    | .ok n t => EStateM.Result.ok n (t.1, t.2.enter (.took n))
    | .error e t => .error e t)
  cases hs : run (Sink.write fuel bytes : Transfer σ ς Nat) s with
  | ok n t =>
    rw [hs] at hrun
    exact congrArg (Journal.Entry.took n :: ·) hrun
  | error e t =>
    rw [hs] at hrun
    exact hrun

/-- A sink that does not get all of the bytes has taken fewer. By induction on the rounds. -/
theorem journal_writeAllLoop (fuel : Nat) : ∀ (rounds : Nat) (bytes : Bytes)
    (s : Observed ς × Env (Journaled σ)),
    Meets (fun _ t => ∃ total, s.2.journal.Takes total t.2.journal)
      (fun _ t => ∃ total < bytes.length, s.2.journal.Takes total t.2.journal)
      ((Sink.writeAllLoop fuel rounds bytes : Transfer (Journaled σ) (Observed ς) Unit) s)
  | 0, [], s => ⟨0, .nothing⟩
  | 0, b :: bs, s => ⟨0, Nat.zero_lt_succ _, .nothing⟩
  | rounds + 1, [], s => ⟨0, .nothing⟩
  | rounds + 1, b :: bs, s => by
    have hwrite := journal_write fuel (b :: bs) s
    simp only [Sink.writeAllLoop]
    cases hs : (Sink.write fuel (b :: bs) : Transfer (Journaled σ) (Observed ς) Nat) s with
    | ok n t =>
      rw [hs] at hwrite
      have ht : t.2.journal = .took n :: s.2.journal := hwrite
      cases n with
      | zero => exact ⟨0, Nat.zero_lt_succ _, ht ▸ .more 0 .nothing⟩
      | succ n =>
        have hrest := journal_writeAllLoop fuel rounds ((b :: bs).drop (n + 1)) t
        rw [ht] at hrest
        refine hrest.mono ?_ ?_
        · rintro _ u ⟨total, hu⟩
          exact ⟨_, hu.first⟩
        · rintro _ u ⟨total, hlt, hu⟩
          rw [List.length_drop] at hlt
          exact ⟨_, by omega, hu.first⟩
    | error e t =>
      rw [hs] at hwrite
      have ht : t.2.journal = s.2.journal := hwrite
      simp only
      split
      · rw [← ht]
        exact journal_writeAllLoop fuel rounds (b :: bs) t
      · exact ⟨0, Nat.zero_lt_succ _, ht ▸ .nothing⟩

end

end Observed

/-! ## What happens to an adapter -/

/-- A request to an adapter, or what it shares is changed elsewhere. -/
inductive Happening (ω σ : Type)
  | request (request : ω)
  | elsewhere (env : Env σ)

end SealedStream
