import SealedStream.Proofs.Session.HeaderFirst

/-!
# Dispatchers and the sessions that they select

A dispatcher is the session that it selects, behind the four bytes of an id, whatever kind of
session this is. Encrypting, it starts the session with the first call that is not `finalize`, and
the id comes before all that the session gives. Decrypting, it hands on what follows the id: first
what is left of the piece in which the id ended, then every later call as it comes.
`Dispatcher.runs_as_selected` says so of every series of calls, up to its first failure.
-/

namespace SealedStream

variable {σ κ : Type}

namespace Dispatcher

open Session

/-- The dispatcher `d` does by the calls `outer` what the session `k` does by the calls `inner`,
behind `head`: if either succeeds then both do, and `d` has selected `k` under `id` and holds it in
the state that it reached, in the same world. -/
def RunsAs [Session κ σ] (d : Dispatcher σ κ) (id : UInt32) (k : κ) (w : σ) (head : Bytes)
    (outer inner : List Call) : Prop :=
  ∀ out t, inTurn Call.run outer (d, w) = .ok out t ↔
    ∃ out' t', inTurn Call.run inner (k, w) = .ok out' t' ∧ out = head ++ out' ∧
      t = d.choosing id t'

/-- The id `requested` leads to the sessions of `make`, which are bound to `id`: to itself, or to
the default type if `requested` is not bound. -/
def LeadsTo (d : Dispatcher σ κ) (requested id : UInt32) (make : SessionContext σ → κ) : Prop :=
  (d.registry.get? requested = some make ∧ id = requested) ∨
    (d.registry.get? requested = none ∧ d.defaultType = some id ∧ d.registry.get? id = some make)

/-- The dispatcher `d` that has gathered the bytes `b`, which are too few for an id. -/
def gathering (d : Dispatcher σ κ) (b : Bytes) : Dispatcher σ κ := { d with phase := .selecting b }

variable {d : Dispatcher σ κ} {requested id : UInt32} {k : κ} {make : SessionContext σ → κ}

theorem select_of_get? {fallback : Option UInt32} (h : d.registry.get? id = some make) :
    d.select id fallback = .ok (id, make d.context) := by
  simp only [select, h]

theorem select_of_leadsTo (h : d.LeadsTo requested id make) :
    d.select requested d.defaultType = .ok (id, make d.context) := by
  rcases h with ⟨hmake, rfl⟩ | ⟨hnone, hdefault, hmake⟩
  · exact select_of_get? hmake
  · simp only [select, hnone, hdefault, Option.bind_some, hmake, Option.map_some]

variable [Session κ σ] {w : σ} {b piece : Bytes}

/-- From the selection on, all calls are those of the session. -/
theorem inTurn_choosing (calls : List Call) (t : κ × σ) {out : Bytes} {u : Dispatcher σ κ × σ} :
    inTurn Call.run calls (d.choosing id t) = .ok out u ↔
      ∃ u', inTurn Call.run calls t = .ok out u' ∧ u = d.choosing id u' := by
  rw [inTurn_map (run_choosing d id), mapState_eq_ok]

omit [Session κ σ] in
theorem choosing_eq_ok (head : Bytes) {out : Bytes} {r : EStateM.Result Error (κ × σ) Bytes}
    {lost : κ × σ → Dispatcher σ κ × σ} {t : Dispatcher σ κ × σ} :
    ((match r with
      | .ok o u => .ok (head ++ o) (d.choosing id u)
      | .error e u => .error e (lost u) :
        EStateM.Result Error (Dispatcher σ κ × σ) Bytes) = .ok out t) ↔
      ∃ out' t', r = .ok out' t' ∧ out = head ++ out' ∧ t = d.choosing id t' := by
  cases r with
  | error e u => simp
  | ok o u =>
    constructor
    · intro h
      cases h
      exact ⟨o, u, rfl, rfl, rfl⟩
    · rintro ⟨out', t', h, rfl, rfl⟩
      cases h
      rfl

/-- A first call that succeeds just if `first` does, and selects the session then, leaves all others
to the session. -/
theorem runsAs_of_first {head : Bytes} {outer : Call} {first : List Call}
    (h : ∀ out t, outer.run (d, w) = .ok out t ↔
      ∃ out' t', inTurn Call.run first (k, w) = .ok out' t' ∧ out = head ++ out' ∧
        t = d.choosing id t') (calls : List Call) :
    d.RunsAs id k w head (outer :: calls) (first ++ calls) := by
  intro out u
  rw [inTurn_cons_eq_ok]
  constructor
  · rintro ⟨o, t, rest, ho, hrest, rfl⟩
    obtain ⟨out', t', hfirst, rfl, rfl⟩ := (h o t).mp ho
    obtain ⟨u', hrest', rfl⟩ := (inTurn_choosing calls t').mp hrest
    exact ⟨out' ++ rest, u', inTurn_append_eq_ok.mpr ⟨out', t', rest, hfirst, hrest', rfl⟩,
      List.append_assoc _ _ _, rfl⟩
  · rintro ⟨out', u', hinner, rfl, rfl⟩
    obtain ⟨o, t, rest, hfirst, hrest, rfl⟩ := inTurn_append_eq_ok.mp hinner
    exact ⟨head ++ o, d.choosing id t, rest, (h _ _).mpr ⟨o, t, hfirst, rfl, rfl⟩,
      (inTurn_choosing calls t).mpr ⟨u', hrest, rfl⟩, (List.append_assoc _ _ _).symm⟩

/-! ## Encrypting -/

/-- The calls that the session takes of those of an encrypting dispatcher: all from the first that
is not `finalize`, begun with `start`. -/
def begun : List Call → List Call
  | [] => []
  | .finalize :: calls => begun calls
  | .start :: calls => .start :: calls
  | .update input :: calls => .start :: .update input :: calls

section

variable (hm : d.context.mode = .encrypt) (hp : d.phase = .selecting b)

include hm hp

theorem run_start (hs : d.select d.encryptType none = .ok (id, k)) (w : σ) :
    Call.start.run (d, w) = match Call.start.run (k, w) with
      | .ok o u => .ok (Bytes.be32 id ++ o) (d.choosing id u)
      | .error e u => .error e (d, u.2) :=
  (start_beginEncrypt hm hp w).trans (beginEncrypt_known hs w)

theorem run_update (hs : d.select d.encryptType none = .ok (id, k)) (input : Bytes) (w : σ) :
    (Call.update input).run (d, w) = match Call.start.run (k, w) with
      | .ok head u => match (Call.update input).run (d.choosing id u) with
        | .ok o v => .ok (Bytes.be32 id ++ head ++ o) v
        | .error e v => .error e v
      | .error e u => .error e (d, u.2) :=
  update_beginEncrypt hm hp hs input w

/-- The first update starts the session before it feeds it. -/
theorem inTurn_update (hs : d.select d.encryptType none = .ok (id, k)) (input : Bytes)
    (calls : List Call) (w : σ) (out : Bytes) (t : Dispatcher σ κ × σ) :
    inTurn Call.run (.update input :: calls) (d, w) = .ok out t ↔
      inTurn Call.run (.start :: .update input :: calls) (d, w) = .ok out t := by
  simp only [inTurn, run_bind, run_start hm hp hs, run_update hm hp hs]
  cases Call.start.run (k, w) with
  | error e u => rfl
  | ok head u =>
    simp only []
    cases (Call.update input).run (d.choosing id u) with
    | error e v => rfl
    | ok o v =>
      simp only [run_pure]
      cases inTurn Call.run calls v with
      | error e x => rfl
      | ok rest x => simp only [List.append_assoc]

/-- By induction on the calls before the first that starts the session: there is nothing to finalize
yet. -/
theorem runsAs_encrypt (hs : d.select d.encryptType none = .ok (id, k)) (w : σ)
    (calls : List Call) :
    (begun calls = [] → inTurn Call.run calls (d, w) = .ok [] (d, w)) ∧
      (begun calls ≠ [] → d.RunsAs id k w (Bytes.be32 id) calls (begun calls)) := by
  have hstarted (calls : List Call) :
      d.RunsAs id k w (Bytes.be32 id) (.start :: calls) ([.start] ++ calls) :=
    runsAs_of_first (fun out t => by rw [run_start hm hp hs, inTurn_single, choosing_eq_ok]) calls
  induction calls with
  | nil => exact ⟨fun _ => rfl, fun h => absurd rfl h⟩
  | cons call calls ih =>
    cases call with
    | start => exact ⟨fun h => absurd h (List.cons_ne_nil _ _), fun _ => hstarted calls⟩
    | update input =>
      refine ⟨fun h => absurd h (List.cons_ne_nil _ _), fun _ out t => ?_⟩
      exact (inTurn_update hm hp hs input calls w out t).trans (hstarted _ out t)
    | finalize =>
      have hfinalize : Call.finalize.run (d, w) = .ok [] (d, w) := finalize_fresh hm hp w
      have hfirst := inTurn_cons_silent hfinalize calls
      refine ⟨fun h => hfirst.trans (ih.1 h), fun h out t => ?_⟩
      rw [hfirst]
      exact ih.2 h out t

end

/-! ## Decrypting -/

/-- Where `n` bytes are complete among those that are fed: the calls before, the piece that
completes them, and the calls behind it. -/
theorem exists_completing {n : Nat} {calls : List Call} {b : Bytes} (hlt : b.length < n)
    (hle : n ≤ (b ++ fed calls).length) : ∃ before piece after,
      calls = before ++ .update piece :: after ∧ (b ++ fed before).length < n ∧
        n ≤ (b ++ fed before ++ piece).length := by
  induction calls generalizing b with
  | nil =>
    rw [fed, List.append_nil] at hle
    omega
  | cons call calls ih =>
    have hskip (call : Call) (hcall : ∀ calls, fed (call :: calls) = fed calls)
        (hle : n ≤ (b ++ fed calls).length) : ∃ before piece after,
          call :: calls = before ++ .update piece :: after ∧ (b ++ fed before).length < n ∧
            n ≤ (b ++ fed before ++ piece).length := by
      obtain ⟨before, piece, after, hcalls, h⟩ := ih hlt hle
      refine ⟨call :: before, piece, after, by rw [hcalls]; rfl, ?_⟩
      rwa [hcall]
    cases call with
    | start => exact hskip .start (fun _ => rfl) hle
    | finalize => exact hskip .finalize (fun _ => rfl) hle
    | update input =>
      by_cases hshort : (b ++ input).length < n
      · rw [fed, ← List.append_assoc] at hle
        obtain ⟨before, piece, after, hcalls, h⟩ := ih hshort hle
        refine ⟨.update input :: before, piece, after, by rw [hcalls]; rfl, ?_⟩
        rwa [fed, ← List.append_assoc]
      · refine ⟨[], input, calls, rfl, ?_⟩
        rw [fed, List.append_nil]
        exact ⟨hlt, Nat.le_of_not_lt hshort⟩

section

variable (hm : d.context.mode = .decrypt)

include hm

/-- Until the id is there the bytes are gathered, and finalizing fails. -/
theorem inTurn_gathering {calls : List Call} (hlen : (b ++ fed calls).length < idLen)
    {out : Bytes} {t : Dispatcher σ κ × σ} :
    inTurn Call.run calls (d.gathering b, w) = .ok out t ↔
      .finalize ∉ calls ∧ out = [] ∧ t = (d.gathering (b ++ fed calls), w) := by
  induction calls generalizing b with
  | nil => simp [inTurn, run_pure, fed, eq_comm]
  | cons call calls ih =>
    cases call with
    | start =>
      have hstart : Call.start.run (d.gathering b, w) = _ :=
        start_selecting (d := d.gathering b) hm rfl
      rw [inTurn_cons_silent hstart, ih hlen]
      simp [fed]
    | update input =>
      rw [fed, ← List.append_assoc] at hlen
      have hshort : Bytes.be32? (b ++ input) = none := by
        rw [Bytes.be32?_eq_none_iff]
        rw [List.length_append, idLen] at hlen
        omega
      have hupdate : (Call.update input).run (d.gathering b, w) =
          .ok [] (d.gathering (b ++ input), w) :=
        (update_selecting (d := d.gathering b) hm rfl).trans (feedId_short hshort)
      rw [inTurn_cons_silent hupdate, ih hlen]
      simp [fed]
    | finalize =>
      have hfinalize : Call.finalize.run (d.gathering b, w) = _ :=
        finalize_selecting (d := d.gathering b) hm rfl
      simp [inTurn_cons_eq_ok, hfinalize]

omit hm in
/-- What completes the id starts the session and feeds it what is left. -/
theorem feedId_completing {left : Bytes} (hall : b ++ piece = Bytes.be32 requested ++ left)
    (hs : d.select requested d.defaultType = .ok (id, k)) :
    feedId b piece (d, w) = match inTurn Call.run (.start :: Call.feeding left) (k, w) with
      | .ok out t => .ok out (d.choosing id t)
      | .error e t => .error e (d.gathering (Bytes.be32 requested), t.2) := by
  have hi : Bytes.be32? (b ++ piece) = some requested := by rw [hall, Bytes.be32?_be32_append]
  have htake : (b ++ piece).take idLen = Bytes.be32 requested := by rw [hall]; rfl
  have hdrop : (b ++ piece).drop idLen = left := by rw [hall]; rfl
  simp only [feedId, setPhase, run_bind, run_get, run_modify, hi, run_check, hs, htake, hdrop,
    run_onWorld, run_runOn, inTurn, Call.run, Call.feeding]
  cases (Session.start : Step (κ × σ) Bytes) (k, w) with
  | error e t => rfl
  | ok out t =>
    by_cases hleft : left.isEmpty
    · simp only [if_pos hleft, inTurn, run_ite, run_pure, run_bind, run_modify, List.append_nil]
      rfl
    · simp only [if_neg hleft, inTurn, run_pure, run_bind, run_modify, run_onWorld, run_runOn,
        Call.run]
      cases Session.update left t with
      | error e u => rfl
      | ok more u => simp only [List.append_nil]; rfl

section

variable {before after : List Call} {left : Bytes} (hp : d.phase = .selecting [])
  (hlen : (fed before).length < idLen)

include hp hlen

theorem inTurn_before {out : Bytes} {t : Dispatcher σ κ × σ} :
    inTurn Call.run before (d, w) = .ok out t ↔
      .finalize ∉ before ∧ out = [] ∧ t = (d.gathering (fed before), w) := by
  have h : inTurn Call.run before (d.gathering [], w) = .ok out t ↔ _ := inTurn_gathering hm hlen
  rwa [gathering, ← hp] at h

theorem runsAs_decrypt (hall : fed before ++ piece = Bytes.be32 requested ++ left)
    (hs : d.select requested d.defaultType = .ok (id, k)) (hmem : .finalize ∉ before) (w : σ) :
    d.RunsAs id k w [] (before ++ .update piece :: after)
      (.start :: (Call.feeding left ++ after)) := by
  intro out t
  rw [inTurn_append_eq_ok]
  have hupdate : (Call.update piece).run (d.gathering (fed before), w) = _ :=
    (update_selecting (d := d.gathering (fed before)) hm rfl).trans
      (feedId_completing (d := d.gathering (fed before)) hall hs)
  have hruns : (d.gathering (fed before)).RunsAs id k w [] (.update piece :: after)
      ((.start :: Call.feeding left) ++ after) :=
    runsAs_of_first (fun out t => by rw [hupdate]; exact choosing_eq_ok []) after
  -- what went before only gathered, so the run is that of the piece and what is behind it
  refine Iff.trans ?_ (hruns out t)
  constructor
  · rintro ⟨o, u, rest, hbefore, hrest, rfl⟩
    obtain ⟨-, rfl, rfl⟩ := (inTurn_before hm hp hlen).mp hbefore
    exact hrest
  · intro hrest
    exact ⟨[], _, out, (inTurn_before hm hp hlen).mpr ⟨hmem, rfl, rfl⟩, hrest, rfl⟩

end

end

/-- **A dispatcher is the session that it selects, behind an id.** For whatever sessions its
registry makes, encrypting, it does from the first `start` or `update` on what the session for its
type does that is started once, with the id in front, and gives nothing before. Decrypting bytes
that begin with an id, it does what the session does that this id leads to, started, fed what is
left of the piece in which the id ended, and called as the dispatcher is behind this piece; before
it the dispatcher gives nothing, and fails just if it is finalized. From the selection on all that
can be seen of it is the session's, and its builder's version reaches no session. -/
theorem runs_as_selected (hp : d.phase = .selecting []) (w : σ) :
    (d.context.mode = .encrypt → ∀ make, d.registry.get? d.encryptType = some make → ∀ calls,
      (begun calls = [] → inTurn Call.run calls (d, w) = .ok [] (d, w)) ∧
      (begun calls ≠ [] → d.RunsAs d.encryptType (make d.context) w (Bytes.be32 d.encryptType)
        calls (begun calls))) ∧
    (d.context.mode = .decrypt → ∀ requested id make, d.LeadsTo requested id make →
      ∀ calls rest, fed calls = Bytes.be32 requested ++ rest →
      ∃ before piece left after, calls = before ++ .update piece :: after ∧
        (fed before).length < idLen ∧ fed before ++ piece = Bytes.be32 requested ++ left ∧
        (∀ out t, inTurn Call.run before (d, w) = .ok out t ↔ .finalize ∉ before ∧ out = [] ∧
          t = (d.gathering (fed before), w)) ∧
        (.finalize ∉ before → d.RunsAs id (make d.context) w [] calls
          (.start :: (Call.feeding left ++ after)))) ∧
    (∀ b, Session.version (d.gathering b) = none ∧ Session.isReady (d.gathering b) = false) ∧
    (∀ id (s : κ × σ), Session.version (d.choosing id s).1 = Session.version s.1 ∧
      Session.isReady (d.choosing id s).1 = Session.isReady s.1 ∧
      ∀ call : Call, call.run (d.choosing id s) = mapState (d.choosing id) (call.run s)) ∧
    ∀ (builder : CipherBuilder σ) (v : Option UInt32) (mode : Mode) (registry : Registry σ κ)
      (encryptType : UInt32) (defaultType : Option UInt32),
      { builder with version := v }.dispatcher mode registry encryptType defaultType =
        builder.dispatcher mode registry encryptType defaultType := by
  refine ⟨fun hm make hmake calls => ?_, fun hm requested id make hleads calls rest hfed => ?_,
    fun b => ⟨rfl, rfl⟩, fun id s => ⟨rfl, rfl, fun call => run_choosing d id call s⟩,
    fun _ _ _ _ _ _ => rfl⟩
  · exact runsAs_encrypt hm hp (select_of_get? hmake) w calls
  · have hid : idLen ≤ ([] ++ fed calls).length := by
      rw [List.nil_append, hfed, List.length_append]
      exact Nat.le_add_right _ _
    obtain ⟨before, piece, after, rfl, hlen, hle⟩ := exists_completing (by decide) hid
    rw [List.nil_append] at hlen hle
    -- the id is a beginning of all that was fed, and so of what is there when it is complete
    obtain ⟨left, hleft⟩ : Bytes.be32 requested <+: fed before ++ piece := by
      refine List.prefix_of_prefix_length_le ⟨rest, hfed.symm⟩ ?_ hle
      rw [fed_append, fed, ← List.append_assoc]
      exact ⟨fed after, rfl⟩
    refine ⟨before, piece, left, after, rfl, hlen, hleft.symm,
      fun out t => inTurn_before hm hp hlen, fun hmem => ?_⟩
    exact runsAs_decrypt hm hp hlen hleft.symm (select_of_leadsTo hleads) hmem w

section

open Scripted

/-- A dispatcher that reads streams of one family, under whatever id. -/
def holdReader : Dispatcher World (FamilySession World HoldCipher) where
  context := ⟨.decrypt, identityWrap 0, randomSource 0, true, true⟩
  registry := holdDispatcher.registry.register 5 fun c => c.familySession (holdFamily 0 1 7 4 4 [])
  encryptType := 5
  defaultType := some 5

/-- A stream that is finalized before it is begun by an update, and one that comes under an id that
is not bound and is cut within it. -/
theorem runs_as_selected_hold :
    holdDispatcher.RunsAs 5 holdSession (holdWorld []) (Bytes.be32 5)
      [.finalize, .update [1], .start] [.start, .update [1], .start] ∧
    given (inTurn Call.run [.finalize, .update [1], .start] (holdDispatcher, holdWorld [])) =
      Bytes.be32 5 ++ Header.encode ⟨7, [1, 1, 1, 1], [2, 2, 2, 2]⟩ ++ [3] ∧
    (∃ inner, holdReader.RunsAs 5 (holdReader.context.familySession (holdFamily 0 1 7 4 4 []))
      (holdWorld []) [] [.start, .update [0, 0, 0], .update [9, 0, 0], .update [0, 7]] inner) ∧
    outcome (inTurn Call.run [.update [0, 0, 0], .finalize] (holdReader, holdWorld [])) =
      .error (.truncatedHeader 3) := by
  refine ⟨?_, by decide, ?_, rfl⟩
  · have hmake : holdDispatcher.registry.get? holdDispatcher.encryptType =
        some fun _ => holdSession := rfl
    exact ((runs_as_selected rfl (holdWorld [])).1 rfl _ hmake [.finalize, .update [1], .start]).2
      (List.cons_ne_nil _ _)
  · have hleads : holdReader.LeadsTo 9 5 fun c => c.familySession (holdFamily 0 1 7 4 4 []) :=
      .inr ⟨by decide, rfl, rfl⟩
    obtain ⟨before, piece, left, after, hcalls, -, -, -, hruns⟩ :=
      (runs_as_selected (d := holdReader) rfl (holdWorld [])).2.1 rfl _ _ _ hleads
        [.start, .update [0, 0, 0], .update [9, 0, 0], .update [0, 7]] [0, 0, 0, 7] (by decide)
    refine ⟨_, hruns fun hmem => ?_⟩
    have hall : Call.finalize ∈ [.start, .update [0, 0, 0], .update [9, 0, 0], .update [0, 7]] := by
      rw [hcalls]
      exact List.mem_append_left _ hmem
    exact absurd hall (by decide)

end

end Dispatcher

end SealedStream
