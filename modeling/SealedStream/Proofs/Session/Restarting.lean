import SealedStream.Proofs.Session.Quiet

/-!
# Starting over

A session keeps its settings whatever it is fed and whatever fails, and `restart` keeps nothing else:
from wherever its calls have led, it is again what it was before the first of them
(`Session.Returns`). So it is for the sessions of one family and for dispatchers, over any
collaborators.
-/

namespace SealedStream

variable {σ κ γ : Type}

/-- `Away` are the states that the session `k` gets to by its calls: no call leaves them, and from
each the session starts over as `k`. -/
structure Session.Returns [Session κ σ] (Away : κ → Prop) (k : κ) : Prop where
  fresh : Away k
  keeps : ∀ {k'}, Away k' → ∀ (call : Session.Call) (w : σ), Away (reached (call.run (k', w))).1
  restart : ∀ {k'}, Away k' → Session.restart k' = k

/-- A session of one family that has taken nothing. -/
theorem FamilySession.returns [ContentCipher σ γ] {s : FamilySession σ γ}
    (hp : s.phase = .awaiting []) :
    Session.Returns (fun t : FamilySession σ γ => ∃ p, t = { s with phase := p }) s where
  fresh := ⟨s.phase, rfl⟩
  keeps := by
    rintro t ⟨p, rfl⟩ call w
    obtain ⟨q, hq⟩ := FamilySession.moved_run { s with phase := p } call w
    exact ⟨q, hq⟩
  restart := by
    rintro _ ⟨p, rfl⟩
    cases s
    cases hp
    rfl

/-! ## Dispatchers -/

namespace Dispatcher

/-- The dispatcher is `d`, in whatever phase. -/
def InPhase (d : Dispatcher σ κ) (t : Dispatcher σ κ × σ) : Prop :=
  ∃ p, t.1 = { d with phase := p }

variable {d : Dispatcher σ κ}

theorem inPhase_setPhase (p : DispatchPhase κ) : Keeps (InPhase d) (setPhase p) := by
  refine .modify ?_
  rintro ⟨t, w⟩ ⟨q, rfl⟩
  exact ⟨p, rfl⟩

theorem inPhase_onWorld {α : Type} (x : Step σ α) :
    Keeps (InPhase d) (onWorld x : Step (Dispatcher σ κ × σ) α) := by
  unfold onWorld
  refine .zoom ?_ x
  intro w t ht
  exact ht

variable [Session κ σ]

omit [Session κ σ] in
theorem inPhase_onInner (x : Step (κ × σ) Bytes) (id : UInt32) (inner : κ) :
    Keeps (InPhase d) (onInner x id inner) := by
  refine .zoom ?_ x
  rintro u ⟨t, w⟩ ⟨q, rfl⟩
  exact ⟨_, rfl⟩

theorem inPhase_beginEncrypt : Keeps (InPhase d) (beginEncrypt : Step (Dispatcher σ κ × σ) Bytes) :=
  .bind .get fun _ => .bind (.check _) fun _ => .bind (inPhase_onWorld _) fun _ =>
    .bind (inPhase_setPhase _) fun _ => .pure _

theorem inPhase_feedId (buffered input : Bytes) :
    Keeps (InPhase d) (feedId buffered input : Step (Dispatcher σ κ × σ) Bytes) := by
  refine .bind .get fun t => .bind (inPhase_setPhase _) fun _ => ?_
  cases Bytes.be32? (buffered ++ input) with
  | none => exact .pure _
  | some requested =>
    refine .bind (inPhase_setPhase _) fun _ => .bind (.check _) fun _ =>
      .bind (inPhase_onWorld _) fun _ => .ite _ ?_ ?_
    · exact .bind (inPhase_setPhase _) fun _ => .pure _
    · exact .bind (inPhase_onWorld _) fun _ => .bind (inPhase_setPhase _) fun _ => .pure _

theorem inPhase_start : Keeps (InPhase d) (start : Step (Dispatcher σ κ × σ) Bytes) := by
  refine .bind .get fun (t, _) => ?_
  dsimp only
  split
  · exact inPhase_onInner _ _ _
  · exact inPhase_beginEncrypt
  · exact .pure _

theorem inPhase_update (input : Bytes) :
    Keeps (InPhase d) (update input : Step (Dispatcher σ κ × σ) Bytes) := by
  refine .bind .get fun (t, _) => ?_
  dsimp only
  split
  · exact inPhase_onInner _ _ _
  · exact inPhase_feedId _ _
  · refine .bind inPhase_beginEncrypt fun _ => .bind .get fun (t, _) => ?_
    dsimp only
    split
    · exact .bind (inPhase_onInner _ _ _) fun _ => .pure _
    · exact .pure _

theorem inPhase_finalize : Keeps (InPhase d) (finalize : Step (Dispatcher σ κ × σ) Bytes) := by
  refine .bind .get fun (t, _) => ?_
  dsimp only
  split
  · exact inPhase_onInner _ _ _
  · exact .pure _
  · exact .throw _

/-- A dispatcher that has taken nothing, whatever sessions it chooses from. -/
theorem returns (hp : d.phase = .selecting []) :
    Session.Returns (fun t : Dispatcher σ κ => ∃ p, t = { d with phase := p }) d where
  fresh := ⟨d.phase, rfl⟩
  keeps := by
    rintro t ⟨p, rfl⟩ call w
    have h : InPhase d (({ d with phase := p } : Dispatcher σ κ), w) := ⟨p, rfl⟩
    cases call with
    | start => exact inPhase_start _ h
    | update input => exact inPhase_update input _ h
    | finalize => exact inPhase_finalize _ h
  restart := by
    rintro _ ⟨p, rfl⟩
    cases d
    cases hp
    rfl

end Dispatcher

end SealedStream
