import SealedStream.Proofs.Stream.Account

/-!
# Reading in tandem

Two readers with sessions and over sources of any types, in worlds of their own, read side by side. A reader starts its
session, takes blocks of its source through it, and keeps account of how far it is; if the two do each
of these alike, all their reads, skips and queries are alike (`Tandem.use`). How the two are related is
left to who uses this: with a reader beside itself, as long as something is so of it, the lemmas say
what every use keeps (`keeps_use`).
-/

namespace SealedStream.CipherReader

variable {σ τ κ κ' ρ ρ' : Type}

/-! ## Pulling a block -/

section

variable [Session κ σ] [Source σ ρ] {fuel : Nat}

/-- Takes the next block through the session, and says whether there was none. -/
def pull (fuel : Nat) : Pull σ κ ρ (Bytes × Bool) := do
  let block ← readBlock fuel
  if block.isEmpty then return (← finish, true)
  else return (← onSession (Session.update block), false)

theorem blockRefill_eq_pull : (blockRefill fuel : Pull σ κ ρ Refill) = (do
    let (out, last) ← pull fuel
    if last then setLastOutput out else setOutput out) := by
  funext s
  simp only [blockRefill, pull, run_bind]
  cases (readBlock fuel : Pull σ κ ρ Bytes) s with
  | error e t => rfl
  | ok block t =>
    by_cases hb : block.isEmpty = true
    · simp only [if_pos hb, run_bind]
      cases (finish : Pull σ κ ρ Bytes) t <;> rfl
    · simp only [if_neg hb, run_bind]
      cases (onSession (Session.update block) : Pull σ κ ρ Bytes) t <;> rfl

theorem assembleHeader_succ_eq_pull (rounds : Nat) (out : Bytes) :
    (assembleHeader fuel (rounds + 1) out : Pull σ κ ρ Bytes) = (do
      let (r, _) ← get
      if Session.isReady r.session then return out
      checkAbort
      let (more, last) ← pull fuel
      if last then return out ++ more
      assembleHeader fuel rounds (out ++ more)) := by
  funext s
  simp only [assembleHeader, pull, run_bind, run_get, run_ite]
  split
  · rfl
  · cases (checkAbort : Pull σ κ ρ Unit) s with
    | error e t => rfl
    | ok _ t =>
      simp only
      cases (readBlock fuel : Pull σ κ ρ Bytes) t with
      | error e u => rfl
      | ok block u =>
        by_cases hb : block.isEmpty = true
        · simp only [if_pos hb]
          cases (finish : Pull σ κ ρ Bytes) u <;> rfl
        · simp only [if_neg hb]
          cases (onSession (Session.update block) : Pull σ κ ρ Bytes) u <;> rfl

end

/-! ## Accounts -/

/-- What a reader keeps account of. -/
structure Notes where
  output : Bytes
  eof : Bool
  started : Bool
  accessed : Bool
  failed : Option Error

def notes (r : CipherReader κ ρ) : Notes := ⟨r.output, r.eof, r.started, r.accessed, r.failed⟩

/-- The reader with another account. -/
def noting (n : Notes) (r : CipherReader κ ρ) : CipherReader κ ρ :=
  { r with
    output := n.output, eof := n.eof, started := n.started, accessed := n.accessed
    failed := n.failed }

/-- What a reader may note on its own: neither an end nor a failure, and not that it was never
accessed. -/
structure Notes.May (n m : Notes) : Prop where
  eof : m.eof = n.eof
  failed : m.failed = n.failed
  accessed : n.accessed = true → m.accessed = true

/-- What two readers agree in that do the same, whatever they read from. -/
structure Same [Session κ σ] [Session κ' τ] (s : State σ κ ρ) (t : State τ κ' ρ') : Prop where
  check : t.1.abort.check t.2 = s.1.abort.check s.2
  mode : Session.mode t.1.session = Session.mode s.1.session
  isReady : Session.isReady t.1.session = Session.isReady s.1.session
  notes : t.1.notes = s.1.notes

theorem Same.verdict [Session κ σ] [Session κ' τ] {s : State σ κ ρ} {t : State τ κ' ρ'}
    (h : Same s t) :
    verdict t = verdict s := by
  have hfailed : t.1.failed = s.1.failed := congrArg Notes.failed h.notes
  have heof : t.1.eof = s.1.eof := congrArg Notes.eof h.notes
  simp only [CipherReader.verdict, h.check, hfailed, heof]

/-- Readers in the relation `R` agree in what they do next, and what their sessions and sources do
keeps them in it, or cuts the first reader short with what `C` allows for. -/
structure Tandem [Session κ σ] [Session κ' τ] [Source σ ρ] [Source τ ρ'] (fuel : Nat)
    (R : State σ κ ρ → State τ κ' ρ' → Prop) (C : Error → State σ κ ρ → Prop) : Prop where
  same : ∀ {s t}, R s t → Same s t
  noting : ∀ {s t}, R s t → ∀ n : Notes, s.1.notes.May n → R (s.1.noting n, s.2) (t.1.noting n, t.2)
  start : Alike R C (onSession Session.start) (onSession Session.start)
  pull : Alike R C (pull fuel) (pull fuel)

/-- The reader was cut short, and has stored the error if it is one to store. -/
def Stored (C : Error → State σ κ ρ → Prop) (e : Error) (s : State σ κ ρ) : Prop :=
  ∃ t, C e t ∧ s = (poison e t.1, t.2)

namespace Tandem

variable [Session κ σ] [Session κ' τ] [Source σ ρ] [Source τ ρ'] {fuel : Nat}
  {R : State σ κ ρ → State τ κ' ρ' → Prop} {C D : Error → State σ κ ρ → Prop}
  {s : State σ κ ρ} {t : State τ κ' ρ'}

/-- Readers may be taken apart: if what they note makes no difference, it is enough that their
sessions and their blocks are alike. -/
theorem of_parts (same : ∀ {s t}, R s t → Same s t)
    (noting : ∀ {s t}, R s t → ∀ n : Notes, R (s.1.noting n, s.2) (t.1.noting n, t.2))
    (session : ∀ call : Session.Call, Alike R C (onSession call.run) (onSession call.run))
    (block : Alike R C (readBlock fuel) (readBlock fuel)) : Tandem fuel R C where
  same := same
  noting h n _ := noting h n
  start := session .start
  pull := by
    refine .bind block fun bytes => .ite _ ?_ ?_
    · refine .bind (.bind (session .finalize) fun tail => .bind (.modify ?_) fun _ => .pure tail)
        fun _ => .pure _
      intro s t hst
      have hnotes : t.1.notes = s.1.notes := (same hst).notes
      have h := noting hst { s.1.notes with eof := true }
      have ht : t.1.noting { s.1.notes with eof := true } = { t.1 with eof := true } := by
        rw [← hnotes]
        rfl
      rwa [ht] at h
    · exact .bind (session (.update bytes)) fun _ => .pure _

section

variable (h : Tandem fuel R C)

include h

/-- Readers that note the same stay side by side. -/
theorem note (f : Notes → Notes) (hf : ∀ n, Notes.May n (f n))
    (g : CipherReader κ ρ → CipherReader κ ρ) (g' : CipherReader κ' ρ' → CipherReader κ' ρ')
    (hg : ∀ r, g r = r.noting (f r.notes)) (hg' : ∀ r, g' r = r.noting (f r.notes))
    (hst : R s t) : R (g s.1, s.2) (g' t.1, t.2) := by
  rw [hg, hg', (h.same hst).notes]
  exact h.noting hst _ (hf _)

theorem update (f : Notes → Notes) (hf : ∀ n, Notes.May n (f n))
    {g : CipherReader κ ρ → CipherReader κ ρ} {g' : CipherReader κ' ρ' → CipherReader κ' ρ'}
    (hg : ∀ r, g r = r.noting (f r.notes)) (hg' : ∀ r, g' r = r.noting (f r.notes)) :
    Alike R D (CipherReader.update g) (CipherReader.update g') :=
  .modify fun _ _ hst => h.note f hf g g' hg hg' hst

theorem checkAbort : Alike R D CipherReader.checkAbort CipherReader.checkAbort := by
  refine .get_bind ?_
  rintro ⟨r, env⟩ ⟨r', env'⟩ hst
  have hcheck : r'.abort.check env' = r.abort.check env := (h.same hst).check
  show Paired R D (check (r.abort.check env) _) (check (r'.abort.check env') _)
  rw [hcheck]
  exact Alike.check _ _ _ hst

theorem checkUsable : Alike R D CipherReader.checkUsable CipherReader.checkUsable := by
  intro s t hst
  rw [run_checkUsable, run_checkUsable, (h.same hst).verdict]
  cases verdict s with
  | going => exact .ok () hst
  | ended => exact .ok () hst
  | failed e => exact .error e hst

/-! ## Refills -/

theorem setOutput (bytes : Bytes) :
    Alike R D (CipherReader.setOutput bytes) (CipherReader.setOutput bytes) := by
  refine .bind ?_ fun _ => .pure _
  exact h.update (fun n => { n with output := bytes }) (fun _ => ⟨rfl, rfl, id⟩) (fun _ => rfl)
    fun _ => rfl

theorem setLastOutput (bytes : Bytes) :
    Alike R D (CipherReader.setLastOutput bytes) (CipherReader.setLastOutput bytes) := by
  refine .bind (h.setOutput bytes) fun refill => ?_
  cases refill <;> exact .pure _

/-- By induction on the rounds. -/
theorem assembleHeader : ∀ (rounds : Nat) (out : Bytes),
    Alike R C (CipherReader.assembleHeader fuel rounds out)
      (CipherReader.assembleHeader fuel rounds out)
  | 0, out => by
    refine .get_bind ?_
    rintro ⟨r, env⟩ ⟨r', env'⟩ hst
    have hready : Session.isReady r'.session = Session.isReady r.session := (h.same hst).isReady
    simp only [hready]
    exact Alike.ite _ (.pure out) (.throw _) _ _ hst
  | rounds + 1, out => by
    rw [assembleHeader_succ_eq_pull, assembleHeader_succ_eq_pull]
    refine .get_bind ?_
    rintro ⟨r, env⟩ ⟨r', env'⟩ hst
    have hready : Session.isReady r'.session = Session.isReady r.session := (h.same hst).isReady
    simp only [hready]
    refine Alike.ite _ (.pure out) ?_ _ _ hst
    refine .bind h.checkAbort fun _ => .bind h.pull fun p => .ite _ (.pure _) ?_
    exact assembleHeader rounds _

theorem blockRefill :
    Alike R C (CipherReader.blockRefill fuel) (CipherReader.blockRefill fuel) := by
  rw [blockRefill_eq_pull, blockRefill_eq_pull]
  exact .bind h.pull fun p => .ite _ (h.setLastOutput p.1) (h.setOutput p.1)

theorem firstRefill :
    Alike R C (CipherReader.firstRefill fuel) (CipherReader.firstRefill fuel) := by
  refine .bind ?_ fun _ => .bind h.start fun header => .get_bind ?_
  · exact h.update (fun n => { n with started := true }) (fun _ => ⟨rfl, rfl, id⟩) (fun _ => rfl)
      fun _ => rfl
  · rintro ⟨r, env⟩ ⟨r', env'⟩ hst
    have hmode : Session.mode r'.session = Session.mode r.session := (h.same hst).mode
    simp only [hmode]
    refine Alike.ite _ (h.setOutput header) (.ite _ ?_ h.blockRefill) _ _ hst
    refine .bind (h.assembleHeader fuel []) fun plain => .get_bind ?_
    rintro ⟨r, env⟩ ⟨r', env'⟩ hst
    have heof : r'.eof = r.eof := congrArg Notes.eof (h.same hst).notes
    simp only [heof]
    exact Alike.ite _ (h.setLastOutput plain) (h.setOutput plain) _ _ hst

theorem refill : Alike R C (CipherReader.refill fuel) (CipherReader.refill fuel) := by
  refine .bind h.checkAbort fun _ => .get_bind ?_
  rintro ⟨r, env⟩ ⟨r', env'⟩ hst
  have heof : r'.eof = r.eof := congrArg Notes.eof (h.same hst).notes
  have hstarted : r'.started = r.started := congrArg Notes.started (h.same hst).notes
  simp only [heof, hstarted]
  exact Alike.ite _ (.pure _) (.ite _ h.blockRefill h.firstRefill) _ _ hst

theorem refillLoop : ∀ left : Nat,
    Alike R C (CipherReader.refillLoop fuel left) (CipherReader.refillLoop fuel left)
  | 0 => by
    refine .bind h.refill fun refill => ?_
    cases refill with
    | data => exact .pure _
    | done => exact .pure _
    | empty => exact .throw _
  | left + 1 => by
    refine .bind h.refill fun refill => ?_
    cases refill with
    | data => exact .pure _
    | done => exact .pure _
    | empty => exact refillLoop left

/-! ## Uses -/

theorem fill : Alike R C (CipherReader.fill fuel) (CipherReader.fill fuel) := by
  refine .get_bind ?_
  rintro ⟨r, env⟩ ⟨r', env'⟩ hst
  have houtput : r'.output = r.output := congrArg Notes.output (h.same hst).notes
  simp only [houtput]
  exact Alike.ite _ (h.refillLoop _) (.pure _) _ _ hst

theorem skip (n : Nat) : Alike R D (CipherReader.skip n) (CipherReader.skip n) := by
  refine .bind h.checkUsable fun _ => .get_bind ?_
  rintro ⟨r, env⟩ ⟨r', env'⟩ hst
  have houtput : r'.output = r.output := congrArg Notes.output (h.same hst).notes
  simp only [houtput]
  refine Alike.bind ?_ (fun _ => .pure _) _ _ hst
  exact h.update (fun m => { m with accessed := true, output := m.output.drop n })
    (fun _ => ⟨rfl, rfl, fun _ => rfl⟩) (fun _ => rfl) fun _ => rfl

theorem available : Alike R D CipherReader.available CipherReader.available := by
  refine .bind h.checkUsable fun _ => .get_bind ?_
  rintro ⟨r, env⟩ ⟨r', env'⟩ hst
  have houtput : r'.output = r.output := congrArg Notes.output (h.same hst).notes
  simp only [houtput]
  exact .ok _ hst

variable (hpoison : ∀ {s t} (e : Error), R s t → R (poison e s.1, s.2) (poison e t.1, t.2))

include hpoison

theorem readFilled (n : Nat) :
    Alike R (Stored C) (CipherReader.readFilled fuel n) (CipherReader.readFilled fuel n) := by
  intro s t hst
  have hfill := h.fill s t hst
  unfold CipherReader.readFilled
  generalize CipherReader.fill fuel s = p, CipherReader.fill fuel t = q at hfill
  cases hfill with
  | @ok more u v huv =>
    cases more with
    | false => exact .ok [] huv
    | true =>
      obtain ⟨r, env⟩ := u
      obtain ⟨r', env'⟩ := v
      have houtput : r'.output = r.output := congrArg Notes.output (h.same huv).notes
      simp only [houtput]
      exact .ok _ (h.note (fun m => { m with output := r.output.drop n }) (fun _ => ⟨rfl, rfl, id⟩)
        (fun r' => { r' with output := r.output.drop n })
        (fun r' => { r' with output := r.output.drop n }) (fun _ => rfl) (fun _ => rfl) huv)
  | error e huv => exact .error e (hpoison e huv)
  | @cut e u res hu => exact .cut _ ⟨u, hu, rfl⟩

theorem readBytes (n : Nat) :
    Alike R (Stored C) (CipherReader.readBytes fuel n) (CipherReader.readBytes fuel n) := by
  refine .bind h.checkUsable fun _ => .bind ?_ fun _ => .ite _ (.pure _) (h.readFilled hpoison n)
  exact h.update (fun n => { n with accessed := true }) (fun _ => ⟨rfl, rfl, fun _ => rfl⟩)
    (fun _ => rfl) fun _ => rfl

/-- **Readers in tandem are used alike.** -/
theorem use : ∀ use : Use, Alike R (Stored C) (use.run fuel) (use.run fuel)
  | .read n => .bind (h.readBytes hpoison n) fun _ => .pure _
  | .skip n => .bind (h.skip n) fun _ => .pure _
  | .available => .bind h.available fun _ => .pure _

end

end Tandem

/-! ## One reader -/

section

variable [Session κ σ] [Source σ ρ] {fuel : Nat} {I : State σ κ ρ → Prop}
  {C : Error → State σ κ ρ → Prop}

omit [Session κ σ] [Source σ ρ] in
/-- A transfer on the source changes nothing else of the reader. -/
theorem keeps_onInner {α : Type} {x : Transfer σ ρ α}
    (h : ∀ s, I s → I ({ s.1 with inner := (reached (x (s.1.inner, s.2))).1 },
      (reached (x (s.1.inner, s.2))).2)) :
    Keeps I (onInner x : Pull σ κ ρ α) := by
  rintro ⟨r, env⟩ hs
  have h' := h (r, env) hs
  rw [run_onInner]
  cases hx : x (r.inner, env) with
  | ok a t =>
    rw [hx] at h'
    exact h'
  | error e t =>
    rw [hx] at h'
    exact h'

omit [Session κ σ] in
/-- Nor does taking a block. -/
theorem keeps_readBlock
    (h : ∀ n, Keeps I (onInner (Source.read fuel n : Transfer σ ρ Bytes) : Pull σ κ ρ Bytes)) :
    Keeps I (readBlock fuel : Pull σ κ ρ Bytes) :=
  .bind .get fun (r, _) => .bind (h r.blockSize) fun _ =>
    .bind (.bind .get fun _ => .check _) fun _ => .pure _

omit [Session κ σ] [Source σ ρ] in
/-- A step of the session changes nothing but the session and the world. -/
theorem keeps_onSession {x : Step (κ × σ) Bytes}
    (h : ∀ s, I s → I ({ s.1 with session := (reached (x (s.1.session, s.2.world))).1 },
      { s.2 with world := (reached (x (s.1.session, s.2.world))).2 })) :
    Keeps I (onSession x : Pull σ κ ρ Bytes) := by
  rintro ⟨r, env⟩ hs
  have h' := h (r, env) hs
  rw [run_onSession]
  cases hx : x (r.session, env.world) with
  | ok a t =>
    rw [hx] at h'
    exact h'
  | error e t =>
    rw [hx] at h'
    exact h'

/-- A reader beside itself, as long as `I` is so of it. -/
def Itself (I : State σ κ ρ → Prop) (s t : State σ κ ρ) : Prop := t = s ∧ I s

omit [Source σ ρ] in
theorem Itself.same {s t : State σ κ ρ} (h : Itself I s t) : Same s t := by
  obtain ⟨rfl, -⟩ := h
  exact ⟨rfl, rfl, rfl, rfl⟩

/-- **What pulling a block keeps every use keeps**, if it does not depend on what a reader notes on
its own, and is so of a reader that has stored what cut it short. -/
theorem keeps_use (h : Tandem fuel (Itself I) C)
    (hpoison : ∀ {s} (e : Error), I s → I (poison e s.1, s.2))
    (hstored : ∀ {s} (e : Error), C e s → I (poison e s.1, s.2)) (use : Use) :
    Keeps I (use.run fuel) := by
  refine Alike.keeps (h.use ?_ use) ?_
  · rintro _ s e ⟨rfl, hs⟩
    exact ⟨rfl, hpoison e hs⟩
  · rintro e _ ⟨t, ht, rfl⟩
    exact hstored e ht

/-- A reader that was accessed stays so while it reads, and what it has stored stays until it stores
something else. -/
theorem tandem_notes {P : Bool → Option Error → Prop}
    (hP : ∀ {failed}, P false failed → P true failed) :
    Tandem fuel (Itself fun s : State σ κ ρ => P s.1.accessed s.1.failed) fun _ _ => False where
  same := Itself.same
  noting := by
    rintro _ s ⟨rfl, hs⟩ n hn
    refine ⟨rfl, ?_⟩
    show P n.accessed n.failed
    rw [hn.failed]
    have hs : P s.1.accessed s.1.notes.failed := hs
    cases ha : s.1.accessed with
    | true =>
      rw [ha] at hs
      rwa [hn.accessed ha]
    | false =>
      rw [ha] at hs
      cases n.accessed with
      | true => exact hP hs
      | false => exact hs
  start := .of_keeps (keeps_onSession fun _ hs => hs)
  pull := by
    refine .of_keeps (.bind (keeps_readBlock fun n => keeps_onInner fun _ hs => hs) fun block => ?_)
    refine .ite _ (.bind (.bind (keeps_onSession fun _ hs => hs) fun _ => ?_) fun _ => .pure _) ?_
    · exact .bind (.modify fun _ hs => hs) fun _ => .pure _
    · exact .bind (keeps_onSession fun _ hs => hs) fun _ => .pure _

/-- What neither a call of the session nor a block changes, whatever the reader notes, no use
changes. -/
theorem keeps_use_of_parts (hnoting : ∀ {s}, I s → ∀ n : Notes, I (s.1.noting n, s.2))
    (hsession : ∀ call : Session.Call, Keeps I (onSession call.run))
    (hblock : Keeps I (readBlock fuel)) (use : Use) : Keeps I (use.run fuel) := by
  have h : Tandem fuel (Itself I) fun _ _ => False := by
    refine .of_parts Itself.same ?_ (fun call => .of_keeps (hsession call)) (.of_keeps hblock)
    rintro _ s ⟨rfl, hs⟩ n
    exact ⟨rfl, hnoting hs n⟩
  refine keeps_use h ?_ (fun _ h => h.elim) use
  intro s e hs
  unfold poison
  split
  · exact hs
  · exact hnoting hs { s.1.notes with failed := some e.recorded }

end

end SealedStream.CipherReader
