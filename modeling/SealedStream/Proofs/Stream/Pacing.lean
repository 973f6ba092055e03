import SealedStream.Proofs.Session.FailStop
import SealedStream.Proofs.Session.Gathering
import SealedStream.Proofs.Session.Restarting
import SealedStream.Proofs.Stream.Metering
import SealedStream.Proofs.Stream.Patience

/-!
# The pace of a reader

However a source that never fails cuts its bytes, and however long it goes on, a reader that decrypts
has its header assembled after so many blocks as the longest header has bytes, or knows that it will
not get it (`assembly_ends`). From then on every read takes one block at most, unless a dispatcher has
lost the beginning of a header and gathers another one (`CipherReader.not_assembly_ends`).
`CipherReader.Running` says how many reads of its source a reader has made in the course of a read; what
follows of it are the steps of a reader, one after the other.
-/

namespace SealedStream

variable {σ κ ρ : Type}

/-- Sources that do not fail when they are read, whatever else is asked of them. -/
structure Source.Unfailing [Source σ ρ] [Seekable σ ρ] [Abortable σ ρ] (fuel : Nat)
    (Live : ρ → Prop) : Prop where
  read : ∀ n : Nat, Ensures (fun s : ρ × Env σ => Live s.1) (fun _ s => Live s.1) (fun _ _ => False)
    (Source.read fuel n)
  position : Keeps (fun s : ρ × Env σ => Live s.1) (Seekable.position : Transfer σ ρ Nat)
  seek : ∀ p : Nat, Keeps (fun s : ρ × Env σ => Live s.1) (Seekable.seek p : Transfer σ ρ Unit)
  abort : ∀ s : ρ × Env σ, Live s.1 → Live (Abortable.abort s).1

namespace CipherReader

/-! ## Where a reader is in the course of a read -/

section

variable (Live : ρ → Prop) (firm : Prop) (Yields : κ → Prop)

/-- The reader was started and nothing has failed. It has had `b` blocks of its source at most, by `c`
reads at most. -/
structure Running (b c : Nat) (s : State σ κ (Metered ρ)) : Prop where
  live : Live s.1.inner.it
  started : s.1.started = true
  failed : s.1.failed = none
  blocks : s.1.inner.blocks ≤ b
  reads : s.1.inner.reads ≤ c

/-- It can go on, with its session as `Q` says. -/
def Underway (Q : κ → Prop) (b c : Nat) (s : State σ κ (Metered ρ)) : Prop :=
  Running Live b c s ∧ s.1.eof = false ∧ Q s.1.session

/-- It has come to its end, or the next block gives something. -/
def Rested (b c : Nat) (s : State σ κ (Metered ρ)) : Prop :=
  Running Live b c s ∧ (s.1.eof = true ∨ Yields s.1.session)

/-- Nothing was asked of its session, which is `k₀`, nor of its source. -/
structure Unstarted (k₀ : κ) (s : State σ κ (Metered ρ)) : Prop where
  live : Live s.1.inner.it
  started : s.1.started = false
  eof : s.1.eof = false
  usable : Usable s
  session : s.1.session = k₀
  blocks : s.1.inner.blocks = 0
  reads : s.1.inner.reads = 0

/-- A call of the session has just failed with `e`. -/
def Refused [Session κ σ] (e : Error) (s : State σ κ ρ) : Prop :=
  ∃ (call : Session.Call) (u : κ × σ), call.run u = .error e (s.1.session, s.2.world)

/-- It was aborted, or the session has failed. -/
def Broken [Session κ σ] (b c : Nat) (e : Error) (s : State σ κ (Metered ρ)) : Prop :=
  Running Live b c s ∧ (e = .aborted ∧ s.1.abort.isAborted s.2 = true ∨ Refused e s) ∧
    (firm → e.isIo = true → Yields s.1.session)

variable {Live firm Yields} {Q : κ → Prop} {b b' c c' fuel : Nat} {s : State σ κ (Metered ρ)}

theorem Running.mono (h : Running Live b c s) (hb : b ≤ b') (hc : c ≤ c') : Running Live b' c' s :=
  ⟨h.live, h.started, h.failed, Nat.le_trans h.blocks hb, Nat.le_trans h.reads hc⟩

theorem Rested.mono (h : Rested Live Yields b c s) (hb : b ≤ b') (hc : c ≤ c') :
    Rested Live Yields b' c' s :=
  ⟨h.1.mono hb hc, h.2⟩

theorem Broken.mono [Session κ σ] {e : Error} (h : Broken Live firm Yields b c e s) (hb : b ≤ b')
    (hc : c ≤ c') : Broken Live firm Yields b' c' e s :=
  ⟨h.1.mono hb hc, h.2⟩

/-! ## One step after the other -/

theorem paced_checkAbort [Session κ σ] {I : State σ κ (Metered ρ) → Prop}
    (hI : ∀ s, I s → Running Live b c s) :
    Ensures I (fun _ => I) (Broken Live firm Yields b c) (checkAbort : Pull σ κ (Metered ρ) Unit) := by
  refine .get_bind fun s hs => ?_
  obtain ⟨r, env⟩ := s
  simp only [run_check, AbortHandle.check]
  cases ha : r.abort.isAborted env with
  | false => exact hs
  | true => exact ⟨hI _ hs, .inl ⟨rfl, ha⟩, fun _ hio => absurd hio Bool.false_ne_true⟩

/-- A call of the session. -/
theorem paced_onSession [Session κ σ] (call : Session.Call) {P : Bytes → κ → Prop}
    (h : ∀ k, Q k → ∀ w : σ, Meets (fun out t => P out t.1)
      (fun e t => firm → e.isIo = true → Yields t.1) (call.run (k, w))) :
    Ensures (Underway Live Q b c) (fun out => Underway Live (P out) b c)
      (Broken Live firm Yields b c) (onSession call.run : Pull σ κ (Metered ρ) Bytes) := by
  rintro ⟨r, env⟩ ⟨hr, heof, hQ⟩
  have hcall := h r.session hQ env.world
  rw [run_onSession]
  cases hrun : (call.run : Step (κ × σ) Bytes) (r.session, env.world) with
  | ok out t =>
    rw [hrun] at hcall
    exact ⟨{ hr with }, heof, hcall⟩
  | error e t =>
    rw [hrun] at hcall
    exact ⟨{ hr with }, .inr ⟨call, _, hrun⟩, hcall⟩

/-- Makes the end. -/
theorem paced_finish [Session κ σ]
    (h : ∀ k, Q k → ∀ w : σ, Meets (fun _ _ => True)
      (fun e t => firm → e.isIo = true → Yields t.1) (Session.finalize (k, w))) :
    Ensures (Underway Live Q b c) (fun _ s => Running Live b c s ∧ s.1.eof = true)
      (Broken Live firm Yields b c) (finish : Pull σ κ (Metered ρ) Bytes) := by
  refine .bind (paced_onSession .finalize (P := fun _ _ => True) h) fun tail =>
    .bind (.modify (J := fun _ s => Running Live b c s ∧ s.1.eof = true) ?_) fun _ => .pure fun _ h => h
  rintro ⟨r, env⟩ ⟨hr, -⟩
  exact ⟨{ hr with }, rfl⟩

theorem paced_setOutput (bytes : Bytes) {B : Error → State σ κ (Metered ρ) → Prop} :
    Ensures (Rested Live Yields b c)
      (fun refill s => Rested Live Yields b c s ∧ (refill = .empty ↔ bytes = [])) B
      (setOutput bytes) := by
  rintro ⟨r, env⟩ ⟨hr, hrest⟩
  rw [run_setOutput]
  refine ⟨⟨{ hr with }, hrest⟩, ?_⟩
  cases bytes <;> simp

theorem paced_setLastOutput (bytes : Bytes) {B : Error → State σ κ (Metered ρ) → Prop} :
    Ensures (Rested Live Yields b c) (fun refill s => Rested Live Yields b c s ∧ refill ≠ .empty) B
      (setLastOutput bytes) := by
  refine .bind (paced_setOutput bytes) fun refill => ?_
  cases refill with
  | data => exact .pure fun _ h => ⟨h.1, nofun⟩
  | empty => exact .pure fun _ h => ⟨h.1, nofun⟩
  | done => exact .pure fun _ h => ⟨h.1, nofun⟩

/-! ## Blocks -/

section

variable [Session κ σ] [Source σ ρ]
  (hread : ∀ n : Nat, Ensures (fun s : ρ × Env σ => Live s.1) (fun _ s => Live s.1)
    (fun _ _ => False) (Source.read fuel n))

include hread

theorem paced_readBlock :
    Ensures (Underway Live Q b c)
      (fun block => Underway Live Q (if block.isEmpty then b else b + 1) (c + 1))
      (Broken Live firm Yields (b + 1) (c + 1)) (readBlock fuel : Pull σ κ (Metered ρ) Bytes) := by
  rintro ⟨r, env⟩ ⟨hr, heof, hQ⟩
  have hblock := hread r.blockSize (r.inner.it, env) hr.live
  rw [run_readBlock]
  simp only [Source.read]
  cases hrun : (Source.read fuel r.blockSize : Transfer σ ρ Bytes) (r.inner.it, env) with
  | error e t =>
    rw [hrun] at hblock
    exact hblock.elim
  | ok block t =>
    rw [hrun] at hblock
    have hblocks := hr.blocks
    have hreads := Nat.succ_le_succ hr.reads
    simp only [AbortHandle.check]
    cases ha : r.abort.isAborted t.2 with
    | false =>
      refine ⟨⟨hblock, hr.started, hr.failed, ?_, hreads⟩, heof, hQ⟩
      simp only
      split
      · exact hblocks
      · exact Nat.succ_le_succ hblocks
    | true =>
      refine ⟨⟨hblock, hr.started, hr.failed, ?_, hreads⟩, .inl ⟨rfl, ha⟩,
        fun _ hio => absurd hio Bool.false_ne_true⟩
      simp only
      split
      · exact Nat.le_succ_of_le hblocks
      · exact Nat.succ_le_succ hblocks

/-- One read, and the block goes to the session; none is the end. -/
theorem paced_pull {P : Bytes → Bytes → κ → Prop}
    (hupdate : ∀ k, Q k → ∀ block, block ≠ [] → ∀ w : σ, Meets (fun out t => P block out t.1)
      (fun e t => firm → e.isIo = true → Yields t.1) (Session.update block (k, w)))
    (hfinalize : ∀ k, Q k → ∀ w : σ, Meets (fun _ _ => True)
      (fun e t => firm → e.isIo = true → Yields t.1) (Session.finalize (k, w))) :
    Ensures (Underway Live Q b c)
      (fun p s => if p.2 = true then Running Live b (c + 1) s ∧ s.1.eof = true
        else ∃ block, block ≠ [] ∧ Underway Live (P block p.1) (b + 1) (c + 1) s)
      (Broken Live firm Yields (b + 1) (c + 1))
      (pull fuel : Pull σ κ (Metered ρ) (Bytes × Bool)) := by
  refine .bind (paced_readBlock hread) fun block => .ite _ (fun hempty => ?_) fun hblock => ?_
  · rw [if_pos hempty]
    refine .bind ((paced_finish hfinalize).mono (fun _ h => h) (fun _ _ h => h) fun _ _ h => ?_)
      fun _ => .pure fun _ h => ?_
    · exact h.mono (Nat.le_succ b) (Nat.le_refl _)
    · rwa [if_pos rfl]
  · rw [if_neg hblock]
    have hne : block ≠ [] := fun hnil => hblock (List.isEmpty_iff.mpr hnil)
    refine .bind (paced_onSession (.update block) (P := P block) fun k hk => hupdate k hk block hne)
      fun out => .pure fun _ h => ?_
    rw [if_neg Bool.false_ne_true]
    exact ⟨block, hne, h⟩

end

end

/-! ## A reader over a session that gathers -/

section

variable [Session κ σ] [Source σ ρ] {Live : ρ → Prop} {firm : Prop} {limit fuel : Nat}
  {Awaits : Nat → κ → Prop} {Yields : κ → Prop} {k₀ : κ} {b c n : Nat}
  (hread : ∀ n : Nat, Ensures (fun s : ρ × Env σ => Live s.1) (fun _ s => Live s.1)
    (fun _ _ => False) (Source.read fuel n))
  (h : Session.Gathers (σ := σ) limit firm Awaits Yields)

/-- The header is behind. -/
def Assembled (Yields : κ → Prop) (k : κ) : Prop := Session.isReady k = true ∧ Yields k

include hread h

/-- **Assembling a header ends.** By induction on the rounds; there are no more blocks than gathered
bytes, and these are too few for the rounds to run out. -/
theorem paced_assembleHeader : ∀ (rounds : Nat) (out : Bytes),
    Ensures
      (fun s => Underway Live (Assembled Yields) limit limit s ∨
        ∃ m b, Underway Live (Awaits m) b b s ∧ b ≤ m ∧ limit ≤ m + rounds)
      (fun _ s => Underway Live (Assembled Yields) limit limit s ∨
        Running Live limit (limit + 1) s ∧ s.1.eof = true)
      (Broken Live firm Yields limit (limit + 1))
      (assembleHeader fuel rounds out : Pull σ κ (Metered ρ) Bytes)
  | 0, out => by
    rintro s (hs | ⟨m, b, hs, -, hrounds⟩)
    · simp only [assembleHeader, run_bind, run_get, run_ite, hs.2.2.1, if_true]
      exact .inl hs
    · have hm := h.lt hs.2.2
      omega
  | rounds + 1, out => by
    rw [assembleHeader_succ_eq_pull]
    rintro s (hs | ⟨m, b, hs, hb, hrounds⟩)
    · simp only [run_bind, run_get, run_ite, hs.2.2.1, if_true]
      exact .inl hs
    · have hm := h.lt hs.2.2
      have hbroken : ∀ (e : Error) s, Broken Live firm Yields (b + 1) (b + 1) e s →
          Broken Live firm Yields limit (limit + 1) e s :=
        fun _ _ h => h.mono (by omega) (by omega)
      rw [run_bind, run_get]
      simp only [h.isReady hs.2.2, Bool.false_eq_true, if_false]
      have hpull := paced_pull (b := b) (c := b) hread
        (P := fun block _ k => Assembled Yields k ∨ Awaits (m + block.length) k)
        (fun k hk block hne w => h.gather hk hne w)
        fun k hk w => h.finalize (.inl ⟨m, hk⟩) w
      refine Ensures.bind (J := fun _ => Underway Live (Awaits m) b b) ?_ (fun _ =>
        .bind (hpull.mono (fun _ h => h) (fun _ _ h => h) hbroken) fun p => .ite _ ?_ ?_) s hs
      · exact (paced_checkAbort fun _ h => h.1).mono (fun _ h => h) (fun _ _ h => h)
          fun e s h => hbroken e s (h.mono (Nat.le_succ b) (Nat.le_succ b))
      · refine fun hlast => .pure fun t ht => ?_
        rw [if_pos hlast] at ht
        exact .inr ⟨ht.1.mono (by omega) (by omega), ht.2⟩
      · refine fun hlast => (paced_assembleHeader rounds _).mono (fun t ht => ?_) (fun _ _ h => h)
          fun _ _ h => h
        rw [if_neg hlast] at ht
        obtain ⟨block, hne, hr, heof, hready | hawaits⟩ := ht
        · exact .inl ⟨hr.mono (by omega) (by omega), heof, hready⟩
        · have hpos := List.length_pos_iff.mpr hne
          exact .inr ⟨m + block.length, b + 1, ⟨hr, heof, hawaits⟩, by omega, by omega⟩

/-- Where the session yields, a refill takes one block and is not empty. -/
theorem paced_blockRefill :
    Ensures (Underway Live Yields b c)
      (fun refill s => Rested Live Yields (b + 1) (c + 1) s ∧ refill ≠ .empty)
      (Broken Live firm Yields (b + 1) (c + 1))
      (blockRefill fuel : Pull σ κ (Metered ρ) Refill) := by
  rw [blockRefill_eq_pull]
  have hpull := paced_pull (b := b) (c := c) hread (P := fun _ out k => out ≠ [] ∧ Yields k)
    (fun k hk block hne w => h.yield hk hne w) fun k hk w => h.finalize (.inr hk) w
  refine .bind hpull fun p => .ite _ (fun hlast => ?_) fun hlast => ?_
  · refine (paced_setLastOutput p.1).mono (fun s hs => ?_) (fun _ _ h => h) fun _ _ h => h
    rw [if_pos hlast] at hs
    exact ⟨hs.1.mono (Nat.le_succ b) (Nat.le_refl _), .inl hs.2⟩
  · rintro s hs
    rw [if_neg hlast] at hs
    obtain ⟨block, -, hr, heof, hout, hyields⟩ := hs
    refine (paced_setOutput p.1 s ⟨hr, .inr hyields⟩).mono (fun refill t ht => ⟨ht.1, ?_⟩) fun _ _ h => h
    exact fun hempty => hout (ht.2.mp hempty)

/-- A refill of a reader that was started takes one block at most, and is not empty. -/
theorem paced_refill :
    Ensures (Rested Live Yields b c)
      (fun refill s => Rested Live Yields (b + 1) (c + 1) s ∧ refill ≠ .empty)
      (Broken Live firm Yields (b + 1) (c + 1))
      (refill fuel : Pull σ κ (Metered ρ) Refill) := by
  refine .bind (J := fun _ => Rested Live Yields b c) ?_ fun _ => .get_bind fun s hs => ?_
  · exact (paced_checkAbort fun _ h => h.1).mono (fun _ h => h) (fun _ _ h => h)
      fun _ _ h => h.mono (Nat.le_succ b) (Nat.le_succ c)
  · have hstarted := hs.1.started
    simp only [run_ite, hstarted, if_true]
    split
    · rename_i heof
      exact ⟨⟨hs.1.mono (Nat.le_succ b) (Nat.le_succ c), .inl heof⟩, nofun⟩
    · rename_i heof
      exact paced_blockRefill hread h s
        ⟨hs.1, Bool.eq_false_iff.mpr heof, hs.2.resolve_left heof⟩

theorem paced_refillLoop (left : Nat) :
    Ensures (Rested Live Yields b c) (fun _ => Rested Live Yields (b + 1) (c + 1))
      (Broken Live firm Yields (b + 1) (c + 1))
      (refillLoop fuel left : Pull σ κ (Metered ρ) Bool) := by
  cases left <;>
  · refine .bind (paced_refill hread h) fun refill => ?_
    cases refill with
    | data => exact .pure fun _ hs => hs.1
    | done => exact .pure fun _ hs => hs.1
    | empty => exact fun _ hs => absurd rfl hs.2

end

/-! ## The first read -/

section

variable [Session κ σ] [Source σ ρ] {Live : ρ → Prop} {firm : Prop} {limit fuel : Nat}
  {Awaits : Nat → κ → Prop} {Yields : κ → Prop} {k₀ : κ}
  (hread : ∀ n : Nat, Ensures (fun s : ρ × Env σ => Live s.1) (fun _ s => Live s.1)
    (fun _ _ => False) (Source.read fuel n))
  (h : Session.GathersFrom (σ := σ) limit firm Awaits Yields k₀) (hfuel : limit ≤ fuel)

include hread h hfuel

/-- The header that the session starts with comes out, or it is assembled from the source. -/
theorem paced_firstRefill :
    Ensures (Unstarted Live k₀)
      (fun refill s => Rested Live Yields limit (limit + 1) s ∧
        (refill = .empty → Rested Live Yields limit limit s))
      (Broken Live firm Yields limit (limit + 1))
      (firstRefill fuel : Pull σ κ (Metered ρ) Refill) := by
  have hheader : Ensures (Underway Live (· = k₀) 0 0)
      (fun out => Underway Live (fun k => out ≠ [] ∧ Yields k ∨
        out = [] ∧ Session.mode k = .decrypt ∧ Awaits 0 k) 0 0)
      (Broken Live firm Yields 0 0) (onSession Session.start : Pull σ κ (Metered ρ) Bytes) :=
    paced_onSession .start fun k hk w => by rw [hk]; exact h.start w
  refine .bind (.modify (J := fun _ => Underway Live (· = k₀) 0 0) fun s hs => ?_) fun _ =>
    .bind (hheader.mono (fun _ h => h) (fun _ _ h => h) fun _ _ h => ?_) fun header =>
      .get_bind fun s hs => ?_
  · exact ⟨⟨hs.live, rfl, hs.usable.failed, Nat.le_of_eq hs.blocks, Nat.le_of_eq hs.reads⟩, hs.eof,
      hs.session⟩
  · exact h.mono (Nat.zero_le _) (Nat.zero_le _)
  · obtain ⟨hr, heof, ⟨hne, hyields⟩ | ⟨hnil, hmode, hawaits⟩⟩ := hs
    · have hempty : header.isEmpty = false := by simpa using hne
      simp only [hempty, Bool.not_false, if_true]
      refine (paced_setOutput header s ⟨hr, .inr hyields⟩).mono (fun refill t ht =>
        ⟨ht.1.mono (Nat.zero_le _) (Nat.zero_le _), fun hrefill => ?_⟩) fun _ _ h => h
      exact absurd (ht.2.mp hrefill) hne
    · have hempty : (!header.isEmpty) = false := by simp [hnil]
      simp only [hempty, hmode, Bool.false_eq_true, if_false, if_true]
      refine Ensures.bind ((paced_assembleHeader hread h.gathers fuel []).mono (fun _ h => h)
        (fun _ _ h => h) fun _ _ h => h) (fun plain => .get_bind fun t ht => ?_) s
        (.inr ⟨0, 0, ⟨hr, heof, hawaits⟩, Nat.le_refl 0, by omega⟩)
      rcases ht with ⟨hr, heof, -, hyields⟩ | ⟨hr, heof⟩
      · simp only [heof, Bool.false_eq_true, if_false]
        exact (paced_setOutput plain t ⟨hr, .inr hyields⟩).mono
          (fun refill t ht => ⟨ht.1.mono (Nat.le_refl _) (Nat.le_succ _), fun _ => ht.1⟩) fun _ _ h => h
      · simp only [heof, if_true]
        exact (paced_setLastOutput plain t ⟨hr, .inl heof⟩).mono
          (fun refill t ht => ⟨ht.1, fun hrefill => absurd hrefill ht.2⟩) fun _ _ h => h

/-- After the first refill one more may be needed: the header was behind with the last of its bytes. -/
theorem paced_firstRefillLoop (left : Nat) :
    Ensures (Unstarted Live k₀) (fun _ => Rested Live Yields (limit + 1) (limit + 1))
      (Broken Live firm Yields (limit + 1) (limit + 1))
      (refillLoop fuel (left + 1) : Pull σ κ (Metered ρ) Bool) := by
  refine .bind (J := fun refill s => Rested Live Yields limit (limit + 1) s ∧
    (refill = .empty → Rested Live Yields limit limit s)) (fun s hs => ?_) fun refill => ?_
  · have hfirst := paced_firstRefill hread h hfuel s hs
    obtain ⟨r, env⟩ := s
    have habort : r.abort.check env = .ok () := hs.usable.abort
    have hstarted : r.started = false := hs.started
    have heof : r.eof = false := hs.eof
    simp only [refill, checkAbort, run_bind, run_get, run_check, habort, hstarted, heof,
      Bool.false_eq_true, if_false]
    exact hfirst.mono (fun _ _ h => h) fun _ _ h => h.mono (Nat.le_succ _) (Nat.le_refl _)
  · cases refill with
    | data => exact .pure fun _ hs => hs.1.mono (Nat.le_succ _) (Nat.le_refl _)
    | done => exact .pure fun _ hs => hs.1.mono (Nat.le_succ _) (Nat.le_refl _)
    | empty =>
      exact (paced_refillLoop hread h.gathers left).mono (fun _ hs => hs.2 rfl) (fun _ _ h => h)
        fun _ _ h => h

end

/-! ## One read after the other -/

/-- A reader that is read from time to time: unless it has failed, it was not started yet, or it is at
rest. -/
structure Paced (Live : ρ → Prop) (Yields : κ → Prop) (k₀ : κ) (s : State σ κ ρ) : Prop where
  live : Live s.1.inner
  tidy : s.1.Tidy
  unstarted : s.1.failed = none → s.1.started = false → s.1.eof = false ∧ s.1.session = k₀
  rested : s.1.failed = none → s.1.started = true → s.1.eof = true ∨ Yields s.1.session

/-- So many reads of its source does a read of a reader take. -/
def pace (limit : Nat) (s : State σ κ ρ) : Nat := if s.1.started then 1 else limit + 1

section

variable [Session κ σ] [Source σ ρ] {Live : ρ → Prop} {firm : Prop} {limit fuel : Nat}
  {Awaits : Nat → κ → Prop} {Yields : κ → Prop} {k₀ : κ} {s : State σ κ ρ}
  (hread : ∀ n : Nat, Ensures (fun s : ρ × Env σ => Live s.1) (fun _ s => Live s.1)
    (fun _ _ => False) (Source.read fuel n))
  (h : Session.GathersFrom (σ := σ) limit firm Awaits Yields k₀) (hfuel : limit ≤ fuel)

omit [Session κ σ] [Source σ ρ] in
theorem Paced.of_fresh (hi : Live s.1.inner) (hfailed : s.1.failed = none)
    (hstarted : s.1.started = false) (heof : s.1.eof = false) (hsession : s.1.session = k₀) :
    Paced Live Yields k₀ s where
  live := hi
  tidy e he := absurd (he.symm.trans hfailed) (Option.some_ne_none e)
  unstarted _ _ := ⟨heof, hsession⟩
  rested _ hst := absurd (hstarted.symm.trans hst) Bool.false_ne_true

omit [Session κ σ] [Source σ ρ] in
theorem Paced.of_failed {e : Error} (hi : Live s.1.inner) (hfailed : s.1.failed = some e)
    (hio : e.isIo = false) : Paced Live Yields k₀ s where
  live := hi
  tidy e' he := by
    cases hfailed.symm.trans he
    exact hio
  unstarted hf := absurd (hfailed.symm.trans hf) (Option.some_ne_none e)
  rested hf := absurd (hfailed.symm.trans hf) (Option.some_ne_none e)

omit [Session κ σ] [Source σ ρ] in
theorem Rested.paced {t : State σ κ (Metered ρ)} {b c : Nat} (ht : Rested Live Yields b c t) :
    Paced Live Yields k₀ (unmetered t) where
  live := ht.1.live
  tidy := by
    intro e he
    have hnone : t.1.failed = none := ht.1.failed
    rw [show t.1.failed = some e from he] at hnone
    cases hnone
  unstarted _ hst := by
    have hstarted : t.1.started = true := ht.1.started
    rw [show t.1.started = false from hst] at hstarted
    cases hstarted
  rested _ _ := ht.2

omit [Source σ ρ] in
/-- What has failed is stored, if it is no failed transfer. -/
theorem Broken.poison {e : Error} {r : CipherReader κ (Metered ρ)} {env : Env σ}
    {b c : Nat} (ht : Broken Live firm Yields b c e (r, env)) :
    (CipherReader.poison e r).inner.reads ≤ c ∧
      (e.isIo = true → Refused e (CipherReader.poison e r, env)) ∧
      (firm ∨ e.isIo = false →
        Paced Live Yields k₀ (unmetered (CipherReader.poison e r, env))) := by
  obtain ⟨hr, hcause, hyields⟩ := ht
  have hfailed : r.failed = none := hr.failed
  have hstarted : r.started = true := hr.started
  cases hio : e.isIo with
  | true =>
    have hpoison : CipherReader.poison e r = r := by rw [CipherReader.poison, if_pos hio]
    rw [hpoison]
    refine ⟨hr.reads, fun _ => ?_, fun hfirm => ?_⟩
    · rcases hcause with ⟨rfl, -⟩ | hrefused
      · cases hio
      · exact hrefused
    · have hrest : Rested Live Yields b c (r, env) :=
        ⟨hr, .inr (hyields (hfirm.resolve_right (by decide)) hio)⟩
      exact hrest.paced
  | false =>
    have hpoison : CipherReader.poison e r = { r with failed := some e } := by
      rw [CipherReader.poison, hio, if_neg Bool.false_ne_true, Error.recorded_of_not_isIo hio]
    rw [hpoison]
    exact ⟨hr.reads, fun h => absurd h Bool.false_ne_true, fun _ => .of_failed hr.live rfl hio⟩

include hread h hfuel

/-- A refill of a reader that has nothing to hand out. -/
theorem meets_refillLoop (hs : Paced Live Yields k₀ s) (hu : Usable s) :
    Meets (fun _ t => Rested Live Yields (pace limit s) (pace limit s) t)
      (fun e t => Broken Live firm Yields (pace limit s) (pace limit s) e t)
      ((refillLoop fuel maxEmptyRefills : Pull σ κ (Metered ρ) Bool)
        ({ (metered s).1 with accessed := true }, (metered s).2)) := by
  cases hst : s.1.started with
  | true =>
    have hpace : pace limit s = 0 + 1 := by simp [pace, hst]
    rw [hpace]
    refine paced_refillLoop hread h.gathers _ _ ⟨⟨hs.live, hst, hu.failed, ?_, ?_⟩, hs.rested hu.failed hst⟩
    · exact Nat.le_refl 0
    · exact Nat.le_refl 0
  | false =>
    have hpace : pace limit s = limit + 1 := by simp [pace, hst]
    rw [hpace]
    obtain ⟨heof, hsession⟩ := hs.unstarted hu.failed hst
    exact paced_firstRefillLoop hread h hfuel _ _
      ⟨hs.live, hst, heof, ⟨hu.abort, hu.failed⟩, hsession, rfl, rfl⟩

/-- **One read.** It takes no more reads of the source than its pace allows. With a failed transfer it
fails only if a call of the session does, and if this costs nothing, the reader goes on. -/
theorem meets_readBytes (hs : Paced Live Yields k₀ s) (n : Nat) :
    Meets (fun _ t => t.1.inner.reads ≤ pace limit s ∧ Paced Live Yields k₀ (unmetered t))
      (fun e t => t.1.inner.reads ≤ pace limit s ∧ (e.isIo = true → Refused e t) ∧
        (firm ∨ e.isIo = false → Paced Live Yields k₀ (unmetered t)))
      ((readBytes fuel n : Pull σ κ (Metered ρ) Bytes) (metered s)) := by
  by_cases hu : Usable s
  · have hu' : Usable (metered s) := ⟨hu.abort, hu.failed⟩
    by_cases hsettled : n = 0 ∨ s.1.output ≠ [] ∨ s.1.eof = true
    · -- there is enough to hand out, or nothing for good
      rw [readBytes_of_settled hu' hsettled]
      exact ⟨Nat.zero_le _, hs.live, hs.tidy, hs.unstarted, hs.rested⟩
    · rw [not_or, not_or, Classical.not_not] at hsettled
      obtain ⟨hn, hnil, -⟩ := hsettled
      have hloop := meets_refillLoop hread h hfuel hs hu
      rw [readBytes_of_nil hu' hn hnil]
      cases hrun : (refillLoop fuel maxEmptyRefills : Pull σ κ (Metered ρ) Bool)
        ({ (metered s).1 with accessed := true }, (metered s).2) with
      | ok more t =>
        rw [hrun] at hloop
        have hpaced : Paced Live Yields k₀ (unmetered t) := hloop.paced
        cases more with
        | true =>
          exact ⟨hloop.1.reads, hpaced.live, hpaced.tidy, hpaced.unstarted, hpaced.rested⟩
        | false => exact ⟨hloop.1.reads, hpaced⟩
      | error e t =>
        rw [hrun] at hloop
        exact hloop.poison
  · obtain ⟨e, he⟩ := exists_failed_of_not_usable hu
    rw [readBytes_of_failed (s := metered s) he]
    refine ⟨Nat.zero_le _, ?_, fun _ => hs⟩
    rw [isIo_of_verdict he hs.tidy]
    exact nofun

/-! ## Requests -/

end

/-- If failed transfers may cost the session something, none has come of a read so far. -/
def Bearing [Session κ σ] [Source σ ρ] (fuel : Nat) (firm : Prop) : Request → State σ κ ρ → Prop :=
  fun request s => firm ∨ ∀ n e t, request = .use (.read n) → readBytes fuel n s = .error e t →
    e.isIo = false

section

variable [Session κ σ] [Source σ ρ] [Seekable σ ρ] [Abortable σ ρ] {Live : ρ → Prop} {firm : Prop}
  {limit fuel : Nat} {Awaits : Nat → κ → Prop} {Yields : κ → Prop} {Away : κ → Prop} {k₀ : κ}
  {s t : State σ κ ρ} (hlive : Source.Unfailing (σ := σ) fuel Live)
  (h : Session.GathersFrom (σ := σ) limit firm Awaits Yields k₀)
  (hR : Session.Returns (σ := σ) Away k₀) (hfuel : limit ≤ fuel)

omit [Session κ σ] [Source σ ρ] [Seekable σ ρ] [Abortable σ ρ] in
/-- Where the source is does not matter, as long as it does not fail. -/
theorem Paced.of_eq {r : CipherReader κ ρ} {env : Env σ} (hs : Paced Live Yields k₀ s)
    (hi : Live r.inner) (hsession : r.session = s.1.session) (hfailed : r.failed = s.1.failed)
    (hstarted : r.started = s.1.started) (heof : r.eof = s.1.eof) :
    Paced Live Yields k₀ (r, env) where
  live := hi
  tidy e he := hs.tidy e (hfailed ▸ he)
  unstarted hf hst := by
    rw [show (r, env).1.eof = _ from heof, show (r, env).1.session = _ from hsession]
    exact hs.unstarted (hfailed ▸ hf) (hstarted ▸ hst)
  rested hf hst := by
    rw [show (r, env).1.eof = _ from heof, show (r, env).1.session = _ from hsession]
    exact hs.rested (hfailed ▸ hf) (hstarted ▸ hst)

include hlive h hfuel in
theorem paced_use (hs : Paced Live Yields k₀ s) (use : Use) (hmay : Bearing fuel firm (.use use) s) :
    Paced Live Yields k₀ (reached (use.run fuel s)) := by
  by_cases hu : Usable s
  · cases use with
    | read n =>
      have hread := meets_readBytes hlive.read h hfuel hs n
      have hplain := readBytes_metered fuel n s
      simp only [Use.run, reached_bind_pure]
      cases hrun : (readBytes fuel n : Pull σ κ (Metered ρ) Bytes) (metered s) with
      | ok out u =>
        rw [hrun] at hread hplain
        rw [hplain]
        exact hread.2
      | error e u =>
        rw [hrun] at hread hplain
        rw [hplain]
        exact hread.2.2 (hmay.imp_right fun hnot => hnot n e _ rfl hplain)
    | skip n =>
      simp only [Use.run, run_bind, skip_of_usable hu]
      exact hs.of_eq hs.live rfl rfl rfl rfl
    | available =>
      simp only [Use.run, run_bind, available_of_usable hu]
      exact hs
  · obtain ⟨e, he⟩ := exists_failed_of_not_usable hu
    rw [use_of_failed he]
    exact hs

include hlive h hR hfuel in
/-- What a reader is asked leaves it as it should be, also if it starts over. -/
theorem paced_request (request : Request) (hmay : Bearing fuel firm request s)
    (hs : Away s.1.session ∧ Paced Live Yields k₀ s) :
    Away (reached (request.run fuel s)).1.session ∧
      Paced Live Yields k₀ (reached (request.run fuel s)) := by
  have hinner {α : Type} {x : Transfer σ ρ α} (hx : Keeps (fun t : ρ × Env σ => Live t.1) x) :
      Keeps (fun t : State σ κ ρ => Away t.1.session ∧ Paced Live Yields k₀ t) (onInner x) :=
    keeps_onInner fun t ht => ⟨ht.1, ht.2.of_eq (hx _ ht.2.live) rfl rfl rfl rfl⟩
  cases request with
  | use use =>
    have haway : Keeps (fun t : State σ κ ρ => Away t.1.session) (use.run fuel) :=
      keeps_use_of_parts (I := fun t => Away t.1.session) (fun ht _ => ht)
        (fun call => keeps_onSession fun t ht => hR.keeps ht call t.2.world)
        (keeps_readBlock fun _ => keeps_onInner fun _ ht => ht) use
    simp only [Request.run, reached_bind_pure]
    exact ⟨haway s hs.1, paced_use hlive h hfuel hs.2 use hmay⟩
  | mark =>
    have hmark := keeps_setMark (hinner hlive.position) fun t p ht =>
      ⟨ht.1, ht.2.of_eq ht.2.live rfl rfl rfl rfl⟩
    exact Keeps.bind hmark (fun _ => .pure _) s hs
  | reset =>
    have hreset := keeps_reset (fun p => hinner (hlive.seek p)) fun t ht => by
      have hsession : (rewound t.1).session = k₀ := hR.restart ht.1
      refine ⟨?_, .of_fresh ht.2.live rfl rfl rfl hsession⟩
      rw [show (rewound t.1, t.2).1.session = k₀ from hsession]
      exact hR.fresh
    exact Keeps.bind hreset (fun _ => .pure _) s hs
  | abort =>
    obtain ⟨r, env⟩ := s
    exact ⟨hs.1, hs.2.of_eq (hlive.abort _ hs.2.live) rfl rfl rfl rfl⟩

end

end CipherReader

/-! ## Readers of the bundled sessions -/

namespace CipherReader

variable [Session κ σ] [Source σ ρ]

/-- Assembling the header takes `limit` blocks at most, and ends: the session is ready or the source at
its end, or the session has failed, or an abort came. -/
@[irreducible]
def Assembles (fuel limit rounds : Nat) (s : State σ κ ρ) : Prop :=
  Meets
    (fun _ t => t.1.inner.blocks ≤ limit ∧ (Session.isReady t.1.session = true ∨ t.1.eof = true))
    (fun e t => t.1.inner.blocks ≤ limit ∧
      (e = .aborted ∧ t.1.abort.isAborted t.2 = true ∨ Refused e t))
    ((assembleHeader fuel rounds [] : Pull σ κ (Metered ρ) Bytes) (metered s))

/-- A read takes `limit + 1` reads of the source at most if it is the first, and one if it is not, and
the reader does not give up: if it fails with a failed transfer, it is the session that did. -/
@[irreducible]
def InPace (fuel limit n : Nat) (s : State σ κ ρ) : Prop :=
  Meets (fun _ t => t.1.inner.reads ≤ pace limit s)
    (fun e t => t.1.inner.reads ≤ pace limit s ∧ (e.isIo = true → Refused e t))
    ((readBytes fuel n : Pull σ κ (Metered ρ) Bytes) (metered s))

end CipherReader

open CipherReader in
/-- What readers do over the session `k` and sources that never fail. -/
structure Session.Paces [Session κ σ] (fuel limit : Nat) (firm : Prop) (k : κ) : Prop where
  /-- The session was just started, and gave nothing. -/
  assembles : ∀ {ρ : Type} [Source σ ρ] [Seekable σ ρ] [Abortable σ ρ] {Live : ρ → Prop},
    Source.Unfailing (σ := σ) fuel Live → ∀ {s : State σ κ ρ} {w : σ}, Live s.1.inner →
      s.1.started = true → s.1.failed = none → s.1.eof = false →
      Session.start (k, w) = .ok [] (s.1.session, s.2.world) →
      ∀ {rounds : Nat}, limit ≤ rounds → Assembles fuel limit rounds s
  /-- Whatever was asked of the reader before. If failed transfers may cost the session something, none
  has come of a read so far. -/
  reads : ∀ {ρ : Type} [Source σ ρ] [Seekable σ ρ] [Abortable σ ρ] {Live : ρ → Prop},
    Source.Unfailing (σ := σ) fuel Live → ∀ source : ρ, Live source →
      ∀ (blockSize : Nat) (abort : AbortHandle) (env : Env σ) {s : State σ κ ρ},
      Leads fuel (fun request s => firm ∨ ∀ n e t, request = .use (.read n) →
        readBytes fuel n s = .error e t → e.isIo = false)
        (CipherReader.new source k blockSize abort, env) s →
      ∀ n : Nat, InPace fuel limit n s
  /-- Whatever has failed. -/
  limited : ∀ {ρ : Type} [Source σ ρ] {s : State σ κ ρ}, s.1.started = true → ∀ n : Nat,
    sourceReads fuel n s ≤ maxEmptyRefills + 1

section

open CipherReader

theorem Session.GathersFrom.paces [Session κ σ] {fuel limit : Nat} {firm : Prop}
    {Awaits : Nat → κ → Prop} {Yields Away : κ → Prop} {k : κ}
    (h : Session.GathersFrom (σ := σ) limit firm Awaits Yields k)
    (hR : Session.Returns (σ := σ) Away k) (hfuel : limit ≤ fuel) :
    Session.Paces (σ := σ) fuel limit firm k where
  assembles := by
    intro ρ _ _ _ Live hlive s w hs hst hf he hstart rounds hrounds
    have hawaits := h.start w
    rw [hstart] at hawaits
    rcases hawaits with ⟨hne, -⟩ | ⟨-, -, hawaits⟩
    · exact absurd rfl hne
    · unfold Assembles
      refine (paced_assembleHeader hlive.read h.gathers rounds [] (metered s)
        (.inr ⟨0, 0, ⟨⟨hs, hst, hf, Nat.le_refl 0, Nat.le_refl 0⟩, he, hawaits⟩, Nat.le_refl 0,
          by omega⟩)).mono ?_ ?_
      · rintro out t (⟨hr, -, hready, -⟩ | ⟨hr, heof⟩)
        · exact ⟨hr.blocks, .inl hready⟩
        · exact ⟨hr.blocks, .inr heof⟩
      · exact fun e t ht => ⟨ht.1.blocks, ht.2.1⟩
  reads := by
    intro ρ _ _ _ Live hlive source hsource blockSize abort env t hleads n
    have ht : Away t.1.session ∧ Paced Live Yields k t := by
      refine hleads.keeps (fun t => Away t.1.session ∧ Paced Live Yields k t)
        (fun request u hmay hu => paced_request hlive h hR hfuel request hmay hu)
        (fun u env _ hu => ⟨hu.1, hu.2.of_eq hu.2.live rfl rfl rfl rfl⟩) ⟨hR.fresh, ?_⟩
      exact .of_fresh hsource rfl rfl rfl rfl
    unfold InPace
    exact (meets_readBytes hlive.read h hfuel ht.2 n).mono (fun _ _ hu => hu.1)
      fun _ _ hu => ⟨hu.1, hu.2.1⟩
  limited hs n := sourceReads_le hs n

/-- **Assembling a header ends**, on a source without an end too, however long the header and however
small the blocks, and no reader gives up: neither over a session of a bundled family, encrypting or
decrypting, nor over a dispatcher, whatever their options, key wraps and random sources. A decrypting
dispatcher takes four blocks more, and there is one thing that it does not bear. If a key wrap fails on
the first bytes behind the id with a failed transfer, the reader goes on but those bytes are lost, and
the dispatcher gathers another header (`readBytes_of_gathered`); from then on only the limit of all
readers holds. -/
theorem assembly_ends {fuel : Nat} (hfuel : Dispatcher.idLen + Header.longest ≤ fuel) :
    (∀ (f : BundledFamily) (s : FamilySession σ CounterStream), s.Bundled f →
      Session.Paces (σ := σ) fuel Header.longest True s) ∧
    ∀ (families : UInt32 → BundledFamily) (d : Dispatcher σ (FamilySession σ CounterStream)),
      d.Bundled families →
        Session.Paces (σ := σ) fuel (Dispatcher.idLen + Header.longest)
          (d.context.mode = .encrypt ∨
            ∀ {id make}, d.registry.get? id = some make → (make d.context).wrap.NeverIo) d := by
  constructor
  · intro f s hs
    obtain ⟨Awaits, Yields, h⟩ := hs.gathersFrom
    exact h.paces (FamilySession.returns hs.phase) (Nat.le_trans (Nat.le_add_left _ _) hfuel)
  · intro families d hd
    obtain ⟨Awaits, Yields, h⟩ := hd.gathersFrom
    exact h.paces (Dispatcher.returns hd.phase) hfuel

end

/-! ## A source without an end -/

/-- A source that gives one byte at a time, for ever: those of `front`, then zeros. -/
structure Spring where
  front : Bytes
  place : Nat := 0

namespace Spring

instance : Source σ Spring where
  read _ _ := fun s => .ok [s.1.front.getD s.1.place 0] ({ s.1 with place := s.1.place + 1 }, s.2)

instance : Seekable σ Spring where
  position := fun s => .ok s.1.place s
  seek place := fun s => .ok () ({ s.1 with place }, s.2)

instance : Abortable σ Spring where
  abort s := s

theorem unfailing (fuel : Nat) : Source.Unfailing (σ := σ) fuel (fun _ : Spring => True) where
  read _ _ _ := trivial
  position _ _ := trivial
  seek _ _ _ := trivial
  abort _ _ := trivial

end Spring

namespace CipherReader

/-- A reader over the session `k` of a stream that begins with `front` and goes on for ever. -/
def endless (k : κ) (front : Bytes) : State Unit κ Spring :=
  (.new { front } k 1, ⟨[], ()⟩)

/-- The reader as it is when its session has just been started. -/
def startedUp (s : State σ κ ρ) : State σ κ ρ := ({ s.1 with started := true }, s.2)

/-- A first read through a session, and a header that is assembled through a dispatcher. -/
theorem assembly_ends_endless : Dispatcher.idLen + Header.longest ≤ 40000 ∧
    InPace 40000 Header.longest 5
      (endless (bareBuilder.familySession BundledFamily.sm4.family .decrypt) bareHeader.encode) ∧
    Assembles 40000 (Dispatcher.idLen + Header.longest) 40000
      (startedUp (endless (bareBuilder.dispatcher .decrypt (Registry.bundled id id) 1 none)
        (Bytes.be32 2 ++ bareHeader.encode))) := by
  have hfuel : Dispatcher.idLen + Header.longest ≤ 40000 := by decide
  have hsession := (assembly_ends (σ := Unit) hfuel).1 .sm4 _
    (bareBuilder.bundled_familySession .sm4 .decrypt)
  have hdispatcher := (assembly_ends (σ := Unit) hfuel).2 _ _
    (bareBuilder.bundled_dispatcher .decrypt 1 none)
  refine ⟨hfuel, ?_, ?_⟩
  · refine hsession.reads (Spring.unfailing 40000) ⟨bareHeader.encode, 0⟩ trivial 1 (.own false)
      ⟨[], ()⟩ ?_ 5
    exact .refl
  · exact hdispatcher.assembles (w := ()) (Spring.unfailing 40000) trivial rfl rfl rfl rfl hfuel

end CipherReader

/-! ## Another header -/

/-- A dispatcher that has gathered `buffered`, and has lost what came behind, collects what comes next
as if it were behind `buffered`. -/
theorem Dispatcher.collects_gathered {families : UInt32 → BundledFamily}
    {d : Dispatcher σ (FamilySession σ CounterStream)} (ho : d.Opens families) (v : σ)
    (w buffered : Bytes) :
    CipherReader.Collects (σ := σ) (familyProgress families d v) (FamilyAfter families d v w) w
      buffered { d with phase := .selecting buffered } := by
  intro more n hpre hn v'
  obtain ⟨k, v'', hu, hk⟩ : ∃ k v'', Session.update (buffered ++ more) (d, v') = .ok [] (k, v'') ∧
      FamilyAfter families d v w (buffered ++ more) k :=
    CipherReader.collects (family_decodes ho v w) (familyAfter_nil ho v w) hpre hn v'
  exact ⟨k, v'', (update_gathered ho.mode ho.phase buffered more v').trans hu, hk⟩

namespace CipherReader

/-- **A reader gives up on another header** that its dispatcher gathers behind the id, unless the blocks
that it may draw in vain tell what it is. -/
theorem readBytes_of_gathered [Source σ ρ] {S : WorkingSource σ ρ}
    {families : UInt32 → BundledFamily} {d : Dispatcher σ (FamilySession σ CounterStream)}
    (ho : d.Opens families) {P : Dispatcher σ (FamilySession σ CounterStream) → Prop}
    (hP : Session.Quiet P) {s : State σ (Dispatcher σ (FamilySession σ CounterStream)) ρ}
    (hs : Idle P s) (hst : s.1.started = true) {w buffered : Bytes}
    (h : Reads S (fun fed k => k = { d with phase := .selecting fed }) w buffered s.1) {v : σ}
    {m b : Nat} (hm : buffered.length + (maxEmptyRefills + 1) * s.1.blockSize ≤ m)
    (hw : m < w.length) (hb : Dispatcher.familyProgress families d v (w.take m) = .awaiting b)
    {n : Nat} (hn : n ≠ 0) (fuel : Nat) :
    ∃ t, (readBytes fuel n : Pull σ _ ρ Bytes) s = .error (.io gaveUp) t := by
  have hcollects : Reads S (Collects (σ := σ) (Dispatcher.familyProgress families d v)
      (Dispatcher.FamilyAfter families d v w) w) w buffered s.1 :=
    { h with session := h.session ▸ Dispatcher.collects_gathered ho v w buffered }
  obtain ⟨t, ht⟩ : ∃ t, Silently fuel (maxEmptyRefills + 1) s t :=
    silently_of_awaiting (Dispatcher.family_decodes ho v w) hb hw _ hcollects hst hs.eof hm
  exact ⟨t, readBytes_of_silently hP hs hst hn ht⟩

open Scripted

theorem unfailing_scriptedSource (fuel : Nat) : Source.Unfailing (σ := σ) fuel
    (fun r : ScriptedSource => r.readEvents = [] ∧ r.seekEvents = []) where
  read n := by
    rintro ⟨r, env⟩ ⟨hr, hk⟩
    rw [ScriptedSource.read_eq (by rw [hr]; rfl)]
    exact ⟨hr, hk⟩
  position := by
    rintro ⟨r, env⟩ ⟨hr, hk⟩
    have hrun : runEvents r.seeks r.seekEvents env = (none, env) := by
      rw [show r.seekEvents = [] from hk, runEvents]
    simp only [Seekable.position, ScriptedSource.seekCall, hrun]
    exact ⟨hr, hk⟩
  seek p := by
    rintro ⟨r, env⟩ ⟨hr, hk⟩
    have hrun : runEvents r.seeks r.seekEvents env = (none, env) := by
      rw [show r.seekEvents = [] from hk, runEvents]
    simp only [Seekable.seek, ScriptedSource.seekCall, hrun]
    exact ⟨hr, hk⟩
  abort _ h := h

/-- How a key wrap fails that cannot reach its service. -/
def noAnswer : IoError := .plain .timedOut "no answer"

/-- A dispatcher whose key wrap never gets an answer. -/
def shutDispatcher : Dispatcher Unit (FamilySession Unit CounterStream) :=
  ({ bareBuilder with wrap := shutWrap noAnswer } : CipherBuilder Unit).dispatcher .decrypt
    (Registry.bundled id id) 1 none

/-- The id of SM4 and a header without secrets. -/
def hollowFront : Bytes := Bytes.be32 2 ++ (⟨2, [], []⟩ : Header).encode

/-- A header as long as headers get. -/
def fullHeader : Header :=
  ⟨2, .replicate maxWrappedLen 3, .replicate maxWrappedLen 4⟩

theorem admitted_fullHeader : fullHeader.Admitted (some 2) where
  version _ hv := Option.some.inj hv
  iv := Nat.le_of_eq List.length_replicate
  key := Nat.le_of_eq List.length_replicate

theorem length_fullHeader : fullHeader.encode.length = 32780 := by
  have hiv : fullHeader.wrappedIv.length = maxWrappedLen := List.length_replicate
  have hkey : fullHeader.wrappedKey.length = maxWrappedLen := List.length_replicate
  rw [Header.length_encode, Header.encodedLen, hiv, hkey]
  rfl

/-- A reader, in blocks of 16 bytes, of that front and of what else is behind it. -/
def hollow (rest : Bytes) : State Unit (Dispatcher Unit (FamilySession Unit CounterStream))
    ScriptedSource :=
  (.new { data := (hollowFront ++ rest).toArray } shutDispatcher 16, ⟨[], ()⟩)

/-- That reader behind the front, with the id alone in its dispatcher. -/
def mislaid (rest : Bytes) : State Unit (Dispatcher Unit (FamilySession Unit CounterStream))
    ScriptedSource :=
  ({ (hollow rest).1 with
      inner := { (hollow rest).1.inner with pos := 16, reads := 1 }
      session := { shutDispatcher with phase := .selecting (Bytes.be32 2) }
      started := true, accessed := true }, ⟨[], ()⟩)

theorem readBlock_hollow (rest : Bytes) (fuel : Nat) :
    (readBlock fuel : Pull Unit _ ScriptedSource Bytes)
        ({ (hollow rest).1 with started := true, accessed := true }, (hollow rest).2) =
      .ok hollowFront ({ (mislaid rest).1 with session := shutDispatcher }, ⟨[], ()⟩) := by
  have hpart : (hollow rest).1.inner.part 16 = hollowFront := by
    simp only [hollow, CipherReader.new, ScriptedSource.part, limited, List.drop_zero]
    exact List.take_left' rfl
  rw [run_readBlock]
  simp only [show (hollow rest).1.blockSize = 16 from rfl]
  rw [ScriptedSource.read_eq rfl, hpart]
  rfl

/-- The first block goes to the key wrap, and is lost. -/
theorem readBytes_hollow (rest : Bytes) {fuel n : Nat} (hn : n ≠ 0) :
    (readBytes (fuel + 1) n : Pull Unit _ ScriptedSource Bytes) (hollow rest) =
      .error (.io noAnswer) (mislaid rest) := by
  have hready : Session.isReady (σ := Unit) (hollow rest).1.session = false := rfl
  have hupdate : Session.update hollowFront (shutDispatcher, ()) =
      .error (.io noAnswer) ({ shutDispatcher with phase := .selecting (Bytes.be32 2) }, ()) := rfl
  have hassemble : (assembleHeader (fuel + 1) (fuel + 1) [] : Pull Unit _ ScriptedSource Bytes)
      ({ (hollow rest).1 with started := true, accessed := true }, (hollow rest).2) =
        .error (.io noAnswer) (mislaid rest) := by
    rw [assembleHeader]
    simp only [run_bind, run_get, run_ite, hready, Bool.false_eq_true, if_false]
    rw [run_checkAbort rfl]
    simp only [readBlock_hollow, show hollowFront.isEmpty = false from rfl, Bool.false_eq_true,
      if_false]
    rw [run_onSession, show (mislaid rest).2.world = () from rfl]
    simp only [hupdate]
    rfl
  have hrefill : (refill (fuel + 1) : Pull Unit _ ScriptedSource Refill)
      ({ (hollow rest).1 with accessed := true }, (hollow rest).2) =
        .error (.io noAnswer) (mislaid rest) :=
    refill_of_assembleHeader rfl rfl rfl rfl rfl hassemble
  rw [readBytes_of_refill ⟨rfl, rfl⟩ hn rfl hrefill, poison_of_isIo rfl]

/-- What is read behind the lost block goes to the dispatcher as if it were behind the id. -/
theorem reads_mislaid (rest : Bytes) : Reads (ScriptedSource.working (σ := Unit))
    (fun fed k => k = { shutDispatcher with phase := .selecting fed }) (Bytes.be32 2 ++ rest)
    (Bytes.be32 2) (mislaid rest).1 := by
  have hrest : (hollowFront ++ rest).drop 16 = rest := List.drop_left' rfl
  exact ⟨⟨rfl, nofun⟩, (by decide : 0 < 16), rfl, rfl, rfl, congrArg (Bytes.be32 2 ++ ·) hrest⟩

/-- A reader of a stream whose first header is hollow and whose second one is full. -/
def misled : State Unit (Dispatcher Unit (FamilySession Unit CounterStream)) ScriptedSource :=
  hollow fullHeader.encode

/-- A caller that reads again after its key wrap got no answer sees the reader give up, although the
source never fails. -/
theorem not_assembly_ends : shutDispatcher.Bundled CipherBuilder.familyOf ∧
    (∃ Live : ScriptedSource → Prop, Source.Unfailing (σ := Unit) 40000 Live ∧
      Live misled.1.inner) ∧
    ∃ s t, (readBytes 40000 5 : Pull Unit _ ScriptedSource Bytes) misled =
        .error (.io noAnswer) s ∧
      (readBytes 40000 5 : Pull Unit _ ScriptedSource Bytes) s = .error (.io gaveUp) t := by
  have hwrap : (shutWrap noAnswer).Functional := fun _ _ _ => rfl
  have hopens : shutDispatcher.Opens CipherBuilder.familyOf :=
    CipherBuilder.opens_dispatcher (b := { bareBuilder with wrap := shutWrap noAnswer }) hwrap 1 none
  have hbundled : shutDispatcher.Bundled CipherBuilder.familyOf :=
    CipherBuilder.bundled_dispatcher { bareBuilder with wrap := shutWrap noAnswer } .decrypt 1 none
  have hloyal : shutDispatcher.Loyal fun _ => True :=
    CipherBuilder.loyal_dispatcher { bareBuilder with wrap := shutWrap noAnswer } .decrypt 1 none
  have hidle : Idle (fun d => d.Loyal fun _ => True) (mislaid fullHeader.encode) :=
    ⟨⟨rfl, rfl⟩, rfl, rfl, rfl, hloyal.selecting (Bytes.be32 2)⟩
  -- the full header is longer than the blocks that may be drawn in vain
  have hmore : Header.decode ((fullHeader.encode ++ []).take 16016) (some 2) = .ok .needMore :=
    Header.decode_take_encode admitted_fullHeader [] (by rw [length_fullHeader]; decide)
  rw [List.append_nil] at hmore
  have hbehind : (Bytes.be32 2 ++ fullHeader.encode.take 16016).drop Dispatcher.idLen =
      fullHeader.encode.take 16016 := List.drop_left' rfl
  have hawaiting : Dispatcher.familyProgress CipherBuilder.familyOf shutDispatcher ()
      ((Bytes.be32 2 ++ fullHeader.encode).take ((Bytes.be32 2).length + 16016)) =
        .awaiting (fullHeader.encode.take 16016).length := by
    rw [List.take_length_add_append, Dispatcher.familyProgress,
      Dispatcher.progress_of_known (Bytes.be32?_be32_append 2 _) rfl, hbehind]
    exact FamilySession.progress_of_needMore hmore
  have hfive : 5 ≠ 0 := by decide
  obtain ⟨t, ht⟩ := readBytes_of_gathered hopens (Dispatcher.quiet FamilySession.quiet) hidle rfl
    (reads_mislaid _) (by decide) (by rw [List.length_append, length_fullHeader]; decide) hawaiting
    hfive 40000
  exact ⟨hbundled, ⟨_, unfailing_scriptedSource 40000, rfl, rfl⟩, _, t,
    readBytes_hollow fullHeader.encode hfive, ht⟩

end CipherReader

end SealedStream
