import SealedStream.Proofs.Stream.Recording

/-!
# Counting the reads of a source

`Metered` is a source that counts its reads, and otherwise does what the source does. Over it a reader
shows how often it reads its source: once started, not without limit in one read (`sourceReads_le`).
-/

namespace SealedStream

variable {σ κ ρ : Type}

/-- A source with the number of its reads, and of those that gave something. -/
structure Metered (ρ : Type) where
  it : ρ
  reads : Nat := 0
  blocks : Nat := 0

instance [Source σ ρ] : Source σ (Metered ρ) where
  read fuel n := fun s =>
    match Source.read fuel n (s.1.it, s.2) with
    | .ok block t =>
      .ok block (⟨t.1, s.1.reads + 1, if block.isEmpty then s.1.blocks else s.1.blocks + 1⟩, t.2)
    | .error e t => .error e (⟨t.1, s.1.reads + 1, s.1.blocks⟩, t.2)

theorem Metered.embeds [Source σ ρ] (fuel : Nat) :
    Source.Embeds σ fuel (Metered.it : Metered ρ → ρ) := by
  intro n m env
  simp only [Source.read]
  cases (Source.read fuel n : Transfer σ ρ Bytes) (m.it, env) <;> rfl

namespace CipherReader

/-- The reader with its reads counted from here on. -/
def metered (s : State σ κ ρ) : State σ κ (Metered ρ) := ({ s.1 with inner := ⟨s.1.inner, 0, 0⟩ }, s.2)

/-- The reader without the count. -/
def unmetered (s : State σ κ (Metered ρ)) : State σ κ ρ := (s.1.bimap (fun k => k) (·.it), s.2)

/-- Counting changes nothing. -/
theorem readBytes_metered [Session κ σ] [Source σ ρ] (fuel n : Nat) (s : State σ κ ρ) :
    readBytes fuel n s = mapState unmetered (readBytes fuel n (metered s)) :=
  readBytes_bimap .refl (Metered.embeds fuel) n (metered s)

/-! ## Over any session -/

section

variable [Session κ σ] [Source σ ρ] {fuel b c : Nat}

/-- The reader was started and has read its source `c` times at most. -/
def Counted (c : Nat) (s : State σ κ (Metered ρ)) : Prop :=
  s.1.started = true ∧ s.1.inner.reads ≤ c

omit [Session κ σ] [Source σ ρ] in
theorem Counted.mono {s : State σ κ (Metered ρ)} (h : Counted b s) (hbc : b ≤ c) : Counted c s :=
  ⟨h.1, Nat.le_trans h.2 hbc⟩

omit [Session κ σ] in
theorem counted_readBlock :
    Ensures (Counted c) (fun _ => Counted (c + 1)) (fun _ => Counted (c + 1))
      (readBlock fuel : Pull σ κ (Metered ρ) Bytes) := by
  rintro ⟨r, env⟩ ⟨hstarted, hreads⟩
  rw [run_readBlock]
  simp only [Source.read]
  cases (Source.read fuel r.blockSize : Transfer σ ρ Bytes) (r.inner.it, env) with
  | error e t => exact ⟨hstarted, Nat.succ_le_succ hreads⟩
  | ok block t =>
    simp only
    cases r.abort.check t.2 with
    | error e => exact ⟨hstarted, Nat.succ_le_succ hreads⟩
    | ok _ => exact ⟨hstarted, Nat.succ_le_succ hreads⟩

theorem counted_blockRefill :
    Ensures (Counted c) (fun _ => Counted (c + 1)) (fun _ => Counted (c + 1))
      (blockRefill fuel : Pull σ κ (Metered ρ) Refill) := by
  have hout (bytes : Bytes) : Keeps (Counted (σ := σ) (κ := κ) (ρ := ρ) (c + 1)) (setOutput bytes) :=
    .bind (.modify fun _ h => h) fun _ => .pure _
  refine .bind counted_readBlock fun block => Keeps.ensures (.ite _ ?_ ?_)
  · refine .bind (.bind (keeps_onSession fun _ h => h) fun _ => .bind (.modify fun _ h => h) fun _ =>
      .pure _) fun tail => .bind (hout tail) fun refill => ?_
    cases refill <;> exact .pure _
  · exact .bind (keeps_onSession fun _ h => h) fun out => hout out

theorem counted_refill :
    Ensures (Counted c) (fun _ => Counted (c + 1)) (fun _ => Counted (c + 1))
      (refill fuel : Pull σ κ (Metered ρ) Refill) := by
  refine .bind (J := fun _ => Counted c) ?_ fun _ => .get_bind fun s hs => ?_
  · have hcheck : Keeps (Counted (σ := σ) (κ := κ) (ρ := ρ) c) checkAbort :=
      .bind .get fun _ => .check _
    exact hcheck.ensures.mono (fun _ h => h) (fun _ _ h => h) fun _ _ h => h.mono (Nat.le_succ c)
  · have hstarted := hs.1
    simp only [run_ite, hstarted, if_true]
    split
    · exact hs.mono (Nat.le_succ c)
    · exact counted_blockRefill s hs

/-- By induction on the refills that may still give nothing. -/
theorem counted_refillLoop (fuel : Nat) : ∀ (left c : Nat),
    Ensures (Counted c) (fun _ => Counted (c + (left + 1))) (fun _ => Counted (c + (left + 1)))
      (refillLoop fuel left : Pull σ κ (Metered ρ) Bool)
  | 0, c => by
    refine .bind counted_refill fun refill => ?_
    cases refill with
    | data => exact .pure fun _ h => h
    | done => exact .pure fun _ h => h
    | empty => exact .throw fun _ h => h
  | left + 1, c => by
    refine .bind (counted_refill.mono (fun _ h => h) (fun _ _ h => h) fun _ _ h =>
      h.mono (by omega)) fun refill => ?_
    cases refill with
    | data => exact .pure fun _ h => h.mono (by omega)
    | done => exact .pure fun _ h => h.mono (by omega)
    | empty =>
      rw [show c + (left + 1 + 1) = c + 1 + (left + 1) by omega]
      exact counted_refillLoop fuel left (c + 1)

/-- How often a read reads the source. -/
def sourceReads (fuel n : Nat) (s : State σ κ ρ) : Nat :=
  (reached ((readBytes fuel n : Pull σ κ (Metered ρ) Bytes) (metered s))).1.inner.reads

/-- **A read of a started reader takes `maxEmptyRefills + 1` reads of its source at most**, whatever the
session and the source. -/
theorem sourceReads_le {s : State σ κ ρ} (hs : s.1.started = true) (n : Nat) :
    sourceReads fuel n s ≤ maxEmptyRefills + 1 := by
  unfold sourceReads
  by_cases hu : Usable (metered s)
  · by_cases hsettled : n = 0 ∨ (metered s).1.output ≠ [] ∨ (metered s).1.eof = true
    · rw [readBytes_of_settled hu hsettled]
      exact Nat.zero_le _
    · rw [not_or, not_or, Classical.not_not] at hsettled
      obtain ⟨hn, hnil, -⟩ := hsettled
      have hloop := counted_refillLoop fuel maxEmptyRefills 0
        ({ (metered s).1 with accessed := true }, (metered s).2) ⟨hs, Nat.le_refl 0⟩
      rw [Nat.zero_add] at hloop
      rw [readBytes_of_nil hu hn hnil]
      cases hrun : (refillLoop fuel maxEmptyRefills : Pull σ κ (Metered ρ) Bool)
        ({ (metered s).1 with accessed := true }, (metered s).2) with
      | ok more t =>
        rw [hrun] at hloop
        cases more with
        | true => exact hloop.2
        | false => exact hloop.2
      | error e t =>
        rw [hrun] at hloop
        have hinner : (poison e t.1).inner = t.1.inner := by
          unfold poison
          split <;> rfl
        show (poison e t.1).inner.reads ≤ maxEmptyRefills + 1
        rw [hinner]
        exact hloop.2
  · obtain ⟨e, he⟩ := exists_failed_of_not_usable hu
    rw [readBytes_of_failed he]
    exact Nat.zero_le _

end

end CipherReader

end SealedStream
