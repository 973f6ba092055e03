import SealedStream.Proofs.Stream.Flow
import SealedStream.Proofs.Stream.Decrypt

/-!
# The patience of a reader

A reader bears so many draws in a row that give nothing, and gives up after more
(`refillLoop_of_silently`). It is `Prompt` if it never has to, wherever it is read and whatever is
written meanwhile to a sink that shares its environment. Readers that decrypt are prompt if their
source decides about the header early enough (`prompt_of_decodes`).
-/

namespace SealedStream

namespace CipherReader

variable {σ κ ρ ς : Type}

section

variable [Session κ σ] [Source σ ρ] [Sink σ ς]

/-- What draws and writes make of a reader and a sink, in whatever order, but for a draw that fails
for good. -/
inductive Reaches (fuel : Nat) (x : State σ κ ρ × ς) : State σ κ ρ × ς → Prop
  | refl : Reaches fuel x x
  | draw {s : State σ κ ρ} {w : ς} : Reaches fuel x (s, w) →
      (∀ e, outcome (draw fuel s) = .error e → e.toIo.isInterrupted = true) →
      Reaches fuel x (reached (draw fuel s), w)
  | write {s : State σ κ ρ} {w : ς} (bytes : Bytes) : Reaches fuel x (s, w) →
      Reaches fuel x ((s.1, (reached (Sink.write fuel bytes (w, s.2))).2),
        (reached (Sink.write fuel bytes (w, s.2))).1)

/-- No read of the reader comes to the end of its patience. -/
def Prompt (fuel : Nat) (x : State σ κ ρ × ς) : Prop :=
  ∀ y, Reaches fuel x y → ∀ j u, Silently fuel j y.1 u → j ≤ patience y.1

variable {x y z : State σ κ ρ × ς} {s t p : State σ κ ρ} {w : ς} {P : κ → Prop} {fuel j : Nat}

namespace Reaches

theorem trans (h : Reaches fuel x y) (h' : Reaches fuel y z) : Reaches fuel x z := by
  induction h' with
  | refl => exact h
  | draw _ hgo ih => exact .draw ih hgo
  | write bytes _ ih => exact .write bytes ih

theorem silently (h : Silently fuel j s t) : Reaches fuel (s, w) (t, w) := by
  induction h with
  | refl s => exact .refl
  | @step s t u j hd _ _ ih =>
    have hstep : Reaches fuel (s, w) (reached (CipherReader.draw fuel s), w) :=
      .draw .refl fun e he => by rw [hd] at he; cases he
    rw [hd] at hstep
    exact hstep.trans ih

theorem answers {res : EStateM.Result Error (State σ κ ρ) Bytes}
    (h : Answers fuel j s res) (hgo : ∀ e, outcome res = .error e → e.toIo.isInterrupted = true) :
    Reaches fuel (s, w) (reached res, w) := by
  obtain ⟨t, ht, rfl, -⟩ := h
  exact (Reaches.silently ht).trans (.draw .refl hgo)

theorem writeAllLoop (r : CipherReader κ ρ) (fuel : Nat) : ∀ (rounds : Nat) (bytes : Bytes) (w : ς)
    (env : Env σ), Reaches fuel ((r, env), w)
      ((r, (reached (Sink.writeAllLoop fuel rounds bytes (w, env))).2),
        (reached (Sink.writeAllLoop fuel rounds bytes (w, env))).1)
  | 0, [], w, env => .refl
  | rounds + 1, [], w, env => .refl
  | 0, b :: bs, w, env => .refl
  | rounds + 1, b :: bs, w, env => by
    have hwrite : Reaches fuel ((r, env), w) _ := .write (b :: bs) .refl
    unfold Sink.writeAllLoop
    cases hrun : Sink.write fuel (b :: bs) (w, env) with
    | ok n t =>
      rw [hrun] at hwrite
      cases n with
      | zero => exact hwrite
      | succ n => exact hwrite.trans (writeAllLoop r fuel rounds _ t.1 t.2)
    | error e t =>
      rw [hrun] at hwrite
      simp only
      split
      · exact hwrite.trans (writeAllLoop r fuel rounds _ t.1 t.2)
      · exact hwrite

end Reaches

theorem Prompt.reaches (hx : Prompt fuel x) (h : Reaches fuel x y) : Prompt fuel y :=
  fun z hz => hx z (h.trans hz)

omit [Source σ ρ] [Sink σ ς] in
theorem le_patience : maxEmptyRefills ≤ patience s := by
  unfold patience
  split <;> omega

omit [Source σ ρ] [Sink σ ς] in
theorem patience_le (hfuel : maxEmptyRefills < fuel) : patience s ≤ fuel := by
  unfold patience
  split <;> omega

/-- A prompt reader says what there is to say. -/
theorem fill_of_prompt (hP : Session.Quiet P) (hfuel : maxEmptyRefills < fuel) (hs : Idle P s)
    (h : Prompt fuel (s, w)) : ∃ j res, Answers fuel j s res ∧ fill fuel s = conclude res := by
  rcases fill_cases hP fuel hs with hres | ⟨j, t, e, ht, hj, -⟩
  · exact hres
  · have hle : j ≤ patience s := h (s, w) .refl j t ht
    have hle' : patience s ≤ fuel := patience_le hfuel
    omega

end

/-! ## Giving up -/

/-- What a reader fails with that gives up. -/
def gaveUp : IoError :=
  .plain .other "exceeded maximum number of attempts to read next chunk of data"

section

variable [Session κ σ] [Source σ ρ] {P : κ → Prop} {s t : State σ κ ρ} {fuel : Nat}

/-- A reader that was started gives up after one silent draw more than it may refill in vain. -/
theorem refillLoop_of_silently (hP : Session.Quiet P) : ∀ (left : Nat) {s : State σ κ ρ},
    Idle P s → s.1.started = true → Silently fuel (left + 1) s t →
    refillLoop fuel left s = .error (.io gaveUp) t
  | left, s, hs, hst, h => by
    cases h with
    | @step _ u _ _ hd he h =>
      obtain ⟨hu, hst', -⟩ := hs.draw hP hd he
      have hrefill : refill fuel s = .ok .empty u := by
        rw [refill_of_started hs hst, hd, emit_silent hu]
      cases left with
      | zero =>
        cases h
        simp only [refillLoop, run_bind, hrefill]
        rfl
      | succ left =>
        rw [refillLoop]
        simp only [run_bind, hrefill]
        exact refillLoop_of_silently hP left hu hst' h

theorem readBytes_of_silently (hP : Session.Quiet P) (hs : Idle P s) (hst : s.1.started = true)
    {n : Nat} (hn : n ≠ 0) (h : Silently fuel (maxEmptyRefills + 1) s t) :
    (readBytes fuel n : Pull σ κ ρ Bytes) s = .error (.io gaveUp) t := by
  rw [readBytes_of_idle hs hn, readFilled, fill_of_idle hs,
    refillLoop_of_silently hP maxEmptyRefills hs hst h]
  rfl

end

/-! ## Readers that decrypt -/

section

variable [Session κ σ] [Source σ ρ] {S : WorkingSource σ ρ} {D : Bytes → Progress}
  {At : Bytes → κ → Prop} {w fed : Bytes} {s t : State σ κ ρ} {fuel j : Nat}

/-- A draw of a decrypting reader that was started fails as the whole source does, or comes to its
end, or takes a block. -/
theorem draw_reads (hD : Decodes D At w) (h : Reads S At w fed s.1) (hst : s.1.started = true)
    (he : s.1.eof = false) (fuel : Nat) :
    (∃ e t, draw fuel s = .error e t ∧ (D w).error? = some e) ∨
    (∃ t, draw fuel s = .ok [] t ∧ t.1.eof = true) ∨
    ∃ out t block, draw fuel s = .ok out t ∧ t.1.eof = false ∧ t.1.started = true ∧ block ≠ [] ∧
      Reads S At w (fed ++ block) t.1 ∧ (D (fed ++ block)).plain = (D fed).plain ++ out := by
  obtain ⟨r, env⟩ := s
  rw [draw_of_started h.usable he hst, run_bind]
  obtain ⟨block, i, env', hread, hcase⟩ := feed_block hD h fuel env
  rw [hread]
  simp only [feed]
  rcases hcase with ⟨rfl, rfl, -, -⟩ | ⟨hb, e, t, he', hu⟩ | ⟨hb, out, k, env'', hu, h', hplain⟩
  · rw [if_pos List.isEmpty_nil]
    have hk : At fed r.session := h.session
    cases hw : D fed with
    | failed e =>
      have hgoing := hD.going hk
      rw [hw] at hgoing
      cases hgoing
    | awaiting n =>
      obtain ⟨t, ht⟩ := finish_awaiting hD hk hw (r := { r with inner := i }) rfl env'
      exact .inl ⟨_, t, ht, rfl⟩
    | ready p =>
      obtain ⟨k', v, ht, -⟩ := finish_ready hD hk hw (r := { r with inner := i }) rfl env'
      exact .inr (.inl ⟨_, ht, rfl⟩)
  · rw [if_neg (by simpa using hb)]
    exact .inl ⟨e, t, hu, he'⟩
  · rw [if_neg (by simpa using hb)]
    exact .inr (.inr ⟨out, _, block, hu, he, hst, hb, h', hplain⟩)

/-- The draw that starts the session changes nothing else. -/
theorem draw_reads_fresh (hD : Decodes D At w) (h : Reads S At w fed s.1)
    (hst : s.1.started = false)
    (he : s.1.eof = false) (fuel : Nat) : ∃ t, draw fuel s = .ok [] t ∧ t.1.started = true ∧
      Reads S At w fed t.1 := by
  rw [draw_of_fresh h.usable he hst]
  obtain ⟨r, env⟩ := s
  simp only [startSession, run_bind, run_update, run_onSession, hD.start h.session]
  exact ⟨_, rfl, rfl, h.of_eq rfl rfl rfl rfl rfl⟩

/-- At the end nothing is drawn. -/
theorem reached_draw_of_eof (he : s.1.eof = true) : reached (draw fuel s) = s := by
  simp only [draw, checkAbort, run_bind, run_get, run_check]
  cases s.1.abort.check s.2 with
  | error e => rfl
  | ok _ =>
    simp only [run_ite, he, if_true]
    rfl

theorem Silently.going (h : Silently fuel (j + 1) s t) : s.1.eof = false := by
  cases h with
  | @step _ u _ _ hd he _ =>
    cases hs : s.1.eof with
    | false => rfl
    | true =>
      have hu : u = s := by
        have hreached : reached (draw fuel s) = s := reached_draw_of_eof hs
        rwa [hd] at hreached
      rw [← hu] at hs
      rw [hs] at he
      cases he

/-- Whoever draws in vain has not decided about the header, although each draw took at least a byte.
By induction on the draws. -/
theorem awaiting_of_silently (hD : Decodes D At w) : ∀ (j : Nat) {fed : Bytes} {s : State σ κ ρ},
    Reads S At w fed s.1 → s.1.started = true → Silently fuel (j + 1) s t →
    ∃ fed' n, fed <+: fed' ∧ fed' <+: w ∧ fed' ≠ w ∧ fed.length + j ≤ fed'.length ∧
      D fed' = .awaiting n
  | j, fed, s, h, hst, hsilent => by
    have heof := hsilent.going
    cases hsilent with
    | @step _ u _ _ hd he hsilent =>
      rcases draw_reads hD h hst heof fuel with ⟨e, u', hd', -⟩ | ⟨u', hd', he'⟩ |
        ⟨out, u', block, hd', -, hst', hb, h', hplain⟩
      · rw [hd'] at hd
        cases hd
      · rw [hd'] at hd
        cases hd
        rw [he'] at he
        cases he
      · rw [hd'] at hd
        cases hd
        have hpos : 0 < block.length := List.length_pos_iff.mpr hb
        cases j with
        | zero =>
          have hw := h'.split
          have hfed : fed ≠ w := by
            intro hfed
            have hlen := congrArg List.length hw
            rw [← hfed, List.length_append, List.length_append] at hlen
            omega
          have hgoing := hD.going h.session
          cases hfed' : D fed with
          | failed e =>
            rw [hfed'] at hgoing
            cases hgoing
          | awaiting n =>
            exact ⟨fed, n, List.prefix_rfl, ⟨_, h.split⟩, hfed, Nat.le_refl _, hfed'⟩
          | ready p =>
            obtain ⟨q, hq, hmore⟩ := hD.grows.ready hfed' block
            rw [hfed', hmore, Progress.plain, Progress.plain, List.append_nil] at hplain
            have hq' : q = [] := by simpa using hplain
            rw [hq', List.length_nil] at hq
            omega
        | succ j =>
          obtain ⟨fed', n, hfed, hpre, hne, hlen, hn⟩ := awaiting_of_silently hD j h' hst' hsilent
          rw [List.length_append] at hlen
          exact ⟨fed', n, List.IsPrefix.trans (List.prefix_append _ _) hfed, hpre, hne, by omega,
            hn⟩

/-- As long as the bytes do not tell, the session takes what comes behind `fed` and gives nothing. -/
def Collects (D : Bytes → Progress) (At : Bytes → κ → Prop) (w fed : Bytes) (k : κ) : Prop :=
  ∀ {more : Bytes} {n : Nat}, fed ++ more <+: w → D (fed ++ more) = .awaiting n →
    ∀ v : σ, ∃ k' v', Session.update more (k, v) = .ok [] (k', v') ∧ At (fed ++ more) k'

theorem collects (hD : Decodes D At w) {k : κ} (hk : At fed k) :
    Collects (σ := σ) D At w fed k := by
  intro more n hpre hn v
  rcases hD.update hk hpre v with ⟨e, t, he, -⟩ | ⟨out, k', v', hu, hk', hplain⟩
  · rw [hn] at he
    cases he
  · rw [hn] at hplain
    have hout : out = [] := (List.append_eq_nil_iff.mp hplain.symm).2
    exact ⟨k', v', hout ▸ hu, hk'⟩

/-- A draw that leaves the header undecided takes a block and gives nothing. -/
theorem draw_awaiting (hD : Decodes D At w) (h : Reads S (Collects (σ := σ) D At w) w fed s.1)
    (hst : s.1.started = true) (he : s.1.eof = false) {m n : Nat}
    (hn : D (w.take m) = .awaiting n) (hm : fed.length + s.1.blockSize ≤ m) (hw : m < w.length)
    (fuel : Nat) : ∃ block t, draw fuel s = .ok [] t ∧ t.1.started = true ∧ t.1.eof = false ∧
      t.1.blockSize = s.1.blockSize ∧ block.length ≤ s.1.blockSize ∧
      Reads S At w (fed ++ block) t.1 := by
  obtain ⟨r, env⟩ := s
  rw [draw_of_started h.usable he hst, run_bind]
  obtain ⟨block, i, env', hread, hi, hlen, hsplit, hend⟩ := readBlock_spec h fuel env
  have hfed := h.split
  rw [hsplit, ← List.append_assoc] at hfed
  have hb : block ≠ [] := by
    intro hnil
    have hall := congrArg List.length h.split
    rw [hend hnil, List.length_append, List.length_nil] at hall
    omega
  -- the block ends before the bytes that tell
  obtain ⟨more, hmore⟩ : fed ++ block <+: w.take m :=
    List.prefix_of_prefix_length_le ⟨_, hfed⟩ (List.take_prefix m w)
      (by rw [List.length_append, List.length_take]; omega)
  obtain ⟨b, hb'⟩ := hD.grows.awaiting_of_append (hmore ▸ hn)
  obtain ⟨k, v, hu, hk⟩ := h.session ⟨_, hfed⟩ hb' env'.world
  rw [hread]
  simp only [feed]
  rw [if_neg (by simpa using hb), run_onSession, hu]
  exact ⟨block, _, rfl, hst, he, rfl, hlen, hi, h.block, h.abort, h.failed, hk, hfed⟩

/-- Blocks that leave the header undecided are drawn in vain, as many as there are of them. By
induction on the draws. -/
theorem silently_of_awaiting (hD : Decodes D At w) {m n : Nat} (hn : D (w.take m) = .awaiting n)
    (hw : m < w.length) : ∀ (j : Nat) {fed : Bytes} {s : State σ κ ρ},
    Reads S (Collects (σ := σ) D At w) w fed s.1 → s.1.started = true → s.1.eof = false →
    fed.length + j * s.1.blockSize ≤ m → ∃ t, Silently fuel j s t
  | 0, fed, s, h, hst, he, hm => ⟨s, .refl s⟩
  | j + 1, fed, s, h, hst, he, hm => by
    rw [Nat.succ_mul] at hm
    obtain ⟨block, u, hd, hst', he', hsize, hlen, hu⟩ :=
      draw_awaiting hD h hst he hn (by omega) hw fuel
    have hu' : Reads S (Collects (σ := σ) D At w) w (fed ++ block) u.1 :=
      { hu with session := collects hD hu.session }
    have hm' : (fed ++ block).length + j * u.1.blockSize ≤ m := by
      rw [List.length_append, hsize]
      omega
    obtain ⟨t, ht⟩ := silently_of_awaiting hD hn hw j hu' hst' he' hm'
    exact ⟨t, .step hd he' ht⟩

/-- The first `n` bytes of `w` decide about the header, or they are all of it. -/
def Decided (D : Bytes → Progress) (w : Bytes) (n : Nat) : Prop :=
  n < w.length → ∀ buffered, D (w.take n) ≠ .awaiting buffered

/-- What is decided early is not drawn in vain for long. -/
theorem le_of_silently (hD : Decodes D At w) {n : Nat} (hn : Decided D w n)
    (h : Reads S At w fed s.1) (hst : s.1.started = true) (hsilent : Silently fuel j s t) :
    j ≤ n := by
  cases j with
  | zero => exact Nat.zero_le n
  | succ j =>
    obtain ⟨fed', buffered, -, hpre, hne, hlen, hawaiting⟩ :=
      awaiting_of_silently hD j h hst hsilent
    refine Nat.lt_of_not_le fun hle => ?_
    have hlt : fed'.length < w.length :=
      Nat.lt_of_le_of_ne hpre.length_le fun heq => hne (hpre.eq_of_length heq)
    obtain ⟨more, hmore⟩ : w.take n <+: fed' :=
      List.prefix_of_prefix_length_le (List.take_prefix n w) hpre
        (by rw [List.length_take]; omega)
    obtain ⟨b, hb⟩ := hD.grows.awaiting_of_append (hmore ▸ hawaiting)
    exact hn (by omega) b hb

/-- Where draws and writes lead a decrypting reader: it still reads, or it is at its end. -/
theorem reads_of_reaches [Sink σ ς] (hD : Decodes D At w)
    (hx : ∀ e, (D w).error? = some e → e.toIo.isInterrupted = false) {sink : ς}
    {y : State σ κ ρ × ς} (h : Reads S At w fed s.1) (hy : Reaches fuel (s, sink) y) :
    y.1.1.eof = true ∨ ∃ fed, Reads S At w fed y.1.1 := by
  induction hy with
  | refl => exact .inr ⟨fed, h⟩
  | write bytes _ ih => exact ih
  | @draw s v _ hgo ih =>
    rcases ih with he | ⟨fed, h⟩
    · rw [reached_draw_of_eof he]
      exact .inl he
    · cases he : s.1.eof with
      | true =>
        rw [reached_draw_of_eof he]
        exact .inl he
      | false =>
        cases hst : s.1.started with
        | true =>
          rcases draw_reads hD h hst he fuel with ⟨e, t, hd, hw⟩ | ⟨t, hd, ht⟩ |
            ⟨out, t, block, hd, -, -, -, ht, -⟩
          · have hinterrupted := hgo e (by rw [hd]; rfl)
            rw [hx e hw] at hinterrupted
            cases hinterrupted
          · rw [hd]
            exact .inl ht
          · rw [hd]
            exact .inr ⟨_, ht⟩
        | false =>
          obtain ⟨t, hd, -, ht⟩ := draw_reads_fresh hD h hst he fuel
          rw [hd]
          exact .inr ⟨fed, ht⟩

/-- **A decrypting reader is prompt** if the first `maxEmptyRefills` bytes of its source decide
about the header, however the source cuts them. -/
theorem prompt_of_decodes [Sink σ ς] (hD : Decodes D At w)
    (hx : ∀ e, (D w).error? = some e → e.toIo.isInterrupted = false)
    (hn : Decided D w maxEmptyRefills) (h : Reads S At w fed s.1) (sink : ς) :
    Prompt fuel (s, sink) := by
  rintro ⟨t, v⟩ hy j u hsilent
  rcases reads_of_reaches hD hx h hy with he | ⟨fed, h⟩
  · cases j with
    | zero => exact Nat.zero_le _
    | succ j =>
      rw [hsilent.going] at he
      cases he
  · cases hst : t.1.started with
    | true =>
      exact Nat.le_trans (le_of_silently hD hn h hst hsilent) le_patience
    | false =>
      cases j with
      | zero => exact Nat.zero_le _
      | succ j =>
        have heof := hsilent.going
        cases hsilent with
        | step hd he hsilent =>
          obtain ⟨v, hd', hst', hv⟩ := draw_reads_fresh hD h hst heof fuel
          rw [hd'] at hd
          cases hd
          have hle := le_of_silently hD hn hv hst' hsilent
          cases hr : Session.isReady t.1.session with
          | false =>
            simpa only [patience, hst, hr, Bool.or_false, Bool.false_eq_true, if_false] using
              Nat.succ_le_succ hle
          | true =>
            rw [hD.isReady h.session] at hr
            cases j with
            | zero => exact Nat.le_trans (by decide) (le_patience (s := t))
            | succ j =>
              obtain ⟨fed', n, ⟨more, rfl⟩, -, -, -, hn⟩ :=
                awaiting_of_silently hD j hv hst' hsilent
              obtain ⟨m, hm⟩ := hD.grows.awaiting_of_append hn
              rw [hm] at hr
              cases hr

end

end CipherReader

end SealedStream
