import SealedStream.Proofs.Stream.Flaky
import SealedStream.Proofs.Stream.Patience

/-!
# Interrupted reads

`decrypt` tries an interrupted read again. A read that was interrupted in the middle goes on where
it was, and counts the draws that give nothing anew; but a first read that is interrupted goes on as
a later one, which bears only so many of them. So interruptions are not seen if no read ever comes
to the end of its patience (`decrypt_interrupted`), and are seen if the header takes more reads than
that (`decrypt_gave_up`).
-/

namespace SealedStream

namespace CipherReader

variable {σ κ ρ ς : Type} {failure : Nat → Option IoError}

/-! ## Readers in step -/

section

variable [Session κ σ] [Source σ ρ] {P : κ → Prop} {fuel i j n c : Nat}

theorem Silently.smooth {q u : State σ κ (Flaky failure ρ)} (h : Silently fuel j q u) :
    Silently fuel j (CipherReader.smooth q) (CipherReader.smooth u) := by
  induction h with
  | refl q => exact .refl _
  | @step q t u j hd he _ ih =>
    rcases draw_flaky fuel q with ⟨e, -, hmiss⟩ | hsmooth
    · rw [hmiss] at hd
      cases hd
    · rw [hd] at hsmooth
      exact .step hsmooth he ih

/-- So many reads of the flaky source were made. -/
def CallsFrom (c : Nat) (q : State σ κ (Flaky failure ρ)) : Prop := c ≤ q.1.inner.calls

omit [Session κ σ] [Source σ ρ] in
theorem keeps_calls_onSession (x : Step (κ × σ) Bytes) :
    Keeps (CallsFrom c) (onSession x : Pull σ κ (Flaky failure ρ) Bytes) := by
  refine .zoom ?_ x
  intro u q hq
  exact hq

omit [Source σ ρ] in
theorem keeps_calls_feed (block : Bytes) :
    Keeps (CallsFrom c) (feed block : Pull σ κ (Flaky failure ρ) Bytes) := by
  refine .ite _ (.bind (keeps_calls_onSession _) fun tail => ?_) (keeps_calls_onSession _)
  exact .bind (.modify fun _ h => h) fun _ => .pure _

/-- A draw makes no read undone. -/
theorem keeps_calls_draw : Keeps (CallsFrom c) (draw fuel : Pull σ κ (Flaky failure ρ) Bytes) := by
  refine .bind (.bind .get fun _ => .check _) fun _ => .bind .get fun (r, _) => ?_
  refine .ite _ (.pure _) (.ite _ (.bind ?_ keeps_calls_feed) ?_)
  · intro q hq
    rw [run_readBlock]
    have hcalls : c ≤ q.1.inner.calls + 1 := Nat.le_succ_of_le hq
    simp only [Source.read]
    cases failure q.1.inner.calls with
    | some e => exact hcalls
    | none =>
      cases (Source.read fuel q.1.blockSize : Transfer σ ρ Bytes) (q.1.inner.inner, q.2) with
      | error e u => exact hcalls
      | ok block u =>
        simp only [mapState]
        cases q.1.abort.check u.2 <;> exact hcalls
  · exact .bind (.modify fun _ h => h) fun _ => keeps_calls_onSession _

theorem Silently.calls {q u : State σ κ (Flaky failure ρ)} (h : Silently fuel j q u) :
    q.1.inner.calls ≤ u.1.inner.calls := by
  induction h with
  | refl q => exact Nat.le_refl _
  | @step q t u j hd he _ ih =>
    have hkeeps : CallsFrom q.1.inner.calls (reached (draw fuel q)) :=
      keeps_calls_draw q (Nat.le_refl q.1.inner.calls)
    rw [hd] at hkeeps
    exact Nat.le_trans hkeeps ih

/-- All failures of the schedule are interruptions. -/
def Interrupts (failure : Nat → Option IoError) : Prop :=
  ∀ i e, failure i = some e → ∃ text, e = .plain .interrupted text

/-- The reader `q` over the flaky source is where the reader `p` over the source inside is, or has
made some of the silent draws of the next read of `p`. -/
def InStep (P : κ → Prop) (fuel : Nat) (p : State σ κ ρ) (q : State σ κ (Flaky failure ρ)) : Prop :=
  smooth q = p ∨ Idle P p ∧ ∃ j, Silently fuel j p (smooth q)

variable [Sink σ ς] {s t p : State σ κ ρ} {w : ς} {q : State σ κ (Flaky failure ρ)}

omit [Source σ ρ] [Sink σ ς] in
theorem patience_smooth (q : State σ κ (Flaky failure ρ)) :
    patience (smooth q) = patience q := rfl

variable (hP : Session.Quiet P)

include hP

/-- A reader over a flaky source says what there is to say if it is prompt without the failures. -/
theorem fill_flaky_of_prompt (hfuel : maxEmptyRefills < fuel) (hq : Idle P q)
    (h : Prompt fuel (smooth q, w)) :
    ∃ j res, Answers fuel j q res ∧ fill fuel q = conclude res := by
  rcases fill_cases hP fuel hq with hres | ⟨j, t, e, ht, hj, -⟩
  · exact hres
  · have hle : j ≤ patience (smooth q) := h (smooth q, w) .refl j _ ht.smooth
    have hle' : patience (smooth q) ≤ fuel := patience_le hfuel
    rw [patience_smooth] at hle hle'
    omega

omit hP [Sink σ ς] [Session κ σ] [Source σ ρ] in
theorem isSilent_smooth {res : EStateM.Result Error (State σ κ (Flaky failure ρ)) Bytes} :
    IsSilent (mapState smooth res) ↔ IsSilent res := by
  match res with
  | .ok [] t => exact Iff.rfl
  | .ok (b :: bs) t => exact Iff.rfl
  | .error e t => exact Iff.rfl

omit hP [Sink σ ς] [Session κ σ] [Source σ ρ] in
theorem idle_smooth : Idle P (smooth q) ↔ Idle P q :=
  ⟨fun h => ⟨⟨h.usable.abort, h.usable.failed⟩, h.output, h.accessed, h.eof, h.session⟩,
    fun h => ⟨⟨h.usable.abort, h.usable.failed⟩, h.output, h.accessed, h.eof, h.session⟩⟩

/-- A read over a flaky source is interrupted on its way, or says what the read over the source
inside says. -/
theorem fill_inStep (hfuel : maxEmptyRefills < fuel) (hp : Idle P p) (hprompt : Prompt fuel (p, w))
    (hpq : Silently fuel j p (smooth q)) :
    (∃ e u, failure u.1.inner.calls = some e ∧ q.1.inner.calls ≤ u.1.inner.calls ∧
      fill fuel q = .error (.ofIo e) (missed u) ∧ ∃ i, Silently fuel i p (smooth u)) ∨
    ∃ i res, Answers fuel i p (mapState smooth res) ∧ fill fuel p = conclude (mapState smooth res) ∧
      fill fuel q = conclude res ∧ q.1.inner.calls ≤ (reached res).1.inner.calls := by
  have hq : Idle P q := idle_smooth.mp (hp.silently hP hpq)
  obtain ⟨i, res', ⟨u, hu, rfl, hres⟩, hfill⟩ :=
    fill_flaky_of_prompt hP hfuel hq (hprompt.reaches (.silently hpq))
  have hpu : Silently fuel (j + i) p (smooth u) := hpq.trans hu.smooth
  rcases draw_flaky fuel u with ⟨e, hfail, hd⟩ | hd
  · refine .inl ⟨e, u, hfail, hu.calls, ?_, j + i, hpu⟩
    rw [hfill, hd]
    rfl
  · have hanswers : Answers fuel (j + i) p (mapState smooth (draw fuel u)) :=
      ⟨smooth u, hpu, hd, fun h => hres (isSilent_smooth.mp h)⟩
    obtain ⟨k, res, hres', hfill'⟩ := fill_of_prompt hP hfuel hp hprompt
    rw [hres'.unique hanswers] at hfill'
    refine .inr ⟨j + i, draw fuel u, hanswers, hfill', hfill, ?_⟩
    exact keeps_calls_draw u hu.calls

omit hP [Sink σ ς] [Session κ σ] [Source σ ρ] in
theorem serve_smooth (res : EStateM.Result Error (State σ κ (Flaky failure ρ)) Bytes) :
    serve n (mapState smooth res) = mapState smooth (serve n res) := by
  cases res with
  | ok out t => rfl
  | error e t => exact congrArg (EStateM.Result.error e) (poison_smooth e t)

omit hP [Sink σ ς] [Session κ σ] [Source σ ρ] in
theorem inner_serve (res : EStateM.Result Error (State σ κ ρ) Bytes) :
    (reached (serve n res)).1.inner = (reached res).1.inner := by
  cases res with
  | ok out t => rfl
  | error e t =>
    simp only [serve, reached, poison]
    split <;> rfl

omit hP [Sink σ ς] [Session κ σ] [Source σ ρ] in
/-- A reader in the middle of its stream has to be refilled, or it has something left, or it is done
or has failed. -/
theorem idle_or_settled (hk : P s.1.session) (ha : s.1.accessed = true) :
    Idle P s ∨ (Usable s ∧ (s.1.output ≠ [] ∨ s.1.eof = true)) ∨ ∃ e, verdict s = .failed e := by
  by_cases hfailed : ∃ e, verdict s = .failed e
  · exact .inr (.inr hfailed)
  · have hs : Usable s := usable_of_verdict fun e he => hfailed ⟨e, he⟩
    by_cases hsettled : s.1.output ≠ [] ∨ s.1.eof = true
    · exact .inr (.inl ⟨hs, hsettled⟩)
    · simp only [not_or, ne_eq, Classical.not_not, Bool.not_eq_true] at hsettled
      exact .inl ⟨hs, hsettled.1, ha, hsettled.2, hk⟩

/-- **One read in step**: over the flaky source it is interrupted, or it gives what the read over
the source inside gives. -/
theorem readBytes_inStep (hf : Interrupts failure) (hfuel : maxEmptyRefills < fuel)
    (hk : P p.1.session) (ha : p.1.accessed = true) (hprompt : Prompt fuel (drained p, w))
    (hpq : InStep P fuel p q) (hn : n ≠ 0) :
    (∃ e t, (readBytes fuel n : Pull σ κ (Flaky failure ρ) Bytes) q = .error (.io e) t ∧
      e.isInterrupted = true ∧ InStep P fuel p t ∧
      ∃ c, failure c ≠ none ∧ q.1.inner.calls ≤ c ∧ c < t.1.inner.calls) ∨
    ∃ res, (readBytes fuel n : Pull σ κ (Flaky failure ρ) Bytes) q = res ∧
      (readBytes fuel n : Pull σ κ ρ Bytes) p = mapState smooth res ∧
      q.1.inner.calls ≤ (reached res).1.inner.calls := by
  rcases idle_or_settled hk ha with hp | ⟨hs, ho⟩ | ⟨e, he⟩
  · obtain ⟨j, hj⟩ : ∃ j, Silently fuel j p (smooth q) := by
      rcases hpq with rfl | ⟨-, h⟩
      · exact ⟨0, .refl _⟩
      · exact h
    rw [drained_of_output hp.output ha] at hprompt
    have hq : Idle P q := idle_smooth.mp (hp.silently hP hj)
    rw [readBytes_of_idle hp hn, readBytes_of_idle hq hn]
    rcases fill_inStep hP hfuel hp hprompt hj with ⟨e, u, hfail, hcalls, hfill, hu⟩ |
      ⟨i, res, -, hfill, hfill', hcalls⟩
    · obtain ⟨text, rfl⟩ := hf _ _ hfail
      have hread : readFilled fuel n q = .error (.io (.plain .interrupted text)) (missed u) := by
        unfold readFilled
        rw [hfill]
        rfl
      refine .inl ⟨_, missed u, hread, rfl, .inr ⟨hp, hu⟩, u.1.inner.calls, ?_, hcalls, ?_⟩
      · rw [hfail]
        exact Option.some_ne_none _
      · exact Nat.lt_succ_self _
    · refine .inr ⟨serve n res, readFilled_of_conclude hfill' n, ?_, ?_⟩
      · rw [readFilled_of_conclude hfill, serve_smooth]
      · rwa [inner_serve]
  · obtain rfl : smooth q = p := by
      rcases hpq with h | ⟨hp, -⟩
      · exact h
      · rcases ho with ho | he
        · exact absurd hp.output ho
        · exact absurd (hp.eof.symm.trans he) Bool.false_ne_true
    rw [readBytes_of_settled hs (.inr ho)]
    exact .inr ⟨_, readBytes_of_settled (s := q) ⟨hs.abort, hs.failed⟩ (.inr ho), rfl,
      Nat.le_refl _⟩
  · obtain rfl : smooth q = p := by
      rcases hpq with h | ⟨hp, -⟩
      · exact h
      · rw [hp.going] at he
        cases he
    rw [readBytes_of_failed he]
    exact .inr ⟨_, readBytes_of_failed (s := q) he, rfl, Nat.le_refl _⟩

/-- What a read leaves to the next one. -/
theorem readBytes_next (hfuel : maxEmptyRefills < fuel) (hk : P p.1.session)
    (ha : p.1.accessed = true) (hprompt : Prompt fuel (drained p, w)) (hn : n ≠ 0)
    {res : EStateM.Result Error (State σ κ ρ) Bytes}
    (hread : (readBytes fuel n : Pull σ κ ρ Bytes) p = res)
    (hnext : ∀ e, outcome res = .error e → e.toIo.isInterrupted = true) :
    P (reached res).1.session ∧ (reached res).1.accessed = true ∧
      Reaches fuel (drained p, w) (drained (reached res), w) := by
  rcases idle_or_settled hk ha with hp | ⟨hs, ho⟩ | ⟨e, he⟩
  · rw [drained_of_output hp.output ha] at hprompt ⊢
    obtain ⟨j, last, hlast, hfill⟩ := fill_of_prompt hP hfuel hp hprompt
    obtain ⟨ho, ha, -, hk⟩ := hp.of_answer hP hlast
    rw [readBytes_of_idle hp hn, readFilled_of_conclude hfill] at hread
    subst hread
    cases last with
    | ok out u =>
      have hdrained : drained (reached (serve n (.ok out u))) = u := drained_eq ho ha _
      rw [hdrained]
      exact ⟨hk, ha, .answers hlast fun e h => by cases h⟩
    | error e u =>
      have hinterrupted : e.toIo.isInterrupted = true := hnext e rfl
      have hio : e.isIo = true := by
        cases hio : e.isIo with
        | true => rfl
        | false =>
          rw [Error.not_isInterrupted hio] at hinterrupted
          cases hinterrupted
      have hu : reached (serve n (.error e u)) = u := by
        simp only [serve, reached, poison, hio, if_true]
      rw [hu, drained_of_output (s := u) ho ha]
      exact ⟨hk, ha, .answers hlast fun e' h => by cases h; exact hinterrupted⟩
  · rw [readBytes_of_settled hs (.inr ho)] at hread
    subst hread
    exact ⟨hk, rfl, .refl⟩
  · rw [readBytes_of_failed he] at hread
    subst hread
    exact ⟨hk, ha, .refl⟩

/-- A copying loop over the flaky source at `q` has read and written what one over the source inside
at `p` has, and both go on in step. -/
structure Abreast (P : κ → Prop) (fuel : Nat) (p : State σ κ ρ)
    (q : State σ κ (Flaky failure ρ)) (w : ς) : Prop where
  session : P p.1.session
  accessed : p.1.accessed = true
  prompt : Prompt fuel (drained p, w)
  inStep : InStep P fuel p q

/-- The read of a round: it is interrupted, or it is the read over the source inside. -/
theorem Abreast.read (h : Abreast P fuel p q w) (hf : Interrupts failure)
    (hfuel : maxEmptyRefills < fuel) (hn : n ≠ 0) :
    (∃ e t, (readBytes fuel n : Pull σ κ (Flaky failure ρ) Bytes) q = .error (.io e) t ∧
      e.isInterrupted = true ∧ Abreast P fuel p t w ∧
      ∃ c, failure c ≠ none ∧ q.1.inner.calls ≤ c ∧ c < t.1.inner.calls) ∨
    ∃ res, (readBytes fuel n : Pull σ κ (Flaky failure ρ) Bytes) q = res ∧
      (readBytes fuel n : Pull σ κ ρ Bytes) p = mapState smooth res ∧
      q.1.inner.calls ≤ (reached res).1.inner.calls ∧
      ((∀ e, outcome res = .error e → e.toIo.isInterrupted = true) →
        Abreast P fuel (smooth (reached res)) (reached res) w) := by
  rcases readBytes_inStep hP hf hfuel h.session h.accessed h.prompt h.inStep hn with
    ⟨e, t, hq, he, hpt, hc⟩ | ⟨res, hq, hp, hcalls⟩
  · exact .inl ⟨e, t, hq, he, ⟨h.session, h.accessed, h.prompt, hpt⟩, hc⟩
  · refine .inr ⟨res, hq, hp, hcalls, fun hgo => ?_⟩
    have hnext := readBytes_next hP hfuel h.session h.accessed h.prompt hn hp
    rw [reached_mapState, outcome_mapState] at hnext
    obtain ⟨hk, ha, hreaches⟩ := hnext hgo
    exact ⟨hk, ha, h.prompt.reaches hreaches, .inl rfl⟩

omit hP in
/-- The write of a round. -/
theorem Abreast.write {t : State σ κ (Flaky failure ρ)} (h : Abreast P fuel (smooth t) t w)
    {bytes : Bytes} {u : Unit} {v : ς × Env σ}
    (hrun : Sink.writeAll fuel bytes (w, t.2) = .ok u v) :
    Abreast P fuel (smooth (t.1, v.2)) (t.1, v.2) v.1 where
  session := h.session
  accessed := h.accessed
  inStep := .inl rfl
  prompt := by
    have hwrite := Reaches.writeAllLoop (drained (smooth t)).1 fuel fuel bytes w t.2
    rw [Sink.writeAll] at hrun
    rw [hrun] at hwrite
    exact h.prompt.reaches hwrite

omit hP [Session κ σ] [Source σ ρ] [Sink σ ς] in
/-- The state of a copying loop over a flaky source as one over the source inside. -/
def forget (t : (CipherReader κ (Flaky failure ρ) × ς) × Env σ) : (CipherReader κ ρ × ς) × Env σ :=
  (((smooth (t.1.1, t.2)).1, t.1.2), t.2)

/-- Copying in step: by induction on the rounds over the flaky source, each of which is one over the
source inside or is used up by an interruption. -/
theorem copyLoop_inStep (hf : Interrupts failure) (hfuel : maxEmptyRefills < fuel) {bound : Nat}
    (hbound : ∀ i, bound ≤ i → failure i = none) : ∀ (K rounds count : Nat) {p : State σ κ ρ}
    {q : State σ κ (Flaky failure ρ)} {w : ς}, Abreast P fuel p q w →
    rounds + (bound - q.1.inner.calls) ≤ K →
    (∀ t, copyLoop fuel rounds count ((p.1, w), p.2) ≠ .error .stalled t) →
    mapState forget (copyLoop fuel K count ((q.1, w), q.2)) =
      copyLoop fuel rounds count ((p.1, w), p.2) := by
  intro K
  induction K with
  | zero =>
    intro rounds count p q w _ hK hdone
    obtain rfl : rounds = 0 := by omega
    exact absurd rfl (hdone _)
  | succ K ih =>
    intro rounds count p q w h hK hdone
    cases rounds with
    | zero => exact absurd rfl (hdone _)
    | succ rounds =>
      rcases h.read hP hf hfuel (show Source.copyLen ≠ 0 by decide) with
        ⟨e, t, hq, he, ht, c, hc, hcalls, hcalls'⟩ | ⟨res, hq, hp, hcalls, hnext⟩
      · have hbc : c < bound := Nat.lt_of_not_le fun hle => hc (hbound c hle)
        have hrun : copyLoop fuel (K + 1) count ((q.1, w), q.2) =
            copyLoop fuel K count ((t.1, w), t.2) := by
          rw [copyLoop]
          simp only [run_read, hq, Error.toIo, he, if_true]
        rw [hrun]
        exact ih (rounds + 1) count ht (by omega) hdone
      · rw [copyLoop] at hdone ⊢
        rw [copyLoop]
        simp only [run_read, hq, hp] at hdone ⊢
        cases res with
        | ok out t =>
          have hcalls : q.1.inner.calls ≤ t.1.inner.calls := hcalls
          cases out with
          | nil => rfl
          | cons b bs =>
            have ht := hnext fun e h => by cases h
            simp only [mapState] at hdone ⊢
            have henv : (smooth t).2 = t.2 := rfl
            rw [henv] at hdone
            simp only [henv]
            cases hrun : Sink.writeAll fuel (b :: bs) (w, t.2) with
            | ok u v =>
              rw [hrun] at hdone
              have hK' : rounds + (bound - t.1.inner.calls) ≤ K := by omega
              exact ih rounds (count + (b :: bs).length) (ht.write hrun) hK' hdone
            | error e v => rfl
        | error e t =>
          have hcalls : q.1.inner.calls ≤ t.1.inner.calls := hcalls
          simp only [mapState] at hdone ⊢
          by_cases he : e.toIo.isInterrupted = true
          · have ht := hnext fun e' h => by cases h; exact he
            rw [if_pos he] at hdone ⊢
            rw [if_pos he]
            exact ih rounds count ht (by omega) hdone
          · rw [if_neg he, if_neg he]
            rfl

end

/-! ## Copying -/

section

variable [Session κ σ] [Source σ ρ] [Sink σ ς] {P : κ → Prop} {fuel m n count : Nat}

omit [Session κ σ] in
/-- More rounds make no difference to a copying loop that does not run out of them. -/
theorem copyLoop_mono : ∀ {m n count : Nat} {t : (ρ × ς) × Env σ},
    (∀ u, copyLoop fuel m count t ≠ .error .stalled u) → m ≤ n →
    copyLoop fuel n count t = copyLoop fuel m count t
  | 0, _, _, t, h, _ => absurd rfl (h t)
  | m + 1, 0, _, _, _, hle => absurd hle (Nat.not_succ_le_zero m)
  | m + 1, n + 1, count, ((source, sink), env), h, hle => by
    have hmn : m ≤ n := Nat.le_of_succ_le_succ hle
    cases hread : (Source.read fuel Source.copyLen : Transfer σ ρ Bytes) (source, env) with
    | ok bytes t =>
      cases bytes with
      | nil => simp only [copyLoop, hread]
      | cons b bs =>
        cases hwrite : (Sink.writeAll fuel (b :: bs) : Transfer σ ς Unit) (sink, t.2) with
        | ok _ u =>
          simp only [copyLoop, hread, hwrite] at h ⊢
          exact copyLoop_mono h hmn
        | error e u => simp only [copyLoop, hread, hwrite]
    | error e t =>
      simp only [copyLoop, hread] at h ⊢
      by_cases he : e.isInterrupted = true
      · rw [if_pos he] at h ⊢
        rw [if_pos he]
        exact copyLoop_mono h hmn
      · rw [if_neg he, if_neg he]

/-- The first read of a reader notes that it was read, and changes nothing else by that. -/
theorem copyLoop_touched {s : State σ κ ρ} {w : ς} (hs : Usable s) (rounds count : Nat) :
    copyLoop fuel (rounds + 1) count
        ((({ s.1 with accessed := true } : CipherReader κ ρ), w), s.2) =
      copyLoop fuel (rounds + 1) count ((s.1, w), s.2) := by
  have hread : (readBytes fuel Source.copyLen : Pull σ κ ρ Bytes)
      ({ s.1 with accessed := true }, s.2) = readBytes fuel Source.copyLen s := by
    rw [readBytes_of_usable hs, readBytes_of_usable (s := ({ s.1 with accessed := true }, s.2))
      ⟨hs.abort, hs.failed⟩]
  simp only [copyLoop, run_read, hread]

end

end CipherReader

/-! ## Decrypting -/

open CipherReader

section

variable {σ κ ρ ς γ : Type} {failure : Nat → Option IoError} [Source σ ρ] [Sink σ ς]

/-- The failures of the schedule are not seen: what `decrypt` comes to over the flaky source, and
what it leaves of sink and source, is what it comes to without them. -/
def Unseen [Session κ σ] (failure : Nat → Option IoError) (fuel : Nat) (session : κ) (source : ρ)
    (sink : ς) (env : Env σ) : Prop :=
  mapState (fun t => ((t.1.1.inner, t.1.2), t.2))
    (decrypt fuel session (((⟨source, 0⟩ : Flaky failure ρ), sink), env)) =
  decrypt fuel session ((source, sink), env)

/-- Over the source inside, a reader of it is prompt and a copying loop has rounds enough. -/
structure Finishes [Session κ σ] (fuel rounds : Nat) (session : κ) (source : ρ) (sink : ς)
    (env : Env σ) : Prop where
  prompt : Prompt fuel (drained (CipherReader.new source session, env), sink)
  copies : ∀ t, copyLoop fuel rounds 0 ((CipherReader.new source session, sink), env) ≠
    .error .stalled t

section

variable [Session κ σ] {P : κ → Prop} {fuel rounds bound : Nat} {session : κ} {source : ρ}
  {sink : ς} {env : Env σ}

/-- Copying from the flaky source through a reader is copying from the source inside. -/
theorem copy_flaky (hP : Session.Quiet P) (hf : Interrupts failure) (hfuel : maxEmptyRefills < fuel)
    (hrounds : rounds + bound ≤ fuel) (hbound : ∀ i, bound ≤ i → failure i = none) (hk : P session)
    (h : Finishes fuel rounds session source sink env) :
    mapState forget
        (copy fuel ((CipherReader.new (⟨source, 0⟩ : Flaky failure ρ) session, sink), env)) =
      copy fuel ((CipherReader.new source session, sink), env) := by
  obtain ⟨hprompt, hdone⟩ := h
  cases rounds with
  | zero => exact absurd rfl (hdone _)
  | succ rounds =>
    obtain ⟨k, rfl⟩ : ∃ k, fuel = k + 1 := ⟨fuel - 1, by omega⟩
    have hs : Usable (CipherReader.new source session, env) := ⟨rfl, rfl⟩
    have hs' : Usable (CipherReader.new (⟨source, 0⟩ : Flaky failure ρ) session, env) := ⟨rfl, rfl⟩
    unfold copy
    rw [copyLoop_mono hdone (by omega)]
    rw [← copyLoop_touched hs] at hdone ⊢
    rw [← copyLoop_touched hs']
    have hinStep := copyLoop_inStep hP hf hfuel hbound (k + 1) (rounds + 1) 0
      (p := drained (CipherReader.new source session, env))
      (q := drained (CipherReader.new (⟨source, 0⟩ : Flaky failure ρ) session, env)) (w := sink)
    exact hinStep ⟨hk, rfl, hprompt, .inl rfl⟩ (by show _ + (bound - 0) ≤ _; omega) hdone

theorem unseen_of_quiet (hP : Session.Quiet P) (hf : Interrupts failure)
    (hfuel : maxEmptyRefills < fuel) (hrounds : rounds + bound ≤ fuel)
    (hbound : ∀ i, bound ≤ i → failure i = none) (hk : P session)
    (h : Finishes fuel rounds session source sink env) :
    Unseen failure fuel session source sink env := by
  have hcopy := copy_flaky hP hf hfuel hrounds hbound hk h
  unfold Unseen decrypt
  by_cases hm : Session.mode session = .decrypt
  · simp only [hm, ne_eq, not_true_eq_false, if_false, ← hcopy]
    cases copy fuel ((CipherReader.new (⟨source, 0⟩ : Flaky failure ρ) session, sink), env) with
    | error e t => rfl
    | ok n t =>
      simp only [mapState, forget]
      cases (Sink.flush fuel : Transfer σ ς Unit) (t.1.2, t.2) <;> rfl
  · simp only [ne_eq, hm, not_false_eq_true, if_true]
    rfl

end

/-- Streams that are decrypted finish, if their first bytes decide about the header: in pieces of
whatever size, as long as there is no failure. -/
theorem finishes_of_ready [Session κ σ] {S : WorkingSource σ ρ} (K : WorkingSink σ ς)
    {D : Bytes → Progress} {At : Bytes → κ → Prop} {source : ρ} {session : κ} {sink : ς}
    (hsource : S.works source) (hsink : K.works sink) (hD : Decodes D At (S.remaining source))
    (hk : At [] session) {plain : Bytes} (hplain : D (S.remaining source) = .ready plain)
    (hdecided : Decided D (S.remaining source) maxEmptyRefills) {fuel rounds : Nat}
    (hfuel : (S.remaining source).length < fuel) (hrounds : plain.length < rounds)
    (hle : rounds ≤ fuel) (env : Env σ) : Finishes fuel rounds session source sink env where
  prompt := by
    have hreads : Reads S At (S.remaining source) [] (CipherReader.new source session) :=
      (fresh_new hsource hk).reads
    have hdrained : Reads S At (S.remaining source) []
        (drained (CipherReader.new source session, env)).1 := hreads.of_eq rfl rfl rfl rfl rfl
    refine prompt_of_decodes hD (fun e he => ?_) hdecided hdrained sink
    rw [hplain] at he
    cases he
  copies := by
    intro t ht
    obtain ⟨r, s, env', hcopy, -⟩ := copyLoop_spec K hD hfuel rounds 0
      (.inl ⟨rfl, fresh_new hsource hk⟩) hplain hrounds (by omega) hsink env
    rw [hcopy] at ht
    cases ht

/-- **Interrupted reads are not seen** by `decrypt` if no read ever comes to the end of its
patience: over whatever source and sink, for sessions of every family and for dispatchers over such
sessions. `fuel` bounds the rounds of the loops; it has to suffice for the source alone and for one
more round an interruption. -/
theorem decrypt_interrupted [ContentCipher σ γ] (hf : Interrupts failure) {fuel rounds bound : Nat}
    (hfuel : maxEmptyRefills < fuel) (hrounds : rounds + bound ≤ fuel)
    (hbound : ∀ i, bound ≤ i → failure i = none) (source : ρ) (sink : ς) (env : Env σ) :
    (∀ session : FamilySession σ γ, Finishes fuel rounds session source sink env →
      Unseen failure fuel session source sink env) ∧
    ∀ d : Dispatcher σ (FamilySession σ γ), d.Loyal (fun _ => True) →
      Finishes fuel rounds d source sink env → Unseen failure fuel d source sink env :=
  ⟨fun _ h => unseen_of_quiet FamilySession.quiet hf hfuel hrounds hbound trivial h,
    fun _ hd h =>
      unseen_of_quiet (Dispatcher.quiet FamilySession.quiet) hf hfuel hrounds hbound hd h⟩

end

section

open Scripted

/-- The reads of these numbers are interrupted. -/
def interruptedAt (calls : List Nat) (i : Nat) : Option IoError :=
  if i ∈ calls then some (.plain .interrupted "try again") else none

theorem interrupts_interruptedAt (calls : List Nat) : Interrupts (interruptedAt calls) := by
  intro i e h
  unfold interruptedAt at h
  split at h
  · cases h
    exact ⟨_, rfl⟩
  · cases h

/-- A source that gives the bytes `w` up to seven at a time. -/
def bySevens (w : Bytes) : ScriptedSource := { data := w.toArray, chunk := some 7 }

theorem finishes_bySevens {σ κ : Type} [Session κ σ] {D : Bytes → Progress} {At : Bytes → κ → Prop}
    {w plain : Bytes} {session : κ} (hD : Decodes D At w) (hk : At [] session)
    (hplain : D w = .ready plain) (hw : w.length ≤ maxEmptyRefills) (hlen : plain.length < 60)
    (env : Env σ) : Finishes 1200 60 session (bySevens w) ({} : ScriptedSink) env := by
  have hsource : (ScriptedSource.working : WorkingSource σ ScriptedSource).works (bySevens w) :=
    ⟨rfl, by simp [bySevens]⟩
  have hsink : (ScriptedSink.working : WorkingSink σ ScriptedSink).works {} := ⟨rfl, rfl, by decide⟩
  have hfuel : w.length < 1200 := Nat.lt_of_le_of_lt hw (by decide)
  exact finishes_of_ready ScriptedSink.working hsource hsink hD hk hplain
    (fun h => absurd h (Nat.not_lt_of_le hw)) hfuel hlen (by decide) env

/-- A stream of two bytes, with and without an id in front. -/
theorem decrypt_interrupted_bare :
    (maxEmptyRefills < 1200 ∧ 60 + 5 ≤ 1200) ∧
    Unseen (interruptedAt [0, 1, 4]) 1200
      (bareBuilder.familySession BundledFamily.sm4.family .decrypt)
      (bySevens (bareHeader.encode ++ [5, 6])) ({} : ScriptedSink) ⟨[], ()⟩ ∧
    Unseen (interruptedAt [0, 1, 4]) 1200
      (bareBuilder.dispatcher .decrypt (Registry.bundled id id) 1 none)
      (bySevens (Bytes.be32 2 ++ bareHeader.encode ++ [5, 6])) ({} : ScriptedSink) ⟨[], ()⟩ := by
  have hw : bareBuilder.wrap.Functional := fun _ _ _ => rfl
  have hbound : ∀ i, 5 ≤ i → interruptedAt [0, 1, 4] i = none := by
    intro i hi
    unfold interruptedAt
    rw [if_neg]
    simp only [List.mem_cons, List.not_mem_nil, or_false]
    omega
  refine ⟨⟨by decide, by decide⟩, ?_, ?_⟩
  · have hopens := CipherBuilder.opens_familySession hw .sm4
    obtain ⟨p, hp⟩ : ∃ p, FamilySession.progress .sm4
        (bareBuilder.familySession BundledFamily.sm4.family .decrypt) ()
        (bareHeader.encode ++ [5, 6]) = .ready p := ⟨_, FamilySession.progress_of_opened rfl rfl⟩
    have hlen : p.length ≤ 46 := FamilySession.length_of_ready hp
    exact (decrypt_interrupted (interrupts_interruptedAt _) (by decide) (by decide) hbound _ _ _).1
      _ (finishes_bySevens (FamilySession.decodes hopens () _) (FamilySession.after_nil hopens ())
        hp (by decide) (by omega) _)
  · have hopens := CipherBuilder.opens_dispatcher hw 1 none
    obtain ⟨p, hp⟩ : ∃ p, Dispatcher.familyProgress CipherBuilder.familyOf
        (bareBuilder.dispatcher .decrypt (Registry.bundled id id) 1 none) ()
        (Bytes.be32 2 ++ bareHeader.encode ++ [5, 6]) = .ready p := ⟨_, rfl⟩
    have hlen : p.length ≤ 50 := Dispatcher.length_of_ready hp
    exact (decrypt_interrupted (interrupts_interruptedAt _) (by decide) (by decide) hbound _ _ _).2
      _ (bareBuilder.loyal_dispatcher .decrypt 1 none)
      (finishes_bySevens (Dispatcher.family_decodes hopens () _)
        (Dispatcher.familyAfter_nil hopens () _) hp (by decide) (by omega) _)

end

section

variable {σ κ ρ ς : Type} {failure : Nat → Option IoError} [Source σ ρ] [Sink σ ς]

/-! ## Giving up on the header -/

section

variable [Session κ σ] {P : κ → Prop} {fuel : Nat} {session : κ} {source : ρ} {sink : ς}
  {env : Env σ}

/-- A reader whose first read was interrupted before a byte came. -/
def interruptedAtOnce (failure : Nat → Option IoError) (source : ρ) (session : κ) (env : Env σ) :
    State σ κ (Flaky failure ρ) :=
  ({ CipherReader.new ⟨source, 1⟩ session with started := true, accessed := true }, env)

omit [Sink σ ς] in
theorem readBytes_interrupted (hP : Session.Quiet P) (hk : P session)
    (hm : Session.mode session = .decrypt) {text : String}
    (hfail : failure 0 = some (.plain .interrupted text)) {n : Nat} (hn : n ≠ 0)
    (hfuel : 1 ≤ fuel) :
    (readBytes fuel n : Pull σ κ (Flaky failure ρ) Bytes)
        (CipherReader.new (⟨source, 0⟩ : Flaky failure ρ) session, env) =
      .error (.io (.plain .interrupted text)) (interruptedAtOnce failure source session env) := by
  have hs : Idle P (drained (CipherReader.new (⟨source, 0⟩ : Flaky failure ρ) session, env)) :=
    ⟨⟨rfl, rfl⟩, rfl, rfl, rfl, hk⟩
  have hstart :
      draw fuel (drained (CipherReader.new (⟨source, 0⟩ : Flaky failure ρ) session, env)) = .ok []
        ({ CipherReader.new ⟨source, 0⟩ session with started := true, accessed := true },
          env) := by
    rw [draw_of_fresh hs.usable rfl rfl]
    simp only [startSession, run_bind, drained, run_update, run_onSession, CipherReader.new,
      hP.start hk hm]
  have hanswer : Answers fuel 1
      (drained (CipherReader.new (⟨source, 0⟩ : Flaky failure ρ) session, env))
      (.error (.io (.plain .interrupted text)) (interruptedAtOnce failure source session env)) := by
    refine ⟨_, .step hstart rfl (.refl _), ?_, id⟩
    rw [draw_of_started ⟨rfl, rfl⟩ rfl rfl, run_bind, run_readBlock]
    simp only [Source.read, CipherReader.new, hfail]
    rfl
  have hfill := fill_of_answer hP hs hanswer (Nat.le_trans (by decide) le_patience) hfuel
  rw [readBytes_of_usable ⟨rfl, rfl⟩, if_neg hn]
  exact readFilled_of_conclude hfill n

/-- **A header that is too long for one read is given up** if the first read was interrupted,
although without that it would have been read to its end. -/
theorem decrypt_gave_up (hP : Session.Quiet P) (hk : P session)
    (hm : Session.mode session = .decrypt) {text : String}
    (hfail : failure 0 = some (.plain .interrupted text)) {t : State σ κ (Flaky failure ρ)}
    (ht : Silently (fuel + 2) (maxEmptyRefills + 1)
      (interruptedAtOnce failure source session env) t) :
    decrypt (fuel + 2) session (((⟨source, 0⟩ : Flaky failure ρ), sink), env) =
      .error (.io gaveUp) ((t.1.inner, sink), t.2) := by
  have hn : Source.copyLen ≠ 0 := by decide
  have hs : Idle P (interruptedAtOnce failure source session env) := ⟨⟨rfl, rfl⟩, rfl, rfl, rfl, hk⟩
  have hcopy : copy (fuel + 2)
      ((CipherReader.new (⟨source, 0⟩ : Flaky failure ρ) session, sink), env) =
      .error gaveUp ((t.1, sink), t.2) := by
    have hsecond := readBytes_of_silently hP hs rfl hn ht
    rw [copy, copyLoop]
    simp only [run_read, readBytes_interrupted hP hk hm hfail hn (Nat.succ_pos (fuel + 1))]
    rw [copyLoop]
    simp only [run_read, hsecond]
    rfl
  simp only [decrypt, hm, ne_eq, not_true_eq_false, if_false, hcopy]
  rfl

end

end

section

open Scripted

variable {σ γ : Type} {failure : Nat → Option IoError} [ContentCipher σ γ]

/-- A source that gives one byte at a time, after `i` bytes. -/
def dripping (w : Bytes) (i : Nat) : ScriptedSource :=
  { data := w.toArray, chunk := some 1, pos := i, reads := i }

theorem read_dripping {w : Bytes} {i n : Nat} (hi : i < w.length) (hn : 0 < n) (fuel : Nat)
    (env : Env σ) : (Source.read fuel n : Transfer σ ScriptedSource Bytes) (dripping w i, env) =
      .ok [w[i]] (dripping w (i + 1), env) := by
  have hlimit : limited (some 1) n = 1 := Nat.min_eq_left hn
  have hpart : (dripping w i).part n = [w[i]] := by
    rw [ScriptedSource.part, dripping, hlimit, List.drop_eq_getElem_cons hi]
    rfl
  rw [ScriptedSource.read_eq (r := dripping w i) rfl, hpart]
  rfl

/-- A reader that has `i` bytes of a header from such a source, after a first read that failed. -/
def dripped (failure : Nat → Option IoError) (w : Bytes) (s : FamilySession σ γ) (env : Env σ)
    (i : Nat) : State σ (FamilySession σ γ) (Flaky failure ScriptedSource) :=
  ({ CipherReader.new ⟨dripping w i, i + 1⟩ { s with phase := .awaiting (w.take i) } with
      started := true, accessed := true }, env)

theorem draw_dripped {w : Bytes} {s : FamilySession σ γ} {env : Env σ} {i : Nat} (fuel : Nat)
    (hm : s.mode = .decrypt) (hnone : failure (i + 1) = none) (hi : i < w.length)
    (hd : Header.decode (w.take (i + 1)) s.expectedVersion = .ok .needMore) :
    draw fuel (dripped failure w s env i) = .ok [] (dripped failure w s env (i + 1)) := by
  have hblock : (readBlock fuel : Pull σ (FamilySession σ γ) (Flaky failure ScriptedSource) Bytes)
      (dripped failure w s env i) = .ok [w[i]]
        ({ (dripped failure w s env i).1 with inner := ⟨dripping w (i + 1), i + 1 + 1⟩ }, env) := by
    rw [run_readBlock]
    simp only [dripped, CipherReader.new]
    rw [Flaky.read_of_none hnone, read_dripping hi (by decide)]
    rfl
  have htake : w.take i ++ [w[i]] = w.take (i + 1) := List.take_append_getElem hi
  have hupdate : FamilySession.update [w[i]] ({ s with phase := .awaiting (w.take i) }, env.world) =
      .ok [] ({ s with phase := .awaiting (w.take (i + 1)) }, env.world) := by
    have hd' : Header.decode (w.take i ++ [w[i]]) s.expectedVersion = .ok .needMore := htake ▸ hd
    rw [FamilySession.update_awaiting (s := { s with phase := .awaiting (w.take i) }) hm rfl,
      FamilySession.feedHeader_needMore (s := { s with phase := .awaiting (w.take i) }) hd', htake]
  rw [draw_of_started ⟨rfl, rfl⟩ rfl rfl, run_bind, hblock]
  simp only [feed, List.isEmpty_cons, Bool.false_eq_true, if_false, run_onSession]
  simp only [dripped, CipherReader.new, Session.update, hupdate]

/-- A header is drawn byte by byte, in vain. -/
theorem silently_dripped {w : Bytes} {s : FamilySession σ γ} {env : Env σ} (fuel : Nat)
    (hm : s.mode = .decrypt) {k : Nat} (hnone : ∀ i, 0 < i → failure i = none) (hk : k < w.length)
    (hd : ∀ i ≤ k, Header.decode (w.take i) s.expectedVersion = .ok .needMore) :
    ∀ (j : Nat) {i : Nat}, i + j ≤ k →
      Silently fuel j (dripped failure w s env i) (dripped failure w s env (i + j))
  | 0, i, _ => .refl _
  | j + 1, i, hle => by
    have hrest : Silently fuel j (dripped failure w s env (i + 1))
        (dripped failure w s env (i + 1 + j)) := silently_dripped fuel hm hnone hk hd j (by omega)
    rw [Nat.add_right_comm, Nat.add_assoc] at hrest
    exact .step (draw_dripped fuel hm (hnone (i + 1) (Nat.succ_pos i)) (by omega)
      (hd (i + 1) (by omega))) rfl hrest

/-- A key wrap that puts a thousand zeros behind a secret. -/
def stretchedWrap : KeyWrap Unit where
  wrap plain := pure (plain ++ List.replicate 1000 0)
  unwrap wrapped := pure (wrapped.take (wrapped.length - 1000))

theorem takesBack_stretchedWrap : stretchedWrap.TakesBack := by
  intro plain wrapped w w' h v
  cases h
  have hlen : (plain ++ List.replicate 1000 0).length - 1000 = plain.length := by
    rw [List.length_append, List.length_replicate, Nat.add_sub_cancel]
  show Except.ok ((plain ++ List.replicate 1000 0).take _) = _
  rw [hlen, List.take_left]

def stretchedBuilder : CipherBuilder Unit := { wrap := stretchedWrap, random := bareBuilder.random }

/-- A header of an SM4 stream under that key wrap. -/
def stretchedHeader : Header :=
  ⟨2, .replicate 16 3 ++ .replicate 1000 0, .replicate 16 4 ++ .replicate 1000 0⟩

theorem length_wrappedIv_stretched : stretchedHeader.wrappedIv.length = 1016 := by
  rw [stretchedHeader, List.length_append, List.length_replicate, List.length_replicate]

theorem length_wrappedKey_stretched : stretchedHeader.wrappedKey.length = 1016 := by
  rw [stretchedHeader, List.length_append, List.length_replicate, List.length_replicate]

theorem admitted_stretchedHeader : stretchedHeader.Admitted (some 2) where
  version v hv := Option.some.inj hv
  iv := by rw [length_wrappedIv_stretched]; decide
  key := by rw [length_wrappedKey_stretched]; decide

theorem length_stretchedHeader : stretchedHeader.encode.length = 2044 := by
  rw [Header.length_encode, Header.encodedLen, length_wrappedIv_stretched,
    length_wrappedKey_stretched]
  rfl

/-- A stream of two bytes behind a header of 2044, read byte by byte, is decrypted; but not if the
first read is interrupted. -/
theorem decrypt_interrupted_stretched :
    Wrote ScriptedSink.working ({} : ScriptedSink)
      (decrypt 4000 (stretchedBuilder.familySession BundledFamily.sm4.family .decrypt)
        ((dripping (stretchedHeader.encode ++ [5, 6]) 0, ({} : ScriptedSink)), ⟨[], ()⟩)) 2
      (Bytes.xor [5, 6] (CounterStream.keystream (BundledFamily.sm4.blockCipher (.replicate 16 4))
        (Bytes.toNat (.replicate 16 3)) 0 2)) ∧
    ∃ t, decrypt 4000 (stretchedBuilder.familySession BundledFamily.sm4.family .decrypt)
      (((⟨dripping (stretchedHeader.encode ++ [5, 6]) 0, 0⟩ :
        Flaky (interruptedAt [0]) ScriptedSource), ({} : ScriptedSink)), ⟨[], ()⟩) =
      .error (.io gaveUp) t ∧ t.1.2.content = [] := by
  have hlen : (stretchedHeader.encode ++ [5, 6]).length = 2046 := by
    rw [List.length_append, length_stretchedHeader]
    rfl
  constructor
  · have hw : stretchedBuilder.wrap.Functional := fun _ _ _ => rfl
    have hopens := CipherBuilder.opens_familySession hw .sm4
    have hd := Header.decode_encode_append admitted_stretchedHeader [5, 6]
    have ho := KeyMaterial.openHeader_of_sealHeader (m := ⟨.replicate 16 3, .replicate 16 4⟩)
      (F := BundledFamily.sm4.family) takesBack_stretchedWrap rfl rfl
      (show KeyMaterial.sealHeader _ stretchedWrap 2 () = .ok stretchedHeader () from rfl) ()
    have hp := FamilySession.progress_of_opened
      (s := stretchedBuilder.familySession BundledFamily.sm4.family .decrypt) (f := .sm4) hd ho
    rw [List.drop_left] at hp
    have hsource : (ScriptedSource.working : WorkingSource Unit ScriptedSource).works
        (dripping (stretchedHeader.encode ++ [5, 6]) 0) := ⟨rfl, fun h => by cases h⟩
    have hsink : (ScriptedSink.working : WorkingSink Unit ScriptedSink).works {} :=
      ⟨rfl, rfl, by decide⟩
    have hfuel : (stretchedHeader.encode ++ [5, 6]).length < 4000 := by omega
    exact decrypt_of_ready ScriptedSink.working hsource hsink (FamilySession.decodes hopens () _)
      (FamilySession.after_nil hopens ()) hp hfuel (by decide) ⟨[], ()⟩
  · have hnone : ∀ i, 0 < i → interruptedAt [0] i = none := by
      intro i hi
      unfold interruptedAt
      rw [if_neg]
      simpa using Nat.ne_of_gt hi
    have hd : ∀ i ≤ 1001, Header.decode ((stretchedHeader.encode ++ [5, 6]).take i) (some 2) =
        .ok .needMore := fun i hi => Header.decode_take_encode admitted_stretchedHeader [5, 6]
      (by rw [length_stretchedHeader]; omega)
    have hsilent : Silently 4000 1001
        (dripped (interruptedAt [0]) (stretchedHeader.encode ++ [5, 6])
          (stretchedBuilder.familySession BundledFamily.sm4.family .decrypt) ⟨[], ()⟩ 0) _ :=
      silently_dripped 4000 rfl hnone (by omega) hd 1001 (by omega)
    exact ⟨_, decrypt_gave_up FamilySession.quiet trivial rfl rfl hsilent, rfl⟩

end

end SealedStream
