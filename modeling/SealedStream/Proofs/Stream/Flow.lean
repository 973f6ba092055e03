import SealedStream.Proofs.Stream.Drawing

/-!
# What a caller gets who reads on

A caller reads again and again, into buffers of any sizes, also after errors that it does not take
for the end. However it reads, it gets what one fixed series of draws gives: `flow`, which stops
when the reader has come to its end or stored a failure. `reads_follow` says so for the readers of
quiet sessions, and so the readings of two callers differ only in how far they are
(`Reading.Agrees`).
-/

namespace SealedStream

namespace CipherReader

variable {σ κ ρ : Type}

/-! ## The flow of a reader -/

/-- How a reading ends. -/
inductive Ending
  | going
  | ended
  | failed (error : Error)

instance : (ending : Ending) → Decidable (ending = .ended)
  | .ended => isTrue rfl
  | .going => isFalse (by simp)
  | .failed _ => isFalse (by simp)

/-- What a reader says to whoever finds no output. -/
def verdict (s : State σ κ ρ) : Ending :=
  match s.1.abort.check s.2 with
  | .error e => .failed e
  | .ok _ =>
    match s.1.failed with
    | some e => .failed e.recorded
    | none => if s.1.eof then .ended else .going

section

variable {s : State σ κ ρ}

theorem run_checkUsable (s : State σ κ ρ) :
    (checkUsable : Pull σ κ ρ Unit) s = match verdict s with
      | .failed e => .error e s
      | _ => .ok () s := by
  obtain ⟨r, env⟩ := s
  simp only [checkUsable, checkAbort, run_bind, run_get, run_check, verdict]
  cases r.abort.check env with
  | error e => rfl
  | ok _ =>
    cases hf : r.failed with
    | some e => simp only [hf, run_throw]
    | none => cases he : r.eof <;> simp [hf, run_pure]

theorem Usable.verdict (hs : Usable s) : verdict s = if s.1.eof then .ended else .going := by
  simp only [CipherReader.verdict, hs.abort, hs.failed]

theorem usable_of_verdict (h : ∀ e, verdict s ≠ .failed e) : Usable s := by
  unfold verdict at h
  cases ha : s.1.abort.check s.2 with
  | error e =>
    simp only [ha] at h
    exact absurd rfl (h e)
  | ok u =>
    cases hf : s.1.failed with
    | some e =>
      simp only [ha, hf] at h
      exact absurd rfl (h e.recorded)
    | none => exact ⟨ha, hf⟩

theorem verdict_eq_going : verdict s = .going ↔ Usable s ∧ s.1.eof = false := by
  constructor
  · intro h
    have hs : Usable s := usable_of_verdict (by simp [h])
    rw [hs.verdict] at h
    refine ⟨hs, ?_⟩
    cases he : s.1.eof with
    | true =>
      rw [he] at h
      cases h
    | false => rfl
  · rintro ⟨hs, he⟩
    rw [hs.verdict, he]
    rfl

end

/-- What was read, how the reading ended, and the reader that it leaves. -/
structure Reading (σ κ ρ : Type) where
  bytes : Bytes
  ending : Ending
  state : State σ κ ρ

namespace Reading

/-- The reading with bytes before it. -/
def after (out : Bytes) (r : Reading σ κ ρ) : Reading σ κ ρ :=
  ⟨out ++ r.bytes, r.ending, r.state⟩

theorem after_after (x y : Bytes) (r : Reading σ κ ρ) :
    (r.after y).after x = r.after (x ++ y) := by
  simp only [after, List.append_assoc]

/-- What one draw comes to. A failed transfer is passed over, and any other error is stored the way
a read stores it. -/
def ofDraw : EStateM.Result Error (State σ κ ρ) Bytes → Reading σ κ ρ
  | .ok out t => ⟨out, verdict t, t⟩
  | .error e t => if e.isIo then ⟨[], verdict t, t⟩ else ⟨[], .failed e, (poison e t.1, t.2)⟩

end Reading

section

variable [Session κ σ] [Source σ ρ]

/-- What up to `n` draws give, one after the other, past failed transfers and up to the end or the
first other failure. -/
def flow (fuel : Nat) : Nat → State σ κ ρ → Reading σ κ ρ
  | 0, s => ⟨[], verdict s, s⟩
  | n + 1, s =>
    match verdict s with
    | .going =>
      match draw fuel s with
      | .ok out t => (flow fuel n t).after out
      | .error e t => if e.isIo then flow fuel n t else ⟨[], .failed e, (poison e t.1, t.2)⟩
    | v => ⟨[], v, s⟩

variable {P : κ → Prop} {s t : State σ κ ρ} {fuel i j k m n : Nat} {x : Bytes}

theorem flow_succ_of_going (h : verdict s = .going) : flow fuel (n + 1) s = match draw fuel s with
    | .ok out t => (flow fuel n t).after out
    | .error e t =>
      if e.isIo then flow fuel n t else ⟨[], .failed e, (poison e t.1, t.2)⟩ := by
  simp only [flow, h]

/-- What is over stays so. -/
theorem flow_of_final (h : verdict s ≠ .going) (n : Nat) :
    flow fuel n s = ⟨[], verdict s, s⟩ := by
  cases n with
  | zero => rfl
  | succ n =>
    cases hv : verdict s with
    | going => exact absurd hv h
    | ended => simp only [flow, hv]
    | failed e => simp only [flow, hv]

/-- More draws go on where a flow is, unless it is over. -/
theorem flow_add_eq (m n : Nat) (s : State σ κ ρ) :
    flow fuel (m + n) s = match (flow fuel m s).ending with
      | .going => (flow fuel n (flow fuel m s).state).after (flow fuel m s).bytes
      | _ => flow fuel m s := by
  induction m generalizing s with
  | zero =>
    rw [Nat.zero_add]
    cases hv : verdict s with
    | going => simp only [flow, hv]; rfl
    | ended => simp only [flow, hv]; exact (flow_of_final (by simp [hv]) n).trans (by rw [hv])
    | failed e => simp only [flow, hv]; exact (flow_of_final (by simp [hv]) n).trans (by rw [hv])
  | succ m ih =>
    rw [Nat.add_right_comm]
    cases hv : verdict s with
    | ended => simp only [flow, hv]
    | failed e => simp only [flow, hv]
    | going =>
      rw [flow_succ_of_going hv, flow_succ_of_going hv]
      cases draw fuel s with
      | ok out u =>
        simp only [ih u]
        obtain ⟨y, ending, v⟩ := flow fuel m u
        cases ending with
        | going => exact Reading.after_after out y _
        | ended => rfl
        | failed e => rfl
      | error e u =>
        by_cases he : e.isIo = true
        · simp only [if_pos he, ih u]
        · simp only [if_neg he]

/-- A flow that has led to `t` goes on from there. -/
theorem flow_add (h : flow fuel m s = ⟨x, verdict t, t⟩) (n : Nat) :
    flow fuel (m + n) s = (flow fuel n t).after x := by
  rw [flow_add_eq, h]
  cases hv : verdict t with
  | going => rfl
  | ended => simp only [flow_of_final (s := t) (by simp [hv]) n, Reading.after, hv, List.append_nil]
  | failed e =>
    simp only [flow_of_final (s := t) (by simp [hv]) n, Reading.after, hv, List.append_nil]

/-- A flow that is over is the same after more draws. -/
theorem flow_of_over (h : (flow fuel m s).ending ≠ .going) (hle : m ≤ n) :
    flow fuel n s = flow fuel m s := by
  obtain ⟨k, rfl⟩ := Nat.exists_eq_add_of_le hle
  rw [flow_add_eq]
  cases he : (flow fuel m s).ending with
  | going => exact absurd he h
  | ended => rfl
  | failed e => rfl

theorem flow_mono (hle : m ≤ n) : (flow fuel m s).bytes <+: (flow fuel n s).bytes := by
  obtain ⟨k, rfl⟩ := Nat.exists_eq_add_of_le hle
  rw [flow_add_eq]
  cases (flow fuel m s).ending with
  | going => exact List.prefix_append _ _
  | ended => exact List.prefix_rfl
  | failed e => exact List.prefix_rfl

theorem flow_eq_nil (h : (flow fuel n s).bytes = []) (hle : m ≤ n) :
    (flow fuel m s).bytes = [] := by
  have hpre : (flow fuel m s).bytes <+: (flow fuel n s).bytes := flow_mono hle
  rwa [h, List.prefix_nil] at hpre

/-- So many draws are made: the flow is not over before. -/
def Made (fuel m : Nat) (s : State σ κ ρ) : Prop := ∀ k < m, (flow fuel k s).ending = .going

theorem Made.add (hm : Made fuel m s) (h : flow fuel m s = ⟨x, verdict t, t⟩)
    (hn : Made fuel n t) : Made fuel (m + n) s := by
  intro k hk
  by_cases hkm : k < m
  · exact hm k hkm
  · obtain ⟨l, rfl⟩ := Nat.exists_eq_add_of_le (Nat.le_of_not_lt hkm)
    rw [flow_add h]
    exact hn l (by omega)

omit [Session κ σ] [Source σ ρ] in
theorem Idle.going (hs : Idle P s) : verdict s = .going :=
  verdict_eq_going.mpr ⟨hs.usable, hs.eof⟩

variable (hP : Session.Quiet P)

include hP

/-- Silent draws flow without a byte. -/
theorem flow_silently (hs : Idle P s) (h : Silently fuel j s t) :
    flow fuel j s = ⟨[], verdict t, t⟩ ∧ Made fuel j s := by
  induction h with
  | refl s => exact ⟨rfl, fun k hk => absurd hk (Nat.not_lt_zero k)⟩
  | @step s u t j hd he _ ih =>
    obtain ⟨hflow, hmade⟩ := ih (hs.draw hP hd he).1
    have hone : flow fuel 1 s = ⟨[], verdict u, u⟩ := by
      rw [flow_succ_of_going hs.going, hd]
      rfl
    have hmade' : Made fuel 1 s := by
      intro k hk
      obtain rfl : k = 0 := by omega
      exact hs.going
    rw [Nat.add_comm]
    exact ⟨(flow_add hone j).trans (by rw [hflow]; rfl), hmade'.add hone hmade⟩

/-- An answer is what flows next. -/
theorem flow_answers (hs : Idle P s) {res : EStateM.Result Error (State σ κ ρ) Bytes}
    (h : Answers fuel j s res) : flow fuel (j + 1) s = .ofDraw res ∧ Made fuel (j + 1) s := by
  obtain ⟨t, ht, rfl, -⟩ := h
  have hgoing := (hs.silently hP ht).going
  obtain ⟨hflow, hmade⟩ := flow_silently hP hs ht
  constructor
  · rw [flow_add hflow, flow_succ_of_going hgoing]
    cases draw fuel t with
    | ok out u => simp only [flow, Reading.ofDraw, Reading.after, List.nil_append, List.append_nil]
    | error e u => simp only [flow, Reading.ofDraw, Reading.after, List.nil_append]
  · refine hmade.add hflow ?_
    intro k hk
    obtain rfl : k = 0 := by omega
    exact hgoing

/-- Before the draw that answers nothing flows. -/
theorem flow_before_answer (hs : Idle P s) {res : EStateM.Result Error (State σ κ ρ) Bytes}
    (h : Answers fuel j s res) (hk : k < j + 1) : (flow fuel k s).bytes = [] := by
  obtain ⟨t, ht, -, -⟩ := h
  obtain ⟨hflow, -⟩ := flow_silently hP hs ht
  exact flow_eq_nil (by rw [hflow]) (Nat.le_of_lt_succ hk)

end

/-! ## One read -/

/-- The reader once its output is handed out. -/
def drained (s : State σ κ ρ) : State σ κ ρ := ({ s.1 with output := [], accessed := true }, s.2)

/-- A reader whose output may be handed out, whose session is among `P`, and that has stored no
failed transfer. -/
structure Sound (P : κ → Prop) (s : State σ κ ρ) : Prop where
  usable : s.1.output ≠ [] → Usable s
  session : P s.1.session
  failed : ∀ e, s.1.failed = some e → e.isIo = false

section

variable {P : κ → Prop} {s t : State σ κ ρ}

/-- Output and past accesses apart, nothing is drained. -/
theorem drained_eq (ho : s.1.output = []) (ha : s.1.accessed = true) (output : Bytes) :
    drained ({ s.1 with output }, s.2) = s := by
  obtain ⟨r, env⟩ := s
  cases r
  cases ho
  cases ha
  rfl

theorem drained_of_output (ho : s.1.output = []) (ha : s.1.accessed = true) : drained s = s := by
  have h := drained_eq (s := s) ho ha s.1.output
  exact h

theorem Sound.of_usable (hs : Usable s) (hP : P s.1.session) : Sound P s where
  usable _ := hs
  session := hP
  failed := by
    intro e he
    rw [hs.failed] at he
    cases he

theorem Sound.new {session : κ} (hs : P session) (source : ρ) (blockSize : Nat)
    (abort : AbortHandle) (env : Env σ) :
    Sound P (CipherReader.new source session blockSize abort, env) where
  usable h := absurd rfl h
  session := hs
  failed := by
    intro e h
    cases h

/-- What a read stores is no failed transfer. -/
theorem Sound.poison (hs : Sound P s) (hout : s.1.output = []) (e : Error) :
    Sound P (poison e s.1, s.2) := by
  unfold CipherReader.poison
  split
  · exact hs
  · rename_i hio
    refine ⟨fun h => absurd hout h, hs.session, ?_⟩
    rintro e' h
    cases h
    simpa using hio

/-- A reader without output that cannot be used says so with an error that is no failed transfer. -/
theorem Sound.verdict (hs : Sound P s) (hu : ¬ Usable s) :
    ∃ e, CipherReader.verdict s = .failed e ∧ e.isIo = false := by
  obtain ⟨r, env⟩ := s
  unfold CipherReader.verdict
  cases ha : r.abort.check env with
  | error e =>
    exact ⟨e, rfl, AbortHandle.isIo_of_check ha⟩
  | ok u =>
    cases hf : r.failed with
    | none => exact absurd ⟨ha, hf⟩ hu
    | some e =>
      refine ⟨e.recorded, rfl, ?_⟩
      rw [Error.isIo_recorded]
      exact hs.failed e hf

end

section

variable [Session κ σ] [Source σ ρ] {P : κ → Prop} {s t : State σ κ ρ} {fuel m n : Nat}

theorem readBytes_of_usable (hs : Usable s) :
    (readBytes fuel n : Pull σ κ ρ Bytes) s =
      if n = 0 then .ok [] ({ s.1 with accessed := true }, s.2)
      else readFilled fuel n ({ s.1 with accessed := true }, s.2) := by
  obtain ⟨r, env⟩ := s
  simp only [readBytes, run_bind, hs.run_checkUsable, run_update, run_ite, run_pure]

theorem readBytes_of_failed {e : Error} (h : verdict s = .failed e) :
    (readBytes fuel n : Pull σ κ ρ Bytes) s = .error e s := by
  simp only [readBytes, run_bind, run_checkUsable, h]

theorem fill_of_output (h : s.1.output ≠ []) :
    (fill fuel : Pull σ κ ρ Bool) s = .ok true s := by
  simp only [fill, run_bind, run_get, run_ite, run_pure]
  rw [if_neg (by simpa using h)]

theorem fill_of_eof (hs : Usable s) (h : s.1.output = []) (he : s.1.eof = true) :
    (fill fuel : Pull σ κ ρ Bool) s = .ok false s := by
  have hrefill : (refill fuel : Pull σ κ ρ Refill) s = .ok .done s := by
    simp only [refill, run_bind, run_checkAbort_of hs.abort, run_get, run_ite, he, if_true,
      run_pure]
  have hloop (left : Nat) : (refillLoop fuel left : Pull σ κ ρ Bool) s = .ok false s := by
    cases left <;> simp only [refillLoop, run_bind, hrefill] <;> rfl
  simp only [fill, run_bind, run_get, run_ite, h, List.isEmpty_nil, if_true, hloop]

theorem fill_of_nil (h : s.1.output = []) :
    (fill fuel : Pull σ κ ρ Bool) s = refillLoop fuel maxEmptyRefills s := by
  simp only [fill, run_bind, run_get, run_ite, h, List.isEmpty_nil, if_true]

/-- A read that finds no output refills it. -/
theorem readBytes_of_nil (hs : Usable s) (hn : n ≠ 0) (hnil : s.1.output = []) :
    (readBytes fuel n : Pull σ κ ρ Bytes) s =
      match refillLoop fuel maxEmptyRefills ({ s.1 with accessed := true }, s.2) with
      | .ok true t => .ok (t.1.output.take n) ({ t.1 with output := t.1.output.drop n }, t.2)
      | .ok false t => .ok [] t
      | .error e t => .error e (poison e t.1, t.2) := by
  have hfill : (fill fuel : Pull σ κ ρ Bool) ({ s.1 with accessed := true }, s.2) =
      refillLoop fuel maxEmptyRefills ({ s.1 with accessed := true }, s.2) := fill_of_nil hnil
  rw [readBytes_of_usable hs, if_neg hn, readFilled, hfill]
  cases (refillLoop fuel maxEmptyRefills : Pull σ κ ρ Bool) ({ s.1 with accessed := true }, s.2) with
  | ok more t => cases more <;> rfl
  | error e t => rfl

theorem poison_of_isIo {e : Error} {r : CipherReader κ ρ} (he : e.isIo = true) :
    poison e r = r := by
  rw [poison, if_pos he]

/-- A read that has to refill fails as the refill does. -/
theorem readBytes_of_refill {e : Error} (hs : Usable s) (hn : n ≠ 0) (hnil : s.1.output = [])
    (hrefill : (refill fuel : Pull σ κ ρ Refill) ({ s.1 with accessed := true }, s.2) =
      .error e t) :
    (readBytes fuel n : Pull σ κ ρ Bytes) s = .error e (poison e t.1, t.2) := by
  have hloop (left : Nat) : (refillLoop fuel left : Pull σ κ ρ Bool)
      ({ s.1 with accessed := true }, s.2) = .error e t := by
    cases left <;> simp only [refillLoop, run_bind, hrefill]
  rw [readBytes_of_nil hs hn hnil, hloop]

theorem readBytes_of_idle (hs : Idle P s) (hn : n ≠ 0) :
    (readBytes fuel n : Pull σ κ ρ Bytes) s = readFilled fuel n s := by
  have htouched : (({ s.1 with accessed := true }, s.2) : State σ κ ρ) = s := by
    rw [← hs.accessed]
  rw [readBytes_of_usable hs.usable, if_neg hn, htouched]

/-- A read that need not draw hands out what is left. -/
theorem readBytes_of_settled (hs : Usable s) (h : n = 0 ∨ s.1.output ≠ [] ∨ s.1.eof = true) :
    (readBytes fuel n : Pull σ κ ρ Bytes) s =
      .ok (s.1.output.take n)
        ({ s.1 with accessed := true, output := s.1.output.drop n }, s.2) := by
  rw [readBytes_of_usable hs]
  split
  · rename_i hn
    rw [hn]
    rfl
  · rename_i hn
    unfold readFilled
    by_cases ho : s.1.output = []
    · have he : s.1.eof = true := (h.resolve_left hn).resolve_left (absurd ho)
      rw [fill_of_eof (s := ({ s.1 with accessed := true }, s.2)) ⟨hs.abort, hs.failed⟩ ho he]
      rw [ho, List.take_nil, List.drop_nil, ← ho]
    · rw [fill_of_output (s := ({ s.1 with accessed := true }, s.2)) ho]

/-- What a read of `n` bytes makes of the last thing drawn. -/
def serve (n : Nat) : EStateM.Result Error (State σ κ ρ) Bytes →
    EStateM.Result Error (State σ κ ρ) Bytes
  | .ok out t => .ok (out.take n) ({ t.1 with output := out.drop n }, t.2)
  | .error e t => .error e (poison e t.1, t.2)

theorem readFilled_of_conclude {res : EStateM.Result Error (State σ κ ρ) Bytes}
    (h : fill fuel s = conclude res) (n : Nat) : readFilled fuel n s = serve n res := by
  unfold readFilled
  rw [h]
  match res with
  | .ok [] t => simp only [conclude, serve, List.take_nil, List.drop_nil, List.isEmpty_nil]; rfl
  | .ok (b :: bs) t => rfl
  | .error e t => rfl

/-- What a read of `n` bytes has to do with the flow: it hands out what is left of the output and
then what flows next, which comes with the last draw. Only the end gives nothing, and a failed
transfer has drawn at least once. -/
def Follows (fuel n : Nat) (s : State σ κ ρ) :
    EStateM.Result Error (State σ κ ρ) Bytes → Prop
  | .ok out t => ∃ m x, Made fuel m (drained s) ∧
      flow fuel m (drained s) = ⟨x, verdict t, drained t⟩ ∧ s.1.output ++ x = out ++ t.1.output ∧
      (∀ k < m, s.1.output ++ (flow fuel k (drained s)).bytes = []) ∧
      (n ≠ 0 → out = [] → t.1.output = [] ∧ verdict t = .ended)
  | .error e t => s.1.output = [] ∧ t.1.output = [] ∧ ∃ m, Made fuel m (drained s) ∧
      if e.isIo then 0 < m ∧ flow fuel m (drained s) = ⟨[], verdict t, drained t⟩
      else ∃ u, flow fuel m (drained s) = ⟨[], .failed e, u⟩

theorem made_zero (s : State σ κ ρ) : Made fuel 0 s := fun k hk => absurd hk (Nat.not_lt_zero k)

variable (hP : Session.Quiet P)

include hP

/-- What the answer to an idle reader leaves of it. -/
theorem Idle.of_answer (hs : Idle P s) {res : EStateM.Result Error (State σ κ ρ) Bytes}
    (h : Answers fuel m s res) : (reached res).1.output = [] ∧ (reached res).1.accessed = true ∧
      (reached res).1.failed = none ∧ P (reached res).1.session := by
  obtain ⟨u, hu, rfl, -⟩ := h
  have hidle := hs.silently hP hu
  have hdrawn := drawn_draw fuel hidle.usable hidle.eof
  exact ⟨hdrawn.output.trans hidle.output, hdrawn.accessed.trans hidle.accessed,
    hdrawn.failed.trans hidle.usable.failed, session_of_drawn hP hidle.session hdrawn⟩

/-- Bytes and the end leave a reader usable. -/
theorem Idle.of_answer_ok (hs : Idle P s) {out : Bytes} (h : Answers fuel m s (.ok out t)) :
    Usable t ∧ (out = [] → t.1.eof = true) := by
  obtain ⟨u, hu, hd, hres⟩ := h
  refine ⟨usable_draw (hs.silently hP hu).usable hd, ?_⟩
  rintro rfl
  cases he : t.1.eof with
  | true => rfl
  | false => exact absurd he hres

/-- Handing out some of an answer. -/
theorem serve_follows (hs : Idle P s) (hn : n ≠ 0) {res : EStateM.Result Error (State σ κ ρ) Bytes}
    (h : Answers fuel m s res) :
    Sound P (reached (serve n res)) ∧ Follows fuel n s (serve n res) := by
  have hdrained := drained_of_output hs.output hs.accessed
  obtain ⟨hflow, hmade⟩ := flow_answers hP hs h
  obtain ⟨ho, ha, hf, hp⟩ := hs.of_answer hP h
  unfold Follows
  rw [hdrained]
  cases res with
  | error e t =>
    simp only [reached] at ho ha hf hp
    have ht : Sound P t := ⟨fun h => absurd ho h, hp, by simp [hf]⟩
    refine ⟨ht.poison ho e, hs.output, ?_, m + 1, hmade, ?_⟩
    · unfold poison
      split <;> exact ho
    · rw [hflow, Reading.ofDraw]
      cases he : e.isIo with
      | true =>
        have hpoison : (poison e t.1, t.2) = t := by simp only [poison, he, if_true]
        rw [hpoison, drained_of_output ho ha]
        exact ⟨Nat.succ_pos m, rfl⟩
      | false => exact ⟨_, rfl⟩
  | ok out t =>
    simp only [reached] at ho ha hf hp
    obtain ⟨hu, hend⟩ := hs.of_answer_ok hP h
    have hbefore : ∀ k < m + 1, s.1.output ++ (flow fuel k s).bytes = [] := fun k hk => by
      rw [hs.output, flow_before_answer hP hs h hk]
      rfl
    refine ⟨.of_usable ⟨hu.abort, hu.failed⟩ hp, m + 1, out, hmade, ?_, ?_, hbefore,
      fun _ htake => ?_⟩
    · rw [hflow, drained_eq ho ha]
      rfl
    · rw [hs.output]
      exact (List.take_append_drop n out).symm
    · have hout : out = [] := (List.take_eq_nil_iff.mp htake).resolve_left hn
      refine ⟨List.drop_eq_nil_of_le (by simp [hout]), ?_⟩
      exact (Usable.verdict ⟨hu.abort, hu.failed⟩).trans (if_pos (hend hout))

/-- Filling an idle reader and handing out some of what came. -/
theorem readFilled_follows (hs : Idle P s) (hn : n ≠ 0) :
    Sound P (reached (readFilled fuel n s)) ∧ Follows fuel n s (readFilled fuel n s) := by
  rcases fill_cases hP fuel hs with ⟨j, res, hres, hfill⟩ | ⟨j, t, e, ht, hj, hfill⟩
  · rw [readFilled_of_conclude hfill]
    exact serve_follows hP hs hn hres
  · obtain ⟨hflow, hmade⟩ := flow_silently hP hs ht
    have hidle := hs.silently hP ht
    have hgaveUp : readFilled fuel n s = .error (.io e) t := by
      unfold readFilled
      rw [hfill]
      rfl
    unfold Follows
    rw [hgaveUp, drained_of_output hs.output hs.accessed]
    refine ⟨.of_usable hidle.usable hidle.session, hs.output, hidle.output, j, hmade, by omega, ?_⟩
    rw [hflow, drained_of_output hidle.output hidle.accessed]

/-- **A read follows the flow**, in whatever state it finds the reader. -/
theorem readBytes_follows (hs : Sound P s) (fuel n : Nat) :
    Sound P (reached ((readBytes fuel n : Pull σ κ ρ Bytes) s)) ∧
      Follows fuel n s ((readBytes fuel n : Pull σ κ ρ Bytes) s) := by
  by_cases hu : Usable s
  · by_cases hsettled : n = 0 ∨ s.1.output ≠ [] ∨ s.1.eof = true
    · rw [readBytes_of_settled hu hsettled]
      refine ⟨.of_usable ⟨hu.abort, hu.failed⟩ hs.session, 0, [], made_zero _, rfl, ?_, by simp,
        fun hn h => ?_⟩
      · exact (List.append_nil _).trans (List.take_append_drop n s.1.output).symm
      · have ho : s.1.output = [] := (List.take_eq_nil_iff.mp h).resolve_left hn
        have he : s.1.eof = true := (hsettled.resolve_left hn).resolve_left (absurd ho)
        refine ⟨List.drop_eq_nil_of_le (by simp [ho]), ?_⟩
        exact (Usable.verdict ⟨hu.abort, hu.failed⟩).trans (if_pos he)
    · simp only [not_or, Classical.not_not, Bool.not_eq_true] at hsettled
      obtain ⟨hn, ho, he⟩ := hsettled
      rw [readBytes_of_usable hu, if_neg hn]
      exact readFilled_follows hP ⟨⟨hu.abort, hu.failed⟩, ho, rfl, he, hs.session⟩ hn
  · obtain ⟨e, he, hio⟩ := hs.verdict hu
    have ho : s.1.output = [] := Classical.byContradiction fun h => hu (hs.usable h)
    rw [readBytes_of_failed he]
    refine ⟨hs, ho, ho, 0, made_zero _, ?_⟩
    rw [hio]
    refine ⟨drained s, ?_⟩
    rw [flow, ← he]
    rfl

end

/-! ## Callers -/

section

variable [Session κ σ] [Source σ ρ]

/-- Reads into one buffer after the other, up to the end or to an error after which the caller does
not read again. -/
def reads (fuel : Nat) (again : Error → Bool) : List Nat → State σ κ ρ → Reading σ κ ρ
  | [], s => ⟨[], .going, s⟩
  | n :: ns, s =>
    match (readBytes fuel n : Pull σ κ ρ Bytes) s with
    | .ok out t => if n ≠ 0 ∧ out = [] then ⟨[], .ended, t⟩ else (reads fuel again ns t).after out
    | .error e t => if again e then reads fuel again ns t else ⟨[], .failed e, t⟩

variable {P : κ → Prop} {s t : State σ κ ρ} {fuel m n : Nat}

/-- The reading `r` of the reader `s` is that of the first `m` draws: it has the bytes that they
gave, up to the output that is left of the last of them. It is over if they are, and with the same
ending. -/
structure Tracks (P : κ → Prop) (fuel m : Nat) (s : State σ κ ρ) (r : Reading σ κ ρ) : Prop where
  made : Made fuel m (drained s)
  sound : Sound P r.state
  bytes : s.1.output ++ (flow fuel m (drained s)).bytes = r.bytes ++ r.state.1.output
  before : ∀ k < m, s.1.output ++ (flow fuel k (drained s)).bytes <+: r.bytes
  state : (∀ e, r.ending ≠ .failed e) → (flow fuel m (drained s)).state = drained r.state
  finished : r.ending ≠ .going → (flow fuel m (drained s)).ending = r.ending ∧ r.state.1.output = []

/-- A read that is not the last, and the reading behind it. -/
theorem Tracks.after {r : Reading σ κ ρ} {x out : Bytes} (hm : Made fuel m (drained s))
    (hflow : flow fuel m (drained s) = ⟨x, verdict t, drained t⟩)
    (hout : s.1.output ++ x = out ++ t.1.output)
    (hbefore : ∀ k < m, s.1.output ++ (flow fuel k (drained s)).bytes = [])
    (h : Tracks P fuel n t r) : Tracks P fuel (m + n) s (r.after out) := by
  have hadd (n : Nat) : flow fuel (m + n) (drained s) = (flow fuel n (drained t)).after x :=
    flow_add hflow n
  have hbytes (n : Nat) : s.1.output ++ (flow fuel (m + n) (drained s)).bytes =
      out ++ (t.1.output ++ (flow fuel n (drained t)).bytes) := by
    rw [hadd, Reading.after, ← List.append_assoc, hout, List.append_assoc]
  refine ⟨hm.add hflow h.made, h.sound, ?_, fun k hk => ?_, ?_, ?_⟩
  · rw [hbytes, h.bytes, Reading.after, List.append_assoc]
  · by_cases hkm : k < m
    · rw [hbefore k hkm]
      exact List.nil_prefix
    · obtain ⟨l, rfl⟩ := Nat.exists_eq_add_of_le (Nat.le_of_not_lt hkm)
      rw [hbytes]
      exact (List.prefix_append_right_inj out).mpr (h.before l (by omega))
  · rw [hadd]
    exact h.state
  · rw [hadd]
    exact h.finished

/-- A read that is the last: nothing is left, and the flow ends as the reading does. -/
theorem Tracks.last {x : Bytes} {ending : Ending} {u : State σ κ ρ} (hm : Made fuel m (drained s))
    (hs : Sound P t) (hflow : flow fuel m (drained s) = ⟨x, ending, u⟩)
    (hout : s.1.output ++ x = [])
    (ht : t.1.output = []) (hu : (∀ e, ending ≠ .failed e) → u = drained t) :
    Tracks P fuel m s ⟨[], ending, t⟩ where
  made := hm
  sound := hs
  bytes := by rw [hflow, hout, ht]; rfl
  before := by
    intro k hk
    obtain ⟨ho, rfl⟩ := List.append_eq_nil_iff.mp hout
    rw [ho, flow_eq_nil (by rw [hflow]) (Nat.le_of_lt hk)]
    exact List.prefix_rfl
  state := by
    rw [hflow]
    exact hu
  finished _ := ⟨by rw [hflow], ht⟩

/-- **A caller that reads on after failed transfers follows the flow.** Each of its buffers that was
not empty, as long as it is not done, has taken a byte or at least one draw. -/
theorem reads_follow (hP : Session.Quiet P) (fuel : Nat) : ∀ (ns : List Nat) {s : State σ κ ρ},
    Sound P s → ∃ m, Tracks P fuel m s (reads fuel Error.isIo ns s) ∧
      ((reads fuel Error.isIo ns s).ending = .going → (∀ n ∈ ns, n ≠ 0) →
        ns.length ≤ m + (reads fuel Error.isIo ns s).bytes.length)
  | [], s, hs => by
    refine ⟨0, ⟨made_zero _, hs, List.append_nil _, ?_, fun _ => rfl, fun h => absurd rfl h⟩, ?_⟩
    · exact fun k hk => absurd hk (Nat.not_lt_zero k)
    · exact fun _ _ => Nat.zero_le _
  | n :: ns, s, hs => by
    obtain ⟨hsound, hread⟩ := readBytes_follows hP hs fuel n
    unfold reads
    cases hrun : (readBytes fuel n : Pull σ κ ρ Bytes) s with
    | ok out t =>
      rw [hrun] at hsound hread
      obtain ⟨m, x, hm, hflow, hout, hbefore, hend⟩ := hread
      simp only
      split
      · rename_i hlast
        obtain ⟨hempty, hverdict⟩ := hend hlast.1 hlast.2
        rw [hverdict] at hflow
        have hx : s.1.output ++ x = [] := by rw [hout, hlast.2, hempty]; rfl
        exact ⟨m, .last hm hsound hflow hx hempty fun _ => rfl, fun h => by cases h⟩
      · rename_i hlast
        obtain ⟨m', htracks, hlen⟩ := reads_follow hP fuel ns hsound
        refine ⟨m + m', .after hm hflow hout hbefore htracks, fun h hns => ?_⟩
        have hpos : 0 < out.length := List.length_pos_iff.mpr fun h =>
          hlast ⟨hns n List.mem_cons_self, h⟩
        have := hlen h fun n hn => hns n (List.mem_cons_of_mem _ hn)
        simp only [Reading.after, List.length_append, List.length_cons, reached] at this ⊢
        omega
    | error e t =>
      rw [hrun] at hsound hread
      obtain ⟨hs', ht', m, hm, hflow⟩ := hread
      simp only
      split
      · rename_i hio
        rw [if_pos hio] at hflow
        obtain ⟨hpos, hflow⟩ := hflow
        obtain ⟨m', htracks, hlen⟩ := reads_follow hP fuel ns hsound
        have hout : s.1.output ++ [] = [] ++ t.1.output := by rw [hs', ht']
        have hbefore : ∀ k < m, s.1.output ++ (flow fuel k (drained s)).bytes = [] := by
          intro k hk
          rw [hs', flow_eq_nil (by rw [hflow]) (Nat.le_of_lt hk)]
          rfl
        refine ⟨m + m', .after hm hflow hout hbefore htracks, fun h hns => ?_⟩
        have := hlen h fun n hn => hns n (List.mem_cons_of_mem _ hn)
        simp only [List.length_cons, reached] at this ⊢
        omega
      · rename_i hio
        rw [if_neg hio] at hflow
        obtain ⟨u, hflow⟩ := hflow
        have hout : s.1.output ++ [] = [] := by rw [hs']; rfl
        exact ⟨m, .last hm hsound hflow hout ht' fun h => absurd rfl (h e), fun h => by cases h⟩

end

section

variable [Session κ σ] [Source σ ρ] {s t : State σ κ ρ} {fuel n : Nat}

/-- An error that is no failed transfer stays. -/
theorem verdict_of_readBytes {e : Error} (h : (readBytes fuel n : Pull σ κ ρ Bytes) s = .error e t)
    (hio : e.isIo = false) : ∃ e, verdict t = .failed e := by
  by_cases hs : Usable s
  · rw [readBytes_of_usable hs] at h
    split at h
    · cases h
    · unfold readFilled at h
      split at h
      · cases h
      · cases h
      · cases h
        unfold verdict poison
        split
        · exact ⟨_, rfl⟩
        · simp only [hio, Bool.false_eq_true, if_false]
          exact ⟨_, rfl⟩
  · cases hv : verdict s with
    | failed e' =>
      rw [readBytes_of_failed hv] at h
      cases h
      exact ⟨e, hv⟩
    | going => exact absurd (usable_of_verdict (by simp [hv])) hs
    | ended => exact absurd (usable_of_verdict (by simp [hv])) hs

theorem reads_of_failed {e : Error} (h : verdict s = .failed e) (again : Error → Bool) :
    ∀ ns, (reads fuel again ns s).ending ≠ .ended
  | [] => fun h => by cases h
  | n :: ns => by
    rw [reads, readBytes_of_failed h]
    simp only
    split
    · exact reads_of_failed h again ns
    · exact fun h => by cases h

/-- Whoever comes to the end, after whichever errors he has read again, has met failed transfers
only. -/
theorem reads_of_ended (again : Error → Bool) : ∀ (ns : List Nat) {s : State σ κ ρ},
    (reads fuel again ns s).ending = .ended → reads fuel Error.isIo ns s = reads fuel again ns s
  | [], s, _ => rfl
  | n :: ns, s, h => by
    unfold reads at h ⊢
    cases hrun : (readBytes fuel n : Pull σ κ ρ Bytes) s with
    | ok out t =>
      simp only [hrun] at h ⊢
      split
      · rfl
      · rename_i hmore
        rw [if_neg hmore] at h
        rw [reads_of_ended again ns h]
    | error e t =>
      simp only [hrun] at h ⊢
      split at h
      · rename_i hagain
        cases hio : e.isIo with
        | true =>
          rw [if_pos rfl, if_pos hagain]
          exact reads_of_ended again ns h
        | false =>
          obtain ⟨e', hfailed⟩ := verdict_of_readBytes hrun hio
          exact absurd h (reads_of_failed hfailed again ns)
      · cases h

end

/-! ## Two callers -/

/-- Two readings of one stream, of which neither need be over: the one that is over has all that the
other has, and two that are over have the same bytes and the same ending. -/
structure Reading.Agrees {ρ' : Type} (a : Reading σ κ ρ) (b : Reading σ κ ρ') : Prop where
  comparable : a.bytes <+: b.bytes ∨ b.bytes <+: a.bytes
  left : a.ending ≠ .going → b.bytes <+: a.bytes
  right : b.ending ≠ .going → a.bytes <+: b.bytes
  ending : a.ending ≠ .going → b.ending ≠ .going → a.ending = b.ending

/-- The reading `r` has the bytes of `flow` behind `out`, up to some that are left, and is over only
if the flow is and nothing is left. -/
def Reading.Within {ρ' : Type} (r : Reading σ κ ρ') (out : Bytes) (flow : Reading σ κ ρ) : Prop :=
  ∃ rest, out ++ flow.bytes = r.bytes ++ rest ∧
    (r.ending ≠ .going → flow.ending = r.ending ∧ rest = [])

section

variable [Session κ σ] [Source σ ρ] {ρ' ρ'' : Type} {s : State σ κ ρ} {fuel m n : Nat} {out : Bytes}
  {a : Reading σ κ ρ'} {b : Reading σ κ ρ''}

/-- A flow that is over has all that flows. -/
theorem flow_prefix_of_over (h : (flow fuel n s).ending ≠ .going) (m : Nat) :
    (flow fuel m s).bytes <+: (flow fuel n s).bytes := by
  rcases Nat.le_total m n with hle | hle
  · exact flow_mono hle
  · have hsame : flow fuel m s = flow fuel n s := flow_of_over h hle
    exact hsame ▸ List.prefix_rfl

theorem Reading.Within.prefix_of_over (ha : a.Within out (flow fuel m s))
    (hb : b.Within out (flow fuel n s)) (hover : b.ending ≠ .going) : a.bytes <+: b.bytes := by
  obtain ⟨x, hx, -⟩ := ha
  obtain ⟨y, hy, hdone⟩ := hb
  obtain ⟨hend, rfl⟩ := hdone hover
  rw [List.append_nil] at hy
  have hall := flow_prefix_of_over (by rw [hend]; exact hover) m
  rw [← hy]
  exact List.IsPrefix.trans ⟨x, hx.symm⟩ ((List.prefix_append_right_inj out).mpr hall)

/-- Readings within one flow agree. -/
theorem Reading.agrees_of_within (ha : a.Within out (flow fuel m s))
    (hb : b.Within out (flow fuel n s)) : a.Agrees b where
  left := hb.prefix_of_over ha
  right := ha.prefix_of_over hb
  comparable := by
    obtain ⟨x, hx, -⟩ := ha
    obtain ⟨y, hy, -⟩ := hb
    have hm : a.bytes <+: out ++ (flow fuel (max m n) s).bytes :=
      List.IsPrefix.trans ⟨x, hx.symm⟩
        ((List.prefix_append_right_inj out).mpr (flow_mono (Nat.le_max_left m n)))
    have hn : b.bytes <+: out ++ (flow fuel (max m n) s).bytes :=
      List.IsPrefix.trans ⟨y, hy.symm⟩
        ((List.prefix_append_right_inj out).mpr (flow_mono (Nat.le_max_right m n)))
    exact List.prefix_or_prefix_of_prefix hm hn
  ending := by
    intro hover hover'
    obtain ⟨x, -, hdone⟩ := ha
    obtain ⟨y, -, hdone'⟩ := hb
    obtain ⟨hend, -⟩ := hdone hover
    obtain ⟨hend', -⟩ := hdone' hover'
    rw [← hend] at hover ⊢
    rw [← hend'] at hover' ⊢
    rcases Nat.le_total m n with hle | hle
    · rw [flow_of_over hover hle]
    · rw [flow_of_over hover' hle]

end

end CipherReader

end SealedStream
