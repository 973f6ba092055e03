import SealedStream.Proofs.Stream.Flow
import SealedStream.Scripted.Streams
import SealedStream.Scripted.World

/-!
# Every byte of a session, once and in order

A reader is read and skipped in any order, with any block size, over any source and any session.
What its session yields when it is started, fed block by block and finalized at the end of the
source is `Line.Yields`, which knows no reader. As long as no call fails, what the reader has handed
out and passed over, with what waits in its output, is just what was yielded
(`CipherReader.uses_conserve`).

What one draw keeps is `CipherReader.Gave`; refills, reads and skips keep it because they draw.
-/

namespace SealedStream

/-- A source, a session behind it, and what they share. -/
structure Line (σ κ ρ : Type) where
  source : ρ
  session : κ
  env : Env σ

namespace Line

variable {σ κ ρ : Type} [Session κ σ] [Source σ ρ]

/-- What the session of `x` yields when it is started, given `blocks`, which the source returned,
and then, if the source came to its end, finalized. -/
inductive Yields (fuel size : Nat) (x : Line σ κ ρ) :
    List Bytes → Bool → Bytes → Line σ κ ρ → Prop
  | start {head : Bytes} {u : κ × σ} :
      (Session.start : Step (κ × σ) Bytes) (x.session, x.env.world) = .ok head u →
      Yields fuel size x [] false head ⟨x.source, u.1, { x.env with world := u.2 }⟩
  | block {blocks : List Bytes} {out block more : Bytes} {y : Line σ κ ρ} {v : ρ × Env σ}
      {u : κ × σ} :
      Yields fuel size x blocks false out y →
      (Source.read fuel size : Transfer σ ρ Bytes) (y.source, y.env) = .ok block v → block ≠ [] →
      Session.update block (y.session, v.2.world) = .ok more u →
      Yields fuel size x (blocks ++ [block]) false (out ++ more)
        ⟨v.1, u.1, { v.2 with world := u.2 }⟩
  | finish {blocks : List Bytes} {out tail : Bytes} {y : Line σ κ ρ} {v : ρ × Env σ} {u : κ × σ} :
      Yields fuel size x blocks false out y →
      (Source.read fuel size : Transfer σ ρ Bytes) (y.source, y.env) = .ok [] v →
      (Session.finalize : Step (κ × σ) Bytes) (y.session, v.2.world) = .ok tail u →
      Yields fuel size x blocks true (out ++ tail) ⟨v.1, u.1, { v.2 with world := u.2 }⟩

end Line

namespace CipherReader

variable {σ κ ρ : Type}

def line (s : State σ κ ρ) : Line σ κ ρ := ⟨s.1.inner, s.1.session, s.2⟩

variable [Session κ σ] [Source σ ρ]

/-! ## What a draw keeps -/

/-- The session of the reader, which began as `x`, has yielded `total`. -/
structure Gave (fuel size : Nat) (x : Line σ κ ρ) (total : Bytes) (s : State σ κ ρ) : Prop where
  blockSize : s.1.blockSize = size
  yields : s.1.started = false ∧ s.1.eof = false ∧ line s = x ∧ total = [] ∨
    s.1.started = true ∧ ∃ blocks, x.Yields fuel size blocks s.1.eof total (line s)

variable {fuel size n : Nat} {x : Line σ κ ρ} {total out : Bytes} {s t : State σ κ ρ}

/-- Only the source, the session and how far they are count. -/
theorem Gave.of_eq (h : Gave fuel size x total s) (hsize : t.1.blockSize = s.1.blockSize)
    (hstarted : t.1.started = s.1.started) (heof : t.1.eof = s.1.eof) (hline : line t = line s) :
    Gave fuel size x total t where
  blockSize := hsize.trans h.blockSize
  yields := by
    rw [hstarted, heof, hline]
    exact h.yields

theorem gave_startSession (h : Gave fuel size x total s) (hst : s.1.started = false)
    (hd : startSession s = .ok out t) : Gave fuel size x (total ++ out) t := by
  obtain ⟨r, env⟩ := s
  obtain ⟨hsize, ⟨-, heof, rfl, rfl⟩ | ⟨hst', -⟩⟩ := h
  · simp only [startSession, run_bind, run_update, run_onSession] at hd
    cases hrun : (Session.start : Step (κ × σ) Bytes) (r.session, env.world) with
    | error e u =>
      rw [hrun] at hd
      cases hd
    | ok head u =>
      rw [hrun] at hd
      cases hd
      refine ⟨hsize, .inr ⟨rfl, [], ?_⟩⟩
      rw [List.nil_append, show ({ r with started := true, session := u.1 } :
        CipherReader κ ρ).eof = false from heof]
      exact .start hrun
  · rw [hst] at hst'
    cases hst'

theorem gave_block (h : Gave fuel size x total s) (hst : s.1.started = true)
    (he : s.1.eof = false) (hd : (readBlock fuel >>= feed : Pull σ κ ρ Bytes) s = .ok out t) :
    Gave fuel size x (total ++ out) t := by
  obtain ⟨r, env⟩ := s
  obtain ⟨rfl, ⟨hst', -⟩ | ⟨-, blocks, hyields⟩⟩ := h
  · rw [hst] at hst'
    cases hst'
  · rw [he] at hyields
    rw [run_bind, run_readBlock] at hd
    cases hread : (Source.read fuel r.blockSize : Transfer σ ρ Bytes) (r.inner, env) with
    | error e v =>
      simp only [hread] at hd
      cases hd
    | ok block v =>
      cases hcheck : r.abort.check v.2 with
      | error e =>
        simp only [hread, hcheck] at hd
        cases hd
      | ok _ =>
        simp only [hread, hcheck, feed, run_ite] at hd
        cases block with
        | nil =>
          simp only [List.isEmpty_nil, if_true, run_finish] at hd
          cases hrun : (Session.finalize : Step (κ × σ) Bytes) (r.session, v.2.world) with
          | error e u =>
            simp only [hrun] at hd
            cases hd
          | ok tail u =>
            simp only [hrun] at hd
            cases hd
            exact ⟨rfl, .inr ⟨hst, blocks, hyields.finish hread hrun⟩⟩
        | cons b bs =>
          simp only [List.isEmpty_cons, Bool.false_eq_true, if_false, run_onSession] at hd
          cases hrun : Session.update (b :: bs) (r.session, v.2.world) with
          | error e u =>
            simp only [hrun] at hd
            cases hd
          | ok more u =>
            simp only [hrun] at hd
            cases hd
            refine ⟨rfl, .inr ⟨hst, blocks ++ [b :: bs], ?_⟩⟩
            rw [show ({ r with inner := v.1, session := u.1 } : CipherReader κ ρ).eof = false
              from he]
            exact hyields.block hread (List.cons_ne_nil b bs) hrun

/-- What is drawn is what was yielded. -/
theorem gave_draw (h : Gave fuel size x total s) (hs : Usable s) (he : s.1.eof = false)
    (hd : draw fuel s = .ok out t) : Gave fuel size x (total ++ out) t := by
  cases hst : s.1.started with
  | false =>
    rw [draw_of_fresh hs he hst] at hd
    exact gave_startSession h hst hd
  | true =>
    rw [draw_of_started hs he hst] at hd
    exact gave_block h hst he hd

/-! ## What a refill keeps -/

/-- A reader in the middle of a read. -/
structure Serving (fuel size : Nat) (x : Line σ κ ρ) (total : Bytes) (s : State σ κ ρ) : Prop where
  gave : Gave fuel size x total s
  usable : Usable s
  accessed : s.1.accessed = true

theorem Serving.idle (h : Serving fuel size x total s) (ho : s.1.output = [])
    (he : s.1.eof = false) : Idle (fun _ => True) s :=
  ⟨h.usable, ho, h.accessed, he, trivial⟩

theorem Serving.output (h : Serving fuel size x total s) (output : Bytes) :
    Serving fuel size x total ({ s.1 with output }, s.2) :=
  ⟨h.gave.of_eq rfl rfl rfl rfl, ⟨h.usable.abort, h.usable.failed⟩, h.accessed⟩

theorem Serving.draw (h : Serving fuel size x total s) (he : s.1.eof = false)
    (hd : CipherReader.draw fuel s = .ok out t) :
    Serving fuel size x (total ++ out) t ∧ t.1.started = true := by
  have hdrawn := drawn_draw fuel h.usable he
  rw [hd] at hdrawn
  exact ⟨⟨gave_draw h.gave h.usable he hd, usable_draw h.usable hd,
    hdrawn.accessed.trans h.accessed⟩, hdrawn.started⟩

/-- What is gathered while a header is assembled is what was yielded meanwhile. By induction on the
rounds, each of which is a draw. -/
theorem Serving.assembleHeader : ∀ (rounds : Nat) {s : State σ κ ρ} {total gathered plain : Bytes},
    Serving fuel size x total s → s.1.eof = false → s.1.started = true →
    assembleHeader fuel rounds gathered s = .ok plain t →
    ∃ more, plain = gathered ++ more ∧ Serving fuel size x (total ++ more) t
  | rounds, s, total, gathered, plain, h, he, hst, hrun => by
    cases hr : Session.isReady s.1.session with
    | true =>
      rw [assembleHeader_ready hr] at hrun
      cases hrun
      exact ⟨[], (List.append_nil _).symm, (List.append_nil total).symm ▸ h⟩
    | false =>
      cases rounds with
      | zero =>
        simp only [CipherReader.assembleHeader, run_bind, run_get, run_ite, hr, Bool.false_eq_true,
          if_false, run_throw] at hrun
        cases hrun
      | succ rounds =>
        rw [assembleHeader_succ h.usable he hst hr] at hrun
        cases hd : CipherReader.draw fuel s with
        | error e u =>
          rw [hd] at hrun
          cases hrun
        | ok more u =>
          obtain ⟨hu, hst'⟩ := h.draw he hd
          simp only [hd] at hrun
          cases he' : u.1.eof with
          | true =>
            rw [he', if_pos rfl] at hrun
            cases hrun
            exact ⟨more, rfl, hu⟩
          | false =>
            rw [he', if_neg Bool.false_ne_true] at hrun
            obtain ⟨rest, rfl, ht⟩ := Serving.assembleHeader rounds hu he' hst' hrun
            exact ⟨more ++ rest, List.append_assoc .., List.append_assoc .. ▸ ht⟩

/-- What a refill says of the output that it leaves. -/
structure Filled (fuel size : Nat) (x : Line σ κ ρ) (total : Bytes) (refill : Refill)
    (t : State σ κ ρ) : Prop where
  serving : Serving fuel size x (total ++ t.1.output) t
  data : t.1.output ≠ [] ↔ refill = .data
  eof : refill = .done → t.1.eof = true

omit [Session κ σ] [Source σ ρ] in
theorem exists_of_emit {res : EStateM.Result Error (State σ κ ρ) Bytes} {rf : Refill}
    (h : emit res = .ok rf t) :
    ∃ more u, res = .ok more u ∧ t = ({ u.1 with output := more }, u.2) ∧
      (more ≠ [] ↔ rf = .data) ∧ (rf = .done → u.1.eof = true) := by
  match res, h with
  | .ok more u, h =>
    cases h
    refine ⟨more, u, rfl, rfl, ?_, ?_⟩
    · cases more <;> cases u.1.eof <;> simp
    · cases more <;> cases u.1.eof <;> simp

theorem Serving.filled {res : EStateM.Result Error (State σ κ ρ) Bytes} {rf : Refill}
    (h : emit res = .ok rf t)
    (hres : ∀ more u, res = .ok more u → Serving fuel size x (total ++ more) u) :
    Filled fuel size x total rf t := by
  obtain ⟨more, u, rfl, rfl, hdata, heof⟩ := exists_of_emit h
  exact ⟨(hres more u rfl).output more, hdata, heof⟩

/-- A refill replaces the output, which is empty, by what was yielded meanwhile. -/
theorem Serving.refill (h : Serving fuel size x total s) (ho : s.1.output = []) {rf : Refill}
    (hrun : CipherReader.refill fuel s = .ok rf t) : Filled fuel size x total rf t := by
  cases he : s.1.eof with
  | true =>
    simp only [CipherReader.refill, run_bind, run_checkAbort_of h.usable.abort, run_get, run_ite,
      he, if_true, run_pure] at hrun
    cases hrun
    exact ⟨by rw [ho, List.append_nil]; exact h, by simp [ho], fun _ => he⟩
  | false =>
    have hidle := h.idle ho he
    cases hst : s.1.started with
    | true =>
      rw [refill_of_started hidle hst] at hrun
      exact Serving.filled hrun fun more u hd => (h.draw he hd).1
    | false =>
      rw [refill_of_fresh hidle hst] at hrun
      cases hd : CipherReader.draw fuel s with
      | error e u =>
        rw [hd] at hrun
        cases hrun
      | ok out u =>
        obtain ⟨hu, hst'⟩ := h.draw he hd
        cases out with
        | cons b bs =>
          simp only [hd] at hrun
          cases hrun
          exact ⟨hu.output _, by simp, by simp⟩
        | nil =>
          rw [List.append_nil] at hu
          have he' : u.1.eof = false := by
            rw [draw_of_fresh h.usable he hst] at hd
            exact (eof_startSession hd).trans he
          simp only [hd] at hrun
          split at hrun
          · refine Serving.filled hrun fun plain v hv => ?_
            obtain ⟨more, rfl, hmore⟩ := hu.assembleHeader fuel he' hst' hv
            exact hmore
          · rw [blockRefill_eq hu.usable he' hst'] at hrun
            exact Serving.filled hrun fun more v hv => (hu.draw he' hv).1

/-- Refilling over and over leaves output, or has come to the end. -/
theorem Serving.refillLoop : ∀ (left : Nat) {s : State σ κ ρ} {total : Bytes} {more : Bool},
    Serving fuel size x total s → s.1.output = [] →
    CipherReader.refillLoop fuel left s = .ok more t →
    Serving fuel size x (total ++ t.1.output) t ∧ (t.1.output ≠ [] ↔ more = true) ∧
      (more = false → t.1.eof = true)
  | left, s, total, more, h, ho, hrun => by
    have hstep : ∃ rf u, CipherReader.refill fuel s = .ok rf u := by
      cases left <;>
        · obtain ⟨rf, u, hrf, -⟩ := exists_of_bind_eq_ok hrun
          exact ⟨rf, u, hrf⟩
    obtain ⟨rf, u, hrf⟩ := hstep
    obtain ⟨hu, hdata, heof⟩ := h.refill ho hrf
    cases rf with
    | data =>
      have : more = true ∧ t = u := by
        cases left <;> simp only [CipherReader.refillLoop, run_bind, hrf, run_pure] at hrun <;>
          cases hrun <;> exact ⟨rfl, rfl⟩
      obtain ⟨rfl, rfl⟩ := this
      exact ⟨hu, by simp [hdata], by simp⟩
    | done =>
      have : more = false ∧ t = u := by
        cases left <;> simp only [CipherReader.refillLoop, run_bind, hrf, run_pure] at hrun <;>
          cases hrun <;> exact ⟨rfl, rfl⟩
      obtain ⟨rfl, rfl⟩ := this
      exact ⟨hu, by simp [hdata], fun _ => heof rfl⟩
    | empty =>
      cases left with
      | zero =>
        simp only [CipherReader.refillLoop, run_bind, hrf, run_throw] at hrun
        cases hrun
      | succ left =>
        have hnil : u.1.output = [] := Classical.not_not.mp (mt hdata.mp (by simp))
        rw [hnil, List.append_nil] at hu
        simp only [CipherReader.refillLoop, run_bind, hrf] at hrun
        exact Serving.refillLoop left hu hnil hrun

/-! ## Reads and skips -/

omit [Session κ σ] [Source σ ρ] in
/-- What begins with a check and succeeds was begun by a usable reader. -/
theorem usable_of_checked {α : Type} {f : Unit → Pull σ κ ρ α} {a : α}
    (h : (checkUsable >>= f) s = .ok a t) : Usable s := by
  refine usable_of_verdict fun e he => ?_
  rw [run_bind, run_checkUsable, he] at h
  cases h

/-- What is handed out comes off the front of the output, which had all that was yielded behind
what was handed out before. No bytes for a caller who wants some are the end of it all. -/
theorem gave_readBytes {handed : Bytes} (h : Gave fuel size x (handed ++ s.1.output) s)
    (hrun : readBytes fuel n s = .ok out t) :
    Gave fuel size x (handed ++ out ++ t.1.output) t ∧
      (n ≠ 0 → out = [] → t.1.eof = true ∧ t.1.output = []) := by
  have hs : Usable s := usable_of_checked hrun
  by_cases hsettled : n = 0 ∨ s.1.output ≠ [] ∨ s.1.eof = true
  · rw [readBytes_of_settled hs hsettled] at hrun
    cases hrun
    refine ⟨?_, fun hn hout => ?_⟩
    · rw [List.append_assoc, List.take_append_drop]
      exact h.of_eq rfl rfl rfl rfl
    · have ho : s.1.output = [] := (List.take_eq_nil_iff.mp hout).resolve_left hn
      exact ⟨(hsettled.resolve_left hn).resolve_left (absurd ho), by rw [ho, List.drop_nil]⟩
  · rw [not_or, not_or, Classical.not_not] at hsettled
    obtain ⟨hn, ho, -⟩ := hsettled
    have hserving : Serving fuel size x handed ({ s.1 with accessed := true }, s.2) := by
      rw [ho, List.append_nil] at h
      exact ⟨h.of_eq rfl rfl rfl rfl, ⟨hs.abort, hs.failed⟩, rfl⟩
    rw [readBytes_of_usable hs, if_neg hn] at hrun
    unfold readFilled at hrun
    cases hfill : (fill fuel : Pull σ κ ρ Bool) ({ s.1 with accessed := true }, s.2) with
    | error e u =>
      rw [hfill] at hrun
      cases hrun
    | ok more u =>
      rw [hfill] at hrun
      rw [fill_of_nil (s := ({ s.1 with accessed := true }, s.2)) ho] at hfill
      obtain ⟨hu, hmore, heof⟩ := hserving.refillLoop maxEmptyRefills ho hfill
      obtain ⟨r, env⟩ := u
      cases more with
      | true =>
        cases hrun
        refine ⟨?_, fun _ hout => ?_⟩
        · rw [List.append_assoc, List.take_append_drop]
          exact hu.gave.of_eq rfl rfl rfl rfl
        · exact absurd ((List.take_eq_nil_iff.mp hout).resolve_left hn) (hmore.mpr rfl)
      | false =>
        cases hrun
        have hnil : r.output = [] := Classical.not_not.mp (mt hmore.mp (by simp))
        rw [List.append_nil]
        exact ⟨hu.gave, fun _ _ => ⟨heof rfl, hnil⟩⟩

omit [Session κ σ] [Source σ ρ] in
theorem skip_of_usable (hs : Usable s) (n : Nat) :
    (skip n : Pull σ κ ρ Nat) s = .ok (min n s.1.output.length)
      ({ s.1 with accessed := true, output := s.1.output.drop n }, s.2) := by
  obtain ⟨r, env⟩ := s
  simp only [skip, run_bind, hs.run_checkUsable, run_get, run_update, run_pure]

omit [Session κ σ] [Source σ ρ] in
theorem available_of_usable (hs : Usable s) :
    (available : Pull σ κ ρ Nat) s = .ok s.1.output.length s := by
  simp only [available, run_bind, hs.run_checkUsable, run_get, run_pure]

omit [Session κ σ] [Source σ ρ] in
/-- A skip does not read: source, session and what they share stay as they are. -/
theorem line_skip (n : Nat) (s : State σ κ ρ) :
    line (reached ((skip n : Pull σ κ ρ Nat) s)) = line s := by
  simp only [skip, run_bind, run_checkUsable]
  cases verdict s <;> rfl

/-! ## What a caller does -/

/-- What a caller does with a reader. -/
inductive Use
  | read (n : Nat)
  | skip (n : Nat)
  | available

/-- What the reader answers. -/
inductive Answer
  /-- The bytes that were read. -/
  | handed (bytes : Bytes)
  /-- How many bytes were passed over. -/
  | passed (count : Nat)
  /-- How many bytes can be passed over. -/
  | waiting (count : Nat)
  deriving DecidableEq

def Use.run (fuel : Nat) : Use → Pull σ κ ρ Answer
  | .read n => return .handed (← readBytes fuel n)
  | .skip n => return .passed (← CipherReader.skip n)
  | .available => return .waiting (← CipherReader.available)

/-- The bytes that answers take from a reader, one after the other. -/
inductive Take : List Answer → Bytes → Prop
  | nil : Take [] []
  | handed (bytes : Bytes) {answers : List Answer} {rest : Bytes} :
      Take answers rest → Take (.handed bytes :: answers) (bytes ++ rest)
  | passed (bytes : Bytes) {answers : List Answer} {rest : Bytes} :
      Take answers rest → Take (.passed bytes.length :: answers) (bytes ++ rest)
  | waiting (count : Nat) {answers : List Answer} {rest : Bytes} :
      Take answers rest → Take (.waiting count :: answers) rest

/-- What one use takes comes off the front of the output. -/
theorem gave_use {handed : Bytes} {use : Use} {answer : Answer}
    (h : Gave fuel size x (handed ++ s.1.output) s) (hrun : use.run fuel s = .ok answer t) :
    (∃ piece, Gave fuel size x (handed ++ piece ++ t.1.output) t ∧
      ∀ answers rest, Take answers rest → Take (answer :: answers) (piece ++ rest)) ∧
    ∀ n, use = .read n → n ≠ 0 → answer = .handed [] → t.1.eof = true ∧ t.1.output = [] := by
  cases use with
  | read n =>
    obtain ⟨out, u, hread, hrun⟩ := exists_of_bind_eq_ok hrun
    cases hrun
    obtain ⟨hgave, hend⟩ := gave_readBytes h hread
    refine ⟨⟨out, hgave, fun _ _ htake => htake.handed out⟩, ?_⟩
    rintro m ⟨⟩ hn hanswer
    exact hend hn (Answer.handed.inj hanswer)
  | skip n =>
    refine ⟨?_, fun _ huse => nomatch huse⟩
    obtain ⟨count, u, hskip, hrun⟩ := exists_of_bind_eq_ok hrun
    cases hrun
    rw [skip_of_usable (usable_of_checked hskip)] at hskip
    cases hskip
    refine ⟨s.1.output.take n, ?_, fun _ _ htake => ?_⟩
    · rw [List.append_assoc, List.take_append_drop]
      exact h.of_eq rfl rfl rfl rfl
    · rw [← List.length_take]
      exact htake.passed _
  | available =>
    refine ⟨?_, fun _ huse => nomatch huse⟩
    obtain ⟨count, u, havailable, hrun⟩ := exists_of_bind_eq_ok hrun
    cases hrun
    rw [available_of_usable (usable_of_checked havailable)] at havailable
    cases havailable
    exact ⟨[], by rwa [List.append_nil], fun _ _ htake => htake.waiting _⟩

/-- What a series of uses takes comes off the front of the output. By induction on the uses. -/
theorem gave_uses {handed : Bytes} {uses : List Use} {answers : List Answer}
    (h : Gave fuel size x (handed ++ s.1.output) s)
    (hrun : uses.mapM (Use.run fuel) s = .ok answers t) :
    (∃ taken, Take answers taken ∧ Gave fuel size x (handed ++ taken ++ t.1.output) t) ∧
    ∀ n, uses.getLast? = some (.read n) → n ≠ 0 → answers.getLast? = some (.handed []) →
      t.1.eof = true ∧ t.1.output = [] := by
  induction uses generalizing s handed answers with
  | nil =>
    rw [List.mapM_nil] at hrun
    cases hrun
    exact ⟨⟨[], .nil, by rwa [List.append_nil]⟩, fun _ huse => nomatch huse⟩
  | cons use uses ih =>
    rw [List.mapM_cons] at hrun
    obtain ⟨answer, u, hfirst, hrun⟩ := exists_of_bind_eq_ok hrun
    obtain ⟨rest, v, hrest, hrun⟩ := exists_of_bind_eq_ok hrun
    cases hrun
    obtain ⟨⟨piece, hu, htake⟩, hend⟩ := gave_use h hfirst
    obtain ⟨⟨taken, htaken, ht⟩, hend'⟩ := ih hu hrest
    refine ⟨⟨piece ++ taken, htake _ _ htaken, by rwa [← List.append_assoc]⟩, ?_⟩
    intro n huse hn hanswer
    cases uses with
    | nil =>
      rw [List.mapM_nil] at hrest
      cases hrest
      exact hend n (Option.some.inj huse) hn (Option.some.inj hanswer)
    | cons use' uses =>
      rw [List.mapM_cons] at hrest
      obtain ⟨answer', w, -, hrest⟩ := exists_of_bind_eq_ok hrest
      obtain ⟨rest', w', -, hrest⟩ := exists_of_bind_eq_ok hrest
      cases hrest
      exact hend' n huse hn hanswer

/-- **Every byte of a session is handed out once and in order**, however its reader is read, skipped
and asked, as long as no call fails: what was taken, with what waits, is what the session yielded.
What waits is what a skip can pass, and no skip reads. A read that gives nothing to a caller who
wants some comes behind the last byte of the end. -/
theorem uses_conserve (source : ρ) (session : κ) (blockSize : Nat) (abort : AbortHandle)
    (env : Env σ) (fuel : Nat) {uses : List Use} {answers : List Answer} {t : State σ κ ρ}
    (h : uses.mapM (Use.run fuel) (CipherReader.new source session blockSize abort, env) =
      .ok answers t) :
    ∃ taken total, Take answers taken ∧ total = taken ++ t.1.output ∧
      (line t = ⟨source, session, env⟩ ∧ total = [] ∨
        ∃ blocks ended, Line.Yields fuel (max blockSize 1) ⟨source, session, env⟩ blocks ended total
          (line t)) ∧
      (∀ count u, available t = .ok count u → u = t ∧ count = t.1.output.length ∧
        ∀ n, skip n t = .ok (min n count)
          ({ t.1 with accessed := true, output := t.1.output.drop n }, t.2)) ∧
      (∀ n, line (reached ((skip n : Pull σ κ ρ Nat) t)) = line t) ∧
      ∀ n, uses.getLast? = some (.read n) → n ≠ 0 → answers.getLast? = some (.handed []) →
        total = taken ∧ ∃ blocks,
          Line.Yields fuel (max blockSize 1) ⟨source, session, env⟩ blocks true total (line t) := by
  have hnew : Gave fuel (max blockSize 1) ⟨source, session, env⟩
      ([] ++ (CipherReader.new source session blockSize abort).output)
      (CipherReader.new source session blockSize abort, env) :=
    ⟨rfl, .inl ⟨rfl, rfl, rfl, rfl⟩⟩
  obtain ⟨⟨taken, htake, -, hyields⟩, hend⟩ := gave_uses hnew h
  rw [List.nil_append] at hyields
  refine ⟨taken, taken ++ t.1.output, htake, rfl, ?_, ?_, fun n => line_skip n t, ?_⟩
  · rcases hyields with ⟨-, -, hline, hnil⟩ | ⟨-, blocks, hblocks⟩
    · exact .inl ⟨hline, hnil⟩
    · exact .inr ⟨blocks, t.1.eof, hblocks⟩
  · intro count u havailable
    have hs : Usable t := usable_of_checked havailable
    rw [available_of_usable hs] at havailable
    cases havailable
    exact ⟨rfl, rfl, fun n => skip_of_usable hs n⟩
  · intro n huse hn hanswer
    obtain ⟨heof, hnil⟩ := hend n huse hn hanswer
    rcases hyields with ⟨-, heof', -, -⟩ | ⟨-, hblocks⟩
    · rw [heof] at heof'
      cases heof'
    · rw [heof] at hblocks
      exact ⟨by rw [hnil, List.append_nil], hblocks⟩

section

open Scripted

/-- Three bytes in front of a session that encrypts. -/
def threeHeld : Line World (FamilySession World HoldCipher) ScriptedSource :=
  ⟨{ data := #[1, 2, 3] }, holdSession, ⟨[], holdWorld []⟩⟩

/-- What comes of reading them in blocks of two, the header skipped in part. -/
def readHeld : EStateM.Result Error
    (State World (FamilySession World HoldCipher) ScriptedSource) (List Answer) :=
  [Use.available, .read 3, .skip 7, .available, .read 99, .skip 1, .read 99, .read 9, .read 9].mapM
    (Use.run 20) (CipherReader.new threeHeld.source threeHeld.session 2, threeHeld.env)

theorem uses_conserve_hold : ∃ answers t, readHeld = .ok answers t ∧
    answers = [.waiting 0, .handed [0, 0, 0], .passed 7, .waiting 10,
      .handed [0, 4, 1, 1, 1, 1, 2, 2, 2, 2], .passed 0, .handed [3, 0], .handed [1],
      .handed []] ∧
    ∃ taken blocks, Take answers taken ∧ threeHeld.Yields 20 2 blocks true taken (line t) := by
  have hrun : (outcome readHeld).toOption = some [.waiting 0, .handed [0, 0, 0], .passed 7,
      .waiting 10, .handed [0, 4, 1, 1, 1, 1, 2, 2, 2, 2], .passed 0, .handed [3, 0], .handed [1],
      .handed []] := by
    decide +kernel
  cases hread : readHeld with
  | error e t =>
    rw [hread] at hrun
    cases hrun
  | ok answers t =>
    rw [hread] at hrun
    obtain rfl := Option.some.inj hrun
    obtain ⟨taken, total, htake, -, -, -, -, hend⟩ := uses_conserve _ _ _ _ _ _ hread
    obtain ⟨rfl, blocks, hyields⟩ := hend 9 rfl (by decide) rfl
    exact ⟨_, t, rfl, rfl, total, blocks, htake, hyields⟩

end

end CipherReader

end SealedStream
