import SealedStream.Proofs.Stream.ReadTower
import SealedStream.Proofs.Stream.Recording
import SealedStream.Proofs.Stream.Trailing
import SealedStream.Stream.Checked

/-!
# A checksum in step with its stream

`Transcribed` is a stream that keeps a transcript of its transfers, and otherwise does what the stream
does. Over it a checked reader and a checked writer show that the checksum has seen what passed, piece
by piece and nothing else, wherever a loop of transfers stopped: each transfer keeps this
(`CheckedReader.fed_read`, `CheckedWriter.fed_write`), and so does what is made of transfers. What a
skip and the writing of a whole come to can be read off the transcript (`Skipped`, `Written`).
-/

namespace SealedStream

variable {σ γ α β ο ρ ρ' ς ς' : Type}

/-! ## Transcripts -/

/-- A transfer: what the stream was asked, and the bytes that passed unless it failed. -/
structure Passage (α : Type) where
  request : α
  passed : Except IoError Bytes

namespace Passage

/-- What passed, piece by piece. -/
def pieces (transcript : List (Passage α)) : List Bytes := transcript.filterMap (·.passed.toOption)

/-- All the bytes that passed. -/
def bytes (transcript : List (Passage α)) : Bytes := (pieces transcript).flatten

def interrupted (p : Passage α) : Bool :=
  match p.passed with
  | .ok _ => false
  | .error e => e.isInterrupted

/-- How many transfers were interrupted. -/
def interruptions (transcript : List (Passage α)) : Nat := transcript.countP interrupted

/-- The source gave no more than it was asked for. -/
def Fits (p : Passage Nat) : Prop := ∀ given, p.passed = .ok given → given.length ≤ p.request

variable {request : α} {transcript : List (Passage α)}

@[simp] theorem pieces_ok (given : Bytes) :
    pieces (⟨request, .ok given⟩ :: transcript) = given :: pieces transcript := rfl

@[simp] theorem pieces_error (e : IoError) :
    pieces (⟨request, .error e⟩ :: transcript) = pieces transcript := rfl

theorem pieces_append (later : List (Passage α)) :
    pieces (transcript ++ later) = pieces transcript ++ pieces later := List.filterMap_append

@[simp] theorem bytes_ok (given : Bytes) :
    bytes (⟨request, .ok given⟩ :: transcript) = given ++ bytes transcript := rfl

@[simp] theorem bytes_error (e : IoError) :
    bytes (⟨request, .error e⟩ :: transcript) = bytes transcript := rfl

@[simp] theorem interruptions_ok (given : Bytes) :
    interruptions (⟨request, .ok given⟩ :: transcript) = interruptions transcript :=
  List.countP_cons_of_neg (by simp [interrupted])

theorem interruptions_error {e : IoError} (h : e.isInterrupted = true) :
    interruptions (⟨request, .error e⟩ :: transcript) = interruptions transcript + 1 :=
  List.countP_cons_of_pos h

end Passage

open Passage

/-- A stream with a transcript of its transfers. -/
structure Transcribed (α ο : Type) where
  it : ο
  transcript : List (Passage α) := []

namespace Transcribed

/-- Makes a transfer and enters it. -/
def run (request : α) (passed : β → Bytes) (x : Transfer σ ο β) : Transfer σ (Transcribed α ο) β :=
  fun s => mapState
    (fun t => (⟨t.1, s.1.transcript ++ [⟨request, (outcome (x (s.1.it, s.2))).map passed⟩]⟩, t.2))
    (x (s.1.it, s.2))

instance [Source σ ρ] : Source σ (Transcribed Nat ρ) where
  read fuel n := run n (fun given => given) (Source.read fuel n)

instance [Sink σ ς] : Sink σ (Transcribed Bytes ς) where
  write fuel bytes := run bytes bytes.take (Sink.write fuel bytes)
  flush fuel := fun s =>
    mapState (fun t => (⟨t.1, s.1.transcript⟩, t.2)) (Sink.flush fuel (s.1.it, s.2))

end Transcribed

/-! ## Loops of transfers -/

/-- What dropping up to `n` bytes comes to: how many there were, fewer only at the end of the source;
or what the last read failed with, or that the rounds were used up. -/
structure Skipped (rounds n : Nat) (result : Except IoError Nat) (transcript : List (Passage Nat)) :
    Prop where
  count : ∀ m, result = .ok m → m = (bytes transcript).length
  short : ∀ m, result = .ok m → m < n → ∃ before asked, transcript = before ++ [⟨asked, .ok []⟩] ∧
    0 < asked
  failed : ∀ e, result = .error e →
    (∃ before asked, transcript = before ++ [⟨asked, .error e⟩] ∧ e.isInterrupted = false) ∨
    e = .stalled ∧ rounds < n + interruptions transcript
  within : (∀ p ∈ transcript, p.Fits) → (bytes transcript).length ≤ n

/-- What writing all of `whole` comes to: all of it passed; or some of it did, and a write of the rest
failed or took nothing, or the rounds were used up. -/
structure Written (rounds : Nat) (whole : Bytes) (result : Except IoError Unit)
    (transcript : List (Passage Bytes)) : Prop where
  ok : result = .ok () → bytes transcript = whole
  failed : ∀ e, result = .error e → ∃ rest, bytes transcript ++ rest = whole ∧
    ((∃ before, transcript = before ++ [⟨rest, .error e⟩] ∧ e.isInterrupted = false) ∨
      (∃ before, transcript = before ++ [⟨rest, .ok []⟩] ∧
        e = .plain .writeZero "failed to write whole buffer") ∨
      e = .stalled ∧ rounds < whole.length + interruptions transcript)

namespace Skipped

variable {rounds n : Nat} {result : Except IoError Nat} {transcript : List (Passage Nat)}

theorem nothing : Skipped rounds 0 (.ok 0) [] where
  count := by
    rintro m ⟨⟩
    rfl
  short := by
    intro m _ hlt
    omega
  failed := by rintro e ⟨⟩
  within _ := Nat.le_refl 0

theorem stalled : Skipped 0 (n + 1) (.error .stalled) [] where
  count := by rintro m ⟨⟩
  short := by rintro m ⟨⟩
  failed := by
    rintro e ⟨⟩
    exact .inr ⟨rfl, Nat.succ_pos _⟩
  within _ := Nat.zero_le _

theorem ended {asked : Nat} (hasked : 0 < asked) : Skipped rounds n (.ok 0) [⟨asked, .ok []⟩] where
  count := by
    rintro m ⟨⟩
    rfl
  short _ _ _ := ⟨[], asked, rfl, hasked⟩
  failed := by rintro e ⟨⟩
  within _ := Nat.zero_le _

theorem broken {asked : Nat} {e : IoError} (he : e.isInterrupted = false) :
    Skipped rounds n (.error e) [⟨asked, .error e⟩] where
  count := by rintro m ⟨⟩
  short := by rintro m ⟨⟩
  failed := by
    rintro e' ⟨⟩
    exact .inl ⟨[], asked, rfl, he⟩
  within _ := Nat.zero_le _

/-- Behind a read that gave bytes, -/
theorem ok {asked : Nat} {given : Bytes} (hn : 0 < n) (hasked : asked ≤ n) (hgiven : given ≠ [])
    (h : Skipped rounds (n - given.length) result transcript) :
    Skipped (rounds + 1) n (result.map (given.length + ·)) (⟨asked, .ok given⟩ :: transcript) where
  count := by
    intro m hm
    cases result with
    | error e => cases hm
    | ok k =>
      cases hm
      rw [bytes_ok, List.length_append, ← h.count k rfl]
  short := by
    intro m hm hlt
    cases result with
    | error e => cases hm
    | ok k =>
      cases hm
      dsimp only at hlt
      obtain ⟨before, last, rfl, hlast⟩ := h.short k rfl (by omega)
      exact ⟨⟨asked, .ok given⟩ :: before, last, rfl, hlast⟩
  failed := by
    intro e he
    have hpos := List.length_pos_iff.mpr hgiven
    cases result with
    | ok k => cases he
    | error e' =>
      cases he
      rcases h.failed e rfl with ⟨before, last, rfl, hlast⟩ | ⟨he, hrounds⟩
      · exact .inl ⟨⟨asked, .ok given⟩ :: before, last, rfl, hlast⟩
      · refine .inr ⟨he, ?_⟩
        rw [interruptions_ok]
        omega
  within := by
    intro hfits
    rw [bytes_ok, List.length_append]
    have hfirst : given.length ≤ asked := hfits _ List.mem_cons_self given rfl
    have hrest := h.within fun p hp => hfits p (List.mem_cons_of_mem _ hp)
    omega

/-- and behind one that was interrupted. -/
theorem interrupted {asked : Nat} {e : IoError} (he : e.isInterrupted = true)
    (h : Skipped rounds n result transcript) :
    Skipped (rounds + 1) n result (⟨asked, .error e⟩ :: transcript) where
  count m hm := by rw [bytes_error, h.count m hm]
  short := by
    intro m hm hlt
    obtain ⟨before, last, rfl, hlast⟩ := h.short m hm hlt
    exact ⟨⟨asked, .error e⟩ :: before, last, rfl, hlast⟩
  failed := by
    intro e' he'
    rcases h.failed e' he' with ⟨before, last, rfl, hlast⟩ | ⟨hstalled, hrounds⟩
    · exact .inl ⟨⟨asked, .error e⟩ :: before, last, rfl, hlast⟩
    · refine .inr ⟨hstalled, ?_⟩
      rw [interruptions_error he]
      omega
  within hfits := by
    rw [bytes_error]
    exact h.within fun p hp => hfits p (List.mem_cons_of_mem _ hp)

end Skipped

/-- What a source has been asked and what passed, if it is kept somewhere in its state. -/
def Source.Keeps (σ : Type) [Source σ ρ] (fuel : Nat) (transcript : ρ → List (Passage Nat)) : Prop :=
  ∀ (n : Nat) (s : ρ × Env σ), transcript (reached ((Source.read fuel n : Transfer σ ρ Bytes) s)).1 =
    transcript s.1 ++ [⟨n, outcome ((Source.read fuel n : Transfer σ ρ Bytes) s)⟩]

/-- By induction on the rounds. -/
theorem Source.discardLoop_skipped [Source σ ρ] {fuel : Nat} {transcript : ρ → List (Passage Nat)}
    (h : Source.Keeps σ fuel transcript) : ∀ (rounds n count : Nat) (s : ρ × Env σ),
    ∃ (later : List (Passage Nat)) (result : Except IoError Nat),
      transcript (reached ((discardLoop fuel rounds n count : Transfer σ ρ Nat) s)).1 =
        transcript s.1 ++ later ∧
      outcome ((discardLoop fuel rounds n count : Transfer σ ρ Nat) s) = result.map (count + ·) ∧
      Skipped rounds n result later
  | rounds, 0, count, s => by
    refine ⟨[], .ok 0, ?_, ?_, ?_⟩
    · cases rounds <;> exact (List.append_nil _).symm
    · cases rounds <;> rfl
    · exact .nothing
  | 0, n + 1, count, s => by
    exact ⟨[], .error .stalled, (List.append_nil _).symm, rfl, .stalled⟩
  | rounds + 1, n + 1, count, s => by
    have hread := h (min copyLen (n + 1)) s
    have hasked : min copyLen (n + 1) ≤ n + 1 := Nat.min_le_right _ _
    unfold Source.discardLoop
    cases hrun : (Source.read fuel (min copyLen (n + 1)) : Transfer σ ρ Bytes) s with
    | ok given t =>
      rw [hrun] at hread
      cases given with
      | nil =>
        exact ⟨_, .ok 0, hread, rfl, .ended (Nat.lt_min.mpr ⟨by decide, Nat.succ_pos n⟩)⟩
      | cons b bs =>
        obtain ⟨later, result, hlater, hresult, hskipped⟩ := discardLoop_skipped h rounds
          (n + 1 - (b :: bs).length) (count + (b :: bs).length) t
        refine ⟨⟨min copyLen (n + 1), .ok (b :: bs)⟩ :: later, result.map ((b :: bs).length + ·), ?_,
          ?_, hskipped.ok (Nat.succ_pos n) hasked (List.cons_ne_nil _ _)⟩
        · have ht : transcript t.1 = transcript s.1 ++ [⟨_, .ok (b :: bs)⟩] := hread
          rw [hlater, ht, List.append_assoc]
          rfl
        · rw [hresult]
          cases result with
          | error e => rfl
          | ok k => exact congrArg Except.ok (Nat.add_assoc _ _ _)
    | error e t =>
      rw [hrun] at hread
      dsimp only
      cases he : e.isInterrupted with
      | true =>
        obtain ⟨later, result, hlater, hresult, hskipped⟩ :=
          discardLoop_skipped h rounds (n + 1) count t
        refine ⟨⟨min copyLen (n + 1), .error e⟩ :: later, result, ?_, hresult,
          hskipped.interrupted he⟩
        have ht : transcript t.1 = transcript s.1 ++ [⟨_, .error e⟩] := hread
        rw [if_pos rfl, hlater, ht, List.append_assoc]
        rfl
      | false =>
        exact ⟨_, .error e, hread, rfl, .broken he⟩

namespace Written

variable {rounds : Nat} {whole : Bytes} {result : Except IoError Unit}
  {transcript : List (Passage Bytes)}

theorem nothing : Written rounds [] (.ok ()) [] where
  ok _ := rfl
  failed := by rintro e ⟨⟩

theorem stalled (hwhole : whole ≠ []) : Written 0 whole (.error .stalled) [] where
  ok := by rintro ⟨⟩
  failed := by
    rintro e ⟨⟩
    exact ⟨whole, rfl, .inr (.inr ⟨rfl, Nat.add_pos_left (List.length_pos_iff.mpr hwhole) _⟩)⟩

theorem refused :
    Written rounds whole (.error (.plain .writeZero "failed to write whole buffer"))
      [⟨whole, .ok []⟩] where
  ok := by rintro ⟨⟩
  failed := by
    rintro e ⟨⟩
    exact ⟨whole, rfl, .inr (.inl ⟨[], rfl, rfl⟩)⟩

theorem broken {e : IoError} (he : e.isInterrupted = false) :
    Written rounds whole (.error e) [⟨whole, .error e⟩] where
  ok := by rintro ⟨⟩
  failed := by
    rintro e' ⟨⟩
    exact ⟨whole, rfl, .inl ⟨[], rfl, he⟩⟩

/-- Behind a write that took some bytes, -/
theorem taken {n : Nat} (hn : n ≠ 0) (hwhole : whole ≠ [])
    (h : Written rounds (whole.drop n) result transcript) :
    Written (rounds + 1) whole result (⟨whole, .ok (whole.take n)⟩ :: transcript) where
  ok hok := by rw [bytes_ok, h.ok hok, List.take_append_drop]
  failed := by
    intro e he
    obtain ⟨rest, hrest, hcause⟩ := h.failed e he
    refine ⟨rest, by rw [bytes_ok, List.append_assoc, hrest, List.take_append_drop], ?_⟩
    rcases hcause with ⟨before, rfl, he⟩ | ⟨before, rfl, he⟩ | ⟨he, hrounds⟩
    · exact .inl ⟨⟨whole, .ok (whole.take n)⟩ :: before, rfl, he⟩
    · exact .inr (.inl ⟨⟨whole, .ok (whole.take n)⟩ :: before, rfl, he⟩)
    · refine .inr (.inr ⟨he, ?_⟩)
      have hpos := List.length_pos_iff.mpr hwhole
      rw [List.length_drop] at hrounds
      rw [interruptions_ok]
      omega

/-- and behind one that was interrupted. -/
theorem interrupted {e : IoError} (he : e.isInterrupted = true)
    (h : Written rounds whole result transcript) :
    Written (rounds + 1) whole result (⟨whole, .error e⟩ :: transcript) where
  ok hok := by rw [bytes_error, h.ok hok]
  failed := by
    intro e' he'
    obtain ⟨rest, hrest, hcause⟩ := h.failed e' he'
    refine ⟨rest, by rw [bytes_error, hrest], ?_⟩
    rcases hcause with ⟨before, rfl, he'⟩ | ⟨before, rfl, he'⟩ | ⟨he', hrounds⟩
    · exact .inl ⟨⟨whole, .error e⟩ :: before, rfl, he'⟩
    · exact .inr (.inl ⟨⟨whole, .error e⟩ :: before, rfl, he'⟩)
    · refine .inr (.inr ⟨he', ?_⟩)
      rw [interruptions_error he]
      omega

end Written

/-- What a sink has been offered and what it took, if that is kept somewhere in its state. -/
def Sink.Keeps (σ : Type) [Sink σ ς] (fuel : Nat) (transcript : ς → List (Passage Bytes)) : Prop :=
  ∀ (bytes : Bytes) (s : ς × Env σ),
    transcript (reached ((Sink.write fuel bytes : Transfer σ ς Nat) s)).1 =
      transcript s.1 ++ [⟨bytes, (outcome ((Sink.write fuel bytes : Transfer σ ς Nat) s)).map bytes.take⟩]

/-- By induction on the rounds. -/
theorem Sink.writeAllLoop_written [Sink σ ς] {fuel : Nat} {transcript : ς → List (Passage Bytes)}
    (h : Sink.Keeps σ fuel transcript) : ∀ (rounds : Nat) (bytes : Bytes) (s : ς × Env σ),
    ∃ later : List (Passage Bytes),
      transcript (reached ((writeAllLoop fuel rounds bytes : Transfer σ ς Unit) s)).1 =
        transcript s.1 ++ later ∧
      Written rounds bytes (outcome ((writeAllLoop fuel rounds bytes : Transfer σ ς Unit) s)) later
  | 0, [], s => ⟨[], (List.append_nil _).symm, .nothing⟩
  | _ + 1, [], s => ⟨[], (List.append_nil _).symm, .nothing⟩
  | 0, b :: bs, s => ⟨[], (List.append_nil _).symm, .stalled (List.cons_ne_nil b bs)⟩
  | rounds + 1, b :: bs, s => by
    have hwrite := h (b :: bs) s
    rw [writeAllLoop_cons]
    cases hrun : (Sink.write fuel (b :: bs) : Transfer σ ς Nat) s with
    | ok n t =>
      rw [hrun] at hwrite
      cases n with
      | zero => exact ⟨_, hwrite, .refused⟩
      | succ n =>
        have ht : transcript t.1 = transcript s.1 ++ [⟨_, .ok ((b :: bs).take (n + 1))⟩] := hwrite
        obtain ⟨later, hlater, hwritten⟩ :=
          writeAllLoop_written h rounds ((b :: bs).drop (n + 1)) t
        have hrest : rest fuel rounds (b :: bs) (.ok (n + 1) t) =
            writeAllLoop fuel rounds ((b :: bs).drop (n + 1)) t := rfl
        rw [hrest]
        refine ⟨_, ?_, hwritten.taken (Nat.succ_ne_zero n) (List.cons_ne_nil b bs)⟩
        rw [hlater, ht, List.append_assoc]
        rfl
    | error e t =>
      rw [hrun] at hwrite
      simp only [rest]
      cases he : e.isInterrupted with
      | true =>
        have ht : transcript t.1 = transcript s.1 ++ [⟨_, .error e⟩] := hwrite
        obtain ⟨later, hlater, hwritten⟩ := writeAllLoop_written h rounds (b :: bs) t
        rw [if_pos rfl]
        refine ⟨_, ?_, hwritten.interrupted he⟩
        rw [hlater, ht, List.append_assoc]
        rfl
      | false => exact ⟨_, hwrite, .broken he⟩

/-! ## Streaming checksums -/

/-- Bytes in two goes are the bytes in one. -/
def Accumulator.Streaming (γ : Type) [Accumulator γ] : Prop :=
  ∀ (c : γ) (a b : Bytes), Accumulator.update (Accumulator.update c a) b =
    Accumulator.update c (a ++ b)

section

variable [Accumulator γ] {request : α} {transcript : List (Passage α)} {given : Bytes}

theorem Passage.foldl_pieces_ok (c : γ) :
    (pieces (transcript ++ [⟨request, .ok given⟩])).foldl Accumulator.update c =
      Accumulator.update ((pieces transcript).foldl Accumulator.update c) given := by
  rw [pieces_append, List.foldl_append]
  rfl

theorem Passage.foldl_pieces_error (c : γ) (e : IoError) :
    (pieces (transcript ++ [⟨request, .error e⟩])).foldl Accumulator.update c =
      (pieces transcript).foldl Accumulator.update c := by
  rw [pieces_append, List.foldl_append]
  rfl

end

/-- By induction on the pieces. -/
theorem Accumulator.Streaming.foldl [Accumulator γ] (h : Streaming γ) (c : γ) (before : Bytes)
    (pieces : List Bytes) : pieces.foldl update (update c before) =
      update c (before ++ pieces.flatten) := by
  induction pieces generalizing before with
  | nil => rw [List.foldl_nil, List.flatten_nil, List.append_nil]
  | cons piece pieces ih =>
    rw [List.foldl_cons, h, ih, List.flatten_cons, List.append_assoc]

namespace Checksum

mutual

theorem update_append : ∀ (c : Checksum) (a b : Bytes), (c.update a).update b = c.update (a ++ b)
  | .crc64 c, a, b => congrArg Checksum.crc64 (c.update_append a b)
  | .crc32 c, a, b => congrArg Checksum.crc32 (c.update_append a b)
  | .digest d, a, b => congrArg Checksum.digest (d.update_append a b)
  | .group children, a, b => congrArg Checksum.group (updateAll_append children a b)

theorem updateAll_append : ∀ (cs : List Checksum) (a b : Bytes),
    updateAll (updateAll cs a) b = updateAll cs (a ++ b)
  | [], _, _ => rfl
  | c :: cs, a, b => by
    rw [updateAll, updateAll, updateAll, update_append c, updateAll_append cs]

end

end Checksum

/-- All checksums of the library are streaming, groups of them too. -/
theorem Accumulator.streaming :
    Streaming Crc64 ∧ Streaming Crc32 ∧ Streaming Digest ∧ Streaming Checksum :=
  ⟨Crc64.update_append, Crc32.update_append, Digest.update_append, Checksum.update_append⟩

/-! ## Checked readers -/

/-- Dropping bytes looks at a source only by reading from it. By induction on the rounds. -/
theorem Source.Embeds.discardLoop [Source σ ρ] [Source σ ρ'] {fuel : Nat} {j : ρ → ρ'}
    (hj : Source.Embeds σ fuel j) : ∀ (rounds n count : Nat) (i : ρ) (env : Env σ),
    (Source.discardLoop fuel rounds n count : Transfer σ ρ' Nat) (j i, env) =
      mapState (fun t => (j t.1, t.2))
        ((Source.discardLoop fuel rounds n count : Transfer σ ρ Nat) (i, env))
  | 0, 0, _, _, _ => rfl
  | _ + 1, 0, _, _, _ => rfl
  | 0, _ + 1, _, _, _ => rfl
  | rounds + 1, n + 1, count, i, env => by
    simp only [Source.discardLoop, hj _]
    cases (Source.read fuel (min copyLen (n + 1)) : Transfer σ ρ Bytes) (i, env) with
    | ok given t =>
      cases given with
      | nil => rfl
      | cons b bs => exact discardLoop hj rounds _ _ t.1 t.2
    | error e t =>
      simp only [mapState]
      split
      · exact discardLoop hj rounds _ _ t.1 t.2
      · rfl

namespace CheckedReader

/-- What a caller asks of a checked reader. -/
inductive Request
  | read (n : Nat)
  | skip (n : Nat)

section

variable [Accumulator γ] [Source σ ρ]

theorem run_read (fuel n : Nat) (r : CheckedReader γ ρ) (env : Env σ) :
    (Source.read fuel n : Transfer σ (CheckedReader γ ρ) Bytes) (r, env) =
      match (Source.read fuel n : Transfer σ ρ Bytes) (r.inner, env) with
      | .ok given t => .ok given (⟨t.1, Accumulator.update r.checksum given⟩, t.2)
      | .error e t => .error e (⟨t.1, r.checksum⟩, t.2) := by
  simp only [Source.read, onInner, run_bind, run_zoom, run_modify, run_pure]
  cases (Source.read fuel n : Transfer σ ρ Bytes) (r.inner, env) <;> rfl

/-- Where the request leads, whether it fails or not. -/
def Request.step (fuel : Nat) (s : CheckedReader γ ρ × Env σ) : Request → CheckedReader γ ρ × Env σ
  | .read n => reached ((Source.read fuel n : Transfer σ (CheckedReader γ ρ) Bytes) s)
  | .skip n => reached ((CheckedReader.skip fuel n : Transfer σ (CheckedReader γ ρ) Nat) s)

/-- Where the requests lead, one after the other. -/
def after (fuel : Nat) (s : CheckedReader γ ρ × Env σ) (requests : List Request) :
    CheckedReader γ ρ × Env σ := requests.foldl (Request.step fuel) s

/-- The reader with a transcript of what its source is asked from here on. -/
def transcribed (s : CheckedReader γ ρ × Env σ) : CheckedReader γ (Transcribed Nat ρ) × Env σ :=
  (⟨⟨s.1.inner, []⟩, s.1.checksum⟩, s.2)

/-- The reader without the transcript. -/
def plain (r : CheckedReader γ (Transcribed Nat ρ)) : CheckedReader γ ρ := ⟨r.inner.it, r.checksum⟩

/-- What the source is asked during the requests, and what it gives. -/
def transcript (fuel : Nat) (s : CheckedReader γ ρ × Env σ) (requests : List Request) :
    List (Passage Nat) := (after fuel (transcribed s) requests).1.inner.transcript

/-- The checksum has seen what is in the transcript. -/
def Fed (c₀ : γ) (s : CheckedReader γ (Transcribed Nat ρ) × Env σ) : Prop :=
  s.1.checksum = (pieces s.1.inner.transcript).foldl Accumulator.update c₀

/-- A transcript changes nothing. -/
theorem embeds_plain (fuel : Nat) : Source.Embeds σ fuel
    (plain : CheckedReader γ (Transcribed Nat ρ) → CheckedReader γ ρ) := by
  intro n r env
  rw [run_read, run_read]
  simp only [plain, Source.read, Transcribed.run]
  cases (Source.read fuel n : Transfer σ ρ Bytes) (r.inner.it, env) <;> rfl

theorem keeps_transcript (fuel : Nat) : Source.Keeps σ fuel
    fun r : CheckedReader γ (Transcribed Nat ρ) => r.inner.transcript := by
  rintro n ⟨r, env⟩
  rw [run_read]
  simp only [Source.read, Transcribed.run]
  cases (Source.read fuel n : Transfer σ ρ Bytes) (r.inner.it, env) <;> rfl

theorem fed_read (fuel n : Nat) (c₀ : γ) : Keeps (Fed c₀)
    (Source.read fuel n : Transfer σ (CheckedReader γ (Transcribed Nat ρ)) Bytes) := by
  rintro ⟨r, env⟩ hr
  have hr' : r.checksum = (pieces r.inner.transcript).foldl Accumulator.update c₀ := hr
  rw [run_read]
  simp only [Source.read, Transcribed.run]
  cases (Source.read fuel n : Transfer σ ρ Bytes) (r.inner.it, env) with
  | ok given t =>
    show Accumulator.update r.checksum given = _
    rw [hr']
    exact (foldl_pieces_ok c₀).symm
  | error e t =>
    show r.checksum = _
    rw [hr']
    exact (foldl_pieces_error c₀ e).symm

/-- The state without the transcript. -/
def bare (s : CheckedReader γ (Transcribed Nat ρ) × Env σ) : CheckedReader γ ρ × Env σ :=
  (plain s.1, s.2)

variable (fuel : Nat)

theorem skip_bare (n : Nat) (s : CheckedReader γ (Transcribed Nat ρ) × Env σ) :
    (skip fuel n : Transfer σ (CheckedReader γ ρ) Nat) (bare s) = mapState bare (skip fuel n s) :=
  (embeds_plain fuel).discardLoop fuel n 0 s.1 s.2

theorem step_bare (s : CheckedReader γ (Transcribed Nat ρ) × Env σ) (request : Request) :
    request.step fuel (bare s) = bare (request.step fuel s) := by
  cases request with
  | read n => exact (congrArg reached (embeds_plain fuel n s.1 s.2)).trans (reached_mapState _ _)
  | skip n => exact (congrArg reached (skip_bare fuel n s)).trans (reached_mapState _ _)

theorem after_bare (s : CheckedReader γ (Transcribed Nat ρ) × Env σ) (requests : List Request) :
    after fuel (bare s) requests = bare (after fuel s requests) :=
  List.foldl_hom bare (step_bare fuel)

theorem fed_step {c₀ : γ} {s : CheckedReader γ (Transcribed Nat ρ) × Env σ} (hs : Fed c₀ s)
    (request : Request) : Fed c₀ (request.step fuel s) := by
  cases request with
  | read n => exact fed_read fuel n c₀ s hs
  | skip n => exact Source.keeps_discardLoop (fun m => fed_read fuel m c₀) fuel n 0 s hs

theorem fed_after {c₀ : γ} {s : CheckedReader γ (Transcribed Nat ρ) × Env σ} (hs : Fed c₀ s)
    (requests : List Request) : Fed c₀ (after fuel s requests) := by
  induction requests generalizing s with
  | nil => exact hs
  | cons request requests ih => exact ih (fed_step fuel hs request)

theorem after_append (s : CheckedReader γ ρ × Env σ) (requests more : List Request) :
    after fuel s (requests ++ more) = after fuel (after fuel s requests) more := List.foldl_append

/-- The checksum of a reader behind any requests, and what the next one makes of it. -/
structure InStep (s : CheckedReader γ ρ × Env σ) (requests : List Request) : Prop where
  /-- The transcript is one of these very requests. -/
  unchanged : bare (after fuel (transcribed s) requests) = after fuel s requests
  /-- The checksum has seen what passed, piece by piece, -/
  pieces : (after fuel s requests).1.checksum =
    (pieces (transcript fuel s requests)).foldl Accumulator.update s.1.checksum
  /-- and if it does not matter to it how bytes are cut, as if it had seen all of it in one go. -/
  bytes : Accumulator.Streaming γ → ∀ (c : γ) (before : Bytes),
    s.1.checksum = Accumulator.update c before → (after fuel s requests).1.checksum =
      Accumulator.update c (before ++ bytes (transcript fuel s requests))
  read : ∀ n, transcript fuel s (requests ++ [.read n]) = transcript fuel s requests ++
    [⟨n, outcome ((Source.read fuel n : Transfer σ (CheckedReader γ ρ) Bytes)
      (after fuel s requests))⟩]
  skip : ∀ n, ∃ later, transcript fuel s (requests ++ [.skip n]) =
    transcript fuel s requests ++ later ∧ Skipped fuel n
      (outcome ((skip fuel n : Transfer σ (CheckedReader γ ρ) Nat) (after fuel s requests))) later

theorem inStep (s : CheckedReader γ ρ × Env σ) (requests : List Request) :
    InStep fuel s requests := by
  have hbare : bare (after fuel (transcribed s) requests) = after fuel s requests :=
    (after_bare fuel (transcribed s) requests).symm
  have hfed : (after fuel s requests).1.checksum =
      (Passage.pieces (transcript fuel s requests)).foldl Accumulator.update s.1.checksum := by
    rw [← hbare]
    exact fed_after fuel (s := transcribed s) rfl requests
  refine ⟨hbare, hfed, ?_, ?_, ?_⟩
  · intro hstreaming c before hs
    rw [hfed, hs]
    exact hstreaming.foldl c before _
  · intro n
    rw [← hbare, bare, embeds_plain fuel n, outcome_mapState, transcript, after_append]
    exact keeps_transcript fuel n (after fuel (transcribed s) requests)
  · intro n
    obtain ⟨later, result, hlater, hresult, hskipped⟩ := Source.discardLoop_skipped
      (keeps_transcript fuel) fuel n 0 (after fuel (transcribed s) requests)
    have hcount : result.map (0 + ·) = result := by cases result <;> simp [Except.map]
    rw [hcount] at hresult
    rw [← hbare, skip_bare, outcome_mapState, transcript, after_append]
    exact ⟨later, hlater, hresult ▸ hskipped⟩

end

end CheckedReader

/-! ## Checked writers -/

/-- A loop of writes looks at a sink only by writing to it. By induction on the rounds. -/
theorem Sink.writeAllLoop_map [Sink σ ς] [Sink σ ς'] {fuel : Nat} {f : ς × Env σ → ς' × Env σ}
    (hf : ∀ (bytes : Bytes) (s : ς × Env σ), (Sink.write fuel bytes : Transfer σ ς' Nat) (f s) =
      mapState f (Sink.write fuel bytes s)) : ∀ (rounds : Nat) (bytes : Bytes) (s : ς × Env σ),
    (writeAllLoop fuel rounds bytes : Transfer σ ς' Unit) (f s) =
      mapState f (writeAllLoop fuel rounds bytes s)
  | 0, [], _ => rfl
  | _ + 1, [], _ => rfl
  | 0, _ :: _, _ => rfl
  | rounds + 1, b :: bs, s => by
    simp only [writeAllLoop, hf]
    cases (Sink.write fuel (b :: bs) : Transfer σ ς Nat) s with
    | ok n t =>
      cases n with
      | zero => rfl
      | succ n => exact writeAllLoop_map hf rounds _ t
    | error e t =>
      simp only [mapState]
      split
      · exact writeAllLoop_map hf rounds _ t
      · rfl

namespace CheckedWriter

/-- What a caller asks of a checked writer. -/
inductive Request
  | write (bytes : Bytes)
  | writeAll (bytes : Bytes)
  | flush

section

variable [Accumulator γ] [Sink σ ς]

theorem run_write (fuel : Nat) (bytes : Bytes) (w : CheckedWriter γ ς) (env : Env σ) :
    (Sink.write fuel bytes : Transfer σ (CheckedWriter γ ς) Nat) (w, env) =
      match (Sink.write fuel bytes : Transfer σ ς Nat) (w.inner, env) with
      | .ok n t => .ok n (⟨t.1, Accumulator.update w.checksum (bytes.take n)⟩, t.2)
      | .error e t => .error e (⟨t.1, w.checksum⟩, t.2) := by
  simp only [Sink.write, onInner, run_bind, run_zoom, run_modify, run_pure]
  cases (Sink.write fuel bytes : Transfer σ ς Nat) (w.inner, env) <;> rfl

theorem run_flush (fuel : Nat) (w : CheckedWriter γ ς) (env : Env σ) :
    (Sink.flush fuel : Transfer σ (CheckedWriter γ ς) Unit) (w, env) =
      mapState (fun t => (⟨t.1, w.checksum⟩, t.2))
        ((Sink.flush fuel : Transfer σ ς Unit) (w.inner, env)) := rfl

/-- Where the request leads, whether it fails or not. -/
def Request.step (fuel : Nat) (s : CheckedWriter γ ς × Env σ) : Request → CheckedWriter γ ς × Env σ
  | .write bytes => reached ((Sink.write fuel bytes : Transfer σ (CheckedWriter γ ς) Nat) s)
  | .writeAll bytes => reached ((Sink.writeAll fuel bytes : Transfer σ (CheckedWriter γ ς) Unit) s)
  | .flush => reached ((Sink.flush fuel : Transfer σ (CheckedWriter γ ς) Unit) s)

/-- Where the requests lead, one after the other. -/
def after (fuel : Nat) (s : CheckedWriter γ ς × Env σ) (requests : List Request) :
    CheckedWriter γ ς × Env σ := requests.foldl (Request.step fuel) s

/-- The writer with a transcript of what its sink is offered from here on. -/
def transcribed (s : CheckedWriter γ ς × Env σ) : CheckedWriter γ (Transcribed Bytes ς) × Env σ :=
  (⟨⟨s.1.inner, []⟩, s.1.checksum⟩, s.2)

/-- The state without the transcript. -/
def bare (s : CheckedWriter γ (Transcribed Bytes ς) × Env σ) : CheckedWriter γ ς × Env σ :=
  (⟨s.1.inner.it, s.1.checksum⟩, s.2)

/-- What the sink is offered during the requests, and what it takes. -/
def transcript (fuel : Nat) (s : CheckedWriter γ ς × Env σ) (requests : List Request) :
    List (Passage Bytes) := (after fuel (transcribed s) requests).1.inner.transcript

/-- The checksum has seen what is in the transcript. -/
def Fed (c₀ : γ) (s : CheckedWriter γ (Transcribed Bytes ς) × Env σ) : Prop :=
  s.1.checksum = (pieces s.1.inner.transcript).foldl Accumulator.update c₀

variable (fuel : Nat)

/-- A transcript changes nothing. -/
theorem write_bare (bytes : Bytes) (s : CheckedWriter γ (Transcribed Bytes ς) × Env σ) :
    (Sink.write fuel bytes : Transfer σ (CheckedWriter γ ς) Nat) (bare s) =
      mapState bare (Sink.write fuel bytes s) := by
  obtain ⟨w, env⟩ := s
  rw [bare, run_write, run_write]
  simp only [Sink.write, Transcribed.run]
  cases (Sink.write fuel bytes : Transfer σ ς Nat) (w.inner.it, env) <;> rfl

theorem flush_bare (s : CheckedWriter γ (Transcribed Bytes ς) × Env σ) :
    (Sink.flush fuel : Transfer σ (CheckedWriter γ ς) Unit) (bare s) =
      mapState bare (Sink.flush fuel s) := by
  obtain ⟨w, env⟩ := s
  rw [bare, run_flush, run_flush]
  simp only [Sink.flush]
  cases (Sink.flush fuel : Transfer σ ς Unit) (w.inner.it, env) <;> rfl

theorem writeAll_bare (bytes : Bytes) (s : CheckedWriter γ (Transcribed Bytes ς) × Env σ) :
    (Sink.writeAll fuel bytes : Transfer σ (CheckedWriter γ ς) Unit) (bare s) =
      mapState bare (Sink.writeAll fuel bytes s) :=
  Sink.writeAllLoop_map (write_bare fuel) fuel bytes s

theorem keeps_transcript : Sink.Keeps σ fuel
    fun w : CheckedWriter γ (Transcribed Bytes ς) => w.inner.transcript := by
  rintro bytes ⟨w, env⟩
  rw [run_write]
  simp only [Sink.write, Transcribed.run]
  cases (Sink.write fuel bytes : Transfer σ ς Nat) (w.inner.it, env) <;> rfl

theorem transcript_flush (s : CheckedWriter γ (Transcribed Bytes ς) × Env σ) :
    (reached ((Sink.flush fuel : Transfer σ (CheckedWriter γ (Transcribed Bytes ς)) Unit)
      s)).1.inner.transcript = s.1.inner.transcript := by
  obtain ⟨w, env⟩ := s
  rw [run_flush]
  simp only [Sink.flush]
  cases (Sink.flush fuel : Transfer σ ς Unit) (w.inner.it, env) <;> rfl

theorem fed_write (bytes : Bytes) (c₀ : γ) : Keeps (Fed c₀)
    (Sink.write fuel bytes : Transfer σ (CheckedWriter γ (Transcribed Bytes ς)) Nat) := by
  rintro ⟨w, env⟩ hw
  have hw' : w.checksum = (pieces w.inner.transcript).foldl Accumulator.update c₀ := hw
  rw [run_write]
  simp only [Sink.write, Transcribed.run]
  cases (Sink.write fuel bytes : Transfer σ ς Nat) (w.inner.it, env) with
  | ok n t =>
    show Accumulator.update w.checksum (bytes.take n) = _
    rw [hw']
    exact (foldl_pieces_ok c₀).symm
  | error e t =>
    show w.checksum = _
    rw [hw']
    exact (foldl_pieces_error c₀ e).symm

theorem fed_flush (c₀ : γ) : Keeps (Fed c₀)
    (Sink.flush fuel : Transfer σ (CheckedWriter γ (Transcribed Bytes ς)) Unit) := by
  rintro ⟨w, env⟩ hw
  rw [run_flush]
  simp only [Sink.flush]
  cases (Sink.flush fuel : Transfer σ ς Unit) (w.inner.it, env) <;> exact hw

theorem step_bare (s : CheckedWriter γ (Transcribed Bytes ς) × Env σ) (request : Request) :
    request.step fuel (bare s) = bare (request.step fuel s) := by
  cases request with
  | write bytes => exact (congrArg reached (write_bare fuel bytes s)).trans (reached_mapState _ _)
  | writeAll bytes =>
    exact (congrArg reached (writeAll_bare fuel bytes s)).trans (reached_mapState _ _)
  | flush => exact (congrArg reached (flush_bare fuel s)).trans (reached_mapState _ _)

theorem after_bare (s : CheckedWriter γ (Transcribed Bytes ς) × Env σ) (requests : List Request) :
    after fuel (bare s) requests = bare (after fuel s requests) :=
  List.foldl_hom bare (step_bare fuel)

theorem fed_step {c₀ : γ} {s : CheckedWriter γ (Transcribed Bytes ς) × Env σ} (hs : Fed c₀ s)
    (request : Request) : Fed c₀ (request.step fuel s) := by
  cases request with
  | write bytes => exact fed_write fuel bytes c₀ s hs
  | writeAll bytes => exact Sink.keeps_writeAllLoop (fun b => fed_write fuel b c₀) fuel bytes s hs
  | flush => exact fed_flush fuel c₀ s hs

theorem fed_after {c₀ : γ} {s : CheckedWriter γ (Transcribed Bytes ς) × Env σ} (hs : Fed c₀ s)
    (requests : List Request) : Fed c₀ (after fuel s requests) := by
  induction requests generalizing s with
  | nil => exact hs
  | cons request requests ih => exact ih (fed_step fuel hs request)

theorem after_append (s : CheckedWriter γ ς × Env σ) (requests more : List Request) :
    after fuel s (requests ++ more) = after fuel (after fuel s requests) more := List.foldl_append

/-- The checksum of a writer behind any requests, and what the next one makes of it. -/
structure InStep (s : CheckedWriter γ ς × Env σ) (requests : List Request) : Prop where
  /-- The transcript is one of these very requests. -/
  unchanged : bare (after fuel (transcribed s) requests) = after fuel s requests
  /-- The checksum has seen what the sink took, piece by piece, -/
  pieces : (after fuel s requests).1.checksum =
    (pieces (transcript fuel s requests)).foldl Accumulator.update s.1.checksum
  /-- and if it does not matter to it how bytes are cut, as if it had seen all of it in one go. -/
  bytes : Accumulator.Streaming γ → ∀ (c : γ) (before : Bytes),
    s.1.checksum = Accumulator.update c before → (after fuel s requests).1.checksum =
      Accumulator.update c (before ++ bytes (transcript fuel s requests))
  write : ∀ bytes : Bytes, transcript fuel s (requests ++ [.write bytes]) =
    transcript fuel s requests ++
      [⟨bytes, (outcome ((Sink.write fuel bytes : Transfer σ (CheckedWriter γ ς) Nat)
        (after fuel s requests))).map bytes.take⟩]
  writeAll : ∀ bytes : Bytes, ∃ later, transcript fuel s (requests ++ [.writeAll bytes]) =
    transcript fuel s requests ++ later ∧ Written fuel bytes
      (outcome ((Sink.writeAll fuel bytes : Transfer σ (CheckedWriter γ ς) Unit)
        (after fuel s requests))) later
  flush : transcript fuel s (requests ++ [.flush]) = transcript fuel s requests

theorem inStep (s : CheckedWriter γ ς × Env σ) (requests : List Request) :
    InStep fuel s requests := by
  have hbare : bare (after fuel (transcribed s) requests) = after fuel s requests :=
    (after_bare fuel (transcribed s) requests).symm
  have hfed : (after fuel s requests).1.checksum =
      (Passage.pieces (transcript fuel s requests)).foldl Accumulator.update s.1.checksum := by
    rw [← hbare]
    exact fed_after fuel (s := transcribed s) rfl requests
  refine ⟨hbare, hfed, ?_, ?_, ?_, ?_⟩
  · intro hstreaming c before hs
    rw [hfed, hs]
    exact hstreaming.foldl c before _
  · intro bytes
    rw [← hbare, write_bare, outcome_mapState, transcript, after_append]
    exact keeps_transcript fuel bytes (after fuel (transcribed s) requests)
  · intro bytes
    rw [← hbare, writeAll_bare, outcome_mapState, transcript, after_append]
    exact Sink.writeAllLoop_written (keeps_transcript fuel) fuel bytes
      (after fuel (transcribed s) requests)
  · rw [transcript, after_append]
    exact transcript_flush fuel (after fuel (transcribed s) requests)

end

end CheckedWriter

/-- **A checksum is in step with its stream.** Whatever source or sink it stands on and whatever has
failed or was cut short, the checksum of a checked reader has seen the bytes that the source handed
over, read or skipped, and that of a checked writer those that the sink took, once each and in order;
all checksums of the library take them as if they came in one go. A skip counts what it took, which
is no more than it may take from a source that keeps to what it is asked, and takes less only if the
source says that it is at its end. -/
theorem checksum_inStep [Accumulator γ] [Source σ ρ] [Sink σ ς] (fuel : Nat) :
    (∀ (s : CheckedReader γ ρ × Env σ) (requests : List CheckedReader.Request),
      CheckedReader.InStep fuel s requests) ∧
    (∀ (s : CheckedWriter γ ς × Env σ) (requests : List CheckedWriter.Request),
      CheckedWriter.InStep fuel s requests) ∧
    Accumulator.Streaming Crc64 ∧ Accumulator.Streaming Crc32 ∧ Accumulator.Streaming Digest ∧
    Accumulator.Streaming Checksum :=
  ⟨CheckedReader.inStep fuel, CheckedWriter.inStep fuel, Accumulator.streaming⟩

section

open Scripted

/-- A source that gives two bytes at a time, is interrupted once and fails later on. -/
def shakySource : ScriptedSource where
  data := #[1, 2, 3, 4, 5, 6, 7, 8]
  chunk := some 2
  readEvents := [(1, .fail (.plain .interrupted "")), (3, .fail (.plain .timedOut ""))]

/-- A skip that fails has taken four bytes, and the checksum has seen them. -/
example :
    outcome ((CheckedReader.skip 9 6 : Transfer Unit (CheckedReader Crc32 ScriptedSource) Nat)
      (⟨shakySource, .new⟩, ⟨[], ()⟩)) = .error (.plain .timedOut "") ∧
    (CheckedReader.after 9 (⟨shakySource, .new⟩, ⟨[], ()⟩) [.skip 6, .read 9]).1.checksum =
      Crc32.new.update [1, 2, 3, 4, 5, 6] := ⟨rfl, by decide +kernel⟩

end

end SealedStream
