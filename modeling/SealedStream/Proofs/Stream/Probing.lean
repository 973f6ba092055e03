import Mathlib.Data.List.ReduceOption
import SealedStream.Proofs.Header
import SealedStream.Proofs.Stream.BrokenOff
import SealedStream.Stream.Version

/-!
# The version read off a source

A source may give its bytes in any pieces and be interrupted in between, and then end or fail. What
`readVersion` takes off it are the first four bytes, no more and no fewer
(`Source.readExact_comesTo`), and what it makes of them is what the decoder makes of the same bytes
(`Header.decode_version`). A source that ends before them has a truncated header, of which nothing
counts as gathered however many bytes there were (`readVersion_of_stuttering`).
-/

namespace SealedStream

variable {σ ρ : Type}

/-- How a read ends that finds no bytes: at the end of the source, or with its failure. -/
def Source.runDry (failure : Option IoError) (s : ρ × Env σ) :
    EStateM.Result IoError (ρ × Env σ) Bytes :=
  match failure with
  | none => .ok [] s
  | some e => .error e s

/-- Where sources of the type `ρ` give the bytes that remain, in whatever pieces and interrupted now
and then, and then end, or fail if they have a failure. -/
structure StutteringSource (σ ρ : Type) [Source σ ρ] (failure : Option IoError) where
  works : ρ → Prop
  remaining : ρ → Bytes
  /-- How often reads are yet to be interrupted before one is not. -/
  delay : ρ → Env σ → Nat
  /-- The failure is no interruption. -/
  final : ∀ e, failure = some e → e.isInterrupted = false
  /-- A read gives some of the bytes that remain, is interrupted, or finds none. -/
  read : ∀ {r}, works r → ∀ {n : Nat}, 0 < n → ∀ env : Env σ, ∃ r' env',
    (∃ bytes, ComesTo (Source.read · n) (r, env) (.ok bytes (r', env')) ∧ bytes ≠ [] ∧
        bytes.length ≤ n ∧ works r' ∧ remaining r = bytes ++ remaining r') ∨
      (∃ i : IoError, ComesTo (Source.read · n : Nat → Transfer σ ρ Bytes) (r, env)
          (.error i (r', env')) ∧ i.isInterrupted = true ∧ works r' ∧
        remaining r' = remaining r ∧ delay r' env' < delay r env) ∨
      ComesTo (Source.read · n) (r, env) (Source.runDry failure (r', env')) ∧ remaining r = []

/-- With enough fuel and enough rounds the loop comes to the result `r`. -/
def LoopsTo {ε τ α : Type} (x : Nat → Nat → EStateM ε τ α) (s : τ) (r : EStateM.Result ε τ α) :
    Prop :=
  ∃ enough, ∀ fuel rounds, enough ≤ fuel → enough ≤ rounds → x fuel rounds s = r

namespace LoopsTo

variable {ε τ α : Type} {x y : Nat → Nat → EStateM ε τ α} {s t : τ} {r : EStateM.Result ε τ α}

/-- A round before what the loop comes to. -/
theorem round {enough : Nat}
    (h : ∀ fuel rounds, enough ≤ fuel → x fuel (rounds + 1) s = y fuel rounds t)
    (hy : LoopsTo y t r) : LoopsTo x s r := by
  obtain ⟨more, hy⟩ := hy
  refine ⟨max enough more + 1, fun fuel rounds hfuel hrounds => ?_⟩
  cases rounds with
  | zero => omega
  | succ rounds => rw [h fuel rounds (by omega), hy fuel rounds (by omega) (by omega)]

/-- A round that the loop ends in. -/
theorem last (enough : Nat) (h : ∀ fuel rounds, enough ≤ fuel → x fuel (rounds + 1) s = r) :
    LoopsTo x s r := by
  refine ⟨enough + 1, fun fuel rounds hfuel hrounds => ?_⟩
  cases rounds with
  | zero => omega
  | succ rounds => exact h fuel rounds (by omega)

theorem comesTo (h : LoopsTo x s r) : ComesTo (fun fuel => x fuel fuel) s r := by
  obtain ⟨enough, h⟩ := h
  exact ⟨enough, fun fuel hfuel => h fuel fuel hfuel hfuel⟩

end LoopsTo

/-! ## A number of bytes off the front -/

namespace Source

variable [Source σ ρ] {failure : Option IoError} (K : StutteringSource σ ρ failure)

/-- What reading a number of bytes fails with if there are not as many: the source's own failure, or
that it has ended. -/
def shortfall (failure : Option IoError) : IoError :=
  failure.getD (.plain .unexpectedEof "failed to fill whole buffer")

/-- A round takes some of the bytes or is one interruption less to come, so the bytes that remain and
then the delay bound the rounds. -/
theorem readExactLoop_loopsTo (n : Nat) (got : Bytes) {r : ρ} (hr : K.works r) (env : Env σ) :
    ∃ r' env',
      (n ≤ (K.remaining r).length ∧ K.works r' ∧ K.remaining r' = (K.remaining r).drop n ∧
          LoopsTo (readExactLoop · · n got) (r, env)
            (.ok (got ++ (K.remaining r).take n) (r', env'))) ∨
        ((K.remaining r).length < n ∧
          LoopsTo (readExactLoop · · n got) (r, env) (.error (shortfall failure) (r', env'))) := by
  cases n with
  | zero =>
    refine ⟨r, env, .inl ⟨Nat.zero_le _, hr, rfl, 0, fun fuel rounds _ _ => ?_⟩⟩
    cases rounds <;> simp [readExactLoop, run_pure]
  | succ n =>
    obtain ⟨r₁, env₁, ⟨bytes, ⟨enough, hread⟩, hne, hle, hr₁, hrest⟩ |
      ⟨i, ⟨enough, hread⟩, hi, hr₁, hrest, hdelay⟩ | ⟨⟨enough, hread⟩, hrest⟩⟩ :=
        K.read hr n.succ_pos env
    · have hlen : (K.remaining r).length = bytes.length + (K.remaining r₁).length := by
        rw [hrest, List.length_append]
      have hpos : 0 < bytes.length := List.length_pos_iff.mpr hne
      have hround (fuel rounds : Nat) (hfuel : enough ≤ fuel) :
          readExactLoop fuel (rounds + 1) (n + 1) got (r, env) =
            readExactLoop fuel rounds (n + 1 - bytes.length) (got ++ bytes) (r₁, env₁) := by
        obtain ⟨b, bs, rfl⟩ := List.exists_cons_of_ne_nil hne
        simp only [readExactLoop, hread fuel hfuel]
      obtain ⟨r₂, env₂, ⟨henough, hr₂, hdrop, hloop⟩ | ⟨hshort, hloop⟩⟩ :=
        readExactLoop_loopsTo (n + 1 - bytes.length) (got ++ bytes) hr₁ env₁
      · refine ⟨r₂, env₂, .inl ⟨by omega, hr₂, ?_, ?_⟩⟩
        · rw [hdrop, hrest, List.drop_append, List.drop_of_length_le hle, List.nil_append]
        · rw [hrest, List.take_append, List.take_of_length_le hle, ← List.append_assoc]
          exact .round hround hloop
      · exact ⟨r₂, env₂, .inr ⟨by omega, .round hround hloop⟩⟩
    · have hround (fuel rounds : Nat) (hfuel : enough ≤ fuel) :
          readExactLoop fuel (rounds + 1) (n + 1) got (r, env) =
            readExactLoop fuel rounds (n + 1) got (r₁, env₁) := by
        simp only [readExactLoop, hread fuel hfuel, hi, if_true]
      obtain ⟨r₂, env₂, h⟩ := readExactLoop_loopsTo (n + 1) got hr₁ env₁
      rw [hrest] at h
      rcases h with ⟨henough, hr₂, hdrop, hloop⟩ | ⟨hshort, hloop⟩
      · exact ⟨r₂, env₂, .inl ⟨henough, hr₂, hdrop, .round hround hloop⟩⟩
      · exact ⟨r₂, env₂, .inr ⟨hshort, .round hround hloop⟩⟩
    · refine ⟨r₁, env₁, .inr ⟨by rw [hrest]; exact n.succ_pos, .last enough ?_⟩⟩
      intro fuel rounds hfuel
      simp only [readExactLoop, hread fuel hfuel, runDry, shortfall]
      cases failure with
      | none => rfl
      | some e => simp [K.final e rfl]
termination_by ((K.remaining r).length, K.delay r env)
decreasing_by
  · exact .left _ _ (by omega)
  · rw [show (K.remaining r₁).length = (K.remaining r).length by rw [hrest]]
    exact .right _ hdelay

/-- **A number of bytes off the front**: these and no others, if there are as many. -/
theorem readExact_comesTo {n : Nat} {r : ρ} (hr : K.works r) (env : Env σ) :
    ∃ r' env',
      (n ≤ (K.remaining r).length ∧ K.works r' ∧ K.remaining r' = (K.remaining r).drop n ∧
          ComesTo (readExact · n) (r, env) (.ok ((K.remaining r).take n) (r', env'))) ∨
        ((K.remaining r).length < n ∧
          ComesTo (readExact · n) (r, env) (.error (shortfall failure) (r', env'))) := by
  obtain ⟨r', env', ⟨henough, hr', hdrop, hloop⟩ | ⟨hshort, hloop⟩⟩ :=
    readExactLoop_loopsTo K n [] hr env
  · exact ⟨r', env', .inl ⟨henough, hr', hdrop, hloop.comesTo⟩⟩
  · exact ⟨r', env', .inr ⟨hshort, hloop.comesTo⟩⟩

end Source

/-! ## The version -/

section

variable [Source σ ρ] {failure : Option IoError} (K : StutteringSource σ ρ failure) {r : ρ}

/-- With four bytes there, these are taken and read. -/
theorem readVersion_of_enough (hr : K.works r) (env : Env σ) (henough : 4 ≤ (K.remaining r).length) :
    ∃ v r' env', Bytes.be32? (K.remaining r) = some v ∧
      ComesTo readVersion (r, env) (.ok v (r', env')) ∧ K.works r' ∧
      K.remaining r = Bytes.be32 v ++ K.remaining r' := by
  obtain ⟨r', env', ⟨-, hr', hdrop, enough, hread⟩ | ⟨hshort, -⟩⟩ :=
    Source.readExact_comesTo K (n := 4) hr env
  · obtain ⟨v, hv⟩ := Bytes.exists_be32? henough
    have htake : (K.remaining r).take 4 = Bytes.be32 v := by
      rw [Bytes.eq_be32_append_of_be32? hv, List.take_left' (Bytes.length_be32 v)]
    have hword : Bytes.be32? (Bytes.be32 v) = some v := by
      rw [← List.append_nil (Bytes.be32 v), Bytes.be32?_be32_append]
    refine ⟨v, r', env', hv, ⟨enough, fun fuel hfuel => ?_⟩, hr', ?_⟩
    · simp only [readVersion, hread fuel hfuel, htake, hword, Option.getD_some]
    · rw [hdrop, ← htake, List.take_append_drop]
  · omega

/-- However many bytes there were, an end before the fourth counts none of them. -/
theorem readVersion_of_shortfall (hr : K.works r) (env : Env σ)
    (hshort : (K.remaining r).length < 4) : ∃ s, ComesTo readVersion (r, env) (.error
      (if (Source.shortfall failure).kind = .unexpectedEof then .truncatedHeader 0
        else .ofIo (Source.shortfall failure)) s) := by
  obtain ⟨r', env', ⟨henough, -⟩ | ⟨-, enough, hread⟩⟩ :=
    Source.readExact_comesTo K (n := 4) hr env
  · omega
  · refine ⟨(r', env'), enough, fun fuel hfuel => ?_⟩
    simp only [readVersion, hread fuel hfuel]
    split <;> rfl

/-- **The version is the one that the decoder finds.** Four bytes of the source are taken, and what
they say is the version of every complete header that the source begins with and the one that every
failing check of the version reports. A source that fails before them fails with its own error, and
one that ends before them has a truncated header, of which nothing counts as gathered. -/
theorem readVersion_of_stuttering (hr : K.works r) (env : Env σ) :
    (4 ≤ (K.remaining r).length → ∃ v r' env', Bytes.be32? (K.remaining r) = some v ∧
      ComesTo readVersion (r, env) (.ok v (r', env')) ∧ K.works r' ∧
      K.remaining r = Bytes.be32 v ++ K.remaining r' ∧
      (∀ expected h n, Header.decode (K.remaining r) expected = .ok (.complete h n) →
        h.version = v) ∧
      ∀ w u, Header.decode (K.remaining r) (some w) = .error (.unsupportedVersion u) ↔
        v ≠ w ∧ u = v) ∧
    ((K.remaining r).length < 4 →
      (∀ e, failure = some e → e.kind ≠ .unexpectedEof →
        ∃ s, ComesTo readVersion (r, env) (.error (.ofIo e) s)) ∧
      ((∀ e, failure = some e → e.kind = .unexpectedEof) →
        ∃ s, ComesTo readVersion (r, env) (.error (.truncatedHeader 0) s))) := by
  refine ⟨fun henough => ?_, fun hshort => ?_⟩
  · obtain ⟨v, r', env', hv, hread, hr', hrest⟩ := readVersion_of_enough K hr env henough
    exact ⟨v, r', env', hv, hread, hr', hrest,
      fun expected h n => Header.version_of_complete hv,
      fun w u => Header.decode_unsupported_iff hv⟩
  · obtain ⟨s, hread⟩ := readVersion_of_shortfall K hr env hshort
    refine ⟨fun e he hkind => ?_, fun hkind => ?_⟩
    · subst he
      rw [Source.shortfall, Option.getD_some, if_neg hkind] at hread
      exact ⟨s, hread⟩
    · have heof : (Source.shortfall failure).kind = .unexpectedEof := by
        cases failure with
        | none => rfl
        | some e => exact hkind e rfl
      rw [if_pos heof] at hread
      exact ⟨s, hread⟩

end

/-! ## Sources that are interrupted -/

section

open Scripted

/-- A scripted source that gives at least a byte at a time, unless it is interrupted. -/
def Scripted.ScriptedSource.stuttering : StutteringSource σ ScriptedSource none where
  works r := Interruptions r.readEvents ∧ r.chunk ≠ some 0
  remaining r := r.data.toList.drop r.pos
  delay r _ := ahead r.reads r.readEvents
  final := by simp
  read := by
    rintro r ⟨hevents, hchunk⟩ n hn env
    rcases runEvents_interruptions hevents r.reads env with hrun | ⟨e, hrun, he, hahead⟩
    · have hread (fuel : Nat) := ScriptedSource.read_eq hrun fuel n
      refine ⟨{ r with reads := r.reads + 1, pos := r.pos + (r.part n).length }, env, ?_⟩
      by_cases hnil : r.part n = []
      · refine .inr (.inr ⟨.of_eq fun fuel => ?_, drop_eq_nil_of_part hchunk hn hnil⟩)
        rw [hread fuel, hnil]
        rfl
      · exact .inl ⟨_, .of_eq hread, hnil, length_part_le hchunk hn, ⟨hevents, hchunk⟩,
          r.part_append_drop n⟩
    · refine ⟨{ r with reads := r.reads + 1 }, env, .inr (.inl ⟨e, .of_eq fun fuel => ?_, he,
        ⟨hevents, hchunk⟩, rfl, ahead_succ_lt hahead⟩)⟩
      simp only [Source.read, hrun]

/-- A source that fails behind its last byte, with what is no interruption. -/
def Trickle.stuttering {e : IoError} (he : e.isInterrupted = false) :
    StutteringSource σ (Trickle e) (some e) where
  works _ := True
  remaining r := r.reads.reduceOption
  delay r _ := r.reads.length
  final := by simpa using he
  read := by
    rintro ⟨reads⟩ - n hn env
    cases reads with
    | nil => exact ⟨⟨[]⟩, env, .inr (.inr ⟨.of_eq fun _ => rfl, rfl⟩)⟩
    | cons first reads =>
      refine ⟨⟨reads⟩, env, ?_⟩
      cases first with
      | none =>
        exact .inr (.inl ⟨.plain .interrupted "", .of_eq fun _ => rfl, rfl, trivial,
          (List.reduceOption_cons_of_none _).symm, Nat.lt_succ_self _⟩)
      | some b =>
        exact .inl ⟨[b], .of_eq fun _ => if_neg (Nat.ne_of_gt hn), List.cons_ne_nil _ _, hn,
          trivial, List.reduceOption_cons_of_some _ _⟩

/-- Bytes that come one at a time with an interruption in between, and a connection that is reset
before the fourth. -/
theorem readVersion_of_dripping :
    let source : ScriptedSource :=
      { data := #[0, 0, 0, 2, 9], chunk := some 1,
        readEvents := [(1, .fail (.plain .interrupted ""))] }
    let reset : IoError := .plain .connectionReset ""
    let broken : Trickle reset := ⟨[some 0, none, some 0]⟩
    (∃ r' env', ComesTo readVersion (source, (⟨[], ()⟩ : Env Unit)) (.ok 2 (r', env')) ∧
      [0, 0, 0, 2, 9] = Bytes.be32 2 ++ ScriptedSource.stuttering.remaining (σ := Unit) r') ∧
    ∃ s, ComesTo readVersion (broken, (⟨[], ()⟩ : Env Unit)) (.error (.io reset) s) := by
  intro source reset broken
  have hsource : (ScriptedSource.stuttering (σ := Unit)).works source := by
    refine ⟨?_, by decide⟩
    rintro k event hmem
    cases List.mem_singleton.mp hmem
    exact ⟨_, rfl, rfl⟩
  obtain ⟨v, r', env', hv, hread, -, hrest, -⟩ :=
    (readVersion_of_stuttering ScriptedSource.stuttering hsource ⟨[], ()⟩).1 (by decide)
  obtain rfl : 2 = v := Option.some.inj hv
  exact ⟨⟨r', env', hread, hrest⟩,
    ((readVersion_of_stuttering (Trickle.stuttering rfl) trivial ⟨[], ()⟩).2 (by decide)).1 reset
      rfl (by decide)⟩

/-- Three bytes were there, and none is counted. -/
theorem readVersion_of_three : ¬ ∃ s, ComesTo readVersion
    (({ data := #[0, 0, 1] } : ScriptedSource), (⟨[], ()⟩ : Env Unit))
      (.error (.truncatedHeader 3) s) := by
  rintro ⟨s, hthree⟩
  obtain ⟨t, hnone⟩ := readVersion_of_shortfall (σ := Unit) ScriptedSource.stuttering
    (r := { data := #[0, 0, 1] }) ⟨by simp [Interruptions], by simp⟩ ⟨[], ()⟩ (by decide)
  cases hthree.unique hnone

end

end SealedStream
