import SealedStream.Proofs.Session.Regardless
import SealedStream.Proofs.Stream.Flow
import SealedStream.Stream.Whole

/-!
# Headers that ask for another try

A key wrap that fails with an interrupted transfer has the copying loop read on, although nothing
was interrupted but the key wrap itself. Over a session of a bundled family and a key wrap that does
so whenever it is asked, this is in vain: the session keeps all that it is fed and refuses it again
with each block, until the source is at its end and the header, which never opened, is found cut
short (`decrypt_of_interrupted`). `CipherReader.Balked` is what every read but the first and the last
preserves.
-/

namespace SealedStream

variable {σ ρ ς : Type} [Source σ ρ] {f : BundledFamily} {s : FamilySession σ CounterStream}

namespace CipherReader

open FamilySession (Opens progress grows_progress)

variable {S : WorkingSource σ ρ} {v : σ} {w fed : Bytes} {e : Error}
  {r : CipherReader (FamilySession σ CounterStream) ρ}

/-- The reader can be read, and its session was fed `fed` of the bytes `w`, whether or not it has
refused them. -/
def Stands (S : WorkingSource σ ρ) (f : BundledFamily) (s : FamilySession σ CounterStream) (v : σ)
    (w fed : Bytes) (r : CipherReader (FamilySession σ CounterStream) ρ) : Prop :=
  Reads S (fun fed k => FamilySession.Standing f s v fed (k, v)) w fed r

/-- Of bytes that are refused in the end, none are the beginning of a stream. -/
theorem not_isReady_of_failed (hw : progress f s v w = .failed e) (hpre : fed <+: w) :
    (progress f s v fed).isReady = false := by
  obtain ⟨rest, rfl⟩ := hpre
  refine Bool.eq_false_iff.mpr fun hr => ?_
  have hr' : (progress f s v (fed ++ rest)).isReady = true :=
    (grows_progress f s v).isReady_append hr
  rw [hw] at hr'
  cases hr'

/-- A block goes to the session, which refuses it as it refuses `w`, or gives nothing. -/
theorem feed_unopened (hs : Opens f s) (hw : progress f s v w = .failed e)
    (h : Stands S f s v w fed r) (fuel : Nat) (env : Env σ) :
    ∃ block i env', readBlock fuel (r, env) = .ok block ({ r with inner := i }, env') ∧
      ((block = [] ∧ fed = w) ∨ block ≠ [] ∧ ∃ k env'',
        Stands S f s v w (fed ++ block) { r with inner := i, session := k } ∧
        ((progress f s v (fed ++ block) = .failed e ∧
            (onSession (Session.update block) : Pull σ (FamilySession σ CounterStream) ρ Bytes)
              ({ r with inner := i }, env') =
              .error e ({ r with inner := i, session := k }, env'')) ∨
          ((progress f s v (fed ++ block)).isFailed = false ∧
            (onSession (Session.update block) : Pull σ (FamilySession σ CounterStream) ρ Bytes)
              ({ r with inner := i }, env') =
              .ok [] ({ r with inner := i, session := k }, env'')))) := by
  obtain ⟨block, i, env', hread, hi, -, hsplit, hend⟩ := readBlock_spec h fuel env
  refine ⟨block, i, env', hread, ?_⟩
  have hfed := h.split
  rw [hsplit, ← List.append_assoc] at hfed
  by_cases hb : block = []
  · have hrem := hend hb
    rw [hsplit, List.append_eq_nil_iff] at hrem
    rw [hb, hrem.2, List.append_nil, List.append_nil] at hfed
    exact .inl ⟨hb, hfed⟩
  · right
    refine ⟨hb, ?_⟩
    have hstanding : FamilySession.Standing f s v fed (r.session, env'.world) := h.session
    rcases hstanding.update hs block with ⟨e', t, hD, hu, ht⟩ | ⟨out, t, hgoing, hu, ht, hplain⟩
    · have hall := (grows_progress f s v).failed hD (S.remaining i)
      rw [hfed, hw] at hall
      cases hall
      refine ⟨t.1, { env' with world := t.2 }, ?_, .inl ⟨hD, ?_⟩⟩
      · exact ⟨hi, h.block, h.abort, h.failed, ht, hfed⟩
      · rw [run_onSession, hu]
    · -- what is refused in the end has given nothing on the way
      have hbefore : (progress f s v fed).plain = [] := by
        rw [List.append_assoc] at hfed
        exact (grows_progress f s v).plain_of_failed (hfed ▸ hw)
      have hbehind : (progress f s v (fed ++ block)).plain = [] :=
        (grows_progress f s v).plain_of_failed (hfed ▸ hw)
      have hout : out = [] := by
        rw [hbefore, hbehind, List.nil_append] at hplain
        exact hplain.symm
      subst hout
      refine ⟨t.1, { env' with world := t.2 }, ?_, .inr ⟨hgoing, ?_⟩⟩
      · exact ⟨hi, h.block, h.abort, h.failed, ht, hfed⟩
      · rw [run_onSession, hu]

/-- The header is complete, and was refused with `e`. -/
structure Balked (S : WorkingSource σ ρ) (f : BundledFamily) (s : FamilySession σ CounterStream)
    (v : σ) (w fed : Bytes) (e : Error) (r : CipherReader (FamilySession σ CounterStream) ρ) :
    Prop where
  stands : Stands S f s v w fed r
  refused : progress f s v fed = .failed e
  output : r.output = []
  started : r.started = true
  eof : r.eof = false

/-- Feeding blocks up to the refusal: by induction on the rounds, each of which takes at least a
byte. -/
theorem assembleHeader_unopened (hs : Opens f s) (hw : progress f s v w = .failed e) (fuel : Nat) :
    ∀ {rounds : Nat} {fed : Bytes} {r : CipherReader (FamilySession σ CounterStream) ρ},
      Stands S f s v w fed r → (progress f s v fed).isFailed = false →
      (S.remaining r.inner).length < rounds → ∀ env : Env σ, ∃ fed' i k env',
        (assembleHeader fuel rounds [] : Pull σ (FamilySession σ CounterStream) ρ Bytes) (r, env) =
          .error e ({ r with inner := i, session := k }, env') ∧
        Stands S f s v w fed' { r with inner := i, session := k } ∧
        progress f s v fed' = .failed e ∧ fed.length < fed'.length
  | 0, fed, r, h, hgoing, hlt, env => absurd hlt (Nat.not_lt_zero _)
  | rounds + 1, fed, r, h, hgoing, hlt, env => by
    have hready : Session.isReady (σ := σ) r.session = false :=
      (FamilySession.Standing.isReady (t := (r.session, v)) h.session).trans
        (not_isReady_of_failed hw ⟨_, h.split⟩)
    obtain ⟨block, i, env', hread, ⟨-, rfl⟩ | ⟨hb, k, env'', h', hcase⟩⟩ :=
      feed_unopened hs hw h fuel env
    · rw [hw] at hgoing
      cases hgoing
    · have hpos := List.length_pos_iff.mpr hb
      unfold assembleHeader
      simp only [run_bind, run_get, run_ite, hready, Bool.false_eq_true, if_false,
        run_checkAbort h.abort, hread]
      rw [if_neg (by simpa using hb)]
      rcases hcase with ⟨hD, hu⟩ | ⟨hgoing', hu⟩
      · rw [hu]
        refine ⟨fed ++ block, i, k, env'', rfl, h', hD, ?_⟩
        rw [List.length_append]
        omega
      · have hlt' : (S.remaining i).length < rounds := by
          have := h.length_lt h' hb
          simp only at this
          omega
        rw [hu]
        obtain ⟨fed', i', k', env₃, hrest, h₃, hD, hlen⟩ :=
          assembleHeader_unopened hs hw fuel h' hgoing' hlt' env''
        refine ⟨fed', i', k', env₃, hrest, h₃, hD, ?_⟩
        rw [List.length_append] at hlen
        omega

/-- The first refill finds the header, and the session refuses it. -/
theorem refill_unopened (hs : Opens f s) (hw : progress f s v w = .failed e) {fuel : Nat}
    (hfuel : w.length < fuel) (h : Fresh S (fun fed k => FamilySession.Standing f s v fed (k, v)) w r)
    (env : Env σ) : ∃ fed r' env',
      (refill fuel : Pull σ (FamilySession σ CounterStream) ρ Refill) (r, env) =
        .error e (r', env') ∧ Balked S f s v w fed e r' ∧ fed ≠ [] := by
  have hstanding : FamilySession.Standing f s v [] (r.session, env.world) := h.reads.session
  have hmode : Session.mode (σ := σ) r.session = .decrypt := hstanding.mode hs
  have hstart : (Session.start : Step (FamilySession σ CounterStream × σ) Bytes)
      (r.session, env.world) = .ok [] (r.session, env.world) :=
    FamilySession.start_decrypt hmode env.world
  have hr : Stands S f s v w [] { r with started := true } := h.reads.of_eq rfl rfl rfl rfl rfl
  have hlen : (S.remaining r.inner).length < fuel := by
    have hsplit := h.reads.split
    rw [List.nil_append] at hsplit
    rwa [hsplit]
  have hgoing : (progress f s v []).isFailed = false := by
    rw [(grows_progress f s v).nil]
    rfl
  obtain ⟨fed, i, k, env', hassemble, hstands, hD, hfed⟩ :=
    assembleHeader_unopened hs hw fuel hr hgoing hlen env
  exact ⟨fed, { r with started := true, inner := i, session := k }, env',
    refill_of_assembleHeader h.reads.abort h.eof h.started hstart hmode hassemble,
    ⟨hstands, hD, h.output, rfl, h.eof⟩, List.length_pos_iff.mp hfed⟩

/-- A later refill takes the next block, which is refused again, or comes to the end of the
source. -/
theorem refill_balked (hs : Opens f s) (hw : progress f s v w = .failed e)
    (h : Balked S f s v w fed e r) (fuel : Nat) (env : Env σ) :
    (∃ t, (refill fuel : Pull σ (FamilySession σ CounterStream) ρ Refill) (r, env) =
      .error (.truncatedHeader w.length) t) ∨
    ∃ block r' env', block ≠ [] ∧
      (refill fuel : Pull σ (FamilySession σ CounterStream) ρ Refill) (r, env) =
        .error e (r', env') ∧ Balked S f s v w (fed ++ block) e r' := by
  have hrefill : (refill fuel : Pull σ (FamilySession σ CounterStream) ρ Refill) (r, env) =
      blockRefill fuel (r, env) := by
    simp only [refill, run_bind, run_checkAbort h.stands.abort, run_get, run_ite, h.eof, h.started,
      Bool.false_eq_true, if_false, if_true]
  rw [hrefill]
  obtain ⟨block, i, env', hblock, ⟨rfl, rfl⟩ | ⟨hb, k, env'', h', hcase⟩⟩ :=
    feed_unopened hs hw h.stands fuel env
  · have hstanding : FamilySession.Standing f s v fed (r.session, env'.world) := h.stands.session
    have hready : (progress f s v fed).isReady = false := not_isReady_of_failed hw List.prefix_rfl
    left
    simp only [blockRefill, run_bind, hblock, run_ite, List.isEmpty_nil, if_true, run_finish,
      hstanding.finalize_awaiting hs hready]
    exact ⟨_, rfl⟩
  · rcases hcase with ⟨hD, hu⟩ | ⟨hgoing, hu⟩
    · refine .inr ⟨block, _, env'', hb, ?_, h', hD, h.output, h.started, h.eof⟩
      simp only [blockRefill, run_bind, hblock, run_ite]
      rw [if_neg (by simpa using hb), hu]
    · -- what was refused is refused again
      rw [(grows_progress f s v).failed h.refused block] at hgoing
      cases hgoing

end CipherReader

open CipherReader FamilySession

variable [Sink σ ς] {S : WorkingSource σ ρ} {v : σ} {w : Bytes} {io : IoError} {source : ρ}

/-- Reading on in vain, to the end of the source: by induction on the rounds, each of which takes at
least a byte. -/
theorem copyLoop_balked (sink : ς) (hs : Opens f s) (hw : progress f s v w = .failed (.io io))
    (hio : io.isInterrupted = true) (fuel count : Nat) : ∀ (rounds : Nat) {fed : Bytes}
    {r : CipherReader (FamilySession σ CounterStream) ρ}, Balked S f s v w fed (.io io) r →
    (S.remaining r.inner).length < rounds → ∀ env : Env σ, ∃ r' env',
      copyLoop fuel rounds count ((r, sink), env) =
        .error (Error.truncatedHeader w.length).toIo ((r', sink), env')
  | 0, fed, r, h, hlt, env => absurd hlt (Nat.not_lt_zero _)
  | rounds + 1, fed, r, h, hlt, env => by
    have hlen : Source.copyLen ≠ 0 := by decide
    have h' : Balked S f s v w fed (.io io) { r with accessed := true } :=
      ⟨h.stands.of_eq rfl rfl rfl rfl rfl, h.refused, h.output, h.started, h.eof⟩
    have husable : Usable (r, env) := h.stands.usable (s := (r, env))
    unfold copyLoop
    rcases refill_balked hs hw h' fuel env with
      ⟨t, hrefill⟩ | ⟨block, r', env', hb, hrefill, hr'⟩
    · have hread := readBytes_of_refill husable hlen h.output hrefill
      simp only [run_read, hread]
      exact ⟨_, _, rfl⟩
    · have hread := readBytes_of_refill husable hlen h.output hrefill
      have hlt' : (S.remaining r'.inner).length < rounds := by
        have := h.stands.length_lt hr'.stands hb
        omega
      simp only [run_read, hread, Error.toIo, hio, if_true,
        poison_of_isIo (e := .io io) rfl]
      exact copyLoop_balked sink hs hw hio fuel count rounds hr' hlt' env'

/-- **A complete header that does not open for an interrupted transfer is read past**, and found cut
short at the end of the source. -/
theorem decrypt_of_interrupted (sink : ς) (hs : Opens f s) (hsource : S.works source)
    (hw : progress f s v (S.remaining source) = .failed (.io io)) (hio : io.isInterrupted = true)
    {fuel : Nat} (hfuel : (S.remaining source).length < fuel) (env : Env σ) : ∃ source' env',
      decrypt fuel s ((source, sink), env) =
        .error (.truncatedHeader (S.remaining source).length) ((source', sink), env') := by
  obtain ⟨rounds, rfl⟩ : ∃ rounds, fuel = rounds + 1 := ⟨fuel - 1, by omega⟩
  have hlen : Source.copyLen ≠ 0 := by decide
  have hnew : Fresh S (fun fed k => FamilySession.Standing f s v fed (k, v)) (S.remaining source)
      (CipherReader.new source s) := fresh_new hsource (standing_nil hs v)
  have hfresh : Fresh S (fun fed k => FamilySession.Standing f s v fed (k, v)) (S.remaining source)
      { CipherReader.new source s with accessed := true } :=
    ⟨hnew.reads.of_eq rfl rfl rfl rfl rfl, rfl, rfl, rfl⟩
  obtain ⟨fed, r', env', hrefill, hr', hfed⟩ := refill_unopened hs hw hfuel hfresh env
  have husable : Usable (CipherReader.new source s, env) :=
    hnew.reads.usable (s := (CipherReader.new source s, env))
  have hread := readBytes_of_refill husable hlen rfl hrefill
  have hlt : (S.remaining r'.inner).length < rounds := by
    have hless : (S.remaining r'.inner).length < (S.remaining source).length :=
      hnew.reads.length_lt hr'.stands hfed
    omega
  obtain ⟨r'', env'', hcopy⟩ :=
    copyLoop_balked sink hs hw hio (rounds + 1) 0 rounds hr' hlt env'
  refine ⟨r''.inner, env'', ?_⟩
  have hmode : Session.mode (σ := σ) s = .decrypt := hs.mode
  simp only [decrypt, hmode, ne_eq, not_true_eq_false, if_false, copy]
  rw [copyLoop]
  simp only [run_read, hread, Error.toIo, hio, if_true,
    poison_of_isIo (e := .io io) rfl, hcopy]
  rfl

end SealedStream
