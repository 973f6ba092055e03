import SealedStream.Proofs.Session.Progress
import SealedStream.Proofs.Stream.Working
import SealedStream.Stream.Reader

/-!
# Reading through a decrypting session

A reader over a working source hands out, piece by piece, the plaintext that its session makes of
the whole source, or fails at the first read with the error that the source ends with. The session
is known by `Decodes` only. `CipherReader.Open` is what every read preserves, and
`CipherReader.readBytes_spec` is the step.
-/

namespace SealedStream

namespace CipherReader

variable {σ κ ρ α : Type}

/-! ## Steps of a reader -/

theorem run_onSession (x : Step (κ × σ) α) (r : CipherReader κ ρ) (env : Env σ) :
    (onSession x : Pull σ κ ρ α) (r, env) = match x (r.session, env.world) with
      | .ok a t => .ok a ({ r with session := t.1 }, { env with world := t.2 })
      | .error e t => .error e ({ r with session := t.1 }, { env with world := t.2 }) := by
  rw [onSession, run_zoom]
  cases x (r.session, env.world) <;> rfl

theorem run_onInner (x : Transfer σ ρ α) (r : CipherReader κ ρ) (env : Env σ) :
    (onInner x : Pull σ κ ρ α) (r, env) = match x (r.inner, env) with
      | .ok a t => .ok a ({ r with inner := t.1 }, t.2)
      | .error e t => .error (.ofIo e) ({ r with inner := t.1 }, t.2) := by
  rw [onInner, run_adaptExcept, run_zoom]
  cases x (r.inner, env) <;> rfl

theorem run_update (f : CipherReader κ ρ → CipherReader κ ρ) (r : CipherReader κ ρ) (env : Env σ) :
    (update f : Pull σ κ ρ Unit) (r, env) = .ok () (f r, env) := rfl

theorem run_checkAbort {r : CipherReader κ ρ} (h : r.abort = .own false) (env : Env σ) :
    (checkAbort : Pull σ κ ρ Unit) (r, env) = .ok () (r, env) := by
  simp only [checkAbort, run_bind, run_get, run_check, AbortHandle.check, AbortHandle.isAborted, h]
  rfl

theorem run_setOutput (bytes : Bytes) (r : CipherReader κ ρ) (env : Env σ) :
    (setOutput bytes : Pull σ κ ρ Refill) (r, env) =
      .ok (if bytes.isEmpty then .empty else .data) ({ r with output := bytes }, env) := rfl

variable [Source σ ρ]

/-! ## Taking blocks -/

/-- The reader can be read, and its session was fed `fed` of the bytes `w` that there are. -/
structure Reads (S : WorkingSource σ ρ) (At : Bytes → κ → Prop) (w fed : Bytes)
    (r : CipherReader κ ρ) : Prop where
  works : S.works r.inner
  block : 0 < r.blockSize
  abort : r.abort = .own false
  failed : r.failed = none
  session : At fed r.session
  split : fed ++ S.remaining r.inner = w

variable {S : WorkingSource σ ρ} {D : Bytes → Progress} {At : Bytes → κ → Prop} {w fed : Bytes}
  {r : CipherReader κ ρ}

/-- What is in a reader besides the source and the session may change. -/
theorem Reads.of_eq {r' : CipherReader κ ρ} (h : Reads S At w fed r) (hi : r'.inner = r.inner)
    (hs : r'.session = r.session) (hb : r'.blockSize = r.blockSize) (ha : r'.abort = r.abort)
    (hf : r'.failed = r.failed) : Reads S At w fed r' where
  works := hi ▸ h.works
  block := hb ▸ h.block
  abort := ha ▸ h.abort
  failed := hf ▸ h.failed
  session := hs ▸ h.session
  split := hi ▸ h.split

theorem readBlock_spec (h : Reads S At w fed r) (fuel : Nat) (env : Env σ) :
    ∃ block i env', readBlock fuel (r, env) = .ok block ({ r with inner := i }, env') ∧
      S.works i ∧ block.length ≤ r.blockSize ∧ S.remaining r.inner = block ++ S.remaining i ∧
      (block = [] → S.remaining r.inner = []) := by
  obtain ⟨block, i, env', hread, hi, hlen, hsplit, hend⟩ := S.read h.works fuel h.block env
  refine ⟨block, i, env', ?_, hi, hlen, hsplit, hend⟩
  simp only [readBlock, run_bind, run_get, run_onInner, hread]
  rw [run_checkAbort (r := { r with inner := i }) h.abort]
  rfl

variable [Session κ σ]

/-- What becomes of a block that was read: nothing is left, or the session takes the block. -/
theorem feed_block (hD : Decodes D At w) (h : Reads S At w fed r) (fuel : Nat) (env : Env σ) :
    ∃ block i env', readBlock fuel (r, env) = .ok block ({ r with inner := i }, env') ∧
      ((block = [] ∧ fed = w ∧ S.works i ∧ S.remaining i = []) ∨
      (block ≠ [] ∧ (∃ e s', (D w).error? = some e ∧
        (onSession (Session.update block) : Pull σ κ ρ Bytes) ({ r with inner := i }, env') =
          .error e s')) ∨
      (block ≠ [] ∧ ∃ out k env'',
        (onSession (Session.update block) : Pull σ κ ρ Bytes) ({ r with inner := i }, env') =
          .ok out ({ r with inner := i, session := k }, env'') ∧
        Reads S At w (fed ++ block) { r with inner := i, session := k } ∧
        (D (fed ++ block)).plain = (D fed).plain ++ out)) := by
  obtain ⟨block, i, env', hread, hi, -, hsplit, hend⟩ := readBlock_spec h fuel env
  refine ⟨block, i, env', hread, ?_⟩
  have hw := h.split
  rw [hsplit] at hw
  by_cases hb : block = []
  · have hrem := hend hb
    rw [hsplit, List.append_eq_nil_iff] at hrem
    rw [hb, hrem.2, List.append_nil] at hw
    exact .inl ⟨hb, by simpa using hw, hi, hrem.2⟩
  · right
    rw [← List.append_assoc] at hw
    have hpre : fed ++ block <+: w := ⟨_, hw⟩
    rcases hD.update h.session hpre env'.world with ⟨e, t, he, hu⟩ | ⟨out, k, v, hu, hk, hplain⟩
    · have hfail : D w = .failed e := hw ▸ hD.grows.failed he _
      refine .inl ⟨hb, e, ({ r with inner := i, session := t.1 }, { env' with world := t.2 }), ?_, ?_⟩
      · rw [hfail]
        rfl
      · rw [run_onSession, hu]
    · refine .inr ⟨hb, out, k, { env' with world := v }, ?_, ?_, hplain⟩
      · rw [run_onSession, hu]
      · exact ⟨hi, h.block, h.abort, h.failed, hk, hw⟩

omit [Session κ σ] in
/-- A block shortens what remains. -/
theorem Reads.length_lt (h : Reads S At w fed r) {block : Bytes} {r' : CipherReader κ ρ}
    (h' : Reads S At w (fed ++ block) r') (hb : block ≠ []) :
    (S.remaining r'.inner).length < (S.remaining r.inner).length := by
  have hlen := congrArg List.length (h.split.trans h'.split.symm)
  have := List.length_pos_iff.mpr hb
  simp only [List.length_append] at hlen
  omega

omit [Source σ ρ] in
/-- At the end of the source, a session that is not ready fails. -/
theorem finish_awaiting (hD : Decodes D At w) {k : κ} (hk : At w k) {n : Nat}
    (hn : D w = .awaiting n) (hs : r.session = k) (env : Env σ) :
    ∃ s', (finish : Pull σ κ ρ Bytes) (r, env) = .error (.truncatedHeader n) s' := by
  obtain ⟨t, ht⟩ := hD.finalize_awaiting hk hn env.world
  refine ⟨({ r with session := t.1 }, { env with world := t.2 }), ?_⟩
  simp only [finish, run_bind, run_onSession, hs, ht]

omit [Source σ ρ] in
/-- At the end of the source, a session that is ready gives nothing more. -/
theorem finish_ready (hD : Decodes D At w) {k : κ} (hk : At w k) {p : Bytes}
    (hp : D w = .ready p) (hs : r.session = k) (env : Env σ) :
    ∃ k' env', (finish : Pull σ κ ρ Bytes) (r, env) =
      .ok [] ({ r with session := k', eof := true }, env') ∧ At w k' := by
  obtain ⟨k', v, ht, hk'⟩ := hD.finalize_ready hk hp env.world
  refine ⟨k', { env with world := v }, ?_, hk'⟩
  simp only [finish, run_bind, run_onSession, hs, ht, run_update, run_pure]

/-! ## The first read -/

/-- Feeding blocks up to the end of the header: by induction on the rounds, each of which takes at
least a byte. -/
theorem assembleHeader_spec (hD : Decodes D At w) (fuel : Nat) : ∀ {rounds : Nat} {fed out : Bytes}
    {r : CipherReader κ ρ}, Reads S At w fed r → out = (D fed).plain →
    (S.remaining r.inner).length < rounds → ∀ env : Env σ,
    (∃ e s', (D w).error? = some e ∧
      (assembleHeader fuel rounds out : Pull σ κ ρ Bytes) (r, env) = .error e s') ∨
    ∃ p fed' i k env', (assembleHeader fuel rounds out : Pull σ κ ρ Bytes) (r, env) =
        .ok p ({ r with inner := i, session := k }, env') ∧
      Reads S At w fed' { r with inner := i, session := k } ∧ D fed' = .ready p
  | 0, fed, out, r, h, hout, hlt, env => absurd hlt (Nat.not_lt_zero _)
  | rounds + 1, fed, out, r, h, hout, hlt, env => by
    unfold assembleHeader
    simp only [run_bind, run_get, run_ite, run_pure]
    by_cases hr : Session.isReady r.session = true
    · rw [if_pos hr]
      rw [hD.isReady h.session] at hr
      refine .inr ⟨out, fed, r.inner, r.session, env, rfl, h, ?_⟩
      cases hf : D fed with
      | failed e => rw [hf] at hr; cases hr
      | awaiting n => rw [hf] at hr; cases hr
      | ready p => rw [hout, hf]; rfl
    · rw [if_neg hr, run_checkAbort h.abort]
      rw [hD.isReady h.session] at hr
      obtain ⟨block, i, env', hread, hcase⟩ := feed_block hD h fuel env
      have hgo := hD.going h.session
      simp only [hread]
      rcases hcase with ⟨rfl, hfed, hi, hrem⟩ | ⟨hb, e, s', he, hu⟩ | ⟨hb, out', k, env'', hu, h', hplain⟩
      · have hk : At w r.session := hfed ▸ h.session
        rw [hfed] at hgo hr
        cases hw : D w with
        | failed e => rw [hw] at hgo; cases hgo
        | awaiting n =>
          obtain ⟨s', hs'⟩ := finish_awaiting hD hk hw (r := { r with inner := i }) rfl env'
          refine .inl ⟨_, s', rfl, ?_⟩
          simp only [List.isEmpty_nil, if_true, hs']
        | ready p => rw [hw] at hr; exact absurd rfl hr
      · refine .inl ⟨e, s', he, ?_⟩
        rw [if_neg (by simpa using hb), hu]
      · have hlt' : (S.remaining i).length < rounds := by
          have : (S.remaining i).length < (S.remaining r.inner).length := h.length_lt h' hb
          omega
        rw [if_neg (by simpa using hb), hu]
        exact assembleHeader_spec hD fuel h' (by rw [hout, hplain]) hlt' env''

/-- A reader behind the header: `given` was handed out. -/
def Behind (S : WorkingSource σ ρ) (D : Bytes → Progress) (At : Bytes → κ → Prop) (w given : Bytes)
    (r : CipherReader κ ρ) : Prop :=
  ∃ fed, Reads S At w fed r ∧ D fed = .ready (given ++ r.output) ∧ r.started = true ∧
    (r.eof = true → fed = w)

/-- A reader that was not read. -/
structure Fresh (S : WorkingSource σ ρ) (At : Bytes → κ → Prop) (w : Bytes)
    (r : CipherReader κ ρ) : Prop where
  reads : Reads S At w [] r
  output : r.output = []
  started : r.started = false
  eof : r.eof = false

omit [Session κ σ] in
theorem fresh_new {source : ρ} {k : κ} (hsource : S.works source) (hk : At [] k) :
    Fresh S At (S.remaining source) (CipherReader.new source k) where
  reads := ⟨hsource, Nat.le_max_right _ _, rfl, rfl, hk, rfl⟩
  output := rfl
  started := rfl
  eof := rfl

theorem refill_unstarted (ha : r.abort = .own false) (heof : r.eof = false)
    (hst : r.started = false) (fuel : Nat) (env : Env σ) :
    (refill fuel : Pull σ κ ρ Refill) (r, env) = firstRefill fuel (r, env) := by
  simp only [refill, run_bind, run_checkAbort ha, run_get, run_ite, heof, hst, Bool.false_eq_true,
    if_false]

/-- The first refill of a decrypting reader fails as assembling the header does. -/
theorem refill_of_assembleHeader {e : Error} {fuel : Nat} {env : Env σ} {t : CipherReader κ ρ × Env σ}
    (ha : r.abort = .own false) (heof : r.eof = false) (hst : r.started = false)
    (hstart : Session.start (r.session, env.world) = .ok [] (r.session, env.world))
    (hm : Session.mode (σ := σ) r.session = .decrypt)
    (h : (assembleHeader fuel fuel [] : Pull σ κ ρ Bytes) ({ r with started := true }, env) =
      .error e t) :
    (refill fuel : Pull σ κ ρ Refill) (r, env) = .error e t := by
  rw [refill_unstarted ha heof hst]
  simp only [firstRefill, run_bind, run_update, run_onSession, hstart, run_get, run_ite, hm,
    List.isEmpty_nil, Bool.not_true, Bool.false_eq_true, if_false, if_true]
  rw [h]

theorem firstRefill_spec (hD : Decodes D At w) {fuel : Nat} (hfuel : w.length < fuel)
    (h : Fresh S At w r) (env : Env σ) :
    (∃ e s', (D w).error? = some e ∧ (firstRefill fuel : Pull σ κ ρ Refill) (r, env) = .error e s') ∨
    ∃ r' env', (firstRefill fuel : Pull σ κ ρ Refill) (r, env) =
        .ok (if r'.output.isEmpty then .empty else .data) (r', env') ∧
      Behind S D At w [] r' ∧ r'.eof = false := by
  have hr : Reads S At w [] { r with started := true } := h.reads.of_eq rfl rfl rfl rfl rfl
  have hlt : (S.remaining r.inner).length < fuel := by
    have hs := h.reads.split
    rw [List.nil_append] at hs
    rw [hs]
    exact hfuel
  simp only [firstRefill, run_bind, run_update, run_onSession, hD.start h.reads.session env.world,
    run_get, run_ite, hD.mode h.reads.session, List.isEmpty_nil, Bool.not_true, Bool.false_eq_true,
    if_false, if_true]
  have hnil : [] = (D []).plain := by rw [hD.grows.nil]; rfl
  rcases assembleHeader_spec hD fuel hr hnil hlt env with
    ⟨e, s', he, hs'⟩ | ⟨p, fed, i, k, env', hs', hreads, hp⟩
  · refine .inl ⟨e, s', he, ?_⟩
    rw [hs']
  · refine .inr ⟨{ r with started := true, inner := i, session := k, output := p }, env', ?_, ?_, ?_⟩
    · rw [hs']
      simp only [h.eof, Bool.false_eq_true, if_false, run_setOutput]
    · exact ⟨fed, hreads.of_eq rfl rfl rfl rfl rfl, hp, rfl, fun he => by rw [h.eof] at he; cases he⟩
    · exact h.eof

/-! ## Later reads -/

/-- What comes of a refill behind the header: output, or the end of the plaintext. -/
def Refilled (S : WorkingSource σ ρ) (D : Bytes → Progress) (At : Bytes → κ → Prop)
    (w given : Bytes) (more : Bool) (r : CipherReader κ ρ) : Prop :=
  Behind S D At w given r ∧
    if more then r.output ≠ [] else r.output = [] ∧ D w = .ready given

/-- One block behind the header gives output, since a keystream leaves nothing behind; no block is
the end. -/
theorem blockRefill_spec (hD : Decodes D At w) {given : Bytes} (h : Behind S D At w given r)
    (hout : r.output = []) (heof : r.eof = false) (fuel : Nat) (env : Env σ) :
    ∃ more r' env', (blockRefill fuel : Pull σ κ ρ Refill) (r, env) =
      .ok (if more then .data else .done) (r', env') ∧ Refilled S D At w given more r' := by
  obtain ⟨fed, hr, hplain, hstarted, -⟩ := h
  rw [hout, List.append_nil] at hplain
  obtain ⟨block, i, env', hread, hcase⟩ := feed_block hD hr fuel env
  simp only [blockRefill, run_bind, hread, run_ite]
  rcases hcase with ⟨rfl, hfed, hi, hrem⟩ | ⟨hb, e, s', he, hu⟩ | ⟨hb, out, k, env'', hu, hr', hp⟩
  · subst hfed
    obtain ⟨k, env'', hf, hk⟩ :=
      finish_ready hD hr.session hplain (r := { r with inner := i }) rfl env'
    refine ⟨false, { r with inner := i, session := k, eof := true, output := [] }, env'', ?_, ?_⟩
    · simp only [List.isEmpty_nil, if_true, hf, setLastOutput, run_bind, run_setOutput, run_pure]
      rfl
    · refine ⟨⟨fed, ?_, ?_, hstarted, fun _ => rfl⟩, rfl, hplain⟩
      · exact ⟨hi, hr.block, hr.abort, hr.failed, hk, by rw [hrem, List.append_nil]⟩
      · rw [List.append_nil]
        exact hplain
  · obtain ⟨rest, hrest⟩ : fed <+: w := ⟨_, hr.split⟩
    obtain ⟨q, -, hq⟩ := hD.grows.ready hplain rest
    rw [hrest] at hq
    rw [hq] at he
    cases he
  · obtain ⟨q, hlen, hq⟩ := hD.grows.ready hplain block
    have hout' : out = q := by
      rw [hq, hplain] at hp
      exact (List.append_cancel_left hp).symm
    have hne : out ≠ [] := by
      rw [hout', ← List.length_pos_iff, hlen]
      exact List.length_pos_iff.mpr hb
    refine ⟨true, { r with inner := i, session := k, output := out }, env'', ?_, ?_⟩
    · rw [if_neg (by simpa using hb), hu]
      simp only [run_setOutput]
      rw [if_neg (by simpa using hne)]
      rfl
    · refine ⟨⟨fed ++ block, hr'.of_eq rfl rfl rfl rfl rfl, ?_, hstarted, ?_⟩, hne⟩
      · rw [hq, hout']
      · intro he
        rw [heof] at he
        cases he

/-- A refill of a reader that has no output left. -/
theorem refill_spec (hD : Decodes D At w) {given : Bytes} (h : Behind S D At w given r)
    (hout : r.output = []) (fuel : Nat) (env : Env σ) :
    ∃ more r' env', (refill fuel : Pull σ κ ρ Refill) (r, env) =
      .ok (if more then .data else .done) (r', env') ∧ Refilled S D At w given more r' := by
  have h' := h
  obtain ⟨fed, hr, hplain, hstarted, hend⟩ := h
  simp only [refill, run_bind, run_checkAbort hr.abort, run_get, run_ite, run_pure]
  cases heof : r.eof with
  | true =>
    rw [hout, List.append_nil, hend heof] at hplain
    exact ⟨false, r, env, rfl, h', hout, hplain⟩
  | false =>
    simp only [hstarted, Bool.false_eq_true, if_false, if_true]
    exact blockRefill_spec hD h' hout heof fuel env

theorem refillLoop_spec (hD : Decodes D At w) {given : Bytes} (h : Behind S D At w given r)
    (hout : r.output = []) (fuel left : Nat) (env : Env σ) :
    ∃ more r' env', (refillLoop fuel left : Pull σ κ ρ Bool) (r, env) = .ok more (r', env') ∧
      Refilled S D At w given more r' := by
  obtain ⟨more, r', env', hrefill, hr'⟩ := refill_spec hD h hout fuel env
  refine ⟨more, r', env', ?_, hr'⟩
  cases left with
  | zero => cases more <;> simp only [refillLoop, run_bind, hrefill] <;> rfl
  | succ left => cases more <;> simp only [refillLoop, run_bind, hrefill] <;> rfl

/-! ## One read -/

/-- A reader that can be read: `given` was handed out. -/
def Open (S : WorkingSource σ ρ) (D : Bytes → Progress) (At : Bytes → κ → Prop) (w given : Bytes)
    (r : CipherReader κ ρ) : Prop :=
  (given = [] ∧ Fresh S At w r) ∨ Behind S D At w given r

/-- The first read may need two refills: the header may end where a block does. -/
theorem refillLoop_fresh (hD : Decodes D At w) {fuel : Nat} (hfuel : w.length < fuel)
    (h : Fresh S At w r) (left : Nat) (env : Env σ) :
    (∃ e s', (D w).error? = some e ∧
      (refillLoop fuel (left + 1) : Pull σ κ ρ Bool) (r, env) = .error e s') ∨
    ∃ more r' env', (refillLoop fuel (left + 1) : Pull σ κ ρ Bool) (r, env) =
        .ok more (r', env') ∧ Refilled S D At w [] more r' := by
  simp only [refillLoop, run_bind, refill_unstarted h.reads.abort h.eof h.started]
  rcases firstRefill_spec hD hfuel h env with ⟨e, s', he, hs'⟩ | ⟨r', env', hr', hb, heof⟩
  · refine .inl ⟨e, s', he, ?_⟩
    rw [hs']
  · right
    rw [hr']
    by_cases hout : r'.output = []
    · simp only [hout, List.isEmpty_nil, if_true]
      exact refillLoop_spec hD hb hout fuel left env'
    · rw [if_neg (by simpa using hout)]
      exact ⟨true, r', env', rfl, hb, hout⟩

theorem fill_spec (hD : Decodes D At w) {fuel : Nat} (hfuel : w.length < fuel) {given : Bytes}
    (h : Open S D At w given r) (env : Env σ) :
    (∃ e s', (D w).error? = some e ∧ (fill fuel : Pull σ κ ρ Bool) (r, env) = .error e s') ∨
    ∃ more r' env', (fill fuel : Pull σ κ ρ Bool) (r, env) = .ok more (r', env') ∧
      Refilled S D At w given more r' := by
  simp only [fill, run_bind, run_get, run_ite, run_pure]
  rcases h with ⟨rfl, hf⟩ | hb
  · rw [hf.output, if_pos List.isEmpty_nil]
    exact refillLoop_fresh hD hfuel hf 999 env
  · by_cases hout : r.output = []
    · rw [hout, if_pos List.isEmpty_nil]
      exact .inr (refillLoop_spec hD hb hout fuel maxEmptyRefills env)
    · rw [if_neg (by simpa using hout)]
      exact .inr ⟨true, r, env, rfl, hb, hout⟩

omit [Session κ σ] in
/-- What was read or skipped does not matter to reading on. -/
theorem Open.accessed {given : Bytes} (h : Open S D At w given r) :
    Open S D At w given { r with accessed := true } := by
  rcases h with ⟨rfl, hf⟩ | ⟨fed, hr, hplain, hstarted, hend⟩
  · exact .inl ⟨rfl, hf.reads.of_eq rfl rfl rfl rfl rfl, hf.output, hf.started, hf.eof⟩
  · exact .inr ⟨fed, hr.of_eq rfl rfl rfl rfl rfl, hplain, hstarted, hend⟩

omit [Session κ σ] in
theorem Open.usable {given : Bytes} (h : Open S D At w given r) (env : Env σ) :
    (checkUsable : Pull σ κ ρ Unit) (r, env) = .ok () (r, env) := by
  obtain ⟨habort, hfailed⟩ : r.abort = .own false ∧ r.failed = none := by
    rcases h with ⟨-, hf⟩ | ⟨fed, hr, -⟩
    · exact ⟨hf.reads.abort, hf.reads.failed⟩
    · exact ⟨hr.abort, hr.failed⟩
  simp only [checkUsable, run_bind, run_checkAbort habort, run_get, hfailed, run_pure]

theorem run_read (fuel n : Nat) (r : CipherReader κ ρ) (env : Env σ) :
    (Source.read fuel n : Transfer σ (CipherReader κ ρ) Bytes) (r, env) =
      match (readBytes fuel n : Pull σ κ ρ Bytes) (r, env) with
      | .ok bytes t => .ok bytes t
      | .error e t => .error e.toIo t := by
  simp only [Source.read, run_adaptExcept]
  cases (readBytes fuel n : Pull σ κ ρ Bytes) (r, env) <;> rfl

/-- What was handed out is the beginning of the plaintext. -/
theorem Behind.plain (hD : Decodes D At w) {given : Bytes} (h : Behind S D At w given r) :
    ∃ rest, D w = .ready (given ++ rest) := by
  obtain ⟨fed, hr, hplain, -, -⟩ := h
  obtain ⟨more, hmore⟩ : fed <+: w := ⟨_, hr.split⟩
  obtain ⟨q, -, hq⟩ := hD.grows.ready hplain more
  rw [hmore, List.append_assoc] at hq
  exact ⟨r.output ++ q, hq⟩

/-- **A read hands out the next bytes of the plaintext**, and none only at its end; or the source ends
with an error, and the read fails with that. -/
theorem readBytes_spec (hD : Decodes D At w) {fuel : Nat} (hfuel : w.length < fuel) {given : Bytes}
    (h : Open S D At w given r) {n : Nat} (hn : 0 < n) (env : Env σ) :
    (∃ e s', (D w).error? = some e ∧ (readBytes fuel n : Pull σ κ ρ Bytes) (r, env) = .error e s') ∨
    ∃ out r' env', (readBytes fuel n : Pull σ κ ρ Bytes) (r, env) = .ok out (r', env') ∧
      Behind S D At w (given ++ out) r' ∧ (out = [] → D w = .ready given) := by
  simp only [readBytes, run_bind, h.usable, run_update, run_ite, readFilled]
  rw [if_neg (by omega)]
  rcases fill_spec hD hfuel h.accessed env with ⟨e, s', he, hs'⟩ | ⟨more, r', env', hf, hb, hmore⟩
  · refine .inl ⟨e, (poison e s'.1, s'.2), he, ?_⟩
    rw [hs']
  · refine .inr ?_
    rw [hf]
    cases more with
    | false =>
      exact ⟨[], r', env', rfl, by rw [List.append_nil]; exact hb, fun _ => hmore.2⟩
    | true =>
      obtain ⟨fed, hr, hplain, hstarted, hend⟩ := hb
      refine ⟨r'.output.take n, { r' with output := r'.output.drop n }, env', rfl, ?_, ?_⟩
      · refine ⟨fed, hr.of_eq rfl rfl rfl rfl rfl, ?_, hstarted, hend⟩
        rw [hplain, List.append_assoc, List.take_append_drop]
      · intro hnil
        exact absurd ((List.take_eq_nil_iff.mp hnil).resolve_left (by omega)) hmore

end CipherReader

end SealedStream
