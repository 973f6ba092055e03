import SealedStream.Proofs.Session.Conveying
import SealedStream.Proofs.Stream.Flow

/-!
# Reading what a session conveys

A reader over a working source hands out what its session conveys of the bytes of the source, in
either mode and over collaborators that may have state. The source must leave the world of these
collaborators alone (`Source.Aloof`): a decrypting session asks its key wrap only behind some reads.
`CipherReader.Pulls` is what every draw preserves, `CipherReader.Hands` what every read preserves,
and `CipherReader.reads_conveyed` is the run of a caller who stops at the first error.
-/

namespace SealedStream

namespace CipherReader

variable {σ κ ρ : Type} [Source σ ρ]

/-- A reader whose session was fed `fed` of the bytes `w` that there are. -/
structure Pulls (S : WorkingSource σ ρ) (D : Bytes → Progress) (At : Bytes → κ → σ → Prop)
    (w fed : Bytes) (s : State σ κ ρ) : Prop where
  abort : s.1.abort = .own false
  failed : s.1.failed = none
  accessed : s.1.accessed = true
  works : S.works s.1.inner
  block : 0 < s.1.blockSize
  split : fed ++ S.remaining s.1.inner = w
  started : s.1.started = true
  session : s.1.eof = false → At fed s.1.session s.2.world
  whole : s.1.eof = true → fed = w ∧ (D w).isReady = true

/-- A reader that was not read, over the session `k₀` in the world `w₀`. -/
structure Unread (S : WorkingSource σ ρ) (w : Bytes) (k₀ : κ) (w₀ : σ) (s : State σ κ ρ) :
    Prop where
  abort : s.1.abort = .own false
  failed : s.1.failed = none
  works : S.works s.1.inner
  block : 0 < s.1.blockSize
  remaining : S.remaining s.1.inner = w
  output : s.1.output = []
  eof : s.1.eof = false
  started : s.1.started = false
  session : s.1.session = k₀
  world : s.2.world = w₀

variable {S : WorkingSource σ ρ} {D : Bytes → Progress} {At : Bytes → κ → σ → Prop}
  {w fed given : Bytes} {k₀ : κ} {w₀ : σ} {s t : State σ κ ρ} {fuel : Nat}

omit [Source σ ρ] in
theorem usable_of (ha : s.1.abort = .own false) (hf : s.1.failed = none) : Usable s where
  abort := by rw [ha]; rfl
  failed := hf

theorem Pulls.usable (h : Pulls S D At w fed s) : Usable s := usable_of h.abort h.failed

theorem Pulls.output (h : Pulls S D At w fed s) (output : Bytes) :
    Pulls S D At w fed ({ s.1 with output }, s.2) :=
  ⟨h.abort, h.failed, h.accessed, h.works, h.block, h.split, h.started, h.session, h.whole⟩

theorem Pulls.idle (h : Pulls S D At w fed s) (ho : s.1.output = []) (he : s.1.eof = false) :
    Idle (fun _ => True) s :=
  ⟨h.usable, ho, h.accessed, he, trivial⟩

/-- A block shortens what remains. -/
theorem Pulls.length_lt (h : Pulls S D At w fed s) {block : Bytes}
    (h' : Pulls S D At w (fed ++ block) t) (hb : block ≠ []) :
    (S.remaining t.1.inner).length < (S.remaining s.1.inner).length := by
  have hlen := congrArg List.length (h.split.trans h'.split.symm)
  have := List.length_pos_iff.mpr hb
  simp only [List.length_append] at hlen
  omega

variable [Session κ σ]

section

variable (ha : Source.Aloof σ ρ) (hC : Session.Conveys D At k₀ w₀)

include hC

omit [Source σ ρ] in
theorem error?_of_failed {more : Bytes} {e : Error} (hD : D fed = .failed e) :
    (D (fed ++ more)).error? = some e := by
  rw [hC.lasts.failed hD]
  rfl

/-- A reader that is behind the header does not fail. -/
theorem Pulls.error?_eq_none (h : Pulls S D At w fed s) (hr : (D fed).isReady = true) :
    (D w).error? = none := by
  have hready : (D w).isReady = true := h.split ▸ hC.lasts.isReady_append hr
  cases hD : D w with
  | failed e => rw [hD] at hready; cases hready
  | awaiting n => rw [hD] at hready; cases hready
  | ready p => rfl

/-! ## Draws -/

/-- Starting the session gives what is there before the first byte. -/
theorem startSession_spec (h : Unread S w k₀ w₀ s) (hacc : s.1.accessed = true) :
    (∃ e t, (D w).error? = some e ∧ startSession s = .error e t) ∨
    ∃ t, startSession s = .ok (D []).plain t ∧ Pulls S D At w [] t ∧ t.1.eof = false := by
  obtain ⟨r, env⟩ := s
  obtain rfl : r.session = k₀ := h.session
  obtain rfl : env.world = w₀ := h.world
  simp only [startSession, run_bind, run_update, run_onSession]
  rcases hC.start with ⟨e, t, hD, hs⟩ | ⟨k, v, hs, hat⟩
  · rw [hs]
    refine .inl ⟨e, _, ?_, rfl⟩
    rw [hD]
    rfl
  · rw [hs]
    refine .inr ⟨_, rfl, ?_, h.eof⟩
    exact ⟨h.abort, h.failed, hacc, h.works, h.block, h.remaining, rfl, fun _ => hat,
      fun he => absurd (h.eof.symm.trans he) Bool.false_ne_true⟩

omit [Session κ σ] hC in
/-- A block is taken off what remains, and none comes only at the end. -/
theorem Pulls.readBlock (ha : Source.Aloof σ ρ) (h : Pulls S D At w fed s) (fuel : Nat) :
    ∃ block i env', (readBlock fuel : Pull σ κ ρ Bytes) s =
        .ok block ({ s.1 with inner := i }, env') ∧ S.works i ∧ env'.world = s.2.world ∧
      fed ++ block ++ S.remaining i = w ∧ (block = [] → fed = w) := by
  obtain ⟨block, i, env', hread, hi, -, hsplit, hend⟩ := S.read h.works fuel h.block s.2
  have hcheck : s.1.abort.check env' = .ok () := by
    rw [h.abort]
    rfl
  have hw := h.split
  refine ⟨block, i, env', ?_, hi, ?_, ?_, fun hb => ?_⟩
  · rw [run_readBlock]
    simp only [hread, hcheck]
  · have := ha fuel s.1.blockSize (s.1.inner, s.2)
    rwa [hread] at this
  · rwa [hsplit, ← List.append_assoc] at hw
  · rwa [hend hb, List.append_nil] at hw

omit ha [Source σ ρ] in
/-- At the end of the bytes the session is finalized: it fails if it is not behind the header, and
gives nothing more if it is. -/
theorem finish_conveyed {k : κ} {env : Env σ} {r : CipherReader κ ρ} (hat : At w k env.world)
    (hk : r.session = k) :
    (∃ e t, (D w).error? = some e ∧ (finish : Pull σ κ ρ Bytes) (r, env) = .error e t) ∨
    ∃ k' env', (D w).isReady = true ∧ (finish : Pull σ κ ρ Bytes) (r, env) =
      .ok [] ({ r with session := k', eof := true }, env') := by
  rw [run_finish, hk]
  rcases hC.finalize hat with ⟨n, t, hD, hf⟩ | ⟨p, t, hD, hf⟩
  · rw [hf]
    exact .inl ⟨_, _, by rw [hD]; rfl, rfl⟩
  · rw [hf]
    exact .inr ⟨_, _, by rw [hD]; rfl, rfl⟩

include ha

/-- **What is drawn is what the session conveys of the next block**; none comes only at the end, and
only if the header is behind. -/
theorem Pulls.draw (h : Pulls S D At w fed s) (fuel : Nat) (he : s.1.eof = false) :
    (∃ e t, (D w).error? = some e ∧ draw fuel s = .error e t) ∨
    ∃ block out t, draw fuel s = .ok out t ∧ Pulls S D At w (fed ++ block) t ∧
      (D (fed ++ block)).plain = (D fed).plain ++ out ∧ (block = [] ↔ t.1.eof = true) := by
  obtain ⟨block, i, env', hread, hi, hworld, hw, hend⟩ := h.readBlock ha fuel
  have hat := h.session he
  rw [← hworld] at hat
  rw [draw_of_started h.usable he h.started, run_bind, hread]
  simp only [feed, run_ite]
  by_cases hb : block = []
  · obtain rfl := hend hb
    rw [if_pos (List.isEmpty_iff.mpr hb)]
    rcases finish_conveyed hC (r := { s.1 with inner := i }) hat rfl with
      herror | ⟨k, env'', hr, hf⟩
    · exact .inl herror
    · rw [hf]
      refine .inr ⟨block, [], _, rfl, ?_, by rw [hb, List.append_nil, List.append_nil],
        iff_of_true hb rfl⟩
      exact ⟨h.abort, h.failed, h.accessed, hi, h.block, hw, h.started,
        fun hf => absurd hf.symm Bool.false_ne_true, fun _ => ⟨by rw [hb, List.append_nil], hr⟩⟩
  · have hgoing : ¬ s.1.eof = true := fun hf => Bool.false_ne_true (he.symm.trans hf)
    rw [if_neg (mt List.isEmpty_iff.mp hb), run_onSession]
    rcases hC.update hat hb with ⟨e, t, hD, hu⟩ | ⟨out, k, v, hu, hat', hplain⟩
    · simp only [hu]
      refine .inl ⟨e, _, ?_, rfl⟩
      rw [← hw]
      exact error?_of_failed hC hD
    · simp only [hu]
      refine .inr ⟨block, out, _, rfl, ?_, hplain, iff_of_false hb hgoing⟩
      exact ⟨h.abort, h.failed, h.accessed, hi, h.block, hw, h.started, fun _ => hat',
        fun hf => absurd hf hgoing⟩

/-! ## Refills -/

/-- Feeding blocks up to the end of the header: by induction on the rounds, each of which takes at
least a byte. -/
theorem Pulls.assembleHeader : ∀ {rounds : Nat} {fed : Bytes} {s : State σ κ ρ},
    Pulls S D At w fed s → ∀ fuel : Nat, s.1.eof = false →
    (S.remaining s.1.inner).length < rounds →
    (∃ e t, (D w).error? = some e ∧ assembleHeader fuel rounds (D fed).plain s = .error e t) ∨
    ∃ fed' t, assembleHeader fuel rounds (D fed).plain s = .ok (D fed').plain t ∧
      Pulls S D At w fed' t ∧ (D fed').isReady = true ∧ t.1.eof = false
  | 0, fed, s, _, fuel, _, hlt => absurd hlt (Nat.not_lt_zero _)
  | rounds + 1, fed, s, h, fuel, he, hlt => by
    have hready := hC.isReady (h.session he)
    cases hr : Session.isReady s.1.session with
    | true =>
      exact .inr ⟨fed, s, assembleHeader_ready hr _ _, h, hready.symm.trans hr, he⟩
    | false =>
      rw [assembleHeader_succ h.usable he h.started hr]
      rcases h.draw ha hC fuel he with ⟨e, t, herr, hd⟩ | ⟨block, out, t, hd, ht, hplain, hb⟩
      · exact .inl ⟨e, t, herr, by rw [hd]⟩
      · rw [hd]
        cases he' : t.1.eof with
        | true =>
          -- the end would mean that the session is ready
          obtain ⟨hfed, hw⟩ := ht.whole he'
          rw [hb.mpr he', List.append_nil] at hfed
          rw [hr, hfed, hw] at hready
          cases hready
        | false =>
          have hne : block ≠ [] := fun hnil => by rw [hb.mp hnil] at he'; cases he'
          have := h.length_lt ht hne
          simp only [he', Bool.false_eq_true, if_false]
          rw [← hplain]
          exact Pulls.assembleHeader ht fuel he' (by omega)

end

/-- The header is behind, and `given` was handed out. -/
def Hands (S : WorkingSource σ ρ) (D : Bytes → Progress) (At : Bytes → κ → σ → Prop)
    (w given : Bytes) (s : State σ κ ρ) : Prop :=
  ∃ fed, Pulls S D At w fed s ∧ (D fed).isReady = true ∧ (D fed).plain = given ++ s.1.output

/-- What comes of refilling behind the header: output, or the end. -/
def Stocked (S : WorkingSource σ ρ) (D : Bytes → Progress) (At : Bytes → κ → σ → Prop)
    (w given : Bytes) (more : Bool) (s : State σ κ ρ) : Prop :=
  Hands S D At w given s ∧
    if more then s.1.output ≠ [] else s.1.output = [] ∧ (D w).plain = given

section

variable (ha : Source.Aloof σ ρ) (hC : Session.Conveys D At k₀ w₀)

include ha hC

/-- A block behind the header gives output, since a keystream leaves nothing behind; no block is the
end. -/
theorem Hands.refill (h : Hands S D At w given s) (fuel : Nat) (ho : s.1.output = []) :
    ∃ more t, refill fuel s = .ok (if more then .data else .done) t ∧
      Stocked S D At w given more t := by
  obtain ⟨fed, hp, hr, hplain⟩ := id h
  cases he : s.1.eof with
  | true =>
    refine ⟨false, s, ?_, h, ho, ?_⟩
    · simp only [CipherReader.refill, run_bind, run_checkAbort_of hp.usable.abort, run_get, run_ite,
        he, if_true, run_pure]
      rfl
    · rw [← (hp.whole he).1, hplain, ho, List.append_nil]
  | false =>
    rw [refill_of_started (hp.idle ho he) hp.started]
    rw [ho, List.append_nil] at hplain
    rcases hp.draw ha hC fuel he with
      ⟨e, t, herr, -⟩ | ⟨block, out, t, hd, ht, hout, hb⟩
    · rw [hp.error?_eq_none hC hr] at herr
      cases herr
    · rw [hd]
      have hhands : Hands S D At w given ({ t.1 with output := out }, t.2) :=
        ⟨_, ht.output out, hC.lasts.isReady_append hr, by rw [hout, hplain]⟩
      cases he' : t.1.eof with
      | true =>
        have hnil := hb.mpr he'
        rw [hnil, List.append_nil] at hout
        have hout' : out = [] := List.self_eq_append_right.mp hout
        refine ⟨false, _, ?_, hhands, hout', ?_⟩
        · simp only [emit, hout', he', List.isEmpty_nil, if_true]
          rfl
        · rw [← (ht.whole he').1, hnil, List.append_nil, hplain]
      | false =>
        have hne : block ≠ [] := fun hnil => by rw [hb.mp hnil] at he'; cases he'
        have hout' := hC.lasts.ne_nil_of_isReady hr hne hout
        refine ⟨true, _, ?_, hhands, hout'⟩
        simp only [emit]
        rw [if_neg (mt List.isEmpty_iff.mp hout')]
        rfl

theorem Hands.refillLoop (h : Hands S D At w given s) (fuel : Nat) (ho : s.1.output = [])
    (left : Nat) :
    ∃ more t, refillLoop fuel left s = .ok more t ∧ Stocked S D At w given more t := by
  obtain ⟨more, t, hrefill, ht⟩ := h.refill ha hC fuel ho
  refine ⟨more, t, ?_, ht⟩
  cases left <;> cases more <;> simp only [CipherReader.refillLoop, run_bind, hrefill] <;> rfl

/-- The first refill gives the head of the stream, or what follows a header that was assembled; this
may be nothing. -/
theorem Unread.refill (h : Unread S w k₀ w₀ s) (hacc : s.1.accessed = true)
    (hfuel : w.length < fuel) :
    (∃ e t, (D w).error? = some e ∧ refill fuel s = .error e t) ∨
    ∃ t, refill fuel s = .ok (if t.1.output.isEmpty then .empty else .data) t ∧
      Hands S D At w [] t := by
  have hidle : Idle (fun _ => True) s :=
    ⟨usable_of h.abort h.failed, h.output, hacc, h.eof, trivial⟩
  rw [refill_of_fresh hidle h.started, draw_of_fresh hidle.usable h.eof h.started]
  rcases startSession_spec hC h hacc with ⟨e, t, herr, hs⟩ | ⟨t, hs, ht, he⟩
  · rw [hs]
    exact .inl ⟨e, t, herr, rfl⟩
  · rw [hs]
    cases hplain : (D []).plain with
    | cons b bs =>
      refine .inr ⟨({ t.1 with output := b :: bs }, t.2), rfl, [], ht.output _, ?_, hplain⟩
      exact Progress.isReady_of_plain (by rw [hplain]; exact List.cons_ne_nil b bs)
    | nil =>
      have hlt : (S.remaining t.1.inner).length < fuel := by
        have := ht.split
        rw [List.nil_append] at this
        rwa [this]
      have hassemble := ht.assembleHeader ha hC fuel he hlt
      rw [hplain] at hassemble
      simp only [hC.mode (ht.session he) hplain, if_true]
      rcases hassemble with ⟨e, u, herr, hrun⟩ | ⟨fed, u, hrun, hu, hr, he'⟩
      · rw [hrun]
        exact .inl ⟨e, u, herr, rfl⟩
      · rw [hrun]
        refine .inr ⟨({ u.1 with output := (D fed).plain }, u.2), ?_, fed, hu.output _, hr, rfl⟩
        simp only [emit, he', Bool.false_eq_true, if_false]

/-- The first read may need two refills: the header may end where a block does. -/
theorem Unread.refillLoop (h : Unread S w k₀ w₀ s) (hacc : s.1.accessed = true)
    (hfuel : w.length < fuel) (left : Nat) :
    (∃ e t, (D w).error? = some e ∧ refillLoop fuel (left + 1) s = .error e t) ∨
    ∃ more t, refillLoop fuel (left + 1) s = .ok more t ∧ Stocked S D At w [] more t := by
  rw [CipherReader.refillLoop]
  simp only [run_bind]
  rcases h.refill ha hC hacc hfuel with ⟨e, t, herr, hrun⟩ | ⟨t, hrun, ht⟩
  · rw [hrun]
    exact .inl ⟨e, t, herr, rfl⟩
  · rw [hrun]
    refine .inr ?_
    by_cases ho : t.1.output = []
    · rw [if_pos (List.isEmpty_iff.mpr ho)]
      exact ht.refillLoop ha hC fuel ho left
    · rw [if_neg (mt List.isEmpty_iff.mp ho)]
      exact ⟨true, t, rfl, ht, ho⟩

end

/-! ## Reads -/

/-- A reader that can be read: `given` was handed out. -/
def Readable (S : WorkingSource σ ρ) (D : Bytes → Progress) (At : Bytes → κ → σ → Prop)
    (w : Bytes) (k₀ : κ) (w₀ : σ) (given : Bytes) (s : State σ κ ρ) : Prop :=
  (given = [] ∧ Unread S w k₀ w₀ s) ∨ Hands S D At w given s

omit [Session κ σ] in
theorem Readable.usable (h : Readable S D At w k₀ w₀ given s) : Usable s := by
  rcases h with ⟨-, hu⟩ | ⟨fed, hp, -⟩
  · exact usable_of hu.abort hu.failed
  · exact hp.usable

omit [Session κ σ] in
theorem Readable.accessed (h : Readable S D At w k₀ w₀ given s) :
    Readable S D At w k₀ w₀ given ({ s.1 with accessed := true }, s.2) := by
  rcases h with ⟨rfl, hu⟩ | ⟨fed, hp, hr, hplain⟩
  · exact .inl ⟨rfl, hu.abort, hu.failed, hu.works, hu.block, hu.remaining, hu.output, hu.eof,
      hu.started, hu.session, hu.world⟩
  · exact .inr ⟨fed, ⟨hp.abort, hp.failed, rfl, hp.works, hp.block, hp.split, hp.started,
      hp.session, hp.whole⟩, hr, hplain⟩

/-- What came of a read of the stream `w` for a caller who has `given`. -/
def AsConveyed (S : WorkingSource σ ρ) (D : Bytes → Progress) (At : Bytes → κ → σ → Prop)
    (w given : Bytes) : EStateM.Result Error (State σ κ ρ) Bytes → Prop
  | .ok out t => Hands S D At w (given ++ out) t ∧ (out = [] → (D w).plain = given)
  | .error e _ => (D w).error? = some e

section

variable (ha : Source.Aloof σ ρ) (hC : Session.Conveys D At k₀ w₀)

include ha hC

theorem Readable.fill (h : Readable S D At w k₀ w₀ given s) (hacc : s.1.accessed = true)
    (hfuel : w.length < fuel) :
    (∃ e t, (D w).error? = some e ∧ fill fuel s = .error e t) ∨
    ∃ more t, fill fuel s = .ok more t ∧ Stocked S D At w given more t := by
  simp only [CipherReader.fill, run_bind, run_get, run_ite, run_pure]
  rcases h with ⟨rfl, hu⟩ | hh
  · rw [hu.output, if_pos List.isEmpty_nil]
    exact hu.refillLoop ha hC hacc hfuel 999
  · by_cases ho : s.1.output = []
    · rw [ho, if_pos List.isEmpty_nil]
      exact .inr (hh.refillLoop ha hC fuel ho maxEmptyRefills)
    · rw [if_neg (mt List.isEmpty_iff.mp ho)]
      exact .inr ⟨true, s, rfl, hh, ho⟩

/-- **A read hands out the next bytes of what is conveyed**, and none only at their end; or it fails
with the error that the stream ends with. -/
theorem Readable.readBytes (h : Readable S D At w k₀ w₀ given s) (hfuel : w.length < fuel) {n : Nat}
    (hn : n ≠ 0) : AsConveyed S D At w given (readBytes fuel n s) := by
  obtain ⟨r, env⟩ := s
  simp only [CipherReader.readBytes, run_bind, h.usable.run_checkUsable, run_update, if_neg hn,
    readFilled]
  rcases h.accessed.fill ha hC rfl hfuel with
    ⟨e, t, herr, hf⟩ | ⟨more, t, hf, ht, hmore⟩
  · rw [hf]
    exact herr
  · rw [hf]
    cases more with
    | false =>
      refine ⟨?_, fun _ => hmore.2⟩
      rw [List.append_nil]
      exact ht
    | true =>
      obtain ⟨fed, hp, hr, hplain⟩ := ht
      refine ⟨⟨fed, hp.output _, hr, ?_⟩, ?_⟩
      · rw [hplain, List.append_assoc, List.take_append_drop]
      · intro hnil
        exact absurd ((List.take_eq_nil_iff.mp hnil).resolve_left hn) hmore

omit ha in
/-- What was handed out is the beginning of what is conveyed. -/
theorem Hands.beginning (h : Hands S D At w given s) : given <+: (D w).plain := by
  obtain ⟨fed, hp, -, hplain⟩ := h
  refine (List.prefix_append given s.1.output).trans ?_
  rw [← hplain, ← hp.split]
  exact hC.lasts.plain_mono

end

/-- What a caller has who stops at the first error: a beginning of what is conveyed of `w`, and all
of it with the right ending when the reading is over. It is over after more reads than there are
bytes. -/
structure Conforms (D : Bytes → Progress) (w given : Bytes) (ns : List Nat)
    (r : Reading σ κ ρ) : Prop where
  bytes : given ++ r.bytes <+: (D w).plain
  going : r.ending = .going → ns.countP (0 < ·) ≤ r.bytes.length
  ended : r.ending = .ended → given ++ r.bytes = (D w).plain ∧ (D w).error? = none
  failed : ∀ e, r.ending = .failed e → (D w).error? = some e

omit [Session κ σ] [Source σ ρ] in
/-- One read more, which gives something unless nothing was asked for. -/
theorem Conforms.after {ns : List Nat} {r : Reading σ κ ρ} {out : Bytes} {n : Nat}
    (h : Conforms D w (given ++ out) ns r) (hout : 0 < n → out ≠ []) :
    Conforms D w given (n :: ns) (r.after out) where
  bytes := by
    rw [Reading.after, ← List.append_assoc]
    exact h.bytes
  going := by
    intro hgoing
    have hle := h.going hgoing
    rw [Reading.after, List.length_append, List.countP_cons]
    split
    · rename_i hn
      have := List.length_pos_iff.mpr (hout (of_decide_eq_true hn))
      omega
    · omega
  ended := by
    intro hended
    rw [Reading.after, ← List.append_assoc]
    exact h.ended hended
  failed := h.failed

section

variable (ha : Source.Aloof σ ρ) (hC : Session.Conveys D At k₀ w₀)

include ha hC

/-- **The run of a caller who stops at the first error**, by induction on the buffers. -/
theorem reads_conveyed (hfuel : w.length < fuel) : ∀ (ns : List Nat) {given : Bytes}
    {s : State σ κ ρ}, Readable S D At w k₀ w₀ given s → given <+: (D w).plain →
    Conforms D w given ns (reads fuel (fun _ => false) ns s)
  | [], given, s, _, hpre => by
    refine ⟨?_, fun _ => Nat.zero_le _, fun h => ?_, fun _ h => ?_⟩
    · rw [reads, List.append_nil]
      exact hpre
    · cases h
    · cases h
  | n :: ns, given, s, h, hpre => by
    rw [reads]
    by_cases hn : n = 0
    · have hread : CipherReader.readBytes fuel n s =
          .ok [] ({ s.1 with accessed := true }, s.2) := by
        simp only [CipherReader.readBytes, run_bind, h.usable.run_checkUsable, hn, if_true]
        rfl
      rw [hread]
      simp only [hn, ne_eq, not_true_eq_false, false_and, if_false]
      refine Conforms.after ?_ (absurd · (Nat.lt_irrefl 0))
      rw [List.append_nil]
      exact reads_conveyed hfuel ns h.accessed hpre
    · have hread := h.readBytes ha hC hfuel hn
      cases hrun : CipherReader.readBytes fuel n s with
      | error e t =>
        rw [hrun] at hread
        refine ⟨?_, fun h => ?_, fun h => ?_, fun e' h => ?_⟩
        · exact (List.append_nil given).symm ▸ hpre
        · cases h
        · cases h
        · cases h
          exact hread
      | ok out t =>
        rw [hrun] at hread
        obtain ⟨ht, hend⟩ := hread
        by_cases hout : out = []
        · simp only [if_pos (And.intro hn hout)]
          refine ⟨?_, fun h => ?_, fun _ => ?_, fun _ h => ?_⟩
          · exact (List.append_nil given).symm ▸ hpre
          · cases h
          · obtain ⟨fed, hp, hr, -⟩ := ht
            exact ⟨(List.append_nil given).trans (hend hout).symm, hp.error?_eq_none hC hr⟩
          · cases h
        · simp only [if_neg (fun hand : n ≠ 0 ∧ out = [] => hout hand.2)]
          exact (reads_conveyed hfuel ns (.inr ht) (ht.beginning hC)).after fun _ => hout

end

end CipherReader

end SealedStream
