import Mathlib.Data.List.Induction
import Mathlib.Data.List.ReduceOption
import SealedStream.Proofs.Session.Delegating
import SealedStream.Proofs.Session.SealedOnce
import SealedStream.Proofs.Stream.Ending
import SealedStream.Proofs.Stream.FailedStart
import SealedStream.Proofs.Stream.TornWrites

/-!
# Sources that break off

A source may fail before its end. `encrypt` then fails with the error of the source, and the writer
goes out of use, which ends the stream: the sink has a whole one all the same, of the bytes that were
read (`encrypt_comesTo_error`). Over a bundled family this is an envelope, and what it opens to is
what the source gave before it broke off, even if that was nothing (`encrypt_of_breaking`).
-/

namespace SealedStream

variable {σ κ μ ρ ς : Type}

/-- Where sources of the type `ρ` give the bytes that remain, in whatever pieces and interrupted now
and then, and then fail with `e`. -/
structure BreakingSource (σ ρ : Type) [Source σ ρ] (e : IoError) where
  works : ρ → Prop
  remaining : ρ → Bytes
  /-- What a read may make of the environment. -/
  moves : Env σ → Env σ → Prop
  /-- How often reads are yet to be interrupted before one is not. -/
  delay : ρ → Env σ → Nat
  /-- A read gives some of the bytes that remain, is interrupted, or fails if there are none. -/
  read : ∀ {r}, works r → ∀ {n : Nat}, 0 < n → ∀ env : Env σ, ∃ r' env', moves env env' ∧
    ((∃ bytes, ComesTo (Source.read · n) (r, env) (.ok bytes (r', env')) ∧ bytes ≠ [] ∧
        works r' ∧ remaining r = bytes ++ remaining r') ∨
      (∃ i : IoError, ComesTo (Source.read · n : Nat → Transfer σ ρ Bytes) (r, env)
          (.error i (r', env')) ∧ i.isInterrupted = true ∧ works r' ∧
        remaining r' = remaining r ∧ delay r' env' < delay r env) ∨
      ComesTo (Source.read · n : Nat → Transfer σ ρ Bytes) (r, env) (.error e (r', env')) ∧
        remaining r = [])

/-- The sink where others move the environment as well. -/
def StutteringSink.among [Sink σ ς] (K : StutteringSink σ ς) (others : Env σ → Env σ → Prop) :
    StutteringSink σ ς where
  works := K.works
  content := K.content
  moves env env' := K.moves env env' ∨ others env env'
  delay := K.delay
  write := by
    intro s hs bytes hne env
    obtain ⟨s', env', hs', hmoves, hwrite⟩ := K.write hs hne env
    exact ⟨s', env', hs', .inl hmoves, hwrite⟩
  flush := by
    intro s hs env
    obtain ⟨s', env', hflush, hs', hmoves, hcontent⟩ := K.flush hs env
    exact ⟨s', env', hflush, hs', .inl hmoves, hcontent⟩

/-! ## What an encrypting session delivers -/

namespace Session

variable [Session κ σ] {moves : Env σ → Env σ → Prop} {s t : κ × Env σ} {calls : List Call}
  {call : Call} {out : Bytes}

theorem Delivers.of_nil (h : Delivers moves s [] out t) :
    out = [] ∧ t.1 = s.1 ∧ Relation.ReflTransGen moves s.2 t.2 := by
  generalize hcalls : ([] : List Call) = calls at h
  induction h with
  | nothing => exact ⟨rfl, rfl, .refl⟩
  | moved _ hmoves ih =>
    obtain ⟨hout, hsame, hbefore⟩ := ih hcalls
    exact ⟨hout, hsame, hbefore.trans hmoves⟩
  | call => simp at hcalls

/-- What came of the last call came behind what the calls before it gave. -/
theorem Delivers.last (h : Delivers moves s (calls ++ [call]) out t) :
    ∃ (before : Bytes) (u : κ × Env σ) (o : Bytes) (v : κ × σ), Delivers moves s calls before u ∧
      call.run (u.1, u.2.world) = .ok o v ∧ out = before ++ o ∧ t.1 = v.1 := by
  generalize hcalls : calls ++ [call] = all at h
  induction h with
  | nothing => simp at hcalls
  | moved _ _ ih => exact ih hcalls
  | @call done before u last o v hdone hcall =>
    obtain ⟨rfl, hlast⟩ := List.append_inj' hcalls rfl
    cases hlast
    exact ⟨before, u, o, v, hdone, hcall, rfl, rfl⟩

theorem succeeds_nil : Succeeds moves s [] := by
  intro done call rest out t hcalls
  simp at hcalls

/-- One call more succeeds if it does wherever those before it may lead. -/
theorem Succeeds.add (hs : Succeeds moves s calls)
    (hcall : ∀ out t, Delivers moves s calls out t →
      ∃ o u, call.run (t.1, t.2.world) = .ok o u) : Succeeds moves s (calls ++ [call]) := by
  intro done first rest out t hcalls hdone
  rcases List.eq_nil_or_concat rest with rfl | ⟨rest, last, rfl⟩
  · obtain ⟨rfl, hlast⟩ := List.append_inj' hcalls rfl
    cases hlast
    exact hcall out t hdone
  · rw [List.concat_eq_append, ← List.cons_append, ← List.append_assoc] at hcalls
    obtain ⟨hcalls, -⟩ := List.append_inj' hcalls rfl
    exact hs done first rest out t hcalls hdone

end Session

namespace Encodes

open Session

variable [Session κ σ] {k₀ : κ} {Heads : Bytes → CounterStream → Prop}
  {Running : CounterStream → κ → Prop} (hE : Encodes k₀ Heads Running)
  {moves : Env σ → Env σ → Prop} {env : Env σ} {out : Bytes} {t : κ × Env σ}

include hE

/-- By induction on the pieces: a head, and the pieces under the keystream that it stands for. -/
theorem delivered (pieces : List Bytes)
    (h : Delivers moves (k₀, env) (.start :: pieces.map .update) out t) :
    ∃ head c, Heads head c ∧ Running (c.apply pieces.flatten).2 t.1 ∧
      out = head ++ (c.apply pieces.flatten).1 := by
  induction pieces using List.reverseRecOn generalizing out t with
  | nil =>
    obtain ⟨before, u, o, v, hdone, hcall, rfl, ht⟩ : ∃ before u o v,
      Delivers moves (k₀, env) [] before u ∧ Call.start.run (u.1, u.2.world) = .ok o v ∧
        out = before ++ o ∧ t.1 = v.1 := Delivers.last h
    obtain ⟨rfl, hsame, -⟩ := hdone.of_nil
    rw [hsame] at hcall
    rcases hE.start u.2.world with ⟨e, w, hstart⟩ | ⟨head, c, k, w, hstart, hhead, hrun⟩
    · cases hstart.symm.trans hcall
    · cases hstart.symm.trans hcall
      exact ⟨_, c, hhead, ht ▸ hrun, (List.append_nil _).symm⟩
  | append_singleton pieces bytes ih =>
    rw [List.map_append, List.map_singleton, ← List.cons_append] at h
    obtain ⟨before, u, o, v, hdone, hcall, hout, ht⟩ := h.last
    obtain ⟨head, c, hhead, hrun, hbefore⟩ := ih hdone
    obtain ⟨k, w, hupdate, hrun'⟩ := hE.update hrun bytes u.2.world
    cases hupdate.symm.trans hcall
    refine ⟨head, c, hhead, ?_, ?_⟩
    · rw [ht, List.flatten_append, List.flatten_singleton, CounterStream.apply_append]
      exact hrun'
    · rw [hout, hbefore, List.flatten_append, List.flatten_singleton, CounterStream.apply_append,
        List.append_assoc]

/-- The end adds nothing. -/
theorem delivered_whole (pieces : List Bytes)
    (h : Delivers moves (k₀, env) (.start :: (pieces.map .update ++ [.finalize])) out t) :
    ∃ head c, Heads head c ∧ out = head ++ (c.apply pieces.flatten).1 := by
  rw [← List.cons_append] at h
  obtain ⟨before, u, o, v, hdone, hcall, rfl, -⟩ := h.last
  obtain ⟨head, c, hhead, hrun, rfl⟩ := hE.delivered pieces hdone
  obtain ⟨k, w, hfinalize⟩ := hE.finalize hrun u.2.world
  cases hfinalize.symm.trans hcall
  exact ⟨head, c, hhead, List.append_nil _⟩

variable (hstart : ∀ env', Relation.ReflTransGen moves env env' →
  ∃ o u, Session.start (k₀, env'.world) = .ok o u)

include hstart

/-- A session that can be started does not fail from then on: by induction on the pieces. -/
theorem succeeds (pieces : List Bytes) :
    Succeeds moves (k₀, env) (.start :: pieces.map .update) := by
  induction pieces using List.reverseRecOn with
  | nil =>
    refine (succeeds_nil : Succeeds moves (k₀, env) []).add fun out t hdone => ?_
    obtain ⟨-, hsame, hmoves⟩ := hdone.of_nil
    rw [hsame]
    exact hstart t.2 hmoves
  | append_singleton pieces bytes ih =>
    rw [List.map_append, List.map_singleton, ← List.cons_append]
    refine ih.add fun out t hdone => ?_
    obtain ⟨head, c, -, hrun, -⟩ := hE.delivered pieces hdone
    obtain ⟨k, w, hupdate, -⟩ := hE.update hrun bytes t.2.world
    exact ⟨_, _, hupdate⟩

theorem succeeds_whole (pieces : List Bytes) :
    Succeeds moves (k₀, env) (.start :: (pieces.map .update ++ [.finalize])) := by
  rw [← List.cons_append]
  refine (hE.succeeds hstart pieces).add fun out t hdone => ?_
  obtain ⟨head, c, -, hrun, -⟩ := hE.delivered pieces hdone
  obtain ⟨k, w, hfinalize⟩ := hE.finalize hrun t.2.world
  exact ⟨_, _, hfinalize⟩

end Encodes

/-! ## Copying until the source breaks off -/

/-- A sink that takes a whole buffer takes it in one round. -/
theorem Sink.writeAll_of_whole [Sink σ ς] {bytes : Bytes} (hne : bytes ≠ []) {s t : ς × Env σ}
    (h : ComesTo (Sink.write · bytes) s (.ok bytes.length t)) :
    ComesTo (Sink.writeAll · bytes) s (.ok () t) := by
  obtain ⟨enough, h⟩ := h
  refine ⟨enough + 1, fun fuel hfuel => ?_⟩
  cases bytes with
  | nil => exact absurd rfl hne
  | cons b bs =>
    cases fuel with
    | zero => omega
    | succ fuel =>
      have hwrite : Sink.write (fuel + 1) (b :: bs) s = .ok (bs.length + 1) t := h _ (by omega)
      simp only [Sink.writeAll, Sink.writeAllLoop, hwrite]
      rw [List.drop_of_length_le (Nat.le_of_eq List.length_cons)]
      cases fuel <;> rfl

/-- With enough fuel and rounds a copy from `s` on fails with `e` and ends in `t`. -/
def CopyFails [Source σ ρ] [Sink σ ς] (e : IoError) (s t : (ρ × ς) × Env σ) : Prop :=
  ∃ enough, ∀ fuel rounds count, enough ≤ fuel → enough ≤ rounds →
    copyLoop fuel rounds count s = .error e t

namespace CopyFails

variable [Source σ ρ] [Sink σ ς] {e i : IoError} {r r₁ : ρ} {w w₁ : ς} {env env₁ env₂ : Env σ}
  {t : (ρ × ς) × Env σ} {bytes : Bytes}

theorem comesTo (h : CopyFails e ((r, w), env) t) :
    ComesTo (fun fuel => copy fuel) ((r, w), env) (.error e t) := by
  obtain ⟨enough, h⟩ := h
  exact ⟨enough, fun fuel hfuel => h fuel fuel 0 hfuel hfuel⟩

/-- A round that passes on what it read. -/
theorem passed (hread : ComesTo (Source.read · Source.copyLen) (r, env) (.ok bytes (r₁, env₁)))
    (hne : bytes ≠ []) (hwrite : ComesTo (Sink.writeAll · bytes) (w, env₁) (.ok () (w₁, env₂)))
    (h : CopyFails e ((r₁, w₁), env₂) t) : CopyFails e ((r, w), env) t := by
  obtain ⟨reading, hread⟩ := hread
  obtain ⟨writing, hwrite⟩ := hwrite
  obtain ⟨enough, h⟩ := h
  refine ⟨max reading (max writing enough) + 1, fun fuel rounds count hfuel hrounds => ?_⟩
  cases rounds with
  | zero => omega
  | succ rounds =>
    cases bytes with
    | nil => exact absurd rfl hne
    | cons b bs =>
      simp only [copyLoop, hread fuel (by omega), hwrite fuel (by omega)]
      exact h fuel rounds _ (by omega) (by omega)

/-- A round whose read is interrupted. -/
theorem interrupted (hread : ComesTo (Source.read · Source.copyLen : Nat → Transfer σ ρ Bytes) (r, env)
      (.error i (r₁, env₁)))
    (hi : i.isInterrupted = true) (h : CopyFails e ((r₁, w), env₁) t) :
    CopyFails e ((r, w), env) t := by
  obtain ⟨reading, hread⟩ := hread
  obtain ⟨enough, h⟩ := h
  refine ⟨max reading enough + 1, fun fuel rounds count hfuel hrounds => ?_⟩
  cases rounds with
  | zero => omega
  | succ rounds =>
    simp only [copyLoop, hread fuel (by omega), hi, if_true]
    exact h fuel rounds count (by omega) (by omega)

/-- The round in which the source fails. -/
theorem failed (hread : ComesTo (Source.read · Source.copyLen : Nat → Transfer σ ρ Bytes) (r, env)
      (.error e (r₁, env₁)))
    (he : e.isInterrupted = false) : CopyFails e ((r, w), env) ((r₁, w), env₁) := by
  obtain ⟨reading, hread⟩ := hread
  refine ⟨reading + 1, fun fuel rounds count hfuel hrounds => ?_⟩
  cases rounds with
  | zero => omega
  | succ rounds => simp only [copyLoop, hread fuel (by omega), he, Bool.false_eq_true, if_false]

end CopyFails

namespace CipherWriter

open Session

variable [Session κ σ] [Sink σ ς] {K : StutteringSink σ ς} {h : AbortHandle} {before : Bytes}
  {s₀ : κ × Env σ} {calls asked : List Call} {wr : CipherWriter κ ς} {env env' : Env σ}

theorem Carries.moved (hspares : K.Spares h) (hs : Carries K h before s₀ calls (wr, env))
    (hmoves : Relation.ReflTransGen K.moves env env') :
    Carries K h before s₀ calls (wr, env') := by
  obtain ⟨out, hdelivers, hcontent⟩ := hs.delivered
  exact ⟨hs.works, hs.abort, hspares.moved hmoves hs.quiet, out, hdelivers.moved hmoves, hcontent⟩

/-- While the writer waits, others may move the environment. -/
theorem Underway.moved (hspares : K.Spares h) (hs : Underway K h before s₀ asked (wr, env))
    (hmoves : Relation.ReflTransGen K.moves env env') :
    Underway K h before s₀ asked (wr, env') := by
  rcases hs with ⟨hst, hasked, hc⟩ | ⟨hst, hc⟩
  · exact .inl ⟨hst, hasked, hc.moved hspares hmoves⟩
  · exact .inr ⟨hst, hc.moved hspares hmoves⟩

variable [Source σ ρ] {e : IoError} {S : BreakingSource σ ρ e}

/-- **Copying until the source breaks off**, by induction on the bytes that remain and, while none
come, on the interruptions: the session was fed what was read, and the copy fails as the source
does. -/
theorem copyFails_of_breaking (he : e.isInterrupted = false) (hspares : (K.among S.moves).Spares h)
    (hk : ∀ pieces : List Bytes,
      Succeeds (K.among S.moves).moves s₀ (.start :: pieces.map .update))
    {r : ρ} (hr : S.works r) {pieces : List Bytes} {wr : CipherWriter κ ς} {env : Env σ}
    (hs : Underway (K.among S.moves) h before s₀ (pieces.map .update) (wr, env))
    (hopen : wr.closed = false) :
    ∃ r' wr' env' more, CopyFails e ((r, wr), env) ((r', wr'), env') ∧
      Underway (K.among S.moves) h before s₀ ((pieces ++ more).map .update) (wr', env') ∧
      wr'.closed = false ∧ more.flatten = S.remaining r := by
  obtain ⟨r₁, env₁, hmoves, hread⟩ := S.read hr (n := Source.copyLen) (by decide) env
  have hs₁ := hs.moved hspares (.single (.inr hmoves))
  rcases hread with ⟨bytes, hread, hne, hr₁, hrem⟩ | ⟨i, hread, hi, hr₁, hrem, hdelay⟩ |
    ⟨hread, hrem⟩
  · -- what was read is written, and the next round begins behind it
    have hfeeding : Call.feeding bytes = [.update bytes] :=
      if_neg fun hempty => hne (List.isEmpty_iff.mp hempty)
    have hk₁ : Succeeds (K.among S.moves).moves s₀
        (.start :: (pieces.map .update ++ (Call.feeding bytes ++ []))) := by
      rw [hfeeding, List.append_nil, ← List.map_singleton, ← List.map_append]
      exact hk (pieces ++ [bytes])
    obtain ⟨⟨wr₁, env₂⟩, hwrite, hs₂, hopen₁⟩ := hs₁.writeBytes hspares hopen hk₁
    rw [hfeeding, ← List.map_singleton, ← List.map_append] at hs₂
    have hless : (S.remaining r₁).length < (S.remaining r).length := by
      have := List.length_pos_iff.mpr hne
      rw [hrem, List.length_append]
      omega
    obtain ⟨r₂, wr₂, env₃, more, hcopy, hs₃, hopen₂, hmore⟩ :=
      copyFails_of_breaking he hspares hk hr₁ hs₂ hopen₁
    rw [List.append_assoc] at hs₃
    refine ⟨r₂, wr₂, env₃, [bytes] ++ more,
      hcopy.passed hread hne (Sink.writeAll_of_whole hne hwrite), hs₃, hopen₂, ?_⟩
    rw [hrem, List.flatten_append, hmore, List.flatten_singleton]
  · obtain ⟨r₂, wr₂, env₂, more, hcopy, hs₂, hopen₁, hmore⟩ :=
      copyFails_of_breaking he hspares hk hr₁ hs₁ hopen
    exact ⟨r₂, wr₂, env₂, more, hcopy.interrupted hread hi, hs₂, hopen₁, hmore.trans hrem⟩
  · refine ⟨r₁, wr, env₁, [], .failed hread he, ?_, hopen, hrem.symm⟩
    rw [List.append_nil]
    exact hs₁
termination_by ((S.remaining r).length, S.delay r env)
decreasing_by
  · exact .left _ _ hless
  · rw [← hrem]
    exact .right _ hdelay

end CipherWriter

section

variable [Session κ σ] [Source σ ρ] [Sink σ ς] {e : IoError} {k₀ : κ}
  {Heads : Bytes → CounterStream → Prop} {Running : CounterStream → κ → Prop}

/-- **A source that breaks off leaves a whole stream.** `encrypt` fails with the error of the source,
and the sink has got a head of the session's and what was read under the keystream that it stands
for. -/
theorem encrypt_comesTo_error (S : BreakingSource σ ρ e) (he : e.isInterrupted = false)
    (K : StutteringSink σ ς) (hE : Encodes k₀ Heads Running) {source : ρ} {sink : ς} {env : Env σ}
    (hsource : S.works source) (hsink : K.works sink)
    (hstart : ∀ env', Relation.ReflTransGen (K.among S.moves).moves env env' →
      ∃ o u, Session.start (k₀, env'.world) = .ok o u) :
    ∃ t head c, ComesTo (fun fuel => encrypt fuel k₀) ((source, sink), env) (.error (.ofIo e) t) ∧
      Heads head c ∧
      K.content t.1.2 = K.content sink ++ (head ++ (c.apply (S.remaining source)).1) := by
  have hspares : (K.among S.moves).Spares (.own false) := fun _ _ _ _ => rfl
  have hnew : CipherWriter.Underway (K.among S.moves) (.own false) (K.content sink) (k₀, env)
      (([] : List Bytes).map .update) ({ inner := sink, session := k₀ }, env) :=
    .inl ⟨rfl, rfl, hsink, rfl, rfl, [], .nothing, (List.append_nil _).symm⟩
  obtain ⟨r, wr, env₁, pieces, hcopy, hs, hopen, hpieces⟩ :=
    CipherWriter.copyFails_of_breaking he hspares (hE.succeeds hstart) hsource hnew rfl
  obtain ⟨⟨wr', env₂⟩, hshutdown, -, hc⟩ :=
    hs.shutdown hspares hopen (hE.succeeds_whole hstart pieces)
  obtain ⟨out, hdelivers, hcontent⟩ := hc.delivered
  obtain ⟨head, c, hhead, rfl⟩ := hE.delivered_whole pieces hdelivers
  rw [hpieces] at hcontent
  obtain ⟨enough, hcopied⟩ := hcopy.comesTo
  obtain ⟨more, hdrop⟩ := hshutdown false
  refine ⟨((r, wr'.inner), env₂), head, c, ⟨max enough more, fun fuel hfuel => ?_⟩, hhead, hcontent⟩
  refine (encrypt_of_not_copied hE.mode (hcopied fuel (by omega))).trans ?_
  simp only [CipherWriter.drop, hdrop fuel (by omega)]

end

/-! ## Sessions that take back what others encode -/

/-- The session `k₀` encodes streams behind the bytes `id`, and `k₁` decodes them. It can be started in
the worlds `Able`. -/
structure Inverse [Session κ σ] [Session μ σ] (id : Bytes) (k₀ : κ) (k₁ : μ)
    (Heads : Bytes → CounterStream → Prop) (Running : CounterStream → κ → Prop)
    (Able : σ → Prop) : Prop where
  encodes : Encodes k₀ Heads Running
  start : ∀ {w : σ}, Able w → ∃ o u, Session.start (k₀, w) = .ok o u
  head : ∀ {head c}, Heads head c → ∃ h : Header, h.Admitted none ∧ head = id ++ h.encode
  decodes : ∀ {head c}, Heads head c → ∀ (_ : σ) (body : Bytes), ∃ D At,
    Decodes D At (head ++ body) ∧ At [] k₁ ∧ D (head ++ body) = .ready (c.apply body).1

/-- What was encoded is recovered, as a keystream added twice cancels. -/
theorem Inverse.recovers [Session κ σ] [Session μ σ] {id : Bytes} {k₀ : κ} {k₁ : μ}
    {Heads : Bytes → CounterStream → Prop} {Running : CounterStream → κ → Prop} {Able : σ → Prop}
    (h : Inverse id k₀ k₁ Heads Running Able) {head : Bytes} {c : CounterStream}
    (hhead : Heads head c) (plain : Bytes) :
    Session.Recovers k₁ (head ++ (c.apply plain).1) plain := by
  intro ρ ς _ _ S K source sink env fuel hsource hsink hrem hfuel
  obtain ⟨D, At, hD, hk, hready⟩ := h.decodes hhead env.world (c.apply plain).1
  rw [CounterStream.apply_apply, ← hrem] at hready
  have hlen : plain.length ≤ (head ++ (c.apply plain).1).length := by
    rw [List.length_append, CounterStream.length_apply]
    omega
  rw [← hrem] at hD hfuel hlen
  exact decrypt_of_ready K hsource hsink hD hk hready hfuel (by omega) env

/-- A session of a bundled family over a faithful key wrap, and the same session decrypting. -/
theorem FamilySession.inverse {f : BundledFamily} {s : FamilySession σ CounterStream}
    (hm : s.mode = .encrypt) (hp : s.phase = .awaiting []) (hf : s.family = f.family)
    (hw : s.wrap.Faithful) (hfun : s.wrap.Functional) (hwrap : s.wrap.Unfailing) :
    Inverse [] s { s with mode := .decrypt } (s.Seals f) (fun c k => k = { s with phase := .ready c })
      fun w => ∃ m w', KeyMaterial.generate s.family s.random s.options.rejectZero w = .ok m w' where
  encodes := encodes hm hp hf hw
  start := by
    rintro w ⟨m, w', hgenerate⟩
    obtain ⟨h, w₂, -, hseal⟩ := sealNew_of_generate hf hwrap hgenerate
    have hstart := start_encrypt hm hp w
    rw [hseal] at hstart
    exact ⟨_, _, hstart⟩
  head hs := admitted_of_seals hs
  decodes := by
    intro head c hs w body
    have hopens : ({ s with mode := .decrypt } : FamilySession σ CounterStream).Opens f :=
      ⟨rfl, hp, hf, hfun⟩
    exact ⟨_, _, FamilySession.decodes hopens w _, FamilySession.after_nil hopens w,
      progress_of_seals rfl rfl rfl hs w body⟩

namespace Inverse

variable [Session κ σ] [Session μ σ] {id : Bytes} {k₀ k₁ : κ}
  {Heads : Bytes → CounterStream → Prop} {Running : CounterStream → κ → Prop} {Able : σ → Prop}

theorem embed {ι : κ → μ} (hι : Session.Embeds ι) (h : Inverse id k₀ k₁ Heads Running Able) :
    Inverse id (ι k₀) (ι k₁) Heads (fun c m => ∃ k, Running c k ∧ m = ι k) Able where
  encodes := hι.encodes h.encodes
  start := by
    intro w hw
    obtain ⟨o, u, hstart⟩ := h.start hw
    exact ⟨o, (ι u.1, u.2), by rw [hι.start, hstart]; rfl⟩
  head := h.head
  decodes := by
    intro head c hhead w body
    obtain ⟨D, At, hD, hk, hready⟩ := h.decodes hhead w body
    exact ⟨_, _, hι.decodes hD, ⟨k₁, hk, rfl⟩, hready⟩

/-- A dispatcher that encrypts with `k₀`, and one that decrypts with `k₁` what comes behind the id. -/
theorem dispatch {d d' : Dispatcher σ κ} {type : UInt32} (hm : d.context.mode = .encrypt)
    (hp : d.phase = .selecting []) (hs : d.select d.encryptType none = .ok (type, k₀))
    (hm' : d'.context.mode = .decrypt) (hp' : d'.phase = .selecting [])
    (hs' : d'.select type d'.defaultType = .ok (type, k₁))
    (h : Inverse id k₀ k₁ Heads Running Able) :
    Inverse (Bytes.be32 type ++ id) d d' (fun head c => ∃ rest, Heads rest c ∧
        head = Bytes.be32 type ++ rest)
      (fun c m => ∃ k, Running c k ∧ m = { d with phase := .selected type k }) Able where
  encodes := Dispatcher.encodes hm hp hs h.encodes
  start := by
    intro w hw
    obtain ⟨o, u, hstart⟩ := h.start hw
    have hbegin := (Dispatcher.start_beginEncrypt hm hp w).trans (Dispatcher.beginEncrypt_known hs w)
    rw [hstart] at hbegin
    exact ⟨_, _, hbegin⟩
  head := by
    rintro _ c ⟨rest, hrest, rfl⟩
    obtain ⟨hd, hadm, rfl⟩ := h.head hrest
    exact ⟨hd, hadm, (List.append_assoc _ _ _).symm⟩
  decodes := by
    rintro _ c ⟨rest, hrest, rfl⟩ w body
    obtain ⟨D, At, hD, hk, hready⟩ := h.decodes hrest w body
    obtain ⟨D', At', hD', hd', hsame⟩ := Dispatcher.decodes_behind hm' hp' hs' hD hk
    rw [List.append_assoc]
    exact ⟨D', At', hD', hd', hsame.trans hready⟩

end Inverse

/-! ## Envelopes of what was read -/

/-- `encrypt` fails with the error of the source, and the sink has got an envelope: the bytes `id`, one
header and as many bytes as were read, which the session `k₁` opens to just these. -/
def LeavesEnvelope [Session κ σ] [Session μ σ] [Source σ ρ] [Sink σ ς] (K : StutteringSink σ ς)
    (e : IoError) (id plain : Bytes) (k₀ : κ) (k₁ : μ) (s : (ρ × ς) × Env σ) : Prop :=
  ∃ (t : (ρ × ς) × Env σ) (h : Header) (body : Bytes),
    ComesTo (fun fuel => encrypt fuel k₀) s (.error (.ofIo e) t) ∧ h.Admitted none ∧
    body.length = plain.length ∧ K.content t.1.2 = K.content s.1.2 ++ (id ++ h.encode ++ body) ∧
    Session.Recovers k₁ (id ++ h.encode ++ body) plain

section

variable [Source σ ρ] [Sink σ ς] {e : IoError}

theorem Inverse.leavesEnvelope [Session κ σ] [Session μ σ] {id : Bytes} {k₀ : κ} {k₁ : μ}
    {Heads : Bytes → CounterStream → Prop} {Running : CounterStream → κ → Prop} {Able : σ → Prop}
    (h : Inverse id k₀ k₁ Heads Running Able) (S : BreakingSource σ ρ e)
    (he : e.isInterrupted = false) (K : StutteringSink σ ς) {source : ρ} {sink : ς} {env : Env σ}
    (hsource : S.works source) (hsink : K.works sink)
    (hable : ∀ env', Relation.ReflTransGen (K.among S.moves).moves env env' → Able env'.world) :
    LeavesEnvelope K e id (S.remaining source) k₀ k₁ ((source, sink), env) := by
  obtain ⟨t, head, c, hencrypt, hhead, hcontent⟩ := encrypt_comesTo_error S he K h.encodes hsource
    hsink fun env' hmoves => h.start (hable env' hmoves)
  have hrecovers := h.recovers hhead (S.remaining source)
  obtain ⟨hd, hadm, rfl⟩ := h.head hhead
  exact ⟨t, hd, _, hencrypt, hadm, c.length_apply _, hcontent, hrecovers⟩

/-- **What was read before the source broke off is not lost.** A session of a bundled family over the
bundled key wrap, or a dispatcher that chooses it, leaves one envelope of just that, if it can
generate keys wherever the streams may lead the environment. -/
theorem encrypt_of_breaking (S : BreakingSource σ ρ e) (he : e.isInterrupted = false)
    (K : StutteringSink σ ς) (master : Key32) {wrapRandom : RandomSource σ}
    (hwrap : wrapRandom.Unfailing) {f : BundledFamily} {s : FamilySession σ CounterStream}
    (hm : s.mode = .encrypt) (hp : s.phase = .awaiting []) (hf : s.family = f.family)
    (hw : s.wrap = (AesKeyWrap.ofMaster master).keyWrap wrapRandom) {source : ρ} {sink : ς}
    {env : Env σ} (hsource : S.works source) (hsink : K.works sink)
    (hgenerate : ∀ env', Relation.ReflTransGen (K.among S.moves).moves env env' →
      ∃ m w, KeyMaterial.generate s.family s.random s.options.rejectZero env'.world = .ok m w) :
    LeavesEnvelope K e [] (S.remaining source) s { s with mode := .decrypt } ((source, sink), env) ∧
    ∀ {κ : Type} [Session κ σ] (ι : FamilySession σ CounterStream → κ), Session.Embeds ι →
      ∀ (d : Dispatcher σ κ) (make : SessionContext σ → κ), d.context.mode = .encrypt →
      d.phase = .selecting [] → d.registry.get? d.encryptType = some make →
      make d.context = ι s →
      make { d.context with mode := .decrypt } = ι { s with mode := .decrypt } →
      LeavesEnvelope K e (Bytes.be32 d.encryptType) (S.remaining source) d
        { d with context := { d.context with mode := .decrypt } } ((source, sink), env) := by
  have hinverse := FamilySession.inverse hm hp hf (hw ▸ AesKeyWrap.faithful_keyWrap master wrapRandom)
    (hw ▸ AesKeyWrap.functional_keyWrap _ wrapRandom) (hw ▸ AesKeyWrap.unfailing_keyWrap _ hwrap)
  constructor
  · exact hinverse.leavesEnvelope S he K hsource hsink hgenerate
  · intro κ _ ι hι d make hm hp hget hmake hmake'
    have hselect : d.select d.encryptType none = .ok (d.encryptType, ι s) := by
      rw [Dispatcher.select_of_get? hget, hmake]
    have hselect' : ({ d with context := { d.context with mode := .decrypt } } :
        Dispatcher σ κ).select d.encryptType d.defaultType =
          .ok (d.encryptType, ι { s with mode := .decrypt }) := by
      rw [← hmake']
      exact Dispatcher.select_of_get? hget
    have hp' : ({ d with context := { d.context with mode := .decrypt } } :
        Dispatcher σ κ).phase = .selecting [] := hp
    have h := (hinverse.embed hι).dispatch hm hp hselect rfl hp' hselect'
    rw [List.append_nil] at h
    exact h.leavesEnvelope S he K hsource hsink hgenerate

end

section

open Scripted

/-- A source that gives a byte in each read, or is interrupted where its list says so, and fails
behind the list. -/
structure Trickle (e : IoError) where
  reads : List (Option UInt8)

variable {e : IoError}

instance : Source σ (Trickle e) where
  read _ n
    | (r, env) =>
      match r.reads with
      | [] => .error e (r, env)
      | none :: reads => .error (.plain .interrupted "") (⟨reads⟩, env)
      | some b :: reads => if n = 0 then .ok [] (r, env) else .ok [b] (⟨reads⟩, env)

def Trickle.breaking : BreakingSource σ (Trickle e) e where
  works _ := True
  remaining r := r.reads.reduceOption
  moves := Eq
  delay r _ := r.reads.length
  read := by
    rintro ⟨reads⟩ - n hn env
    cases reads with
    | nil => exact ⟨⟨[]⟩, env, rfl, .inr (.inr ⟨.of_eq fun _ => rfl, rfl⟩)⟩
    | cons first reads =>
      refine ⟨⟨reads⟩, env, rfl, ?_⟩
      cases first with
      | none =>
        exact .inr (.inl ⟨.plain .interrupted "", .of_eq fun _ => rfl, rfl, trivial,
          (List.reduceOption_cons_of_none _).symm, Nat.lt_succ_self _⟩)
      | some b =>
        exact .inl ⟨[b], .of_eq fun _ => if_neg (Nat.ne_of_gt hn), List.cons_ne_nil _ _, trivial,
          List.reduceOption_cons_of_some _ _⟩

/-- Three bytes are read before the connection is reset, with an interruption after the first. -/
theorem encrypt_of_trickle :
    let e : IoError := .plain .connectionReset ""
    let source : Trickle e := ⟨[some 1, none, some 2, some 3]⟩
    let sink : ScriptedSink :=
      { chunk := some 3, writeEvents := [(0, .fail (.plain .interrupted ""))] }
    LeavesEnvelope ScriptedSink.stuttering e [] [1, 2, 3]
      (onesBuilder.familySession BundledFamily.aes.family .encrypt)
      (onesBuilder.familySession BundledFamily.aes.family .decrypt) ((source, sink), ⟨[], ()⟩) ∧
    LeavesEnvelope ScriptedSink.stuttering e (Bytes.be32 1) [1, 2, 3]
      (onesBuilder.dispatcher .encrypt (Registry.bundled id id) 1 (some 2))
      (onesBuilder.dispatcher .decrypt (Registry.bundled id id) 1 (some 2))
      ((source, sink), ⟨[], ()⟩) := by
  intro e source sink
  have hsink : (ScriptedSink.stuttering (σ := Unit)).works sink := by
    refine ⟨?_, rfl, by decide⟩
    rintro k event hmem
    cases List.mem_singleton.mp hmem
    exact ⟨_, rfl, rfl⟩
  have hsource : (Trickle.breaking (σ := Unit)).works source := trivial
  have hbreaking := encrypt_of_breaking (f := .aes)
    (s := onesBuilder.familySession BundledFamily.aes.family .encrypt) Trickle.breaking rfl
    ScriptedSink.stuttering (.replicate 32 7) (fun _ _ => ⟨_, _, rfl⟩) rfl rfl rfl rfl hsource hsink
    fun (env' : Env Unit) (_ : Relation.ReflTransGen _ ⟨[], ()⟩ env') => ⟨_, _, rfl⟩
  exact ⟨hbreaking.1, hbreaking.2 _ Session.Embeds.refl
    (onesBuilder.dispatcher .encrypt (Registry.bundled id id) 1 (some 2)) _ rfl rfl
    (Registry.get?_bundled id id 1) rfl rfl⟩

end

end SealedStream
