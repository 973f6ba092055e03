import SealedStream.Proofs.Session.Demanding
import SealedStream.Proofs.Stream.Flow

/-!
# Reading an encrypting session to its end

Whoever reads an encrypting reader to its end, past whatever errors, has nothing or a whole envelope
of what the source gave, but for some of it at the front (`Ends.whole`). A session that could not
start because of a failed transfer is asked to start again with the next block only, which is lost
if it cannot; and if there is none, the reader ends without a header (`not_reads_encrypting`). No other
failure ends so: the envelope is one of all that the source gave (`Ends.complete`).
-/

namespace SealedStream

variable {σ κ ρ : Type}

/-- The source `inner`, and what it gave. -/
structure Tapped (ρ : Type) where
  inner : ρ
  given : Bytes := []

instance [Source σ ρ] : Source σ (Tapped ρ) where
  read fuel n
    | (source, env) =>
      match Source.read fuel n (source.inner, env) with
      | .ok bytes t => .ok bytes (⟨t.1, source.given ++ bytes⟩, t.2)
      | .error e t => .error e ({ source with inner := t.1 }, t.2)

namespace CipherReader

/-! ## Envelopes -/

/-- The bytes are a head that `sealing` makes and, behind it, `plain` as the cipher made with it
encrypts it. -/
def Envelope (sealing : Step σ (CounterStream × Bytes)) (plain out : Bytes) : Prop :=
  ∃ (c : CounterStream) (head : Bytes) (w w' : σ),
    sealing w = .ok (c, head) w' ∧ out = head ++ (c.apply plain).1

/-- The reader gave `out`, and runs its session: this is an envelope of what the source gave behind
`lost`. -/
def Flowing (running : CounterStream → κ) (sealing : Step σ (CounterStream × Bytes))
    (lost out : Bytes) (s : State σ κ (Tapped ρ)) : Prop :=
  ∃ (c : CounterStream) (head : Bytes) (w w' : σ) (plain : Bytes),
    sealing w = .ok (c, head) w' ∧ s.1.session = running (c.apply plain).2 ∧
    s.1.inner.given = lost ++ plain ∧ out = head ++ (c.apply plain).1

/-- The reader gave nothing, and its session is still at its beginning. -/
def Waiting (k₀ : κ) (out : Bytes) (s : State σ κ (Tapped ρ)) : Prop :=
  s.1.session = k₀ ∧ out = []

section

variable [Session κ σ] {k₀ : κ} {running : CounterStream → κ}
  {sealing : Step σ (CounterStream × Bytes)} {c : CounterStream} {fuel : Nat}
  {s t : State σ κ (Tapped ρ)} {lost out : Bytes}

/-- A running session takes every block. -/
theorem feed_running (h : Session.Begins k₀ running sealing) (hs : s.1.session = running c)
    (block : Bytes) : ∃ t, feed block s = .ok (c.apply block).1 t ∧
      t.1.session = running (c.apply block).2 ∧ t.1.inner = s.1.inner := by
  obtain ⟨r, env⟩ := s
  unfold feed
  split
  · rename_i hb
    obtain rfl := List.isEmpty_iff.mp hb
    have hrun : (Session.finalize : Step (κ × σ) Bytes) (r.session, env.world) = _ :=
      hs ▸ h.run .finalize (c, env.world)
    rw [run_finish, hrun]
    exact ⟨_, rfl, rfl, rfl⟩
  · have hrun : (Session.update block : Step (κ × σ) Bytes) (r.session, env.world) = _ :=
      hs ▸ h.run (.update block) (c, env.world)
    rw [run_onSession, hrun]
    exact ⟨_, rfl, rfl, rfl⟩

/-- A session at its beginning stays there, or starts before it takes the block. -/
theorem feed_waiting (h : Session.Begins k₀ running sealing) (hs : s.1.session = k₀)
    (block : Bytes) : (reached (feed block s)).1.inner = s.1.inner ∧
      ((reached (feed block s)).1.session = k₀ ∧ given (feed block s) = [] ∨
      ∃ (c : CounterStream) (head : Bytes) (w w' : σ), sealing w = .ok (c, head) w' ∧
        (reached (feed block s)).1.session = running (c.apply block).2 ∧
        given (feed block s) = head ++ (c.apply block).1) := by
  obtain ⟨r, env⟩ := s
  obtain rfl : r.session = k₀ := hs
  unfold feed
  split
  · rw [run_finish, h.finalize]
    exact ⟨rfl, .inl ⟨rfl, rfl⟩⟩
  · rw [run_onSession, h.update]
    cases hseal : sealing env.world with
    | error e w' => exact ⟨rfl, .inl ⟨rfl, rfl⟩⟩
    | ok p w' =>
      have hrun : Session.update block (running p.1, w') = _ := h.run (.update block) (p.1, w')
      simp only [hrun]
      exact ⟨rfl, .inr ⟨p.1, p.2, env.world, w', hseal, rfl, rfl⟩⟩

/-- Starting gives the head, or leaves the session at its beginning. -/
theorem startSession_waiting (h : Session.Begins k₀ running sealing) (hs : s.1.session = k₀) :
    (∃ e t, startSession s = .error e t ∧ t.1.session = k₀ ∧
      ∃ w', sealing s.2.world = .error e w') ∨
    ∃ (c : CounterStream) (head : Bytes) (w' : σ) (t : State σ κ (Tapped ρ)),
      sealing s.2.world = .ok (c, head) w' ∧ startSession s = .ok head t ∧
      t.1.session = running c ∧ t.1.inner = s.1.inner := by
  obtain ⟨r, env⟩ := s
  obtain rfl : r.session = k₀ := hs
  simp only [startSession, run_bind, run_update, run_onSession, h.start]
  cases hseal : sealing env.world with
  | error e w' => exact .inl ⟨e, _, rfl, rfl, w', rfl⟩
  | ok p w' => exact .inr ⟨p.1, p.2, w', _, rfl, rfl, rfl, rfl⟩

/-- A running session has nothing to start. -/
theorem startSession_running (h : Session.Begins k₀ running sealing)
    (hs : s.1.session = running c) :
    ∃ t, startSession s = .ok [] t ∧ t.1.session = running c ∧ t.1.inner = s.1.inner := by
  obtain ⟨r, env⟩ := s
  have hrun : (Session.start : Step (κ × σ) Bytes) (r.session, env.world) = _ :=
    hs ▸ h.run .start (c, env.world)
  simp only [startSession, run_bind, run_update, run_onSession, hrun]
  exact ⟨_, rfl, rfl, rfl⟩

/-! ## Draws -/

variable [Source σ ρ]

omit [Session κ σ] in
/-- The tap has what was read, unless the read failed for good. -/
theorem readBlock_tapped (fuel : Nat) (s : State σ κ (Tapped ρ)) :
    (∃ e t, (readBlock fuel : Pull σ κ (Tapped ρ) Bytes) s = .error e t ∧
      (e.isIo = true → t.1.session = s.1.session ∧ t.1.inner.given = s.1.inner.given)) ∨
    ∃ block t, (readBlock fuel : Pull σ κ (Tapped ρ) Bytes) s = .ok block t ∧
      t.1.session = s.1.session ∧ t.1.inner.given = s.1.inner.given ++ block := by
  rw [run_readBlock]
  simp only [Source.read]
  cases (Source.read fuel s.1.blockSize : Transfer σ ρ Bytes) (s.1.inner.inner, s.2) with
  | error e u => exact .inl ⟨_, _, rfl, fun _ => ⟨rfl, rfl⟩⟩
  | ok block u =>
    cases hcheck : s.1.abort.check u.2 with
    | error e =>
      simp only [hcheck]
      refine .inl ⟨e, _, rfl, fun hio => ?_⟩
      rw [AbortHandle.isIo_of_check hcheck] at hio
      cases hio
    | ok _ =>
      simp only [hcheck]
      exact .inr ⟨block, _, rfl, rfl, rfl⟩

/-- A draw that does not fail for good leaves the session and the tap alone, or starts the session,
or takes a block that the tap has through it. -/
theorem draw_tapped {s : State σ κ (Tapped ρ)}
    (hgo : ∀ e, outcome (draw fuel s) = .error e → e.isIo = true) :
    (given (draw fuel s) = [] ∧ (reached (draw fuel s)).1.session = s.1.session ∧
      (reached (draw fuel s)).1.inner.given = s.1.inner.given) ∨
    draw fuel s = startSession s ∨
    ∃ block t, draw fuel s = feed block t ∧ t.1.session = s.1.session ∧
      t.1.inner.given = s.1.inner.given ++ block := by
  rcases draw_cases fuel s with ⟨hnil, hsame⟩ | hdraw | hdraw
  · exact .inl ⟨hnil, by rw [hsame], by rw [hsame]⟩
  · exact .inr (.inl hdraw)
  · rw [run_bind] at hdraw
    rcases readBlock_tapped fuel s with ⟨e, t, hread, hio⟩ | ⟨block, t, hread, hsession, hgiven⟩
    · rw [hread] at hdraw
      obtain ⟨hsession, hgiven⟩ := hio (hgo e (by rw [hdraw]; rfl))
      rw [hdraw]
      exact .inl ⟨rfl, hsession, hgiven⟩
    · rw [hread] at hdraw
      exact .inr (.inr ⟨block, t, hdraw, hsession, hgiven⟩)

/-- The draws of a reader that do not fail for good keep what is known of it with its output. -/
def Steady (fuel : Nat) (I : Bytes → State σ κ (Tapped ρ) → Prop) : Prop :=
  ∀ out s, I out s → (∀ e, outcome (draw fuel s) = .error e → e.isIo = true) →
    I (out ++ given (draw fuel s)) (reached (draw fuel s))

theorem steady_flowing (h : Session.Begins k₀ running sealing) (lost : Bytes) :
    Steady fuel (Flowing running sealing lost : Bytes → State σ κ (Tapped ρ) → Prop) := by
  rintro out s ⟨c, head, w, w', plain, hseal, hsession, hgiven, rfl⟩ hgo
  rcases draw_tapped hgo with ⟨hnil, hsession', hgiven'⟩ | hdraw | ⟨block, t, hdraw, hs, hb⟩
  · rw [hnil, List.append_nil]
    exact ⟨c, head, w, w', plain, hseal, hsession'.trans hsession, hgiven'.trans hgiven, rfl⟩
  · obtain ⟨t, hstart, hsession', hinner⟩ := startSession_running h hsession
    rw [hdraw, hstart]
    exact ⟨c, head, w, w', plain, hseal, hsession', hinner ▸ hgiven, List.append_nil _⟩
  · obtain ⟨u, hfeed, hrunning, hinner⟩ := feed_running h (hs.trans hsession) block
    rw [hdraw, hfeed]
    refine ⟨c, head, w, w', plain ++ block, hseal, ?_, ?_, ?_⟩
    · rw [CounterStream.apply_append]
      exact hrunning
    · simp only [reached, hinner, hb, hgiven, List.append_assoc]
    · simp only [given, CounterStream.apply_append, List.append_assoc]

/-- What is lost is what the source gave before the session could start. -/
theorem steady_waiting (h : Session.Begins k₀ running sealing) :
    Steady fuel fun out (s : State σ κ (Tapped ρ)) =>
      Waiting k₀ out s ∨ ∃ lost, Flowing running sealing lost out s := by
  rintro out s (⟨hsession, rfl⟩ | ⟨lost, hflowing⟩) hgo
  · rcases draw_tapped hgo with ⟨hnil, hsession', -⟩ | hdraw | ⟨block, t, hdraw, hs, hb⟩
    · rw [hnil]
      exact .inl ⟨hsession'.trans hsession, rfl⟩
    · rw [hdraw]
      rcases startSession_waiting h hsession with
        ⟨e, t, hstart, hsession', -⟩ | ⟨c, head, w', t, hseal, hstart, hsession', hinner⟩
      · rw [hstart]
        exact .inl ⟨hsession', rfl⟩
      · rw [hstart]
        refine .inr ⟨s.1.inner.given, c, head, _, w', [], hseal, hsession', ?_, ?_⟩
        · rw [List.append_nil]
          exact congrArg Tapped.given hinner
        · exact (List.append_nil head).symm
    · obtain ⟨hinner, hfeed⟩ := feed_waiting h (hs.trans hsession) block
      rw [hdraw]
      rcases hfeed with ⟨hk, hnil⟩ | ⟨c, head, w, w', hseal, hrunning, hout⟩
      · rw [hnil]
        exact .inl ⟨hk, rfl⟩
      · rw [hout]
        refine .inr ⟨s.1.inner.given, c, head, w, w', block, hseal, hrunning, ?_, rfl⟩
        rw [hinner, hb]
  · exact .inr ⟨lost, steady_flowing h lost out s hflowing hgo⟩

/-! ## Flows -/

/-- What every draw keeps is so of a flow that did not fail for good: by induction on the draws. -/
theorem flow_steady {I : Bytes → State σ κ (Tapped ρ) → Prop} (hI : Steady fuel I) :
    ∀ (n : Nat) {out : Bytes} {s : State σ κ (Tapped ρ)}, I out s →
      (∀ e, (flow fuel n s).ending ≠ .failed e) →
      I (out ++ (flow fuel n s).bytes) (flow fuel n s).state
  | 0, out, s, hs, _ => by
    rw [flow, List.append_nil]
    exact hs
  | n + 1, out, s, hs, hfine => by
    cases hv : verdict s with
    | failed e =>
      simp only [flow, hv] at hfine
      exact absurd rfl (hfine e)
    | ended =>
      simp only [flow, hv, List.append_nil]
      exact hs
    | going =>
      rw [flow_succ_of_going hv] at hfine ⊢
      cases hd : draw fuel s with
      | ok out' t =>
        have ht := hI out s hs (by rw [hd]; exact fun e h => by cases h)
        simp only [hd] at hfine ht ⊢
        have := flow_steady hI n ht hfine
        rwa [List.append_assoc] at this
      | error e t =>
        simp only [hd] at hfine ⊢
        split at hfine
        · rename_i hio
          have ht := hI out s hs (by rw [hd]; intro e' h; cases h; exact hio)
          rw [if_pos hio]
          simp only [hd, given, List.append_nil] at ht
          exact flow_steady hI n ht hfine
        · exact absurd rfl (hfine e)

/-- A reader that is not at its end comes there by a draw. -/
theorem exists_of_flow_ended {s : State σ κ ρ} (heof : s.1.eof = false) {n : Nat}
    (h : (flow fuel n s).ending = .ended) : verdict s = .going ∧ ∃ m, n = m + 1 := by
  have hv : verdict s = .going := by
    cases hv : verdict s with
    | going => rfl
    | ended =>
      have hs : Usable s := usable_of_verdict (by simp [hv])
      rw [hs.verdict, heof] at hv
      cases hv
    | failed e =>
      rw [flow_of_final (by simp [hv]), hv] at h
      cases h
  refine ⟨hv, ?_⟩
  cases n with
  | zero =>
    rw [flow, hv] at h
    cases h
  | succ m => exact ⟨m, rfl⟩

/-- A session whose start is refused for good is not read to the end. -/
theorem flow_refused {s t : State σ κ ρ} (hstarted : s.1.started = false) (heof : s.1.eof = false)
    {e : Error} (hstart : startSession s = .error e t) (hio : e.isIo = false) (n : Nat) :
    (flow fuel n s).ending ≠ .ended := by
  intro h
  obtain ⟨hv, m, rfl⟩ := exists_of_flow_ended heof h
  rw [flow_succ_of_going hv, draw_of_fresh (verdict_eq_going.mp hv).1 heof hstarted, hstart] at h
  simp only [hio, Bool.false_eq_true, if_false] at h
  cases h

/-- If no failed transfer keeps the session from starting, the end comes behind a whole envelope. -/
theorem envelope_of_flow (h : Session.Begins k₀ running sealing) (hstarted : s.1.started = false)
    (heof : s.1.eof = false) (hsession : s.1.session = k₀) (hgiven : s.1.inner.given = [])
    (hstart : ∀ e w', sealing s.2.world = .error e w' → e.isIo = false) {n : Nat}
    (hended : (flow fuel n s).ending = .ended) :
    Envelope sealing (flow fuel n s).state.1.inner.given (flow fuel n s).bytes := by
  rcases startSession_waiting h hsession with
    ⟨e, t, hrun, -, w', hseal⟩ | ⟨c, head, w', t, hseal, hrun, hrunning, hinner⟩
  · exact absurd hended (flow_refused hstarted heof hrun (hstart e w' hseal) n)
  · obtain ⟨hv, m, rfl⟩ := exists_of_flow_ended heof hended
    rw [flow_succ_of_going hv, draw_of_fresh (verdict_eq_going.mp hv).1 heof hstarted, hrun]
      at hended ⊢
    have hflowing : Flowing running sealing [] head t :=
      ⟨c, head, _, w', [], hseal, hrunning, hinner ▸ hgiven, (List.append_nil head).symm⟩
    have hfine : ∀ e, (flow fuel m t).ending ≠ .failed e := by
      intro e he
      exact absurd (hended.symm.trans he) fun h => by cases h
    obtain ⟨c', head', v, v', plain, hseal', -, hgiven', hout⟩ :=
      flow_steady (steady_flowing h []) m hflowing hfine
    refine ⟨c', head', v, v', hseal', ?_⟩
    simp only [Reading.after, hgiven', List.nil_append]
    exact hout

end

/-! ## Callers -/

/-- What a caller has who came to the end. -/
structure Ends (sealing : Step σ (CounterStream × Bytes)) (w : σ)
    (r : Reading σ κ (Tapped ρ)) : Prop where
  /-- Nothing, or a whole envelope, but the source may have given more in front. -/
  whole : r.ending = .ended → r.bytes = [] ∨
    ∃ lost plain, r.state.1.inner.given = lost ++ plain ∧ Envelope sealing plain r.bytes
  /-- An envelope of all that the source gave, unless the session could not start at first because of a
  failed transfer. -/
  complete : (∀ e w', sealing w = .error e w' → e.isIo = false) → r.ending = .ended →
    Envelope sealing r.state.1.inner.given r.bytes

section

variable [Session κ σ] [Source σ ρ] {P : κ → Prop} {k₀ : κ} {running : CounterStream → κ}
  {sealing : Step σ (CounterStream × Bytes)} {fuel : Nat} {again : Error → Bool} {ns : List Nat}

/-- Whoever comes to the end has followed a flow there. -/
theorem exists_flow_of_ended (hP : Session.Quiet P) {s : State σ κ ρ} (hs : Sound P s)
    (hout : s.1.output = []) (h : (reads fuel again ns s).ending = .ended) :
    ∃ n, flow fuel n (drained s) =
      ⟨(reads fuel again ns s).bytes, .ended, drained (reads fuel again ns s).state⟩ := by
  obtain ⟨n, htracks, -⟩ := reads_follow hP fuel ns hs
  rw [reads_of_ended again ns h] at htracks
  obtain ⟨hending, hnil⟩ := htracks.finished (by simp [h])
  have hstate := htracks.state (by simp [h])
  have hbytes := htracks.bytes
  rw [hnil, List.append_nil, hout, List.nil_append] at hbytes
  refine ⟨n, ?_⟩
  rw [← hstate, ← hbytes, ← h, ← hending]

theorem ends_of_begins (hP : Session.Quiet P) (hk : P k₀)
    (hB : Session.Begins k₀ running sealing) (source : ρ) (blockSize : Nat) (abort : AbortHandle)
    (fuel : Nat) (again : Error → Bool) (ns : List Nat) (env : Env σ) :
    Ends sealing env.world (reads fuel again ns
      (CipherReader.new (⟨source, []⟩ : Tapped ρ) k₀ blockSize abort, env)) where
  whole := by
    intro h
    obtain ⟨n, hflow⟩ := exists_flow_of_ended hP (.new hk _ _ _ _) rfl h
    have hend := flow_steady (steady_waiting hB) n (.inl ⟨rfl, rfl⟩)
      (by rw [hflow]; exact fun e h => by cases h)
    rw [hflow] at hend
    rcases hend with ⟨-, hnil⟩ | ⟨lost, c, head, w, w', plain, hseal, -, hgiven, hout⟩
    · exact .inl hnil
    · exact .inr ⟨lost, plain, hgiven, c, head, w, w', hseal, hout⟩
  complete := by
    intro hstart h
    obtain ⟨n, hflow⟩ := exists_flow_of_ended hP (.new hk _ _ _ _) rfl h
    have henvelope := envelope_of_flow hB rfl rfl rfl rfl hstart (congrArg Reading.ending hflow)
    rwa [hflow] at henvelope

end

/-- Whoever reads a session that never starts does not come to its end. -/
theorem not_ended_of_refused [Session κ σ] [Source σ ρ] {P : κ → Prop} (hP : Session.Quiet P)
    {k : κ} (hk : P k) {e : Error} (he : e.isIo = false)
    (hstart : ∀ w : σ, Session.start (k, w) = .error e (k, w)) (source : ρ) (blockSize : Nat)
    (abort : AbortHandle) (fuel : Nat) (again : Error → Bool) (ns : List Nat) (env : Env σ) :
    (reads fuel again ns (CipherReader.new source k blockSize abort, env)).ending ≠ .ended := by
  intro h
  obtain ⟨n, hflow⟩ := exists_flow_of_ended hP (.new hk _ _ _ _) rfl h
  have hrefused : startSession (drained (CipherReader.new source k blockSize abort, env)) =
      .error e ({ CipherReader.new source k blockSize abort with
        started := true, accessed := true }, env) := by
    simp only [startSession, drained, CipherReader.new, run_bind, run_update, run_onSession, hstart]
  exact flow_refused rfl rfl hrefused he n (congrArg Reading.ending hflow)

/-- **An encrypting reader comes to its end with a whole envelope** of all that its source gave,
whatever its key wrap and its random source do, unless the session could not start because of a
failed transfer; and in no case with a part of an envelope. -/
theorem reads_encrypting [Source σ ρ] (source : ρ) (blockSize : Nat) (abort : AbortHandle)
    (fuel : Nat) (again : Error → Bool) (ns : List Nat) (env : Env σ) :
    (∀ (f : BundledFamily) (s : FamilySession σ CounterStream), s.Bundled f → s.mode = .encrypt →
      Ends (s.sealing []) env.world (reads fuel again ns
        (CipherReader.new (⟨source, []⟩ : Tapped ρ) s blockSize abort, env))) ∧
    ∀ (families : UInt32 → BundledFamily) (d : Dispatcher σ (FamilySession σ CounterStream)),
      d.Bundled families → d.context.mode = .encrypt →
      match d.select d.encryptType none with
      | .ok (id, s) => Ends (s.sealing (Bytes.be32 id)) env.world (reads fuel again ns
          (CipherReader.new (⟨source, []⟩ : Tapped ρ) d blockSize abort, env))
      | .error _ => (reads fuel again ns
          (CipherReader.new (⟨source, []⟩ : Tapped ρ) d blockSize abort, env)).ending ≠ .ended := by
  constructor
  · intro f s hs hm
    exact ends_of_begins FamilySession.quiet trivial (FamilySession.begins hm hs.phase) source
      blockSize abort fuel again ns env
  · intro families d hd hm
    have hloyal : d.Loyal fun _ => True :=
      ⟨fun _ _ hmake => ⟨trivial, (hd.sessions hmake).2⟩, fun _ _ hp => by
        rw [hd.phase] at hp
        cases hp⟩
    cases hs : d.select d.encryptType none with
    | error e =>
      exact not_ended_of_refused (Dispatcher.quiet FamilySession.quiet) hloyal
        (Dispatcher.isIo_of_select hs) (Dispatcher.start_unknown hm hd.phase hs) _ blockSize abort
        fuel again ns env
    | ok p =>
      obtain ⟨make, hmake, hk⟩ := Dispatcher.select_eq_ok hs
      obtain ⟨hbundled, hmode⟩ := hd.sessions hmake
      rw [← hk] at hbundled hmode
      have hB := Dispatcher.begins hm hd.phase hs
        (FamilySession.begins (hmode.trans hm) hbundled.phase)
      rw [List.append_nil] at hB
      exact ends_of_begins (Dispatcher.quiet FamilySession.quiet) hloyal hB source blockSize abort
        fuel again ns env

section

open Scripted

/-- A key wrap that fails so many times first, since its key store is far away. -/
def remoteWrap : KeyWrap Nat where
  wrap plain
    | 0 => .ok plain 0
    | n + 1 => .error (.io (.plain .timedOut "no answer")) n
  unwrap := pure

def remoteBuilder : CipherBuilder Nat where
  wrap := remoteWrap
  random := ⟨fun n => pure (.replicate n 1)⟩

/-- The header that this builder makes. -/
def remoteHeader : Header := ⟨2, clearCounter (.replicate 16 1), .replicate 16 1⟩

/-- How the content behind that header is encrypted. -/
def remoteStream : CounterStream :=
  BundledFamily.sm4.stream (.replicate 16 1) (clearCounter (.replicate 16 1))

def remoteSession : FamilySession Nat CounterStream :=
  remoteBuilder.familySession BundledFamily.sm4.family .encrypt

def remoteDispatcher : Dispatcher Nat (FamilySession Nat CounterStream) :=
  remoteBuilder.dispatcher .encrypt (Registry.bundled id id) 2 none

/-- What a caller has of `plain`, read through `k` in blocks of two bytes, if the key wrap fails so
many times. -/
def remotely [Session κ Nat] (k : κ) (plain : Bytes) (failures : Nat) :
    Reading Nat κ (Tapped ScriptedSource) :=
  reads 20 (fun _ => true) [99, 99, 99, 99, 99]
    (CipherReader.new ⟨{ data := plain.toArray }, []⟩ k 2, ⟨[], failures⟩)

/-- A key wrap that answers at once makes an envelope of all three bytes, with and without an id in
front. -/
theorem reads_encrypting_answered :
    ((remotely remoteSession [1, 2, 3] 0).ending = .ended ∧
      Envelope (remoteSession.sealing []) [1, 2, 3] (remotely remoteSession [1, 2, 3] 0).bytes) ∧
    (remotely remoteDispatcher [1, 2, 3] 0).ending = .ended ∧
      Envelope (remoteSession.sealing (Bytes.be32 2)) [1, 2, 3]
        (remotely remoteDispatcher [1, 2, 3] 0).bytes := by
  constructor
  · have hended : (remotely remoteSession [1, 2, 3] 0).ending = .ended := by decide +kernel
    have hgiven : (remotely remoteSession [1, 2, 3] 0).state.1.inner.given = [1, 2, 3] := by
      decide +kernel
    have hends : Ends (remoteSession.sealing []) 0 (remotely remoteSession [1, 2, 3] 0) :=
      (reads_encrypting _ _ _ _ _ _ ⟨[], 0⟩).1 .sm4 _
        (remoteBuilder.bundled_familySession .sm4 .encrypt) rfl
    have henvelope := hends.complete (fun e w' h => by cases h) hended
    rw [hgiven] at henvelope
    exact ⟨hended, henvelope⟩
  · have hended : (remotely remoteDispatcher [1, 2, 3] 0).ending = .ended := by decide +kernel
    have hgiven : (remotely remoteDispatcher [1, 2, 3] 0).state.1.inner.given = [1, 2, 3] := by
      decide +kernel
    have hselect : remoteDispatcher.select remoteDispatcher.encryptType none =
        .ok (2, remoteSession) := rfl
    have hends : Ends (remoteSession.sealing (Bytes.be32 2)) 0
        (remotely remoteDispatcher [1, 2, 3] 0) := by
      have hmatch := (reads_encrypting { data := #[1, 2, 3] : ScriptedSource } 2 (.own false) 20
        (fun _ => true) [99, 99, 99, 99, 99] ⟨[], 0⟩).2 CipherBuilder.familyOf remoteDispatcher
        (remoteBuilder.bundled_dispatcher .encrypt 2 none) rfl
      rw [hselect] at hmatch
      exact hmatch
    have henvelope := hends.complete (fun e w' h => by cases h) hended
    rw [hgiven] at henvelope
    exact ⟨hended, henvelope⟩

/-- One that fails first leaves nothing at all of an empty source, and one that fails twice loses the
first block: the envelope is one of the third byte alone. -/
theorem not_reads_encrypting :
    ((remotely remoteSession [] 1).ending = .ended ∧ (remotely remoteSession [] 1).bytes = []) ∧
    (remotely remoteSession [1, 2, 3] 2).ending = .ended ∧
    (remotely remoteSession [1, 2, 3] 2).state.1.inner.given = [1, 2, 3] ∧
    (remotely remoteSession [1, 2, 3] 2).bytes =
      remoteHeader.encode ++ (remoteStream.apply [3]).1 := by
  decide +kernel

end

end CipherReader

end SealedStream
