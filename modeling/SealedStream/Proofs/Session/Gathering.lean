import SealedStream.Proofs.Session.Demanding

/-!
# Sessions that gather a header

A decrypting session gathers bytes until it can tell what they are, and does not gather many: two
wrapped secrets at the limit are more than enough. Every other call with bytes gives some. This is
`Session.Gathers`: what becomes of the blocks that a reader feeds to a session, whatever the
collaborators do.
-/

namespace SealedStream

variable {σ κ : Type}

/-- Sessions that take blocks. In a state that `Awaits n` a session has gathered `n` bytes, fewer than
`limit`, and cannot tell yet; where it `Yields` it gives something for every block. If the sessions are
`firm`, a failed transfer costs them nothing: the next block gives something. -/
structure Session.Gathers [Session κ σ] (limit : Nat) (firm : Prop) (Awaits : Nat → κ → Prop)
    (Yields : κ → Prop) : Prop where
  lt : ∀ {n k}, Awaits n k → n < limit
  isReady : ∀ {n k}, Awaits n k → Session.isReady k = false
  /-- Each byte of the block counts. -/
  gather : ∀ {n k}, Awaits n k → ∀ {block}, block ≠ [] → ∀ w : σ, Meets
    (fun _ t => Session.isReady t.1 = true ∧ Yields t.1 ∨ Awaits (n + block.length) t.1)
    (fun e t => firm → e.isIo = true → Yields t.1) (Session.update block (k, w))
  yield : ∀ {k}, Yields k → ∀ {block}, block ≠ [] → ∀ w : σ, Meets
    (fun out t => out ≠ [] ∧ Yields t.1) (fun e t => firm → e.isIo = true → Yields t.1)
    (Session.update block (k, w))
  finalize : ∀ {k}, (∃ n, Awaits n k) ∨ Yields k → ∀ w : σ, Meets (fun _ _ => True)
    (fun e t => firm → e.isIo = true → Yields t.1) (Session.finalize (k, w))

/-- The session `k₀` starts with its header, or with nothing and has everything to gather. -/
structure Session.GathersFrom [Session κ σ] (limit : Nat) (firm : Prop) (Awaits : Nat → κ → Prop)
    (Yields : κ → Prop) (k₀ : κ) : Prop where
  gathers : Session.Gathers (σ := σ) limit firm Awaits Yields
  start : ∀ w : σ, Meets
    (fun out t => out ≠ [] ∧ Yields t.1 ∨ out = [] ∧ Session.mode t.1 = .decrypt ∧ Awaits 0 t.1)
    (fun e t => firm → e.isIo = true → Yields t.1) (Session.start (k₀, w))

/-- What is firm under one condition is firm under a stronger one. -/
theorem Session.GathersFrom.mono [Session κ σ] {limit : Nat} {firm firm' : Prop}
    {Awaits : Nat → κ → Prop} {Yields : κ → Prop} {k₀ : κ}
    (h : Session.GathersFrom (σ := σ) limit firm Awaits Yields k₀) (hfirm : firm' → firm) :
    Session.GathersFrom (σ := σ) limit firm' Awaits Yields k₀ := by
  have herror : ∀ (e : Error) (t : κ × σ), (firm → e.isIo = true → Yields t.1) →
      firm' → e.isIo = true → Yields t.1 := fun _ _ h h' => h (hfirm h')
  refine ⟨⟨h.gathers.lt, h.gathers.isReady, ?_, ?_, ?_⟩, ?_⟩
  · exact fun hk _ hb w => (h.gathers.gather hk hb w).mono (fun _ _ h => h) herror
  · exact fun hk _ hb w => (h.gathers.yield hk hb w).mono (fun _ _ h => h) herror
  · exact fun hk w => (h.gathers.finalize hk w).mono (fun _ _ h => h) herror
  · exact fun w => (h.start w).mono (fun _ _ h => h) herror

/-! ## Encrypting -/

namespace Session

variable [Session κ σ] {k₀ : κ} {running : CounterStream → κ}
  {sealing : Step σ (CounterStream × Bytes)}

/-- An encrypting session gathers nothing. If it could not start, the next call starts it. -/
theorem Begins.gathersFrom (h : Begins k₀ running sealing)
    (hhead : ∀ {c head w w'}, sealing w = .ok (c, head) w' → head ≠ []) (limit : Nat) :
    GathersFrom (σ := σ) limit True (fun _ _ => False) (fun k => k = k₀ ∨ ∃ c, k = running c)
      k₀ where
  gathers.lt h := h.elim
  gathers.isReady h := h.elim
  gathers.gather h := h.elim
  gathers.yield := by
    have hrunning (c : CounterStream) {block : Bytes} (hb : block ≠ []) (w : σ) :
        ∃ out c', out ≠ [] ∧ Session.update block (running c, w) = .ok out (running c', w) := by
      refine ⟨(c.apply block).1, (c.apply block).2, ?_, h.run (.update block) (c, w)⟩
      rwa [← List.length_pos_iff, CounterStream.length_apply, List.length_pos_iff]
    rintro k (rfl | ⟨c, rfl⟩) block hb w
    · rw [h.update]
      cases sealing w with
      | error e w' => exact fun _ _ => .inl rfl
      | ok p w' =>
        obtain ⟨out, c', hout, hu⟩ := hrunning p.1 hb w'
        simp only [hu]
        exact ⟨fun hnil => hout (List.append_eq_nil_iff.mp hnil).2, .inr ⟨c', rfl⟩⟩
    · obtain ⟨out, c', hout, hu⟩ := hrunning c hb w
      rw [hu]
      exact ⟨hout, .inr ⟨c', rfl⟩⟩
  gathers.finalize := by
    rintro k (⟨_, hfalse⟩ | rfl | ⟨c, rfl⟩) w
    · exact hfalse.elim
    · rw [h.finalize]
      trivial
    · rw [show Session.finalize (running c, w) = _ from h.run .finalize (c, w)]
      trivial
  start := by
    intro w
    rw [h.start]
    cases hs : sealing w with
    | ok p w' => exact .inl ⟨hhead hs, .inr ⟨p.1, rfl⟩⟩
    | error e w' => exact fun _ _ => .inl rfl

/-- A session that does not start for another reason than a failed transfer is not asked again. -/
theorem gathersFrom_of_refused {e : Error} (he : e.isIo = false)
    (h : ∀ w : σ, Session.start (k₀, w) = .error e (k₀, w)) (limit : Nat) :
    GathersFrom (σ := σ) limit True (fun _ _ => False) (fun _ => False) k₀ where
  gathers := ⟨fun h => h.elim, fun h => h.elim, fun h => h.elim, fun h => h.elim, fun h =>
    h.elim (fun ⟨_, h⟩ => h.elim) fun h => h.elim⟩
  start := by
    intro w
    rw [h]
    intro _ hio
    rw [he] at hio
    cases hio

end Session

/-! ## Decrypting -/

/-- No header is longer. -/
def Header.longest : Nat := fixedLen + 2 * maxWrappedLen

namespace FamilySession

variable {s : FamilySession σ CounterStream} {buffered input : Bytes}

/-- The session has gathered `n` bytes that do not tell yet. -/
def Awaits (n : Nat) (k : FamilySession σ CounterStream) : Prop :=
  k.mode = .decrypt ∧ ∃ buffered, k.phase = .awaiting buffered ∧ buffered.length = n ∧
    Header.decode buffered k.expectedVersion = .ok .needMore

/-- The header is behind, or there are bytes that tell what it is but could not be opened. -/
def Yields (k : FamilySession σ CounterStream) : Prop :=
  (∃ c, k.phase = .ready c) ∨ k.mode = .decrypt ∧ ∃ buffered, k.phase = .awaiting buffered ∧
    Header.decode buffered k.expectedVersion ≠ .ok .needMore

/-- Once the bytes tell what they are, the session is ready and has given what is behind the header, or
it keeps them all. -/
theorem meets_feedHeader
    (hd : Header.decode (buffered ++ input) s.expectedVersion ≠ .ok .needMore) (w : σ) :
    Meets
      (fun out t => (∃ c, t.1 = { s with phase := .ready c }) ∧ ∃ h n,
        Header.decode (buffered ++ input) s.expectedVersion = .ok (.complete h n) ∧
          out.length = ((buffered ++ input).drop n).length)
      (fun _ t => t.1 = { s with phase := .awaiting (buffered ++ input) })
      (feedHeader buffered input (s, w)) := by
  cases hdecode : Header.decode (buffered ++ input) s.expectedVersion with
  | error e =>
    rw [feedHeader_refused hdecode]
    exact rfl
  | ok d =>
    cases d with
    | needMore => exact absurd hdecode hd
    | complete h n =>
      cases ho : openNew s h w with
      | error e w' =>
        rw [feedHeader_unopened hdecode ho]
        exact rfl
      | ok c w' =>
        rw [feedHeader_stream hdecode ho]
        exact ⟨⟨_, rfl⟩, h, n, rfl, CounterStream.length_apply _ _⟩

/-- A complete header that was not opened stays, and with the next block it is opened, or not, again. -/
theorem gathers : Session.Gathers (σ := σ) Header.longest True Awaits Yields where
  lt := by
    rintro n k ⟨-, buffered, -, rfl, hd⟩
    exact Header.length_lt_of_needMore hd
  isReady := by
    rintro n k ⟨-, buffered, hk, -⟩
    simp only [Session.isReady, isReady, hk]
  gather := by
    rintro n k ⟨hk, buffered, hphase, rfl, -⟩ block - w
    rw [show Session.update block (k, w) = _ from update_awaiting hk hphase]
    by_cases hd : Header.decode (buffered ++ block) k.expectedVersion = .ok .needMore
    · rw [feedHeader_needMore hd]
      exact .inr ⟨hk, buffered ++ block, rfl, List.length_append, hd⟩
    · refine (meets_feedHeader hd w).mono ?_ ?_
      · rintro out ⟨_, w'⟩ ⟨⟨c, rfl⟩, -⟩
        exact .inl ⟨rfl, .inl ⟨c, rfl⟩⟩
      · rintro e ⟨_, w'⟩ rfl - -
        exact .inr ⟨hk, _, rfl, hd⟩
  yield := by
    rintro k (⟨c, hphase⟩ | ⟨hk, buffered, hphase, hd⟩) block hb w
    · rw [show Session.update block (k, w) = _ from update_stream hphase w]
      refine ⟨?_, .inl ⟨_, rfl⟩⟩
      rwa [← List.length_pos_iff, CounterStream.length_apply, List.length_pos_iff]
    · have hmore := Header.decode_append block hd
      rw [show Session.update block (k, w) = _ from update_awaiting hk hphase]
      refine (meets_feedHeader (hmore ▸ hd) w).mono ?_ ?_
      · rintro out ⟨_, w'⟩ ⟨⟨c, rfl⟩, h, n, hdecode, hlength⟩
        refine ⟨?_, .inl ⟨c, rfl⟩⟩
        rw [hmore] at hdecode
        rw [← List.length_pos_iff, hlength, (decode_more hdecode block).2, List.length_append]
        exact Nat.add_pos_right _ (List.length_pos_iff.mpr hb)
      · rintro e ⟨_, w'⟩ rfl - -
        exact .inr ⟨hk, _, rfl, hmore ▸ hd⟩
  finalize := by
    rintro k (⟨n, hk, buffered, hphase, -⟩ | ⟨c, hphase⟩ | ⟨hk, buffered, hphase, -⟩) w
    · rw [show Session.finalize (k, w) = _ from finalize_awaiting hk hphase]
      exact fun _ hio => absurd hio Bool.false_ne_true
    · rw [show Session.finalize (k, w) = _ from finalize_ready hphase]
      trivial
    · rw [show Session.finalize (k, w) = _ from finalize_awaiting hk hphase]
      exact fun _ hio => absurd hio Bool.false_ne_true

theorem awaits_zero (hm : s.mode = .decrypt) (hp : s.phase = .awaiting []) : Awaits 0 s :=
  ⟨hm, [], hp, rfl, Header.decode_nil _⟩

/-- What a session refuses at once is no failed transfer, unless its key wrap says so. -/
theorem Bundled.isIo_of_update {f : BundledFamily} (h : s.Bundled f) (hm : s.mode = .decrypt)
    (hw : s.wrap.NeverIo) {w : σ} {e : Error} {t : FamilySession σ CounterStream × σ}
    (hu : Session.update input (s, w) = .error e t) : e.isIo = false := by
  have hdemands := demands hm h.phase h.family hw w
  rcases hdemands.run hdemands.fresh (.update input) w with ⟨e', t', he, hu'⟩ | ⟨_, _, _, hu', -⟩
  · rw [show Session.update input (s, w) = _ from hu'] at hu
    cases hu
    exact he
  · rw [show Session.update input (s, w) = _ from hu'] at hu
    cases hu

/-- A session of a bundled family, in either mode. -/
theorem Bundled.gathersFrom {f : BundledFamily} (h : s.Bundled f) :
    ∃ Awaits Yields, Session.GathersFrom (σ := σ) Header.longest True Awaits Yields s := by
  cases hm : s.mode with
  | encrypt => exact ⟨_, _, (begins hm h.phase).gathersFrom head_ne_nil _⟩
  | decrypt =>
    refine ⟨Awaits, Yields, gathers, fun w => ?_⟩
    rw [show Session.start (s, w) = _ from start_decrypt hm w]
    exact .inr ⟨rfl, hm, awaits_zero hm h.phase⟩

end FamilySession

/-! ## Sessions chosen by the stream -/

namespace Dispatcher

variable [Session κ σ] {d : Dispatcher σ κ} {limit : Nat} {firm : Prop} {Awaits : Nat → κ → Prop}
  {Yields : κ → Prop}

/-- The dispatcher `d` gathers its id, or the session that it has chosen gathers the rest. -/
def Awaiting (Awaits : Nat → κ → Prop) (d : Dispatcher σ κ) (n : Nat) (k : Dispatcher σ κ) : Prop :=
  (∃ buffered, k = { d with phase := .selecting buffered } ∧ buffered.length = n ∧ n < idLen) ∨
    ∃ id k₁ m, k = { d with phase := .selected id k₁ } ∧ Awaits m k₁ ∧ n = idLen + m

/-- The chosen session gives something for every block. -/
def Yielding (Yields : κ → Prop) (d k : Dispatcher σ κ) : Prop :=
  ∃ id k₁, k = { d with phase := .selected id k₁ } ∧ Yields k₁

/-- The sessions that can be chosen have everything to gather, and there is nothing to starting them.
If this is to be `firm`, they do not fail at once with a failed transfer. -/
structure Gathering (firm : Prop) (Awaits : Nat → κ → Prop) (d : Dispatcher σ κ) : Prop where
  awaits : ∀ {requested id k}, d.select requested d.defaultType = .ok (id, k) → Awaits 0 k
  start : ∀ {requested id k}, d.select requested d.defaultType = .ok (id, k) →
    ∀ w : σ, (Session.start : Step (κ × σ) Bytes) (k, w) = .ok [] (k, w)
  update : ∀ {requested id k}, d.select requested d.defaultType = .ok (id, k) → firm →
    ∀ {block : Bytes} {w : σ} {e t}, Session.update block (k, w) = .error e t → e.isIo = false

/-- The chosen session gathers what is behind the id. -/
theorem meets_feedId (h : Session.Gathers (σ := σ) limit True Awaits Yields)
    (hc : Gathering firm Awaits d) (buffered block : Bytes) (w : σ) :
    Meets
      (fun _ t => Session.isReady t.1 = true ∧ Yielding Yields d t.1 ∨
        Awaiting Awaits d (buffered.length + block.length) t.1)
      (fun e _ => firm → e.isIo = false) (feedId buffered block (d, w)) := by
  cases hi : Bytes.be32? (buffered ++ block) with
  | none =>
    rw [feedId_short hi]
    have hshort := Bytes.be32?_eq_none_iff.mp hi
    rw [List.length_append] at hshort
    exact .inr (.inl ⟨_, rfl, List.length_append, hshort⟩)
  | some requested =>
    have hrest : buffered.length + block.length =
        idLen + ((buffered ++ block).drop idLen).length := by
      have hlong : ¬ (buffered ++ block).length < 4 := by
        rw [← Bytes.be32?_eq_none_iff, hi]
        simp
      rw [List.length_append] at hlong
      rw [List.length_drop, idLen, List.length_append]
      omega
    cases hs : d.select requested d.defaultType with
    | error e =>
      rw [feedId_unknown hi hs]
      exact fun _ => isIo_of_select hs
    | ok p =>
      obtain ⟨id, k⟩ := p
      rw [feedId_known hi hs (hc.start hs w), hrest]
      by_cases hr : ((buffered ++ block).drop idLen).isEmpty
      · rw [if_pos hr, List.isEmpty_iff.mp hr]
        exact .inr (.inr ⟨id, k, 0, rfl, hc.awaits hs, rfl⟩)
      · rw [if_neg hr]
        have hmeets := h.gather (hc.awaits hs) (fun hnil => hr (List.isEmpty_iff.mpr hnil)) w
        cases hu : Session.update ((buffered ++ block).drop idLen) (k, w) with
        | error e t => exact fun hfirm => hc.update hs hfirm hu
        | ok out t =>
          rw [hu] at hmeets
          rcases hmeets with ⟨hready, hyields⟩ | hawaits
          · exact .inl ⟨hready, id, t.1, rfl, hyields⟩
          · exact .inr (.inr ⟨id, t.1, _, rfl, hawaits, by rw [Nat.zero_add]⟩)

/-- A dispatcher gathers its id before the header. It is no firmer than the sessions that it chooses: if
one of them fails on the first bytes behind the id, the dispatcher keeps the id alone and chooses
anew. -/
theorem gathers (hm : d.context.mode = .decrypt)
    (h : Session.Gathers (σ := σ) limit True Awaits Yields) (hc : Gathering firm Awaits d) :
    Session.Gathers (σ := σ) (idLen + limit) firm (Awaiting Awaits d) (Yielding Yields d) where
  lt := by
    rintro n k (⟨buffered, -, -, hn⟩ | ⟨id, k₁, m, -, hk, rfl⟩)
    · omega
    · exact Nat.add_lt_add_left (h.lt hk) _
  isReady := by
    rintro n k (⟨buffered, rfl, -⟩ | ⟨id, k₁, m, rfl, hk, -⟩)
    · rfl
    · exact h.isReady hk
  gather := by
    rintro n k (⟨buffered, rfl, rfl, -⟩ | ⟨id, k₁, m, rfl, hk, rfl⟩) block hb w
    · have hfeed := meets_feedId (d := { d with phase := .selecting buffered }) h
        ⟨hc.awaits, hc.start, hc.update⟩ buffered block w
      rw [show Session.update block (_, w) = _ from
        update_selecting (d := { d with phase := .selecting buffered }) hm rfl]
      refine hfeed.mono (fun _ _ h => h) fun e _ hnot hfirm hio => ?_
      rw [hnot hfirm] at hio
      cases hio
    · have hrun := run_choosing d id (.update block) (k₁, w)
      rw [show Session.update block (_, w) = _ from hrun, meets_mapState]
      refine (h.gather hk hb w).mono ?_ ?_
      · rintro out ⟨k₂, w'⟩ (⟨hready, hyields⟩ | hawaits)
        · exact .inl ⟨hready, id, k₂, rfl, hyields⟩
        · exact .inr (.inr ⟨id, k₂, _, rfl, hawaits, Nat.add_assoc _ _ _⟩)
      · exact fun e t hyields _ hio => ⟨id, t.1, rfl, hyields trivial hio⟩
  yield := by
    rintro k ⟨id, k₁, rfl, hk⟩ block hb w
    have hrun := run_choosing d id (.update block) (k₁, w)
    rw [show Session.update block (_, w) = _ from hrun, meets_mapState]
    refine (h.yield hk hb w).mono ?_ ?_
    · rintro out ⟨k₂, w'⟩ ⟨hout, hyields⟩
      exact ⟨hout, id, k₂, rfl, hyields⟩
    · exact fun e t hyields _ hio => ⟨id, t.1, rfl, hyields trivial hio⟩
  finalize := by
    have hselected {id : UInt32} {k₁ : κ} (hk : (∃ m, Awaits m k₁) ∨ Yields k₁) (w : σ) :
        Meets (fun _ _ => True) (fun e t => firm → e.isIo = true → Yielding Yields d t.1)
          (Session.finalize (({ d with phase := .selected id k₁ } : Dispatcher σ κ), w)) := by
      have hrun := run_choosing d id .finalize (k₁, w)
      rw [show Session.finalize (_, w) = _ from hrun, meets_mapState]
      exact (h.finalize hk w).mono (fun _ _ h => h)
        fun e t hyields _ hio => ⟨id, t.1, rfl, hyields trivial hio⟩
    rintro k (⟨n, ⟨buffered, rfl, -⟩ | ⟨id, k₁, m, rfl, hk, -⟩⟩ | ⟨id, k₁, rfl, hk⟩) w
    · rw [show Session.finalize (_, w) = _ from
        finalize_selecting (d := { d with phase := .selecting buffered }) hm rfl]
      exact fun _ hio => absurd hio Bool.false_ne_true
    · exact hselected (.inl ⟨m, hk⟩) w
    · exact hselected (.inr hk) w

/-- Failed transfers cost the dispatcher nothing: it encrypts, or the key wraps of its sessions never
fail with one. -/
def Firm (d : Dispatcher σ (FamilySession σ CounterStream)) : Prop :=
  d.context.mode = .encrypt ∨
    ∀ {id make}, d.registry.get? id = some make → (make d.context).wrap.NeverIo

/-- A dispatcher over the bundled families, in either mode. -/
theorem Bundled.gathersFrom {families : UInt32 → BundledFamily}
    {d : Dispatcher σ (FamilySession σ CounterStream)} (h : d.Bundled families) :
    ∃ Awaits Yields,
      Session.GathersFrom (σ := σ) (idLen + Header.longest) d.Firm Awaits Yields d := by
  cases hm : d.context.mode with
  | encrypt =>
    cases hs : d.select d.encryptType none with
    | error e =>
      have hrefused := Session.gathersFrom_of_refused (isIo_of_select hs)
        (start_unknown hm h.phase hs) (idLen + Header.longest)
      exact ⟨_, _, hrefused.mono fun _ => trivial⟩
    | ok p =>
      obtain ⟨make, hmake, hk⟩ := select_eq_ok hs
      obtain ⟨hbundled, hmode⟩ := h.sessions hmake
      rw [← hk] at hbundled hmode
      have hbegins := Dispatcher.begins hm h.phase hs
        (FamilySession.begins (hmode.trans hm) hbundled.phase)
      exact ⟨_, _, (hbegins.gathersFrom FamilySession.head_ne_nil _).mono fun _ => trivial⟩
  | decrypt =>
    have hc : Gathering d.Firm FamilySession.Awaits d := by
      refine ⟨fun hs => ?_, fun hs => ?_, fun hs hfirm block w e t hu => ?_⟩
      all_goals
        obtain ⟨make, hmake, rfl⟩ := select_eq_ok hs
        obtain ⟨hbundled, hmode⟩ := h.sessions hmake
      · exact FamilySession.awaits_zero (hmode.trans hm) hbundled.phase
      · exact FamilySession.start_decrypt (hmode.trans hm)
      · have hwrap : (make d.context).wrap.NeverIo :=
          hfirm.resolve_left (by rw [hm]; nofun) hmake
        exact hbundled.isIo_of_update (hmode.trans hm) hwrap hu
    refine ⟨_, _, gathers hm FamilySession.gathers hc, fun w => ?_⟩
    rw [show Session.start (d, w) = _ from start_selecting hm h.phase]
    exact .inr ⟨rfl, hm, .inl ⟨[], by rw [← h.phase], rfl, by decide⟩⟩

end Dispatcher

end SealedStream
