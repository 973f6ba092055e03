import SealedStream.Proofs.Session.Demanding
import SealedStream.Proofs.Session.HeaderFirst
import SealedStream.Proofs.Session.Restarting
import SealedStream.Proofs.Stream.Complete
import SealedStream.Proofs.Stream.Sticky

/-!
# Failures, ends and headers

A reader that has failed stays so, and one that has come to its end. The two are not mistaken for each
other: over a session that demands something of its stream, a reader does not come to its end before
its source gave that (`enough_of_ended`); a decrypting session demands a header. What carries this is
that the session is where what the source gave has led it, unless the reader has failed (`Keeping`).
-/

namespace SealedStream

variable {σ κ ρ : Type}

/-! ## No end before a header -/

/-- What the source gave is counted from the last place it went to. -/
instance [Seekable σ ρ] : Seekable σ (Tapped ρ) where
  position
    | (source, env) =>
      match (Seekable.position : Transfer σ ρ Nat) (source.inner, env) with
      | .ok p t => .ok p ({ source with inner := t.1 }, t.2)
      | .error e t => .error e ({ source with inner := t.1 }, t.2)
  seek p
    | (source, env) =>
      match (Seekable.seek p : Transfer σ ρ Unit) (source.inner, env) with
      | .ok _ t => .ok () (⟨t.1, []⟩, t.2)
      | .error e t => .error e ({ source with inner := t.1 }, t.2)

instance [Abortable σ ρ] : Abortable σ (Tapped ρ) where
  abort s :=
    let (source, env) := s
    let (inner, env) := Abortable.abort (source.inner, env)
    ({ source with inner }, env)

namespace CipherReader

variable {enough : Bytes → Prop} {At : Bytes → κ → Prop} {Away : κ → Prop} {k : κ} {fuel : Nat}

/-- Unless the reader has failed, its session is where what the source gave has led it, and this was
enough if the reader is at its end. -/
structure Keeping (enough : Bytes → Prop) (At : Bytes → κ → Prop) (Away : κ → Prop)
    (s : State σ κ (Tapped ρ)) : Prop where
  away : Away s.1.session
  held : s.1.failed = none → At s.1.inner.given s.1.session
  enough : s.1.failed = none → s.1.eof = true → enough s.1.inner.given

/-- Whatever the source did that gave nothing. -/
theorem Keeping.source {s : State σ κ (Tapped ρ)} {i : Tapped ρ} {env : Env σ}
    (hs : Keeping enough At Away s) (hi : i.given = s.1.inner.given) :
    Keeping enough At Away ({ s.1 with inner := i }, env) := by
  refine ⟨hs.away, fun hf => ?_, fun hf he => ?_⟩
  · show At i.given s.1.session
    rw [hi]
    exact hs.held hf
  · show enough i.given
    rw [hi]
    exact hs.enough hf he

/-- What a reader may be cut short by: an error that it stores. -/
def Lost (Away : κ → Prop) (e : Error) (s : State σ κ (Tapped ρ)) : Prop :=
  e.isIo = false ∧ Away s.1.session

section

variable [Session κ σ] (hD : Session.Demands (σ := σ) enough At k) (hR : Session.Returns Away k)

include hR

theorem away_of_run {k₁ : κ} (h : Away k₁) (call : Session.Call) {w : σ}
    {res : EStateM.Result Error (κ × σ) Bytes} (hrun : call.run (k₁, w) = res) :
    Away (reached res).1 := by
  rw [← hrun]
  exact hR.keeps h call w

include hD

/-- Whatever call is made of the session, it gets to where the call leads it, or the reader has lost
it. -/
theorem keeping_call {s : State σ κ (Tapped ρ)} {fed : Bytes} (call : Session.Call)
    (haway : Away s.1.session) (hheld : s.1.failed = none → At fed s.1.session)
    (henough : s.1.failed = none → s.1.eof = true → enough fed)
    (hgiven : s.1.inner.given = fed ++ Session.fed [call]) :
    Paired (Itself (Keeping enough At Away)) (Lost Away)
      ((onSession call.run : Pull σ κ (Tapped ρ) Bytes) s) (onSession call.run s) := by
  obtain ⟨r, env⟩ := s
  rw [run_onSession]
  cases hrun : (call.run : Step (κ × σ) Bytes) (r.session, env.world) with
  | ok out u =>
    refine .ok out ⟨rfl, away_of_run hR haway call hrun, fun hf => ?_, fun hf he => ?_⟩
    · show At r.inner.given u.1
      rcases hD.run (hheld hf) call env.world with ⟨e, v, -, he⟩ | ⟨out', k', w', hok, hk'⟩
      · rw [hrun] at he
        cases he
      · rw [hrun] at hok
        cases hok
        rwa [hgiven]
    · show enough r.inner.given
      rw [hgiven]
      exact hD.mono (henough hf he) _
  | error e u =>
    have haway' := away_of_run hR haway call hrun
    by_cases hf : r.failed = none
    · rcases hD.run (hheld hf) call env.world with ⟨e', v, hio, he⟩ | ⟨out', k', w', hok, -⟩
      · rw [hrun] at he
        cases he
        exact .cut _ ⟨hio, haway'⟩
      · rw [hrun] at hok
        cases hok
    · exact .error e ⟨rfl, haway', fun h => absurd h hf, fun h => absurd h hf⟩

/-- At the end of the source the session has had enough, if it ends. -/
theorem keeping_finish {s : State σ κ (Tapped ρ)} (hs : Keeping enough At Away s) :
    Paired (Itself (Keeping enough At Away)) (Lost Away)
      ((finish : Pull σ κ (Tapped ρ) Bytes) s) (finish s) := by
  have hcall := keeping_call hD hR .finalize hs.away hs.held hs.enough (List.append_nil _).symm
  obtain ⟨r, env⟩ := s
  simp only [Session.Call.run, run_onSession] at hcall
  simp only [finish, run_bind, run_onSession]
  cases hrun : (Session.finalize : Step (κ × σ) Bytes) (r.session, env.world) with
  | error e u =>
    rw [hrun] at hcall
    exact hcall
  | ok out u =>
    rw [hrun] at hcall
    cases hcall with
    | ok _ h =>
      obtain ⟨-, haway, hheld, -⟩ := h
      exact .ok out ⟨rfl, haway, hheld, fun hf _ => hD.finalize (hs.held hf) hrun⟩

variable [Source σ ρ]

/-- With whatever block the source gives, the reader keeps to it or is cut short. -/
theorem keeping_pull :
    Alike (Itself (Keeping enough At Away)) (Lost Away)
      (pull fuel : Pull σ κ (Tapped ρ) (Bytes × Bool)) (pull fuel) := by
  rintro _ s ⟨rfl, hs⟩
  simp only [pull, run_bind]
  rcases readBlock_cases fuel s with ⟨e, u, hblock⟩ | ⟨block, u, hblock, -⟩
  · rcases readBlock_tapped fuel s with ⟨e', t, htapped, hkept⟩ | ⟨block, t, htapped, -⟩
    · rw [hblock] at htapped ⊢
      cases htapped
      cases hio : e.isIo with
      | false => exact .cut _ ⟨hio, hs.away⟩
      | true =>
        exact .error e ⟨rfl, hs.source (hkept hio).2⟩
    · rw [hblock] at htapped
      cases htapped
  · rcases readBlock_tapped fuel s with ⟨e', t, htapped, -⟩ | ⟨block', t, htapped, -, hgiven⟩
    · rw [hblock] at htapped
      cases htapped
    · rw [hblock] at htapped ⊢
      cases htapped
      simp only [run_ite]
      split
      · rename_i hnil
        rw [List.isEmpty_iff.mp hnil, List.append_nil] at hgiven
        refine Alike.bind (R := Itself (Keeping enough At Away)) ?_ (fun _ => .pure _) _ _
          ⟨rfl, hs.source hgiven⟩
        rintro _ t ⟨rfl, ht⟩
        exact keeping_finish hD hR ht
      · have hcall := keeping_call hD hR (s := ({ s.1 with inner := u.1 }, u.2))
          (.update block) hs.away hs.held hs.enough (by simpa [Session.fed] using hgiven)
        simp only [Session.Call.run] at hcall
        simp only [run_bind]
        generalize onSession (Session.update block) ({ s.1 with inner := u.1 }, u.2) = p at hcall ⊢
        cases hcall with
        | ok more h => exact .ok (more, false) h
        | error e h => exact .error e h
        | cut _ h => exact .cut _ h

theorem keeping_tandem :
    Tandem fuel (Itself (Keeping enough At Away : State σ κ (Tapped ρ) → Prop)) (Lost Away) where
  same := Itself.same
  noting := by
    rintro _ s ⟨rfl, hs⟩ n hn
    have hfailed : n.failed = s.1.failed := hn.failed
    have heof : n.eof = s.1.eof := hn.eof
    refine ⟨rfl, hs.away, fun hf => hs.held (hfailed.symm.trans hf), fun hf he => ?_⟩
    exact hs.enough (hfailed.symm.trans hf) (heof.symm.trans he)
  start := by
    rintro _ s ⟨rfl, hs⟩
    exact keeping_call hD hR .start hs.away hs.held hs.enough (List.append_nil _).symm
  pull := keeping_pull hD hR

/-- Uses keep it. -/
theorem keeping_use (use : Use) :
    Keeps (Keeping enough At Away : State σ κ (Tapped ρ) → Prop) (use.run fuel) := by
  refine keeps_use (keeping_tandem hD hR) (fun e hs => ?_) (fun e he => ?_) use
  · unfold poison
    split
    · exact hs
    · exact ⟨hs.away, fun h => absurd h (by simp), fun h => absurd h (by simp)⟩
  · obtain ⟨hio, haway⟩ := he
    simp only [poison, hio, Bool.false_eq_true, if_false]
    exact ⟨haway, fun h => absurd h (by simp), fun h => absurd h (by simp)⟩

variable [Seekable σ ρ] [Abortable σ ρ]

omit [Source σ ρ] [Abortable σ ρ] in
/-- A reset that succeeds counts from there on. -/
theorem keeping_reset :
    Keeps (Keeping enough At Away : State σ κ (Tapped ρ) → Prop) reset := by
  intro s hs
  cases hrun : (reset : Pull σ κ (Tapped ρ) Unit) s with
  | ok _ t =>
    obtain ⟨-, p, u, -, hseek, rfl⟩ := exists_of_reset hrun
    simp only [Seekable.seek] at hseek
    have hgiven : u.1.given = [] := by
      split at hseek <;> cases hseek
      rfl
    have hback : Session.restart s.1.session = k := hR.restart hs.away
    refine ⟨?_, fun _ => ?_, fun _ he => by cases he⟩
    · show Away (Session.restart s.1.session)
      rw [hback]
      exact hR.fresh
    · show At u.1.given (Session.restart s.1.session)
      rw [hgiven, hback]
      exact hD.fresh
  | error e t =>
    rcases cases_of_reset_error hrun with rfl | ⟨p, e', u, -, hseek, rfl⟩
    · exact hs
    · simp only [Seekable.seek] at hseek
      have hgiven : u.1.given = s.1.inner.given := by
        split at hseek <;> cases hseek
        rfl
      exact hs.source hgiven

theorem keeping_request (request : Request) :
    Keeps (Keeping enough At Away : State σ κ (Tapped ρ) → Prop) (request.run fuel) := by
  refine keeps_request (keeping_use hD hR) (keeps_setMark (keeps_onInner fun s hs => ?_) ?_)
    (keeping_reset hD hR) (fun s hs => ?_) request
  · refine hs.source ?_
    simp only [Seekable.position]
    split <;> rfl
  · exact fun _ _ hs => ⟨hs.away, hs.held, hs.enough⟩
  · exact ⟨hs.away, hs.held, hs.enough⟩

/-- **No end before a header.** A reader that reads nothing into a buffer with room for something has
taken enough of its source since it began or last went back. -/
theorem enough_of_ended {source : ρ} {blockSize n : Nat} {abort : AbortHandle} {env : Env σ}
    {s t : State σ κ (Tapped ρ)}
    (h : Leads fuel Any (new (⟨source, []⟩ : Tapped ρ) k blockSize abort, env) s) (hn : n ≠ 0)
    (hread : readBytes fuel n s = .ok [] t) : enough t.1.inner.given := by
  have hs : Keeping enough At Away s := by
    refine h.keeps (Keeping enough At Away) (fun request u _ hu => keeping_request hD hR request u hu)
      (fun u env _ hu => ⟨hu.away, hu.held, hu.enough⟩) ⟨hR.fresh, fun _ => hD.fresh, fun _ he => ?_⟩
    cases he
  have ht : Keeping enough At Away (reached ((Use.read n).run fuel s)) :=
    keeping_use hD hR (.read n) s hs
  simp only [Use.run, run_bind, hread] at ht
  have hsettled := settled_of_readBytes hn hread
  exact ht.enough hsettled.failed hsettled.eof

end

end CipherReader

open CipherReader

/-- A reader over the session `k` ends only if what its source gave since it was made, or since it last
went back, is `enough`. Whatever else was asked of it, and whatever failed. -/
def Session.EndsWith {κ : Type} [Session κ σ] (enough : Bytes → Prop) (k : κ) : Prop :=
  ∀ {ρ : Type} [Source σ ρ] [Seekable σ ρ] [Abortable σ ρ] (source : ρ) (blockSize : Nat)
    (abort : AbortHandle) (env : Env σ) {fuel n : Nat} {s t : State σ κ (Tapped ρ)},
    Leads fuel Any (CipherReader.new (⟨source, []⟩ : Tapped ρ) k blockSize abort, env) s → n ≠ 0 →
    readBytes fuel n s = .ok [] t → enough t.1.inner.given

/-- **Failures and ends stay, and are not mistaken for each other.** A read that fails, but not with a
failed transfer, fails for good: until a reset succeeds every use repeats its error, or says that the
reader is aborted, and nothing happens; closing does not finalize the session either, unless the read
met nothing but a raised flag. Likewise a read that gives nothing is the end. And a reader that
decrypts, over a bundled family or a dispatcher over these and a key wrap that does not fail with a
failed transfer, does not end before its source gave a header of the version that it expects which the
key wrap opens. -/
theorem failures_and_ends_stay :
    (∀ {κ ρ : Type} [Session κ σ] [Source σ ρ] [Seekable σ ρ] [Abortable σ ρ],
      Source.Upholds σ ρ → ∀ {fuel n : Nat} {s t u : State σ κ ρ} {e : Error},
        readBytes fuel n s = .error e t → e.isIo = false → Leads fuel Onward t u →
        Refuses fuel (if u.1.abort.isAborted u.2 then .aborted else e) u ∧
          (s.1.abort.check s.2 = .ok () ∨ s.1.failed ≠ none → Unfinalized u)) ∧
    (∀ {κ ρ : Type} [Session κ σ] [Source σ ρ] [Seekable σ ρ] [Abortable σ ρ] {fuel n : Nat}
      {s t u : State σ κ ρ}, n ≠ 0 → readBytes fuel n s = .ok [] t → Leads fuel Onward t u →
        Over fuel u) ∧
    (∀ (f : BundledFamily) (s : FamilySession σ CounterStream), s.Bundled f → s.mode = .decrypt →
      s.wrap.NeverIo → Session.EndsWith (σ := σ) (s.Opened f) s) ∧
    ∀ (families : UInt32 → BundledFamily) (d : Dispatcher σ (FamilySession σ CounterStream)),
      d.Bundled families → d.context.mode = .decrypt →
      (∀ {id make}, d.registry.get? id = some make → (make d.context).wrap.NeverIo) →
      Session.EndsWith (σ := σ) (d.Opened families) d := by
  refine ⟨fun hup _ _ _ _ _ _ h hio hu => failure_stays hup h hio hu,
    fun hn h hu => end_stays hn h hu, ?_, ?_⟩
  · intro f s hs hm hw ρ _ _ _ source blockSize abort env fuel n t u ht hn hread
    exact enough_of_ended (FamilySession.demands hm hs.phase hs.family hw env.world)
      (FamilySession.returns hs.phase) ht hn hread
  · intro families d hd hm hw ρ _ _ _ source blockSize abort env fuel n t u ht hn hread
    have hdemands := Dispatcher.demands hm hd.phase (hd.demanding hm hw env.world)
    exact Dispatcher.opened_of_enough
      (enough_of_ended hdemands (Dispatcher.returns hd.phase) ht hn hread)

section

open Scripted

/-- Scripted sources lower no flag. -/
theorem upholds_scripted {σ : Type} : Source.Upholds σ ScriptedSource where
  position := by
    rintro ⟨r, env⟩
    have h := below_runEvents r.seeks r.seekEvents env
    simp only [Seekable.position, ScriptedSource.seekCall]
    rcases hrun : runEvents r.seeks r.seekEvents env with ⟨_ | _ | _, env'⟩ <;>
      rw [hrun] at h <;> exact h
  seek p := by
    rintro ⟨r, env⟩
    have h := below_runEvents r.seeks r.seekEvents env
    simp only [Seekable.seek, ScriptedSource.seekCall]
    rcases hrun : runEvents r.seeks r.seekEvents env with ⟨_ | _ | _, env'⟩ <;>
      rw [hrun] at h <;> exact h
  abort := fun _ => .refl _

/-- Nor do they if they are tapped. -/
theorem upholds_tapped {σ : Type} : Source.Upholds σ (Tapped ScriptedSource) where
  position := by
    rintro ⟨⟨r, given⟩, env⟩
    have h := upholds_scripted.position (r, env)
    simp only [Seekable.position] at h ⊢
    split <;> simp_all [reached]
  seek p := by
    rintro ⟨⟨r, given⟩, env⟩
    have h := upholds_scripted.seek p (r, env)
    simp only [Seekable.seek] at h ⊢
    split <;> simp_all [reached]
  abort := fun _ => .refl _

theorem neverIo_identityWrap (i : Nat) : (identityWrap i).NeverIo := by
  intro wrapped w w' e h
  simp only [identityWrap] at h
  split at h <;> cases h
  rfl

theorem exists_of_outcome {ε τ α : Type} {r : EStateM.Result ε τ α} {a : α}
    (h : (outcome r).toOption = some a) : ∃ t, r = .ok a t := by
  cases r with
  | ok b t =>
    cases h
    exact ⟨t, rfl⟩
  | error e t => cases h

/-- A builder over scripted collaborators. -/
def identityBuilder : CipherBuilder World := ⟨identityWrap 0, randomSource 0, none, true, true⟩

/-- A header that its key wrap opens. -/
def clearHeader : Header := ⟨2, .replicate 16 1, .replicate 16 1⟩

/-- Reads a stream of one family. -/
def familyReading (data : Bytes) :
    State World (FamilySession World CounterStream) (Tapped ScriptedSource) :=
  (CipherReader.new ⟨{ data := data.toArray }, []⟩
    (identityBuilder.familySession BundledFamily.sm4.family .decrypt) 64, ⟨[], {}⟩)

/-- Reads a stream of any bundled family. -/
def dispatchedReading (data : Bytes) :
    State World (Dispatcher World (FamilySession World CounterStream)) (Tapped ScriptedSource) :=
  (CipherReader.new ⟨{ data := data.toArray }, []⟩
    (identityBuilder.dispatcher .decrypt (Registry.bundled id id) 1 none) 64, ⟨[], {}⟩)

/-- The stream breaks off within the header. -/
theorem readBytes_familyReading : outcome (readBytes 90 4 (familyReading [0, 0, 0, 2, 0])) =
    .error (.truncatedHeader 5) :=
  rfl

/-- A reader whose stream breaks off within the header is refused from then on, while readers of
headers that stand alone are at their ends. -/
theorem failures_and_ends_stay_headers :
    (∃ t, readBytes 90 4 (familyReading [0, 0, 0, 2, 0]) = .error (.truncatedHeader 5) t ∧
      Refuses 90 .aborted (Abortable.abort t) ∧ Unfinalized (Abortable.abort t)) ∧
    (∃ t, readBytes 90 4 (familyReading clearHeader.encode) = .ok [] t ∧ Over 90 t ∧
      (identityBuilder.familySession BundledFamily.sm4.family .decrypt).Opened .sm4
        t.1.inner.given) ∧
    ∃ t, readBytes 90 4 (dispatchedReading (Bytes.be32 2 ++ clearHeader.encode)) = .ok [] t ∧
      (identityBuilder.dispatcher .decrypt (Registry.bundled id id) 1 none).Opened
        CipherBuilder.familyOf t.1.inner.given := by
  obtain ⟨hfailure, hend, hfamily, hdispatcher⟩ := failures_and_ends_stay (σ := World)
  refine ⟨?_, ?_, ?_⟩
  · obtain ⟨t, ht⟩ := outcome_eq_error.mp readBytes_familyReading
    have hleads : Leads 90 Onward t (Abortable.abort t) := .request .abort .refl (by simp [Onward])
    obtain ⟨hrefuses, hclose⟩ := hfailure upholds_tapped ht rfl hleads
    have hraised : (Abortable.abort t).1.abort.isAborted (Abortable.abort t).2 = true :=
      t.1.abort.isAborted_abort t.2
    rw [if_pos hraised] at hrefuses
    exact ⟨t, ht, hrefuses, hclose (.inl rfl)⟩
  · have hread : (outcome (readBytes 90 4 (familyReading clearHeader.encode))).toOption = some [] := by
      decide +kernel
    obtain ⟨t, ht⟩ := exists_of_outcome hread
    have hleads : Leads 90 Any (familyReading clearHeader.encode) (familyReading clearHeader.encode) :=
      .refl
    refine ⟨t, ht, hend (by decide) ht .refl, ?_⟩
    exact hfamily .sm4 _ (identityBuilder.bundled_familySession .sm4 .decrypt) rfl
      (neverIo_identityWrap 0) { data := clearHeader.encode.toArray } 64 (.own false) ⟨[], {}⟩ hleads
      (by decide) ht
  · have hread : (outcome (readBytes 90 4
        (dispatchedReading (Bytes.be32 2 ++ clearHeader.encode)))).toOption = some [] := by
      decide +kernel
    obtain ⟨t, ht⟩ := exists_of_outcome hread
    have hleads : Leads 90 Any (dispatchedReading (Bytes.be32 2 ++ clearHeader.encode))
        (dispatchedReading (Bytes.be32 2 ++ clearHeader.encode)) := .refl
    have hregistry : (identityBuilder.dispatcher .decrypt (Registry.bundled id id) 1 none).registry =
        Registry.bundled id id := rfl
    refine ⟨t, ht, ?_⟩
    refine hdispatcher CipherBuilder.familyOf _ (identityBuilder.bundled_dispatcher .decrypt 1 none)
      rfl (fun hmake => ?_) { data := (Bytes.be32 2 ++ clearHeader.encode).toArray } 64 (.own false)
      ⟨[], {}⟩ hleads (by decide) ht
    rw [hregistry] at hmake
    rw [CipherBuilder.eq_familySession_of_bundled hmake]
    exact neverIo_identityWrap 0

/-- A reader that has given out its header and was aborted. -/
def halted : State World (FamilySession World HoldCipher) ScriptedSource :=
  Abortable.abort (reached ((Use.read 99).run 90
    (CipherReader.new { data := #[1] } holdSession 8, ⟨[], holdWorld []⟩)))

/-- How often content ciphers were finalized. -/
def finals (s : State World (FamilySession World HoldCipher) ScriptedSource) : List Nat :=
  s.2.world.families.map fun cell => cell.finals.calls

/-- A reader that has given out its header, and whose source fails with an error that carries an
error twice over. -/
def stumbling : State World (FamilySession World HoldCipher) ScriptedSource :=
  reached ((Use.read 99).run 90
    (CipherReader.new
      { data := #[1], readEvents := [(0, .fail (.carrying .other (.io (.carrying .other
        (.header (.reported "refused"))))))] } holdSession 8, ⟨[], holdWorld []⟩))

/-- A reader that refuses to read only since it is aborted still finalizes its session when it is
closed. And an error that a failed transfer carries comes out as the error of a read without being
stored: the next read goes on. -/
theorem failures_unstored :
    (outcome ((Use.read 4).run 90 halted) = .error .aborted ∧ finals halted = [0] ∧
      finals (reached (close (reached ((Use.read 4).run 90 halted)))) = [1]) ∧
    ∃ e, outcome ((Source.read 90 9 : Transfer World (CipherReader _ ScriptedSource) Bytes)
        stumbling) = .error e ∧ Error.ofIo e = .header (.reported "refused") ∧
      outcome ((Source.read 90 9 : Transfer World (CipherReader _ ScriptedSource) Bytes)
        (reached ((Source.read 90 9 : Transfer World (CipherReader _ ScriptedSource) Bytes)
          stumbling))) = .ok [3] :=
  ⟨⟨rfl, rfl, rfl⟩, _, rfl, rfl, rfl⟩

end

end SealedStream
