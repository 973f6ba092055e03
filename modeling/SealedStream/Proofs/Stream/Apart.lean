import SealedStream.Proofs.Stream.Decrypt
import SealedStream.Proofs.Stream.Recording
import SealedStream.Proofs.Stream.Tandem
import SealedStream.Proofs.Stream.Trailing

/-!
# The same stream in worlds apart

Two decrypting sessions of a bundled family may live in worlds of their own, each with a key wrap of
its own. If the key wraps unwrap alike, the sessions do the same with the same bytes
(`FamilySession.apart_call`), and so do readers, copies and whole streams over them
(`decrypt_apart`): no matter what goes on in either world, the outcome is the same, and so is what is
left of the source and what the sink got.
-/

namespace SealedStream

variable {σ τ ρ ρ' ς ο ο' α ε : Type}

/-- Two steps, each on an object of its own and in a world of its own. They come to the same and keep
the objects in the relation `B`, whatever the worlds are. -/
def Apart (B : ο → ο' → Prop) (x : EStateM ε (ο × σ) α) (y : EStateM ε (ο' × τ) α) : Prop :=
  Alike (fun s t => B s.1 t.1) (fun _ _ => False) x y

/-! ## Opening a header -/

/-- Two key wraps, each in its own world, unwrap alike, whatever the worlds are. -/
def KeyWrap.Agrees (wrap : KeyWrap σ) (wrap' : KeyWrap τ) : Prop :=
  ∀ wrapped w w', outcome (wrap.unwrap wrapped w) = outcome (wrap'.unwrap wrapped w')

namespace BundledFamily

variable (f : BundledFamily)

/-- What a family asks for and says of itself is the same in every world. -/
theorem same_in_worlds :
    (f.family : CipherFamily σ CounterStream).name = (f.family : CipherFamily τ CounterStream).name ∧
    (f.family : CipherFamily σ CounterStream).ivLen =
      (f.family : CipherFamily τ CounterStream).ivLen ∧
    (f.family : CipherFamily σ CounterStream).keyLen =
      (f.family : CipherFamily τ CounterStream).keyLen := by
  cases f with
  | aes => exact ⟨rfl, rfl, rfl⟩
  | sm4 => exact ⟨rfl, rfl, rfl⟩

end BundledFamily

theorem KeyMaterial.outcome_openHeader {wrap : KeyWrap σ} {wrap' : KeyWrap τ}
    (hw : wrap.Agrees wrap') (h : Header) (f : BundledFamily) (w : σ) (w' : τ) :
    outcome (openHeader h wrap (f.family : CipherFamily σ CounterStream) w) =
      outcome (openHeader h wrap' (f.family : CipherFamily τ CounterStream) w') := by
  obtain ⟨hname, hiv, hkey⟩ := f.same_in_worlds (σ := σ) (τ := τ)
  refine Paired.outcome_eq (R := fun _ _ => True) ?_
  rw [openHeader_eq, openHeader_eq, hname, hiv, hkey]
  refine Alike.bind (.of_outcome (hw h.wrappedIv)) (fun iv => .ite _ (.throw _) ?_) w w' trivial
  exact .bind (.of_outcome (hw h.wrappedKey)) fun key => .ite _ (.throw _) (.pure _)

/-! ## Sessions -/

namespace FamilySession

/-- Decrypting sessions of one family that are equally far, in worlds apart. -/
structure Twin (f : BundledFamily) (s : FamilySession σ CounterStream)
    (t : FamilySession τ CounterStream) : Prop where
  mode : s.mode = .decrypt
  mode' : t.mode = .decrypt
  family : s.family = f.family
  family' : t.family = f.family
  options : t.options = s.options
  phase : t.phase = s.phase
  wrap : s.wrap.Agrees t.wrap

namespace Twin

variable {f : BundledFamily} {s : FamilySession σ CounterStream}
  {t : FamilySession τ CounterStream} (h : Twin f s t)

include h

theorem setPhase (phase : FamilyPhase CounterStream) :
    Twin f { s with phase } { t with phase } :=
  ⟨h.mode, h.mode', h.family, h.family', h.options, rfl, h.wrap⟩

theorem expectedVersion : t.expectedVersion = s.expectedVersion := by
  unfold FamilySession.expectedVersion
  rw [h.options]

theorem openNew (hdr : Header) (w : σ) (v : τ) :
    outcome (s.openNew hdr w) = outcome (t.openNew hdr v) := by
  have hopen := KeyMaterial.outcome_openHeader h.wrap hdr f w v
  rw [← h.family, ← h.family'] at hopen
  cases ho : outcome (KeyMaterial.openHeader hdr s.wrap s.family w) with
  | error e =>
    obtain ⟨w', hw⟩ := openNew_eq_error ho
    obtain ⟨v', hv⟩ := openNew_eq_error (hopen.symm.trans ho)
    rw [hw, hv]
    rfl
  | ok m =>
    obtain ⟨w', hw⟩ := openNew_eq_ok h.family ho
    obtain ⟨v', hv⟩ := openNew_eq_ok h.family' (hopen.symm.trans ho)
    rw [hw, hv]
    rfl

end Twin

variable {f : BundledFamily}

theorem apart_feedHeader (buffered input : Bytes) :
    Apart (ε := Error) (Twin (σ := σ) (τ := τ) f) (feedHeader buffered input)
      (feedHeader buffered input) := by
  rintro ⟨s, w⟩ ⟨t, v⟩ h
  have h : Twin f s t := h
  have hversion := h.expectedVersion
  cases hd : Header.decode (buffered ++ input) s.expectedVersion with
  | error e =>
    have hd' := hd
    rw [← hversion] at hd'
    rw [feedHeader_refused hd, feedHeader_refused hd']
    exact .error e (h.setPhase _)
  | ok d =>
    have hd' := hd
    rw [← hversion] at hd'
    cases d with
    | needMore =>
      rw [feedHeader_needMore hd, feedHeader_needMore hd']
      exact .ok [] (h.setPhase _)
    | complete hdr n =>
      have ho := h.openNew hdr w v
      cases hs : s.openNew hdr w with
      | error e w' =>
        rw [hs] at ho
        obtain ⟨v', ht⟩ := outcome_eq_error.mp ho.symm
        rw [feedHeader_unopened hd hs, feedHeader_unopened hd' ht]
        exact .error e (h.setPhase _)
      | ok c w' =>
        rw [hs] at ho
        obtain ⟨v', ht⟩ := outcome_eq_ok.mp ho.symm
        rw [feedHeader_stream hd hs, feedHeader_stream hd' ht]
        exact .ok _ (h.setPhase _)

/-- **Sessions in worlds apart answer alike.** -/
theorem apart_call (call : Session.Call) :
    Apart (Twin (σ := σ) (τ := τ) f) (call.run : Step (FamilySession σ CounterStream × σ) Bytes)
      (call.run : Step (FamilySession τ CounterStream × τ) Bytes) := by
  rintro ⟨s, w⟩ ⟨t, v⟩ h
  have h : Twin f s t := h
  cases call with
  | start =>
    show Paired _ _ (start (s, w)) (start (t, v))
    rw [start_decrypt h.mode, start_decrypt h.mode']
    exact .ok [] h
  | update input =>
    show Paired _ _ (update input (s, w)) (update input (t, v))
    cases hp : s.phase with
    | awaiting buffered =>
      rw [update_awaiting h.mode hp, update_awaiting h.mode' (h.phase.trans hp)]
      exact apart_feedHeader buffered input (s, w) (t, v) h
    | ready c =>
      rw [update_stream hp, update_stream (h.phase.trans hp)]
      exact .ok _ (h.setPhase _)
  | finalize =>
    show Paired _ _ (finalize (s, w)) (finalize (t, v))
    cases hp : s.phase with
    | awaiting buffered =>
      rw [finalize_awaiting h.mode hp, finalize_awaiting h.mode' (h.phase.trans hp)]
      exact .error _ h
    | ready c =>
      rw [finalize_ready hp, finalize_ready (h.phase.trans hp)]
      exact .ok [] (h.setPhase (.ready c))

end FamilySession

/-! ## Readers -/

namespace CipherReader

/-- Readers that are equally far with the same source, through sessions in worlds apart. -/
structure Twin (f : BundledFamily) (r : CipherReader (FamilySession σ CounterStream) ρ)
    (r' : CipherReader (FamilySession τ CounterStream) ρ) : Prop where
  session : FamilySession.Twin f r.session r'.session
  inner : r'.inner = r.inner
  blockSize : r'.blockSize = r.blockSize
  notes : r'.notes = r.notes
  abort : r'.abort = r.abort
  own : ∃ raised, r.abort = .own raised

variable {f : BundledFamily}

namespace Twin

variable {r : CipherReader (FamilySession σ CounterStream) ρ}
  {r' : CipherReader (FamilySession τ CounterStream) ρ} (h : Twin f r r')

include h

theorem check (env : Env σ) (env' : Env τ) : r'.abort.check env' = r.abort.check env := by
  obtain ⟨raised, hown⟩ := h.own
  rw [h.abort, hown]
  rfl

theorem noting (n : Notes) : Twin f (r.noting n) (r'.noting n) :=
  ⟨h.session, h.inner, h.blockSize, rfl, h.abort, h.own⟩

theorem poison (e : Error) : Twin f (poison e r) (poison e r') := by
  have hnotes := h.notes
  unfold CipherReader.poison
  split
  · exact h
  · have hn := h.noting { r.notes with failed := some e.recorded }
    have hr' : r'.noting { r.notes with failed := some e.recorded } =
        { r' with failed := some e.recorded } := by
      rw [← hnotes]
      rfl
    rwa [hr'] at hn

end Twin

variable [Source σ ρ] [Source τ ρ] {fuel : Nat}

omit [Source σ ρ] [Source τ ρ] in
theorem apart_onSession (call : Session.Call) :
    Apart (Twin (ρ := ρ) f)
      (onSession call.run : Pull σ (FamilySession σ CounterStream) ρ Bytes)
      (onSession call.run : Pull τ (FamilySession τ CounterStream) ρ Bytes) := by
  rintro ⟨r, env⟩ ⟨r', env'⟩ h
  have h : Twin f r r' := h
  have hcall := FamilySession.apart_call call (r.session, env.world) (r'.session, env'.world)
    h.session
  rw [run_onSession, run_onSession]
  generalize (call.run : Step (FamilySession σ CounterStream × σ) Bytes) (r.session, env.world) = p,
    (call.run : Step (FamilySession τ CounterStream × τ) Bytes) (r'.session, env'.world) = q
    at hcall
  cases hcall with
  | ok out hk => exact .ok out ⟨hk, h.inner, h.blockSize, h.notes, h.abort, h.own⟩
  | error e hk => exact .error e ⟨hk, h.inner, h.blockSize, h.notes, h.abort, h.own⟩
  | cut _ hfalse => exact hfalse.elim

omit [Source σ ρ] [Source τ ρ] in
theorem apart_checkAbort :
    Apart (Twin (ρ := ρ) f) (checkAbort : Pull σ (FamilySession σ CounterStream) ρ Unit)
      (checkAbort : Pull τ (FamilySession τ CounterStream) ρ Unit) := by
  refine .get_bind ?_
  rintro ⟨r, env⟩ ⟨r', env'⟩ h
  have h : Twin f r r' := h
  show Paired _ _ (SealedStream.check (r.abort.check env) _)
    (SealedStream.check (r'.abort.check env') _)
  rw [h.check env env']
  exact Alike.check _ _ _ h

variable (hread : ∀ n, Apart Eq (Source.read fuel n : Transfer σ ρ Bytes)
  (Source.read fuel n : Transfer τ ρ Bytes))

include hread

theorem apart_readInner (n : Nat) :
    Apart (Twin f)
      (onInner (Source.read fuel n) : Pull σ (FamilySession σ CounterStream) ρ Bytes)
      (onInner (Source.read fuel n) : Pull τ (FamilySession τ CounterStream) ρ Bytes) := by
  rintro ⟨r, env⟩ ⟨r', env'⟩ h
  have h : Twin f r r' := h
  have hn := hread n (r.inner, env) (r'.inner, env') h.inner.symm
  rw [run_onInner, run_onInner]
  generalize (Source.read fuel n : Transfer σ ρ Bytes) (r.inner, env) = p,
    (Source.read fuel n : Transfer τ ρ Bytes) (r'.inner, env') = q at hn
  cases hn with
  | ok bytes hi => exact .ok bytes ⟨h.session, hi.symm, h.blockSize, h.notes, h.abort, h.own⟩
  | error e hi => exact .error _ ⟨h.session, hi.symm, h.blockSize, h.notes, h.abort, h.own⟩
  | cut _ hfalse => exact hfalse.elim

theorem apart_readBlock :
    Apart (Twin f) (readBlock fuel : Pull σ (FamilySession σ CounterStream) ρ Bytes)
      (readBlock fuel : Pull τ (FamilySession τ CounterStream) ρ Bytes) := by
  refine .get_bind ?_
  rintro ⟨r, env⟩ ⟨r', env'⟩ h
  have hblock : r'.blockSize = r.blockSize := Twin.blockSize h
  simp only [hblock]
  exact Alike.bind (apart_readInner hread _) (fun block => .bind apart_checkAbort fun _ =>
    .pure block) _ _ h

theorem tandem_apart :
    Tandem fuel (fun (s : State σ (FamilySession σ CounterStream) ρ)
      (t : State τ (FamilySession τ CounterStream) ρ) => Twin f s.1 t.1) fun _ _ => False := by
  refine .of_parts ?_ (fun h n => h.noting n) apart_onSession (apart_readBlock hread)
  rintro ⟨r, env⟩ ⟨r', env'⟩ h
  have h : Twin f r r' := h
  refine ⟨h.check env env', h.session.mode'.trans h.session.mode.symm, ?_, h.notes⟩
  show r'.session.isReady = r.session.isReady
  unfold FamilySession.isReady
  rw [h.session.phase]

/-- **Readers in worlds apart read alike.** -/
theorem apart_read (n : Nat) :
    Apart (Twin f)
      (Source.read fuel n : Transfer σ (CipherReader (FamilySession σ CounterStream) ρ) Bytes)
      (Source.read fuel n : Transfer τ (CipherReader (FamilySession τ CounterStream) ρ) Bytes) := by
  have hbytes := (tandem_apart (f := f) hread).readBytes (fun e h => h.poison e) n
  exact hbytes.adaptExcept Error.toIo fun _ _ ⟨_, hfalse, _⟩ => hfalse

end CipherReader

/-! ## Copies -/

section

variable [Sink σ ς] [Sink τ ς] {fuel : Nat}

theorem Sink.apart_writeAll (hwrite : ∀ bytes, Apart Eq (Sink.write fuel bytes : Transfer σ ς Nat)
      (Sink.write fuel bytes : Transfer τ ς Nat)) (bytes : Bytes) :
    Apart Eq (writeAll fuel bytes : Transfer σ ς Unit) (writeAll fuel bytes : Transfer τ ς Unit) :=
  (trails_writeAllLoop (fun bytes => .of_alike (hwrite bytes)) fuel bytes).alike

variable [Source σ ρ] [Source τ ρ'] {B : ρ → ρ' → Prop}

/-- By induction on the rounds. -/
theorem apart_copyLoop
    (hread : ∀ n, Apart B (Source.read fuel n : Transfer σ ρ Bytes)
      (Source.read fuel n : Transfer τ ρ' Bytes))
    (hwrite : ∀ bytes, Apart Eq (Sink.write fuel bytes : Transfer σ ς Nat)
      (Sink.write fuel bytes : Transfer τ ς Nat)) : ∀ rounds count : Nat,
    Apart (fun p q => B p.1 q.1 ∧ p.2 = q.2) (copyLoop fuel rounds count : Transfer σ (ρ × ς) Nat)
      (copyLoop fuel rounds count : Transfer τ (ρ' × ς) Nat)
  | 0, _ => .throw _
  | rounds + 1, count => by
    rintro ⟨⟨r, s⟩, env⟩ ⟨⟨r', s'⟩, env'⟩ ⟨hr, hs⟩
    have hr : B r r' := hr
    have hs : s = s' := hs
    have hn := hread Source.copyLen (r, env) (r', env') hr
    simp only [copyLoop]
    generalize (Source.read fuel Source.copyLen : Transfer σ ρ Bytes) (r, env) = p,
      (Source.read fuel Source.copyLen : Transfer τ ρ' Bytes) (r', env') = q at hn
    cases hn with
    | @ok bytes u v huv =>
      cases bytes with
      | nil => exact .ok count ⟨huv, hs⟩
      | cons b bs =>
        have hb := Sink.apart_writeAll hwrite (b :: bs) (s, u.2) (s', v.2) hs
        simp only
        generalize (Sink.writeAll fuel (b :: bs) : Transfer σ ς Unit) (s, u.2) = p,
          (Sink.writeAll fuel (b :: bs) : Transfer τ ς Unit) (s', v.2) = q at hb
        cases hb with
        | ok _ hst =>
          exact apart_copyLoop hread hwrite rounds _ ((_, _), _) ((_, _), _) ⟨huv, hst⟩
        | error e hst => exact .error e ⟨huv, hst⟩
        | cut _ hfalse => exact hfalse.elim
    | error e huv =>
      cases he : e.isInterrupted with
      | true =>
        simp only [he, if_true]
        exact apart_copyLoop hread hwrite rounds _ ((_, _), _) ((_, _), _) ⟨huv, hs⟩
      | false =>
        simp only [he, Bool.false_eq_true, if_false]
        exact .error e ⟨huv, hs⟩
    | cut _ hfalse => exact hfalse.elim

end

/-! ## Whole streams -/

/-- Transfers on the streams of these types do not depend on the world. -/
structure Aside (σ τ ρ ς : Type) [Source σ ρ] [Source τ ρ] [Sink σ ς] [Sink τ ς] (fuel : Nat) :
    Prop where
  read : ∀ n, Apart Eq (Source.read fuel n : Transfer σ ρ Bytes)
    (Source.read fuel n : Transfer τ ρ Bytes)
  write : ∀ bytes, Apart Eq (Sink.write fuel bytes : Transfer σ ς Nat)
    (Sink.write fuel bytes : Transfer τ ς Nat)
  flush : Apart Eq (Sink.flush fuel : Transfer σ ς Unit) (Sink.flush fuel : Transfer τ ς Unit)

/-- **What a stream decrypts to does not depend on the world**, nor on the key wrap as long as this
unwraps the same: neither the outcome, nor what is left of the source, nor what is in the sink. -/
theorem decrypt_apart [Source σ ρ] [Source τ ρ] [Sink σ ς] [Sink τ ς] {fuel : Nat}
    (haside : Aside σ τ ρ ς fuel) {f : BundledFamily} {k : FamilySession σ CounterStream}
    {k' : FamilySession τ CounterStream} (h : FamilySession.Twin f k k') :
    Apart Eq (decrypt fuel k : EStateM Error ((ρ × ς) × Env σ) Nat)
      (decrypt fuel k' : EStateM Error ((ρ × ς) × Env τ) Nat) := by
  rintro ⟨⟨source, sink⟩, env⟩ ⟨_, env'⟩ rfl
  have htwin : CipherReader.Twin f (CipherReader.new source k) (CipherReader.new source k') :=
    ⟨h, rfl, rfl, rfl, rfl, false, rfl⟩
  have hcopy := apart_copyLoop (CipherReader.apart_read (f := f) haside.read) haside.write fuel 0
    ((CipherReader.new source k, sink), env) ((CipherReader.new source k', sink), env') ⟨htwin, rfl⟩
  have hm : Session.mode k = .decrypt := h.mode
  have hm' : Session.mode k' = .decrypt := h.mode'
  simp only [decrypt, hm, hm', ne_eq, not_true_eq_false, if_false, copy]
  generalize (copyLoop fuel fuel 0 : Transfer σ _ Nat) ((CipherReader.new source k, sink), env) = p,
    (copyLoop fuel fuel 0 : Transfer τ _ Nat) ((CipherReader.new source k', sink), env') = q at hcopy
  cases hcopy with
  | @ok n u v huv =>
    have hflush := haside.flush (u.1.2, u.2) (v.1.2, v.2) huv.2
    simp only
    generalize (Sink.flush fuel : Transfer σ ς Unit) (u.1.2, u.2) = p,
      (Sink.flush fuel : Transfer τ ς Unit) (v.1.2, v.2) = q at hflush
    cases hflush with
    | ok _ hst => exact .ok n (Prod.ext huv.1.inner.symm hst)
    | error e hst => exact .error _ (Prod.ext huv.1.inner.symm hst)
    | cut _ hfalse => exact hfalse.elim
  | error e huv => exact .error _ (Prod.ext huv.1.inner.symm huv.2)
  | cut _ hfalse => exact hfalse.elim

/-! ## Scripted streams -/

namespace Scripted

theorem fst_runEvents (k : Nat) (events : Schedule) (env : Env σ) (env' : Env τ) :
    (runEvents k events env).1 = (runEvents k events env').1 := by
  induction events generalizing env env' with
  | nil => rfl
  | cons event events ih =>
    obtain ⟨call, event⟩ := event
    by_cases hcall : call = k
    · cases event with
      | fail e => simp only [runEvents, if_pos hcall]
      | zero => simp only [runEvents, if_pos hcall]
      | raise flag =>
        simp only [runEvents, if_pos hcall]
        exact ih _ _
    · cases event <;> simp only [runEvents, if_neg hcall] <;> exact ih _ _

/-- Scripted streams do not depend on the world, whatever befalls them. -/
theorem aside (σ τ : Type) (fuel : Nat) : Aside σ τ ScriptedSource ScriptedSink fuel where
  read := by
    rintro n ⟨r, env⟩ ⟨_, env'⟩ rfl
    have h := fst_runEvents r.reads r.readEvents env env'
    simp only [Source.read]
    generalize runEvents r.reads r.readEvents env = p, runEvents r.reads r.readEvents env' = q at h
    obtain ⟨cut, env⟩ := p
    obtain ⟨_, env'⟩ := q
    cases h
    cases cut with
    | none => exact .ok _ rfl
    | some cut =>
      cases cut with
      | fail e => exact .error e rfl
      | zero => exact .ok [] rfl
  write := by
    rintro bytes ⟨w, env⟩ ⟨_, env'⟩ rfl
    have h := fst_runEvents w.writes w.writeEvents env env'
    simp only [Sink.write]
    generalize runEvents w.writes w.writeEvents env = p,
      runEvents w.writes w.writeEvents env' = q at h
    obtain ⟨cut, env⟩ := p
    obtain ⟨_, env'⟩ := q
    cases h
    cases cut with
    | none => exact .ok _ rfl
    | some cut =>
      cases cut with
      | fail e => exact .error e rfl
      | zero => exact .ok 0 rfl
  flush := by
    rintro ⟨w, env⟩ ⟨_, env'⟩ rfl
    have h := fst_runEvents w.flushes w.flushEvents env env'
    simp only [Sink.flush]
    generalize runEvents w.flushes w.flushEvents env = p,
      runEvents w.flushes w.flushEvents env' = q at h
    obtain ⟨cut, env⟩ := p
    obtain ⟨_, env'⟩ := q
    cases h
    cases cut with
    | none => exact .ok () rfl
    | some cut =>
      cases cut with
      | fail e => exact .error e rfl
      | zero => exact .ok () rfl

end Scripted

end SealedStream
