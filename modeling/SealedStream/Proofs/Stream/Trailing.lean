import SealedStream.Proofs.Stream.Encrypt

/-!
# Writing in trail

Two writers over sinks of any types, of which the first may be cut short: its sink refuses what the
other takes, or its flag is up. If sinks go side by side, or the one is left behind (`Sink.Abreast`), so
do the writers, whatever they are used for (`CipherWriter.trails_write` and so on). With a writer
beside itself the lemmas say what every use keeps.
-/

namespace SealedStream

variable {σ κ ς ς' : Type}

/-- An error that a loop of writes does not try again. -/
def Lasting (e : IoError) : Prop := e.isInterrupted = false

/-- Sinks in the relation `R` take what they are given alike, or the first one is cut short and left
behind, as `L` says. In between the sessions move the world. `h` and `h'` are the flags that the
writers look at: if they do not see the same, the first one is aborted. -/
structure Sink.Abreast [Sink σ ς] [Sink σ ς'] (fuel : Nat) (h h' : AbortHandle)
    (R L : ς × Env σ → ς' × Env σ → Prop) : Prop where
  world : ∀ {s t}, R s t → t.2.world = s.2.world
  moved : ∀ {s t}, R s t → ∀ w, R (s.1, { s.2 with world := w }) (t.1, { t.2 with world := w })
  late : ∀ {s t}, L s t → ∀ w, L s (t.1, { t.2 with world := w })
  check : ∀ {s t}, R s t →
    h'.check t.2 = h.check s.2 ∨ h.check s.2 = .error .aborted ∧ L s t
  write : ∀ bytes, Trails R Lasting L (Sink.write fuel bytes : Transfer σ ς Nat) (Sink.write fuel bytes)
  flush : Trails R Lasting L (Sink.flush fuel : Transfer σ ς Unit) (Sink.flush fuel)

namespace Sink

section

variable [Sink σ ς] {fuel : Nat} {I : ς × Env σ → Prop}

/-- How a loop of writes goes on behind one of them. -/
def rest (fuel rounds : Nat) (bytes : Bytes) :
    EStateM.Result IoError (ς × Env σ) Nat → EStateM.Result IoError (ς × Env σ) Unit
  | .ok 0 s => .error (.plain .writeZero "failed to write whole buffer") s
  | .ok n s => writeAllLoop fuel rounds (bytes.drop n) s
  | .error e s => if e.isInterrupted then writeAllLoop fuel rounds bytes s else .error e s

theorem writeAllLoop_cons (rounds : Nat) (b : UInt8) (bs : Bytes) (s : ς × Env σ) :
    writeAllLoop fuel (rounds + 1) (b :: bs) s =
      rest fuel rounds (b :: bs) (write fuel (b :: bs) s) := by
  simp only [writeAllLoop]
  rcases write fuel (b :: bs) s with ⟨_ | n, t⟩ | ⟨e, t⟩ <;> rfl

theorem rest_keeps {rounds : Nat} {bytes : Bytes}
    (hloop : ∀ bytes, Keeps I (writeAllLoop fuel rounds bytes : Transfer σ ς Unit))
    {q : EStateM.Result IoError (ς × Env σ) Nat} (hq : I (reached q)) :
    I (reached (rest fuel rounds bytes q)) := by
  rcases q with ⟨_ | n, t⟩ | ⟨e, t⟩
  · exact hq
  · exact hloop _ t hq
  · simp only [rest]
    split
    · exact hloop _ t hq
    · exact hq

/-- What every write keeps a loop of them keeps; by induction on the rounds. -/
theorem keeps_writeAllLoop (h : ∀ bytes, Keeps I (write fuel bytes : Transfer σ ς Nat)) :
    ∀ (rounds : Nat) (bytes : Bytes), Keeps I (writeAllLoop fuel rounds bytes : Transfer σ ς Unit)
  | 0, [] => .pure ()
  | _ + 1, [] => .pure ()
  | 0, _ :: _ => .throw _
  | rounds + 1, b :: bs => by
    intro s hs
    rw [writeAllLoop_cons]
    exact rest_keeps (keeps_writeAllLoop h rounds) (h (b :: bs) s hs)

end

variable {τ : Type} [Sink σ ς] [Sink τ ς'] {fuel : Nat} {R L : ς × Env σ → ς' × Env τ → Prop}

/-- Loops of writes go side by side, or one behind, if their writes do. By induction on the rounds. -/
theorem trails_writeAllLoop (hwrite : ∀ bytes,
      Trails R Lasting L (write fuel bytes : Transfer σ ς Nat) (write fuel bytes : Transfer τ ς' Nat)) :
    ∀ (rounds : Nat) (bytes : Bytes),
      Trails R Lasting L (writeAllLoop fuel rounds bytes : Transfer σ ς Unit)
        (writeAllLoop fuel rounds bytes : Transfer τ ς' Unit)
  | 0, [] => .pure ()
  | _ + 1, [] => .pure ()
  | 0, _ :: _ => .throw _
  | rounds + 1, b :: bs => by
    have hkeeps (s : ς × Env σ) := keeps_writeAllLoop fun bytes => (hwrite bytes).keeps s
    refine ⟨fun s t hst => ?_, fun s => hkeeps s (rounds + 1) (b :: bs)⟩
    have hb := (hwrite (b :: bs)).run s t hst
    rw [writeAllLoop_cons, writeAllLoop_cons]
    generalize Sink.write fuel (b :: bs) s = p, Sink.write fuel (b :: bs) t = q at hb
    cases hb with
    | ok n huv =>
      cases n with
      | zero => exact .error _ huv
      | succ n => exact (trails_writeAllLoop hwrite rounds _).run _ _ huv
    | error e huv =>
      simp only [rest]
      split
      · exact (trails_writeAllLoop hwrite rounds _).run _ _ huv
      · exact .error _ huv
    | @cut e u _ he hu =>
      have hlast : e.isInterrupted = false := he
      simp only [rest, hlast, Bool.false_eq_true, if_false]
      exact .cut _ he (rest_keeps (hkeeps u rounds) hu)

end Sink

namespace CipherWriter

/-- Writers side by side over sinks in the relation `R`, under their flags. -/
structure Abreast (h h' : AbortHandle) (R : ς × Env σ → ς' × Env σ → Prop)
    (s : CipherWriter κ ς × Env σ) (t : CipherWriter κ ς' × Env σ) : Prop where
  abort : s.1.abort = h
  abort' : t.1.abort = h'
  session : t.1.session = s.1.session
  started : t.1.started = s.1.started
  closed : t.1.closed = s.1.closed
  sinks : R (s.1.inner, s.2) (t.1.inner, t.2)

/-- The sink of the first writer is left behind. -/
def Behind (L : ς × Env σ → ς' × Env σ → Prop) (s : CipherWriter κ ς × Env σ)
    (t : CipherWriter κ ς' × Env σ) : Prop :=
  L (s.1.inner, s.2) (t.1.inner, t.2)

section

variable [Session κ σ] [Sink σ ς] [Sink σ ς'] {fuel : Nat} {h h' : AbortHandle}
  {R L : ς × Env σ → ς' × Env σ → Prop} (hA : Sink.Abreast fuel h h' R L)

include hA

omit [Session κ σ] in
theorem trails_onSession {P : Error → Prop} {α : Type} (x : Step (κ × σ) α) :
    Trails (Abreast h h' R) P (Behind L) (onSession x : Push σ κ ς α) (onSession x) := by
  constructor
  · rintro ⟨s, env⟩ ⟨t, env'⟩ hst
    rw [run_onSession, run_onSession]
    have hworld : env'.world = env.world := hA.world hst.sinks
    have hsession : t.session = s.session := hst.session
    rw [hworld, hsession]
    cases x (s.session, env.world) with
    | ok a u =>
      exact .ok a ⟨hst.abort, hst.abort', rfl, hst.started, hst.closed, hA.moved hst.sinks _⟩
    | error e u =>
      exact .error e ⟨hst.abort, hst.abort', rfl, hst.started, hst.closed, hA.moved hst.sinks _⟩
  · rintro s ⟨t, env'⟩ hst
    rw [run_onSession]
    cases x (t.session, env'.world) <;> exact hA.late hst _

omit [Session κ σ] [Sink σ ς] [Sink σ ς'] hA in
theorem trails_onSink {α : Type} {x : Transfer σ ς α} {y : Transfer σ ς' α} {P : IoError → Prop}
    (hxy : Trails R P L x y) :
    Trails (Abreast h h' R) P (Behind L) (onSink x : Transfer σ (CipherWriter κ ς) α) (onSink y) := by
  constructor
  · rintro ⟨s, env⟩ ⟨t, env'⟩ hst
    have hrun := hxy.run _ _ hst.sinks
    rw [run_onSink, run_onSink]
    dsimp only at hrun
    generalize x (s.inner, env) = p, y (t.inner, env') = q at hrun
    cases hrun with
    | ok a huv => exact .ok a ⟨hst.abort, hst.abort', hst.session, hst.started, hst.closed, huv⟩
    | error e huv => exact .error e ⟨hst.abort, hst.abort', hst.session, hst.started, hst.closed, huv⟩
    | cut _ he hu => cases q <;> exact .cut _ he hu
  · rintro s ⟨t, env'⟩ hst
    have hkeeps := hxy.keeps _ _ hst
    rw [run_onSink]
    cases hrun : y (t.inner, env') <;> rw [hrun] at hkeeps <;> exact hkeeps

omit [Session κ σ] [Sink σ ς] [Sink σ ς'] hA in
theorem trails_onInner {α : Type} {x : Transfer σ ς α} {y : Transfer σ ς' α}
    (hxy : Trails R Lasting L x y) :
    Trails (Abreast h h' R) (fun _ => True) (Behind L) (onInner x : Push σ κ ς α) (onInner y) :=
  .adaptExcept (trails_onSink hxy) _ fun _ _ => trivial

omit [Session κ σ] [Sink σ ς] [Sink σ ς'] hA in
theorem trails_update {f : CipherWriter κ ς → CipherWriter κ ς} {g : CipherWriter κ ς' → CipherWriter κ ς'}
    (hfg : ∀ s t env env', Abreast h h' R (s, env) (t, env') → Abreast h h' R (f s, env) (g t, env'))
    (hg : ∀ t, (g t).inner = t.inner) :
    Trails (Abreast h h' R) (fun _ => True) (Behind L) (update f : Push σ κ ς Unit) (update g) := by
  refine .modify (fun s t hst => hfg _ _ _ _ hst) ?_
  rintro s ⟨t, env'⟩ hst
  show L _ ((g t).inner, env')
  rw [hg]
  exact hst

omit [Session κ σ] in
theorem trails_checkAbort :
    Trails (Abreast h h' R) (fun _ => True) (Behind L) (checkAbort : Push σ κ ς Unit) checkAbort := by
  refine .get_bind ?_ fun s t => .check _
  rintro ⟨s, env⟩ ⟨t, env'⟩ hst
  have hs : s.abort = h := hst.abort
  have ht : t.abort = h' := hst.abort'
  show Trailed _ _ _ (check (s.abort.check env) _) (check (t.abort.check env') _)
  rw [hs, ht]
  rcases hA.check hst.sinks with hsame | ⟨haborted, hcut⟩
  · dsimp only at hsame
    rw [hsame, run_check, run_check]
    cases h.check env with
    | ok _ => exact .ok () hst
    | error e => exact .error e hst
  · dsimp only at haborted
    rw [haborted, run_check, run_check]
    cases h'.check env' <;> exact .cut _ trivial hcut

omit [Session κ σ] in
theorem trails_writeAll (bytes : Bytes) :
    Trails (Abreast h h' R) (fun _ => True) (Behind L)
      (onInner (Sink.writeAll fuel bytes) : Push σ κ ς Unit) (onInner (Sink.writeAll fuel bytes)) :=
  trails_onInner (Sink.trails_writeAllLoop hA.write fuel bytes)

theorem trails_ensureStarted :
    Trails (Abreast h h' R) (fun _ => True) (Behind L) (ensureStarted fuel : Push σ κ ς Unit)
      (ensureStarted fuel) := by
  have hbegin := Trails.bind (trails_onSession hA (κ := κ) (P := fun _ => True) Session.start)
    fun header => .bind (trails_writeAll hA header)
    fun _ => trails_update (f := fun w => { w with started := true })
      (g := fun w => { w with started := true })
      (fun _ _ _ _ hst => ⟨hst.abort, hst.abort', hst.session, rfl, hst.closed, hst.sinks⟩)
      fun _ => rfl
  refine .get_bind ?_ fun s t => .ite _ (hbegin.keeps s) (.pure _)
  rintro ⟨s, env⟩ ⟨t, env'⟩ hst
  have hstarted : t.started = s.started := hst.started
  simp only [hstarted]
  exact (Trails.ite _ hbegin (.pure ())).run _ _ hst

theorem trails_prepare :
    Trails (Abreast h h' R) (fun _ => True) (Behind L) (prepare fuel : Push σ κ ς Unit)
      (prepare fuel) := by
  have hgo := trails_ensureStarted (κ := κ) hA
  refine .bind (trails_checkAbort hA) fun _ => .get_bind ?_ fun s t => ?_
  · rintro ⟨s, env⟩ ⟨t, env'⟩ hst
    have hclosed : t.closed = s.closed := hst.closed
    simp only [hclosed]
    exact (Trails.ite _ (.bind (.throw _) fun _ => hgo) hgo).run _ _ hst
  · exact .ite _ (.bind (.throw _) fun _ => hgo.keeps s) (hgo.keeps s)

/-- **Writers side by side write alike, or the first is left behind.** -/
theorem trails_write (bytes : Bytes) :
    Trails (Abreast h h' R) (fun _ => True) (Behind L)
      (writeBytes fuel bytes : Transfer σ (CipherWriter κ ς) Nat) (writeBytes fuel bytes) := by
  refine .bind (.adaptExcept (trails_prepare hA) _ fun _ _ => trivial) fun _ => .ite _ (.pure _) ?_
  refine .bind (.adaptExcept (trails_onSession hA (P := fun _ => True) _) _ fun _ _ => trivial)
    fun out => .bind ?_ fun _ => .pure _
  exact (trails_onSink (Sink.trails_writeAllLoop hA.write fuel out)).mono fun _ _ => trivial

omit [Session κ σ] in
theorem trails_flush :
    Trails (Abreast h h' R) (fun _ => True) (Behind L)
      (flush fuel : Transfer σ (CipherWriter κ ς) Unit) (flush fuel) :=
  .bind (.adaptExcept (trails_checkAbort hA) _ fun _ _ => trivial) fun _ =>
    (trails_onSink hA.flush).mono fun _ _ => trivial

theorem trails_writeTail (strict : Bool) :
    Trails (Abreast h h' R) (fun _ => True) (Behind L) (writeTail fuel strict : Push σ κ ς Unit)
      (writeTail fuel strict) := by
  have hfinalize := trails_onSession hA (κ := κ) (P := fun _ => False) Session.finalize
  constructor
  · intro s t hst
    have hrun := hfinalize.run s t hst
    unfold writeTail
    generalize onSession Session.finalize s = p, onSession Session.finalize t = q at hrun
    cases hrun with
    | ok tail huv => exact (trails_writeAll hA tail).run _ _ huv
    | error e huv =>
      dsimp only
      split
      · exact .error e huv
      · exact .ok () huv
    | cut _ hfalse _ => exact hfalse.elim
  · intro s t hst
    have hkeeps := hfinalize.keeps s t hst
    unfold writeTail
    cases hrun : (onSession Session.finalize : Push σ κ ς' Bytes) t with
    | ok tail u =>
      rw [hrun] at hkeeps
      exact (trails_writeAll hA tail).keeps s u hkeeps
    | error e u =>
      rw [hrun] at hkeeps
      dsimp only
      split <;> exact hkeeps

/-- **Writers side by side are closed alike, or the first is left behind.** -/
theorem trails_shutdown (strict : Bool) :
    Trails (Abreast h h' R) (fun _ => True) (Behind L) (shutdown fuel strict : Push σ κ ς Unit)
      (shutdown fuel strict) := by
  have hclose : Trails (Abreast h h' R) (fun _ => True) (Behind L)
      (update fun w => { w with closed := true } : Push σ κ ς Unit)
      (update fun w => { w with closed := true }) :=
    trails_update (fun _ _ _ _ hst =>
      ⟨hst.abort, hst.abort', hst.session, hst.started, rfl, hst.sinks⟩) fun _ => rfl
  have hgo := Trails.bind hclose
    fun _ => .bind (trails_checkAbort hA) fun _ => .bind (trails_ensureStarted hA) fun _ =>
      .bind (trails_writeTail hA strict) fun _ => .bind (trails_onInner hA.flush) fun _ =>
        trails_checkAbort hA
  refine .get_bind ?_ fun s t => ?_
  · rintro ⟨s, env⟩ ⟨t, env'⟩ hst
    have hclosed : t.closed = s.closed := hst.closed
    simp only [hclosed]
    exact (Trails.ite _ (.pure ()) hgo).run _ _ hst
  · exact .ite _ (.pure ()) (hgo.keeps s)

end

end CipherWriter

end SealedStream
