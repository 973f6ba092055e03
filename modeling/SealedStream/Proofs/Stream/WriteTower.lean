import SealedStream.Proofs.Session.Calls
import SealedStream.Proofs.Stream.Stack
import SealedStream.Proofs.Stream.Trailing
import SealedStream.Stream.WriteTower

/-!
# Aborting towers of writers

Whatever is asked of the adapters of a tower, the tower goes on with the flags that they look at, and no
cipher writer is closed that stays in use (`WriteTower.goes_after`), so an abort lasts and reaches down
(`WriteTower.stops`). An adapter whose flag is up refuses what it looks at the flag for, and does not
use what it stands on, not even when it is dropped (`WriteLayer.refused_of_heeds`).
-/

namespace SealedStream

variable {σ κ γ ς : Type}

/-- Wherever what it is asked takes the sink, it goes on as `G` says. -/
structure Sink.Carries [Sink σ ς] [Abortable σ ς] (G : ς × Env σ → ς × Env σ → Prop) : Prop where
  below : ∀ {s t}, G s t → s.2.Below t.2
  trans : ∀ {s t u}, G s t → G t u → G s u
  elsewhere : ∀ {s : ς × Env σ} {env}, s.2.Below env → G s (s.1, env)
  write : ∀ (fuel : Nat) (bytes : Bytes) (s : ς × Env σ),
    G s (reached ((Sink.write fuel bytes : Transfer σ ς Nat) s))
  flush : ∀ (fuel : Nat) (s : ς × Env σ), G s (reached ((Sink.flush fuel : Transfer σ ς Unit) s))
  abort : ∀ s : ς × Env σ, G s (Abortable.abort s)

section

variable [Sink σ ς] [Abortable σ ς] {G : ς × Env σ → ς × Env σ → Prop} (hG : Sink.Carries G)
  {s : ς × Env σ} (fuel : Nat) {h : AbortHandle}

include hG

theorem Sink.Carries.refl (s : ς × Env σ) : G s s :=
  hG.elsewhere (.refl s.2)

/-! ## Adapters that go on -/

namespace AbortableWriter

theorem keeps_write (bytes : Bytes) :
    Keeps (fun t : AbortableWriter ς × Env σ => t.1.abort = h ∧ G s (t.1.inner, t.2))
      (Sink.write fuel bytes : Transfer σ (AbortableWriter ς) Nat) := by
  refine .bind (.bind .get fun _ => .adaptExcept (.check _) _) fun _ => .zoom_reached fun t ht => ?_
  exact ⟨ht.1, hG.trans ht.2 (hG.write fuel bytes _)⟩

theorem keeps_flush :
    Keeps (fun t : AbortableWriter ς × Env σ => t.1.abort = h ∧ G s (t.1.inner, t.2))
      (Sink.flush fuel : Transfer σ (AbortableWriter ς) Unit) := by
  refine .bind (.bind .get fun _ => .adaptExcept (.check _) _) fun _ => .zoom_reached fun t ht => ?_
  exact ⟨ht.1, hG.trans ht.2 (hG.flush fuel _)⟩

end AbortableWriter

namespace CheckedWriter

theorem keeps_write [Accumulator γ] (bytes : Bytes) :
    Keeps (fun t : CheckedWriter γ ς × Env σ => G s (t.1.inner, t.2))
      (Sink.write fuel bytes : Transfer σ (CheckedWriter γ ς) Nat) := by
  refine .bind (.zoom_reached fun t ht => ?_) fun _ => .bind (.modify fun _ ht => ht) fun _ => .pure _
  exact hG.trans ht (hG.write fuel bytes _)

theorem keeps_flush [Accumulator γ] :
    Keeps (fun t : CheckedWriter γ ς × Env σ => G s (t.1.inner, t.2))
      (Sink.flush fuel : Transfer σ (CheckedWriter γ ς) Unit) :=
  .zoom_reached fun _ ht => hG.trans ht (hG.flush fuel _)

end CheckedWriter

namespace BufferedWriter

/-- By induction on the rounds. -/
theorem keeps_emptyLoop : ∀ rounds : Nat,
    Keeps (fun t : BufferedWriter ς × Env σ => G s (t.1.inner, t.2))
      (emptyLoop fuel rounds : Transfer σ (BufferedWriter ς) Unit)
  | 0 => .bind .get fun _ => .ite _ (.pure _) (.throw _)
  | rounds + 1 => by
    rintro ⟨w, env⟩ ht
    have hgo := hG.trans ht (hG.write fuel w.buffer (w.inner, env))
    simp only [emptyLoop]
    split
    · exact ht
    · rcases hrun : (Sink.write fuel w.buffer (w.inner, env) :
        EStateM.Result IoError (ς × Env σ) Nat) with ⟨_ | n, t⟩ | ⟨e, t⟩
      · rw [hrun] at hgo
        exact hgo
      · rw [hrun] at hgo
        exact keeps_emptyLoop rounds _ hgo
      · rw [hrun] at hgo
        dsimp only
        split
        · exact keeps_emptyLoop rounds _ hgo
        · exact hgo

theorem keeps_write (bytes : Bytes) :
    Keeps (fun t : BufferedWriter ς × Env σ => G s (t.1.inner, t.2))
      (Sink.write fuel bytes : Transfer σ (BufferedWriter ς) Nat) := by
  refine .bind .get ?_
  rintro ⟨w, env⟩
  have hrest (size : Nat) : Keeps (fun t : BufferedWriter ς × Env σ => G s (t.1.inner, t.2))
      (if w.capacity ≤ size then onInner (Sink.write fuel bytes)
        else do
          modify fun t => ({ t.1 with buffer := t.1.buffer ++ bytes }, t.2)
          return size : Transfer σ (BufferedWriter ς) Nat) :=
    .ite _ (.zoom_reached fun _ ht => hG.trans ht (hG.write fuel bytes _))
      (.bind (.modify fun _ ht => ht) fun _ => .pure _)
  exact .ite _ (.bind (keeps_emptyLoop hG fuel fuel) fun _ => hrest _) (hrest _)

theorem keeps_flush :
    Keeps (fun t : BufferedWriter ς × Env σ => G s (t.1.inner, t.2))
      (Sink.flush fuel : Transfer σ (BufferedWriter ς) Unit) :=
  .bind (keeps_emptyLoop hG fuel fuel) fun _ => .zoom_reached fun _ ht => hG.trans ht (hG.flush fuel _)

end BufferedWriter

namespace CipherWriter

/-- A writer beside itself. -/
theorem abreast (fuel : Nat) (h : AbortHandle) (s : ς × Env σ) :
    Sink.Abreast fuel h h (fun t u : ς × Env σ => u = t ∧ G s t) fun _ _ => False where
  world := by
    rintro t _ ⟨rfl, -⟩
    rfl
  moved := by
    rintro t _ ⟨rfl, ht⟩ w
    exact ⟨rfl, hG.trans ht (hG.elsewhere (.world _ w))⟩
  late hfalse := hfalse.elim
  check := by
    rintro t _ ⟨rfl, -⟩
    exact .inl rfl
  write bytes := .of_alike (.of_keeps fun t ht => hG.trans ht (hG.write fuel bytes t))
  flush := .of_alike (.of_keeps fun t ht => hG.trans ht (hG.flush fuel t))

/-- What a writer does alike beside itself keeps its flag, and what it stands on goes on. -/
theorem goes_of_trails {ε α : Type} {P : ε → Prop} {x : EStateM ε (CipherWriter κ ς × Env σ) α}
    {t : CipherWriter κ ς × Env σ}
    (hx : Trails (Abreast t.1.abort t.1.abort (fun a b => b = a ∧ G (t.1.inner, t.2) a)) P
      (Behind fun _ _ => False) x x) :
    (reached (x t)).1.abort = t.1.abort ∧
      G (t.1.inner, t.2) ((reached (x t)).1.inner, (reached (x t)).2) := by
  have ht : Abreast t.1.abort t.1.abort (fun a b => b = a ∧ G (t.1.inner, t.2) a) t t :=
    ⟨rfl, rfl, rfl, rfl, rfl, rfl, hG.refl _⟩
  rcases (hx.run t t ht).related with hR | hfalse
  · exact ⟨hR.abort, hR.sinks.2⟩
  · exact hfalse.elim

end CipherWriter

end

/-! ## Writers in use, and aborted ones -/

namespace CipherWriter

variable [Session κ σ] [Sink σ ς] (fuel : Nat)

/-- What a writer does as long as it is in use changes neither its flag nor that it is closed. -/
def InUse (h : AbortHandle) (closed : Bool) (t : CipherWriter κ ς × Env σ) : Prop :=
  t.1.abort = h ∧ t.1.closed = closed

section

variable {h : AbortHandle} {closed : Bool}

omit [Session κ σ] [Sink σ ς] in
theorem keeps_inUse_onSink {α : Type} (x : Transfer σ ς α) :
    Keeps (InUse h closed) (onSink x : Transfer σ (CipherWriter κ ς) α) := by
  refine .zoom ?_ x
  intro _ _ ht
  exact ht

theorem keeps_inUse_write (bytes : Bytes) :
    Keeps (InUse h closed) (writeBytes fuel bytes : Transfer σ (CipherWriter κ ς) Nat) := by
  have hsession (x : Step (κ × σ) Bytes) :
      Keeps (InUse h closed) (onSession x : Push σ κ ς Bytes) := by
    refine .zoom ?_ x
    intro _ _ ht
    exact ht
  have hstarted : Keeps (InUse h closed) (ensureStarted fuel : Push σ κ ς Unit) :=
    .bind .get fun _ => .ite _ (.bind (hsession _) fun _ =>
      .bind (.adaptExcept (keeps_inUse_onSink _) _) fun _ => .modify fun _ ht => ht) (.pure _)
  have hprepare : Keeps (InUse h closed) (prepare fuel : Push σ κ ς Unit) :=
    .bind (.bind .get fun _ => .check _) fun _ => .bind .get fun _ =>
      .ite _ (.bind (.throw _) fun _ => hstarted) hstarted
  exact .bind (.adaptExcept hprepare _) fun _ => .ite _ (.pure _) <|
    .bind (.adaptExcept (hsession _) _) fun _ => .bind (keeps_inUse_onSink _) fun _ => .pure _

omit [Session κ σ] in
theorem keeps_inUse_flush :
    Keeps (InUse h closed) (flush fuel : Transfer σ (CipherWriter κ ς) Unit) :=
  .bind (.adaptExcept (.bind .get fun _ => .check _) _) fun _ => keeps_inUse_onSink _

end

variable {fuel} {strict : Bool} {w : CipherWriter κ ς} {env : Env σ}

/-- A writer that is aborted does not write, -/
theorem run_write_of_aborted (ha : w.abort.isAborted env = true) (bytes : Bytes) :
    (writeBytes fuel bytes : Transfer σ (CipherWriter κ ς) Nat) (w, env) =
      .error (Error.toIo .aborted) (w, env) := by
  simp only [writeBytes, carried, prepare, checkAbort, run_bind, run_get, run_adaptExcept, run_check,
    AbortHandle.check, ha, if_true]

omit [Session κ σ] in
/-- nor flush, -/
theorem run_flush_of_aborted (ha : w.abort.isAborted env = true) :
    (flush fuel : Transfer σ (CipherWriter κ ς) Unit) (w, env) =
      .error (Error.toIo .aborted) (w, env) := by
  simp only [flush, carried, checkAbort, run_bind, run_get, run_adaptExcept, run_check,
    AbortHandle.check, ha, if_true]

/-- and is closed for good without its sink. -/
theorem run_shutdown_of_aborted (hclosed : w.closed = false) (ha : w.abort.isAborted env = true) :
    (shutdown fuel strict : Push σ κ ς Unit) (w, env) =
      .error .aborted ({ w with closed := true }, env) := by
  simp only [shutdown, run_bind, run_get, run_ite, hclosed, update, run_modify, checkAbort, run_check,
    AbortHandle.check, ha, if_true, Bool.false_eq_true, if_false]

end CipherWriter

namespace AbortableWriter

variable [Sink σ ς] {fuel : Nat} {w : AbortableWriter ς} {env : Env σ}

theorem run_write_of_aborted (ha : w.abort.isAborted env = true) (bytes : Bytes) :
    (Sink.write fuel bytes : Transfer σ (AbortableWriter ς) Nat) (w, env) =
      .error (Error.toIo .aborted) (w, env) := by
  simp only [Sink.write, checkAbort, run_bind, run_get, run_adaptExcept, run_check, AbortHandle.check,
    ha, if_true]

theorem run_flush_of_aborted (ha : w.abort.isAborted env = true) :
    (Sink.flush fuel : Transfer σ (AbortableWriter ς) Unit) (w, env) =
      .error (Error.toIo .aborted) (w, env) := by
  simp only [Sink.flush, checkAbort, run_bind, run_get, run_adaptExcept, run_check, AbortHandle.check,
    ha, if_true]

end AbortableWriter

/-! ## What is asked of an adapter -/

namespace WriteLayer

/-- The flag that the adapter looks at. -/
def token : WriteLayer κ γ ς → Option AbortHandle
  | .abortable w => some w.abort
  | .cipher w => some w.abort
  | _ => none

/-- Whether an abort is passed on to what the adapter stands on. -/
def PassesOn : WriteLayer κ γ ς → Prop
  | .checked _ => True
  | .buffered _ => True
  | .cipher _ => True
  | _ => False

/-- A cipher writer in use was not closed. -/
def Unclosed : WriteLayer κ γ ς → Prop
  | .cipher w => w.closed = false
  | _ => True

/-- The adapter on something else. -/
def on {ς' : Type} (i : ς') : WriteLayer κ γ ς → WriteLayer κ γ ς'
  | .abortable w => .abortable ⟨i, w.abort⟩
  | .checked w => .checked ⟨i, w.checksum⟩
  | .buffered w => .buffered ⟨i, w.capacity, w.buffer⟩
  | .cipher w => .cipher { w with inner := i }
  | .removed _ => .removed i

/-- Raises the flag of the adapter alone. -/
def raise : WriteLayer κ γ ς × Env σ → WriteLayer κ γ ς × Env σ
  | (.abortable w, env) => (.abortable { w with abort := (w.abort.abort env).1 }, (w.abort.abort env).2)
  | (.cipher w, env) => (.cipher { w with abort := (w.abort.abort env).1 }, (w.abort.abort env).2)
  | s => s

/-- What may be asked of an adapter in a tower of writers. -/
inductive Request
  | write (bytes : Bytes)
  | flush
  | close
  | finish
  | drop
  | abort
  | raise

/-- How an adapter may go on, whatever it stands on. -/
def Onward (s t : WriteLayer κ γ ς) : Prop :=
  AbortHandle.Onward s.token t.token ∧ (s.Unclosed → t.Unclosed)

theorem Onward.refl (layer : WriteLayer κ γ ς) : layer.Onward layer :=
  ⟨.refl _, id⟩

theorem Onward.trans {s t u : WriteLayer κ γ ς} (h : s.Onward t) (h' : t.Onward u) : s.Onward u :=
  ⟨h.1.trans h'.1, h'.2 ∘ h.2⟩

theorem onward_removed (layer : WriteLayer κ γ ς) (i : ς) : layer.Onward (.removed i) :=
  ⟨.gone _, fun _ => trivial⟩

variable [Session κ σ] [Sink σ ς] [Abortable σ ς]

def asked (fuel : Nat) : Request → EStateM Error (WriteLayer κ Checksum ς × Env σ) Unit
  | .write bytes => do
    let _ ← (Sink.write fuel bytes : Transfer σ (WriteLayer κ Checksum ς) Nat).adaptExcept Error.ofIo
    return ()
  | .flush => (Sink.flush fuel : Transfer σ (WriteLayer κ Checksum ς) Unit).adaptExcept Error.ofIo
  | .close => do
    let _ ← close fuel
    return ()
  | .finish => finish fuel
  | .drop => modify (drop fuel)
  | .abort => modify Abortable.abort
  | .raise => modify raise

/-- The adapter goes on, and so does what it stands on. -/
def Goes (G : ς × Env σ → ς × Env σ → Prop) (s t : WriteLayer κ γ ς × Env σ) : Prop :=
  Onward s.1 t.1 ∧ G (s.1.inner, s.2) (t.1.inner, t.2)

section

variable {G : ς × Env σ → ς × Env σ → Prop} (hG : Sink.Carries G)

include hG

theorem goes_write [Accumulator γ] (fuel : Nat) (bytes : Bytes) (s : WriteLayer κ γ ς × Env σ) :
    Goes G s (reached ((Sink.write fuel bytes : Transfer σ (WriteLayer κ γ ς) Nat) s)) := by
  obtain ⟨layer, env⟩ := s
  cases layer with
  | abortable w =>
    obtain ⟨habort, hgo⟩ := AbortableWriter.keeps_write (s := (w.inner, env)) hG fuel bytes
      (w, env) ⟨rfl, hG.refl _⟩
    show Goes G _ (reached (mapState _ _))
    rw [reached_mapState]
    exact ⟨⟨.of_eq habort, fun _ => trivial⟩, hgo⟩
  | checked w =>
    show Goes G _ (reached (mapState _ _))
    rw [reached_mapState]
    exact ⟨.refl _, CheckedWriter.keeps_write (s := (w.inner, env)) hG fuel bytes (w, env) (hG.refl _)⟩
  | buffered w =>
    show Goes G _ (reached (mapState _ _))
    rw [reached_mapState]
    exact ⟨.refl _, BufferedWriter.keeps_write (s := (w.inner, env)) hG fuel bytes (w, env) (hG.refl _)⟩
  | cipher w =>
    obtain ⟨habort, hgo⟩ := CipherWriter.goes_of_trails (t := (w, env)) hG
      (CipherWriter.trails_write (CipherWriter.abreast hG fuel _ _) bytes)
    obtain ⟨-, hclosed⟩ := CipherWriter.keeps_inUse_write fuel bytes (w, env) ⟨rfl, rfl⟩
    show Goes G _ (reached (mapState _ _))
    rw [reached_mapState]
    exact ⟨⟨.of_eq habort, fun hu => Eq.trans hclosed hu⟩, hgo⟩
  | removed inner => exact ⟨.refl _, hG.refl _⟩

theorem goes_flush [Accumulator γ] (fuel : Nat) (s : WriteLayer κ γ ς × Env σ) :
    Goes G s (reached ((Sink.flush fuel : Transfer σ (WriteLayer κ γ ς) Unit) s)) := by
  obtain ⟨layer, env⟩ := s
  cases layer with
  | abortable w =>
    obtain ⟨habort, hgo⟩ := AbortableWriter.keeps_flush (s := (w.inner, env)) hG fuel
      (w, env) ⟨rfl, hG.refl _⟩
    show Goes G _ (reached (mapState _ _))
    rw [reached_mapState]
    exact ⟨⟨.of_eq habort, fun _ => trivial⟩, hgo⟩
  | checked w =>
    show Goes G _ (reached (mapState _ _))
    rw [reached_mapState]
    exact ⟨.refl _, CheckedWriter.keeps_flush (s := (w.inner, env)) hG fuel (w, env) (hG.refl _)⟩
  | buffered w =>
    show Goes G _ (reached (mapState _ _))
    rw [reached_mapState]
    exact ⟨.refl _, BufferedWriter.keeps_flush (s := (w.inner, env)) hG fuel (w, env) (hG.refl _)⟩
  | cipher w =>
    obtain ⟨habort, hgo⟩ := CipherWriter.goes_of_trails (κ := κ) (t := (w, env)) hG
      (CipherWriter.trails_flush (CipherWriter.abreast hG fuel _ _))
    obtain ⟨-, hclosed⟩ := CipherWriter.keeps_inUse_flush fuel (w, env) ⟨rfl, rfl⟩
    show Goes G _ (reached (mapState _ _))
    rw [reached_mapState]
    exact ⟨⟨.of_eq habort, fun hu => Eq.trans hclosed hu⟩, hgo⟩
  | removed inner => exact ⟨.refl _, hG.refl _⟩

omit [Session κ σ] in
theorem goes_abort (s : WriteLayer κ γ ς × Env σ) : Goes G s (Abortable.abort s) := by
  obtain ⟨layer, env⟩ := s
  cases layer with
  | abortable w =>
    exact ⟨⟨.becomes (w.abort.becomes_abort env), fun _ => trivial⟩,
      hG.elsewhere (w.abort.below_abort env)⟩
  | checked w => exact ⟨.refl _, hG.abort (w.inner, env)⟩
  | buffered w => exact ⟨.refl _, hG.abort (w.inner, env)⟩
  | cipher w =>
    exact ⟨⟨.becomes (w.abort.becomes_abort env), id⟩,
      hG.trans (hG.elsewhere (w.abort.below_abort env)) (hG.abort _)⟩
  | removed inner => exact ⟨.refl _, hG.refl _⟩

/-- So an adapter is a sink that goes on, in turn. -/
theorem carries [Accumulator γ] :
    Sink.Carries (Goes G : WriteLayer κ γ ς × Env σ → WriteLayer κ γ ς × Env σ → Prop) where
  below h := hG.below h.2
  trans h h' := ⟨h.1.trans h'.1, hG.trans h.2 h'.2⟩
  elsewhere henv := ⟨.refl _, hG.elsewhere henv⟩
  write := goes_write hG
  flush := goes_flush hG
  abort := goes_abort hG

omit [Session κ σ] in
theorem goes_raise (s : WriteLayer κ γ ς × Env σ) : Goes G s (raise s) := by
  obtain ⟨layer, env⟩ := s
  cases layer with
  | abortable w =>
    exact ⟨⟨.becomes (w.abort.becomes_abort env), fun _ => trivial⟩,
      hG.elsewhere (w.abort.below_abort env)⟩
  | cipher w =>
    exact ⟨⟨.becomes (w.abort.becomes_abort env), id⟩, hG.elsewhere (w.abort.below_abort env)⟩
  | checked w => exact ⟨.refl _, hG.refl _⟩
  | buffered w => exact ⟨.refl _, hG.refl _⟩
  | removed inner => exact ⟨.refl _, hG.refl _⟩

/-- Closing for good, loosely or not. -/
theorem goes_closeCipher (fuel : Nat) (strict : Bool) (w : CipherWriter κ ς) (env : Env σ) :
    Goes G (.cipher w, env)
      (reached (closeCipher fuel strict w env : EStateM.Result Error (WriteLayer κ γ ς × Env σ) _)) := by
  have hgo := (CipherWriter.goes_of_trails (t := (w, env)) hG
    (CipherWriter.trails_shutdown (CipherWriter.abreast hG fuel _ _) strict)).2
  unfold closeCipher
  cases hrun : (CipherWriter.shutdown fuel strict : CipherWriter.Push σ κ ς Unit) (w, env) <;>
    rw [hrun] at hgo <;> exact ⟨onward_removed _ _, hgo⟩

theorem goes_drop (fuel : Nat) (s : WriteLayer κ γ ς × Env σ) : Goes G s (drop fuel s) := by
  obtain ⟨layer, env⟩ := s
  cases layer with
  | buffered w =>
    have hgo := BufferedWriter.keeps_emptyLoop (s := (w.inner, env)) hG fuel fuel (w, env)
      (hG.refl _)
    simp only [drop, BufferedWriter.empty]
    cases hrun : (BufferedWriter.emptyLoop fuel fuel : Transfer σ (BufferedWriter ς) Unit) (w, env) <;>
      rw [hrun] at hgo <;> exact ⟨onward_removed _ _, hgo⟩
  | cipher w =>
    have hgo := goes_closeCipher (γ := γ) hG fuel false w env
    simp only [drop, CipherWriter.drop]
    unfold closeCipher at hgo
    cases hrun : (CipherWriter.shutdown fuel false : CipherWriter.Push σ κ ς Unit) (w, env) <;>
      rw [hrun] at hgo <;> exact hgo
  | abortable w => exact ⟨onward_removed _ _, hG.refl _⟩
  | checked w => exact ⟨onward_removed _ _, hG.refl _⟩
  | removed inner => exact ⟨onward_removed _ _, hG.refl _⟩

theorem goes_close (fuel : Nat) (s : WriteLayer κ Checksum ς × Env σ) :
    Goes G s (reached ((close fuel : EStateM Error (WriteLayer κ Checksum ς × Env σ) _) s)) := by
  obtain ⟨layer, env⟩ := s
  cases layer with
  | cipher w => exact goes_closeCipher hG fuel false w env
  | checked w => exact ⟨onward_removed _ _, hG.refl _⟩
  | abortable w => exact goes_drop hG fuel (.abortable w, env)
  | buffered w => exact goes_drop hG fuel (.buffered w, env)
  | removed inner => exact goes_drop hG fuel (.removed inner, env)

theorem goes_finish (fuel : Nat) (s : WriteLayer κ γ ς × Env σ) :
    Goes G s (reached ((finish fuel : EStateM Error (WriteLayer κ γ ς × Env σ) _) s)) := by
  obtain ⟨layer, env⟩ := s
  cases layer with
  | cipher w =>
    have hgo := goes_closeCipher (γ := γ) hG fuel true w env
    simp only [finish]
    cases hrun : (closeCipher fuel true w env : EStateM.Result Error (WriteLayer κ γ ς × Env σ) _) <;>
      rw [hrun] at hgo <;> exact hgo
  | abortable w => exact goes_drop hG fuel (.abortable w, env)
  | checked w => exact goes_drop hG fuel (.checked w, env)
  | buffered w => exact goes_drop hG fuel (.buffered w, env)
  | removed inner => exact goes_drop hG fuel (.removed inner, env)

/-- Whatever it is asked. -/
theorem goes_asked (fuel : Nat) (request : Request) (s : WriteLayer κ Checksum ς × Env σ) :
    Goes G s (reached (asked fuel request s)) := by
  cases request with
  | write bytes =>
    simp only [asked, reached_bind_pure, reached_adaptExcept]
    exact goes_write hG fuel bytes s
  | flush =>
    simp only [asked, reached_adaptExcept]
    exact goes_flush hG fuel s
  | close =>
    simp only [asked, reached_bind_pure]
    exact goes_close hG fuel s
  | finish => exact goes_finish hG fuel s
  | drop => exact goes_drop hG fuel s
  | abort => exact goes_abort hG s
  | raise => exact goes_raise hG s

end

/-! ## Refusals -/

omit [Sink σ ς] [Abortable σ ς] [Session κ σ] in
/-- What an adapter looks at its flag for before it uses what it stands on. -/
def Heeds : Request → WriteLayer κ γ ς → Prop
  | .write _, .cipher _ => True
  | .flush, .cipher _ => True
  | .close, .cipher _ => True
  | .finish, .cipher _ => True
  | .drop, .cipher _ => True
  | .write _, .abortable _ => True
  | .flush, .abortable _ => True
  | .drop, .abortable _ => True
  | _, _ => False

omit [Sink σ ς] [Abortable σ ς] [Session κ σ] in
/-- Only for what it has a flag for. -/
theorem exists_token {layer : WriteLayer κ γ ς} {request : Request} (hr : layer.Heeds request) :
    ∃ h, layer.token = some h := by
  unfold Heeds at hr
  split at hr <;> first | exact ⟨_, rfl⟩ | exact hr.elim

/-- How an aborted adapter answers. Going out of use cannot fail. -/
def answer : Request → Except Error Unit
  | .drop => .ok ()
  | _ => .error .aborted

omit [Sink σ ς] [Abortable σ ς] in
/-- What the adapter is asked for fails since it is aborted, or is not done. What it stands on has no
part in this, whatever it is. -/
def Refused (fuel : Nat) (request : Request) (layer : WriteLayer κ Checksum ς) (env : Env σ) : Prop :=
  ∃ layer' : WriteLayer κ Checksum ς,
    ∀ {ς' : Type} [Sink σ ς'] [Abortable σ ς'] (i : ς'),
      outcome (asked fuel request (layer.on i, env)) = answer request ∧
        reached (asked fuel request (layer.on i, env)) = (layer'.on i, env)

end WriteLayer

namespace WriteLayer

variable [Session κ σ]

omit [Session κ σ] in
theorem on_inner (layer : WriteLayer κ γ ς) : layer.on layer.inner = layer := by
  cases layer <;> rfl

/-- What an adapter is given it passes to its writer. -/
theorem write_cipher [Sink σ ς] (fuel : Nat) (bytes : Bytes) (w : CipherWriter κ ς) (env : Env σ) :
    (Sink.write fuel bytes : Transfer σ (WriteLayer κ Checksum ς) Nat) (.cipher w, env) =
      mapState (fun t => (.cipher t.1, t.2)) (CipherWriter.writeBytes fuel bytes (w, env)) := rfl

theorem flush_cipher [Sink σ ς] (fuel : Nat) (w : CipherWriter κ ς) (env : Env σ) :
    (Sink.flush fuel : Transfer σ (WriteLayer κ Checksum ς) Unit) (.cipher w, env) =
      mapState (fun t => (.cipher t.1, t.2)) (CipherWriter.flush fuel (w, env)) := rfl

theorem write_abortable [Sink σ ς] (fuel : Nat) (bytes : Bytes) (w : AbortableWriter ς) (env : Env σ) :
    (Sink.write fuel bytes : Transfer σ (WriteLayer κ Checksum ς) Nat) (.abortable w, env) =
      mapState (fun t => (.abortable t.1, t.2)) (Sink.write fuel bytes (w, env)) := rfl

theorem flush_abortable [Sink σ ς] (fuel : Nat) (w : AbortableWriter ς) (env : Env σ) :
    (Sink.flush fuel : Transfer σ (WriteLayer κ Checksum ς) Unit) (.abortable w, env) =
      mapState (fun t => (.abortable t.1, t.2)) (Sink.flush fuel (w, env)) := rfl

/-- **An adapter whose flag is up refuses what it looks at the flag for.** -/
theorem refused_of_heeds {fuel : Nat} {request : Request} {layer : WriteLayer κ Checksum ς}
    {env : Env σ} {h : AbortHandle} (hr : layer.Heeds request) (hu : layer.Unclosed)
    (ht : layer.token = some h) (ha : h.isAborted env = true) : layer.Refused fuel request env := by
  cases layer with
  | cipher w =>
    cases ht
    have hshutdown (strict : Bool) {ς' : Type} [Sink σ ς'] (i : ς') :
        (closeCipher fuel strict { w with inner := i } env :
            EStateM.Result Error (WriteLayer κ Checksum ς' × Env σ) _) =
          .error .aborted (.removed i, env) := by
      simp only [closeCipher, CipherWriter.run_shutdown_of_aborted (w := { w with inner := i }) hu ha]
    cases request with
    | write bytes =>
      refine ⟨.cipher w, fun {ς'} _ _ i => ?_⟩
      simp only [asked, on, run_bind, run_adaptExcept, write_cipher,
        CipherWriter.run_write_of_aborted (w := { w with inner := i }) ha]
      exact ⟨rfl, rfl⟩
    | flush =>
      refine ⟨.cipher w, fun {ς'} _ _ i => ?_⟩
      simp only [asked, on, run_adaptExcept, flush_cipher,
        CipherWriter.run_flush_of_aborted (w := { w with inner := i }) ha]
      exact ⟨rfl, rfl⟩
    | close =>
      refine ⟨.removed w.inner, fun {ς'} _ _ i => ?_⟩
      simp only [asked, on, run_bind, close, hshutdown]
      exact ⟨rfl, rfl⟩
    | finish =>
      refine ⟨.removed w.inner, fun {ς'} _ _ i => ?_⟩
      simp only [asked, on, finish, hshutdown]
      exact ⟨rfl, rfl⟩
    | drop =>
      refine ⟨.removed w.inner, fun {ς'} _ _ i => ?_⟩
      simp only [asked, on, run_modify, drop, CipherWriter.drop,
        CipherWriter.run_shutdown_of_aborted (w := { w with inner := i }) hu ha]
      exact ⟨rfl, rfl⟩
    | abort => exact hr.elim
    | raise => exact hr.elim
  | abortable w =>
    cases ht
    cases request with
    | write bytes =>
      refine ⟨.abortable w, fun {ς'} _ _ i => ?_⟩
      simp only [asked, on, run_bind, run_adaptExcept, write_abortable,
        AbortableWriter.run_write_of_aborted (w := ⟨i, w.abort⟩) ha]
      exact ⟨rfl, rfl⟩
    | flush =>
      refine ⟨.abortable w, fun {ς'} _ _ i => ?_⟩
      simp only [asked, on, run_adaptExcept, flush_abortable,
        AbortableWriter.run_flush_of_aborted (w := ⟨i, w.abort⟩) ha]
      exact ⟨rfl, rfl⟩
    | drop => exact ⟨.removed w.inner, fun i => ⟨rfl, rfl⟩⟩
    | close => exact hr.elim
    | finish => exact hr.elim
    | abort => exact hr.elim
    | raise => exact hr.elim
  | checked w => cases ht
  | buffered w => cases ht
  | removed inner => cases ht

/-! ## Towers -/

omit [Session κ σ] in
theorem inner_setInner (i : ς) (layer : WriteLayer κ γ ς) : (layer.setInner i).inner = i := by
  cases layer <;> rfl

omit [Session κ σ] in
theorem onward_setInner (i : ς) (layer : WriteLayer κ γ ς) : layer.Onward (layer.setInner i) := by
  cases layer <;> exact ⟨.refl _, id⟩

variable [Abortable σ ς]

omit [Session κ σ] in
/-- Aborting an adapter raises the flag that it looks at. -/
theorem raises (hbelow : ∀ u : ς × Env σ, u.2.Below (Abortable.abort u).2) :
    Raises (σ := σ) (token : WriteLayer κ γ ς → Option AbortHandle) := by
  rintro ⟨layer, env⟩ h ht
  cases layer with
  | abortable w =>
    cases ht
    exact ⟨_, rfl, w.abort.becomes_abort env, w.abort.isAborted_abort env⟩
  | cipher w =>
    cases ht
    refine ⟨_, rfl, w.abort.becomes_abort env, ?_⟩
    exact AbortHandle.isAborted_mono (hbelow _) (w.abort.isAborted_abort env)
  | checked w => cases ht
  | buffered w => cases ht
  | removed inner => cases ht

omit [Session κ σ] in
/-- If the adapter passes an abort on, what it stands on is aborted, after the adapter's own flag. -/
theorem abort_of_passesOn {layer : WriteLayer κ γ ς} (hp : layer.PassesOn) (env : Env σ) :
    ∃ env₁, (Abortable.abort (layer, env)).1.inner = (Abortable.abort (layer.inner, env₁)).1 ∧
      (Abortable.abort (layer, env)).2 = (Abortable.abort (layer.inner, env₁)).2 := by
  cases layer with
  | abortable w => exact hp.elim
  | checked w => exact ⟨env, rfl, rfl⟩
  | buffered w => exact ⟨env, rfl, rfl⟩
  | cipher w => exact ⟨(w.abort.abort env).2, rfl, rfl⟩
  | removed inner => exact hp.elim

end WriteLayer

namespace WriteTower

/-- What is looked at on top; `token` is what the sink looks at. -/
def topToken (token : ς → Option AbortHandle) : {n : Nat} → WriteTower κ γ ς n → Option AbortHandle
  | 0, sink => token sink
  | _ + 1, layer => WriteLayer.token layer

/-- A tower of writers as a stack. -/
def stack [Abortable σ ς] (κ γ : Type) (token : ς → Option AbortHandle) :
    Stack σ (WriteTower κ γ ς) where
  inner := WriteLayer.inner
  setInner := WriteLayer.setInner
  token := topToken token
  PassesOn := WriteLayer.PassesOn
  abort := Abortable.abort
  Onward := WriteLayer.Onward
  inner_setInner := WriteLayer.inner_setInner
  onward_setInner := WriteLayer.onward_setInner
  onward_trans := .trans
  onward_refl := .refl
  onward_token h := h.1

/-- No cipher writer in use was closed. -/
def Unclosed [Abortable σ ς] (token : ς → Option AbortHandle) (n : Nat) (tower : WriteTower κ γ ς n) :
    Prop :=
  ∀ {level m : Nat} {layer : WriteLayer κ γ (WriteTower κ γ ς m)},
    (stack (σ := σ) κ γ token).adapterAt n tower level = some ⟨m, layer⟩ → layer.Unclosed

variable [Session κ σ] [Sink σ ς] [Abortable σ ς]

/-- Asks the adapter at a level. -/
def asked (fuel level : Nat) (request : WriteLayer.Request) :
    (n : Nat) → EStateM Error (WriteTower κ Checksum ς n × Env σ) Unit :=
  atLevel level (return ()) fun _ => WriteLayer.asked fuel request

/-- Where that leads, also by a failure. -/
def after (fuel : Nat) (n level : Nat) (request : WriteLayer.Request)
    (s : WriteTower κ Checksum ς n × Env σ) : WriteTower κ Checksum ς n × Env σ :=
  reached (asked fuel level request n s)

variable {token : ς → Option AbortHandle} {fuel : Nat}

/-- That is a step of the stack; by induction on the height. -/
theorem asked_eq_atLevel (token : ς → Option AbortHandle) (level : Nat)
    (request : WriteLayer.Request) : ∀ n : Nat,
    asked fuel level request n = (stack κ Checksum token).atLevel level (return ())
      (fun _ => WriteLayer.asked (σ := σ) fuel request) n
  | 0 => rfl
  | n + 1 => congrArg (fun x => if level ≤ n then
      zoom (fun t : WriteTower κ Checksum ς (n + 1) × Env σ => (WriteLayer.inner t.1, t.2))
        (fun u t => (WriteLayer.setInner u.1 t.1, u.2)) x
      else WriteLayer.asked fuel request) (asked_eq_atLevel token level request n)

theorem after_eq_onLevel (token : ς → Option AbortHandle) (level : Nat)
    (request : WriteLayer.Request) (n : Nat) (s : WriteTower κ Checksum ς n × Env σ) :
    after fuel n level request s = (stack κ Checksum token).onLevel level id
      (fun _ u => reached (WriteLayer.asked fuel request u)) n s := by
  rw [after, asked_eq_atLevel token]
  exact Stack.reached_atLevel n s

section

variable (hG : Sink.Carries (Goes (σ := σ) token))

include hG

/-- Towers are sinks that go on; by induction on the height. -/
theorem carries [Accumulator γ] : ∀ n : Nat,
    Sink.Carries ((stack κ γ token).Goes n : WriteTower κ γ ς n × Env σ → _ → Prop)
  | 0 => hG
  | n + 1 => WriteLayer.carries (carries n)

theorem goes_after {n : Nat} (level : Nat) (request : WriteLayer.Request)
    (s : WriteTower κ Checksum ς n × Env σ) :
    (stack κ Checksum token).Goes n s (after fuel n level request s) := by
  rw [after_eq_onLevel token]
  refine Stack.goes_onLevel (S := stack κ Checksum token) (fun s => .refl s) (fun m u => ?_) n s
  exact WriteLayer.goes_asked (carries hG m) fuel request u

theorem aborts (hR : Raises (σ := σ) token) : (stack κ Checksum token : Stack σ _).Aborts where
  raises {n} s _ ht := by
    cases n with
    | zero => exact hR s ht
    | succ n => exact WriteLayer.raises (fun u => (carries hG n).below ((carries hG n).abort u)) s ht
  passed hp env := WriteLayer.abort_of_passesOn hp env

end

/-- **In a tower of writers aborts last and reach down.** -/
theorem stops (hG : Sink.Carries (Goes (σ := σ) token)) (hR : Raises (σ := σ) token) (n : Nat) :
    (stack κ Checksum token).Stops n (after fuel n) .abort :=
  (aborts hG hR).stops (goes_after hG) fun level s => after_eq_onLevel token level .abort n s

/-- What is asked of an adapter whose flag is up is refused, if the adapter looks at the flag for it. -/
theorem refused {n level m : Nat} {t : WriteTower κ Checksum ς n × Env σ}
    {layer : WriteLayer κ Checksum (WriteTower κ Checksum ς m)} {request : WriteLayer.Request}
    (hu : Unclosed (σ := σ) token n t.1)
    (hlayer : (stack (σ := σ) κ Checksum token).adapterAt n t.1 level = some ⟨m, layer⟩)
    (hup : ∀ h, (stack (σ := σ) κ Checksum token).tokenAt n t.1 level = some h →
      h.isAborted t.2 = true) (hr : layer.Heeds request) :
    layer.Refused fuel request t.2 ∧
      outcome (asked fuel level request n t) = WriteLayer.answer request := by
  obtain ⟨h, ht⟩ := WriteLayer.exists_token hr
  have hrefused : layer.Refused fuel request t.2 := WriteLayer.refused_of_heeds hr (hu hlayer) ht
    (hup h ((Stack.tokenAt_of_adapterAt hlayer).trans ht))
  refine ⟨hrefused, ?_⟩
  obtain ⟨layer', hrun⟩ := hrefused
  have hrun := (hrun layer.inner).1
  rw [WriteLayer.on_inner] at hrun
  rw [asked_eq_atLevel token]
  exact (Stack.outcome_atLevel hlayer).trans hrun

omit [Session κ σ] [Sink σ ς] in
theorem unclosed_zero (sink : WriteTower κ γ ς 0) : Unclosed (σ := σ) token 0 sink := nofun

omit [Session κ σ] [Sink σ ς] in
theorem unclosed_succ {n : Nat} {layer : WriteLayer κ γ (WriteTower κ γ ς n)} (h : layer.Unclosed)
    (hinner : Unclosed (σ := σ) token n layer.inner) : Unclosed (σ := σ) token (n + 1) layer := by
  intro level m layer' hlayer
  by_cases hn : level ≤ n
  · exact hinner ((if_pos hn).symm.trans hlayer)
  · cases (if_neg hn).symm.trans hlayer
    exact h

omit [Session κ σ] [Sink σ ς] in
/-- No writer is closed that stays in use. -/
theorem Unclosed.goes {n : Nat} {s t : WriteTower κ Checksum ς n × Env σ}
    (hu : Unclosed (σ := σ) token n s.1) (hgo : (stack κ Checksum token).Goes n s t) :
    Unclosed (σ := σ) token n t.1 := by
  intro level m layer hlayer
  obtain ⟨layer', hlayer', honward⟩ := hgo.onward_adapterAt hlayer
  exact honward.2 (hu hlayer')

end WriteTower

end SealedStream
