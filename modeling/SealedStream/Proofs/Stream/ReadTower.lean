import SealedStream.Proofs.Stream.Stack
import SealedStream.Proofs.Stream.Sticky
import SealedStream.Stream.ReadTower

/-!
# Aborting towers of readers

Whatever is asked of the adapters of a tower, in whatever order, the tower goes on with the flags that
they look at (`ReadTower.goes_after`), so an abort lasts and reaches down as it does in any such stack
(`ReadTower.stops`). An adapter whose flag is up refuses what it looks at the flag for, and does not
use what it stands on (`ReadLayer.refused_of_heeds`).
-/

namespace SealedStream

variable {σ κ γ ρ : Type}

/-! ## Streams that go on -/

/-- Wherever what it is asked takes the source, it goes on as `G` says. -/
structure Source.Carries [Source σ ρ] [Seekable σ ρ] [Abortable σ ρ]
    (G : ρ × Env σ → ρ × Env σ → Prop) : Prop where
  below : ∀ {s t}, G s t → s.2.Below t.2
  trans : ∀ {s t u}, G s t → G t u → G s u
  elsewhere : ∀ {s : ρ × Env σ} {env}, s.2.Below env → G s (s.1, env)
  read : ∀ (fuel n : Nat) (s : ρ × Env σ), G s (reached ((Source.read fuel n : Transfer σ ρ Bytes) s))
  position : ∀ s : ρ × Env σ, G s (reached ((Seekable.position : Transfer σ ρ Nat) s))
  seek : ∀ (p : Nat) (s : ρ × Env σ), G s (reached ((Seekable.seek p : Transfer σ ρ Unit) s))
  abort : ∀ s : ρ × Env σ, G s (Abortable.abort s)

/-- What every read keeps, dropping bytes keeps; by induction on the rounds. -/
theorem Source.keeps_discardLoop [Source σ ρ] {I : ρ × Env σ → Prop} {fuel : Nat}
    (h : ∀ n, Keeps I (Source.read fuel n : Transfer σ ρ Bytes)) : ∀ rounds n count : Nat,
    Keeps I (Source.discardLoop fuel rounds n count : Transfer σ ρ Nat)
  | 0, 0, _ => fun _ hs => hs
  | _ + 1, 0, _ => fun _ hs => hs
  | 0, _ + 1, _ => fun _ hs => hs
  | rounds + 1, n + 1, count => by
    intro s hs
    have hread := h (min copyLen (n + 1)) s hs
    unfold Source.discardLoop
    cases hrun : (Source.read fuel (min copyLen (n + 1)) : Transfer σ ρ Bytes) s with
    | ok bytes t =>
      rw [hrun] at hread
      cases bytes with
      | nil => exact hread
      | cons b bs => exact keeps_discardLoop h rounds _ _ t hread
    | error e t =>
      rw [hrun] at hread
      dsimp only
      split
      · exact keeps_discardLoop h rounds _ _ t hread
      · exact hread

section

variable [Source σ ρ] [Seekable σ ρ] [Abortable σ ρ] {G : ρ × Env σ → ρ × Env σ → Prop}
  (hG : Source.Carries G) {s : ρ × Env σ} (fuel : Nat) {h : AbortHandle}

include hG

theorem Source.Carries.refl (s : ρ × Env σ) : G s s :=
  hG.elsewhere (.refl s.2)

/-- What a source does lowers no flag. -/
theorem Source.Carries.upward : Source.Carries (Upward : ρ × Env σ → _ → Prop) where
  below h := h
  trans h h' := .trans h h'
  elsewhere h := h
  read fuel n s := hG.below (hG.read fuel n s)
  position s := hG.below (hG.position s)
  seek p s := hG.below (hG.seek p s)
  abort s := hG.below (hG.abort s)

/-! ## Adapters that go on -/

theorem AbortableReader.keeps_read (n : Nat) :
    Keeps (fun t : AbortableReader ρ × Env σ => t.1.abort = h ∧ G s (t.1.inner, t.2))
      (Source.read fuel n : Transfer σ (AbortableReader ρ) Bytes) := by
  have hcheck : Keeps (fun t : AbortableReader ρ × Env σ => t.1.abort = h ∧ G s (t.1.inner, t.2))
      (checkAbort : Transfer σ (AbortableReader ρ) Unit) :=
    .bind .get fun _ => .adaptExcept (.check _) _
  refine .bind hcheck fun _ => .bind (.zoom_reached fun t ht => ?_) fun _ =>
    .bind hcheck fun _ => .pure _
  exact ⟨ht.1, hG.trans ht.2 (hG.read fuel n _)⟩

theorem CheckedReader.keeps_read [Accumulator γ] (n : Nat) :
    Keeps (fun t : CheckedReader γ ρ × Env σ => G s (t.1.inner, t.2))
      (Source.read fuel n : Transfer σ (CheckedReader γ ρ) Bytes) := by
  refine .bind (.zoom_reached fun t ht => ?_) fun _ => .bind (.modify fun _ ht => ht) fun _ => .pure _
  exact hG.trans ht (hG.read fuel n _)

theorem BufferedReader.keeps_read (n : Nat) :
    Keeps (fun t : BufferedReader ρ × Env σ => G s (t.1.inner, t.2))
      (Source.read fuel n : Transfer σ (BufferedReader ρ) Bytes) := by
  have hinner (m : Nat) : Keeps (fun t : BufferedReader ρ × Env σ => G s (t.1.inner, t.2))
      (onInner (Source.read fuel m) : Transfer σ (BufferedReader ρ) Bytes) :=
    .zoom_reached fun t ht => hG.trans ht (hG.read fuel m _)
  have hrest (buffer : Bytes) : Keeps (fun t : BufferedReader ρ × Env σ => G s (t.1.inner, t.2)) (do
      setBuffer (buffer.drop n)
      return buffer.take n : Transfer σ (BufferedReader ρ) Bytes) :=
    .bind (.modify fun _ ht => ht) fun _ => .pure _
  refine .bind .get fun (r, _) => .ite _ (hinner n) (.ite _ ?_ ?_)
  · exact .bind (hinner r.capacity) hrest
  · exact .bind (.pure _) hrest

namespace CipherReader

omit [Seekable σ ρ] [Abortable σ ρ] hG in
theorem reached_request_read [Session κ σ] [Seekable σ ρ] [Abortable σ ρ] (n : Nat)
    (s : State σ κ ρ) :
    reached ((Request.use (.read n)).run fuel s) = reached (readBytes fuel n s) := by
  simp only [Request.run, Use.run, reached_bind_pure]

/-- Whatever a cipher reader is asked, it keeps its flag, and what it stands on goes on. -/
theorem goes_request [Session κ σ] (request : Request) (s : State σ κ ρ) :
    s.1.abort.Becomes (reached (request.run fuel s)).1.abort ∧
      G (s.1.inner, s.2) ((reached (request.run fuel s)).1.inner, (reached (request.run fuel s)).2) := by
  have hstart : s.1.abort.Becomes s.1.abort ∧ G (s.1.inner, s.2) (s.1.inner, s.2) :=
    ⟨.same _, hG.refl _⟩
  refine keeps_request
    (I := fun t : State σ κ ρ => s.1.abort.Becomes t.1.abort ∧ G (s.1.inner, s.2) (t.1.inner, t.2))
    (keeps_use_of_parts (fun ht _ => ht) (fun call => keeps_onSession fun t ht => ?_)
      (keeps_readBlock fun n => keeps_onInner fun t ht => ?_))
    (keeps_setMark (keeps_onInner fun t ht => ?_) fun _ _ ht => ht)
    (keeps_reset (fun p => keeps_onInner fun t ht => ?_) fun _ ht => ht) (fun t ht => ?_)
    request s hstart
  · exact ⟨ht.1, hG.trans ht.2 (hG.elsewhere (.world _ _))⟩
  · exact ⟨ht.1, hG.trans ht.2 (hG.read fuel n _)⟩
  · exact ⟨ht.1, hG.trans ht.2 (hG.position _)⟩
  · exact ⟨ht.1, hG.trans ht.2 (hG.seek p _)⟩
  · refine ⟨ht.1.trans (t.1.abort.becomes_abort t.2), hG.trans ht.2 ?_⟩
    exact hG.trans (hG.elsewhere (t.1.abort.below_abort t.2)) (hG.abort _)

end CipherReader

end

namespace CipherReader

variable [Session κ σ]

/-- The session and the world that closing leaves. -/
def finalized (s : State σ κ ρ) : κ × σ :=
  if s.1.eof || s.1.failed.isSome then (s.1.session, s.2.world)
  else reached ((Session.finalize : Step (κ × σ) Bytes) (s.1.session, s.2.world))

/-- Closing uses the session only, and gives the source back unless the flag is up. -/
theorem run_close (s : State σ κ ρ) : (close : Pull σ κ ρ ρ) s =
    match s.1.abort.check s.2 with
    | .ok _ => .ok s.1.inner ({ s.1 with session := (finalized s).1, output := [] },
        { s.2 with world := (finalized s).2 })
    | .error e => .error e ({ s.1 with session := (finalized s).1, output := [] },
        { s.2 with world := (finalized s).2 }) := by
  obtain ⟨r, env⟩ := s
  have hcheck (w : σ) : r.abort.check { env with world := w } = r.abort.check env := by
    cases r.abort <;> rfl
  simp only [close, finalized]
  split
  · simp only [run_bind, run_update, checkAbort, run_get, run_check, run_pure]
    cases r.abort.check env <;> rfl
  · rw [run_onSession]
    cases (Session.finalize : Step (κ × σ) Bytes) (r.session, env.world) with
    | ok out u =>
      simp only [run_bind, run_update, checkAbort, run_get, run_check, run_pure, hcheck]
      cases r.abort.check env <;> rfl
    | error e u =>
      simp only [run_bind, run_update, checkAbort, run_get, run_check, run_pure, hcheck]
      cases r.abort.check env <;> rfl

theorem reached_close (s : State σ κ ρ) : reached ((close : Pull σ κ ρ ρ) s) =
    ({ s.1 with session := (finalized s).1, output := [] },
      { s.2 with world := (finalized s).2 }) := by
  rw [run_close]
  cases s.1.abort.check s.2 <;> rfl

end CipherReader

/-! ## What is asked of an adapter -/

namespace ReadLayer

/-- The flag that the adapter looks at. -/
def token : ReadLayer κ γ ρ → Option AbortHandle
  | .abortable r => some r.abort
  | .cipher r => some r.abort
  | _ => none

/-- Whether an abort is passed on to what the adapter stands on. -/
def PassesOn : ReadLayer κ γ ρ → Prop
  | .checked _ => True
  | .buffered _ => True
  | .cipher _ => True
  | _ => False

/-- The adapter on something else. -/
def on {ρ' : Type} (i : ρ') : ReadLayer κ γ ρ → ReadLayer κ γ ρ'
  | .abortable r => .abortable ⟨i, r.abort⟩
  | .checked r => .checked ⟨i, r.checksum⟩
  | .buffered r => .buffered ⟨i, r.capacity, r.buffer⟩
  | .cipher r => .cipher { r with inner := i }
  | .removed _ => .removed i

/-- Raises the flag of the adapter alone. -/
def raise : ReadLayer κ γ ρ × Env σ → ReadLayer κ γ ρ × Env σ
  | (.abortable r, env) => (.abortable { r with abort := (r.abort.abort env).1 }, (r.abort.abort env).2)
  | (.cipher r, env) => (.cipher { r with abort := (r.abort.abort env).1 }, (r.abort.abort env).2)
  | s => s

/-- What may be asked of an adapter in a tower of readers: what may be asked of a cipher reader, to be
closed, and to raise its flag alone. -/
inductive Request
  | ask (request : CipherReader.Request)
  | close
  | raise

variable [Session κ σ] [Source σ ρ] [Seekable σ ρ] [Abortable σ ρ]

/-- Only a checksum drops bytes besides. -/
def skip (fuel n : Nat) : EStateM Error (ReadLayer κ Checksum ρ × Env σ) Unit
  | (.checked r, env) => mapState (fun t => (.checked t.1, t.2)) ((do
      let _ ← (CheckedReader.skip fuel n).adaptExcept Error.ofIo
      return () : EStateM Error (CheckedReader Checksum ρ × Env σ) Unit) (r, env))
  | s => .ok () s

/-- What an adapter does that is no cipher reader; nothing, if it does not offer what it is asked
for. -/
def askedPlain (fuel : Nat) : CipherReader.Request → EStateM Error (ReadLayer κ Checksum ρ × Env σ) Unit
  | .use (.read n) => do
    let _ ← (Source.read fuel n : Transfer σ (ReadLayer κ Checksum ρ) Bytes).adaptExcept Error.ofIo
    return ()
  | .use (.skip n) => skip fuel n
  | .abort => modify Abortable.abort
  | _ => return ()

def asked (fuel : Nat) : Request → EStateM Error (ReadLayer κ Checksum ρ × Env σ) Unit
  | .close => do
    let _ ← close
    return ()
  | .raise => modify raise
  | .ask request => fun
    | (.cipher r, env) => mapState (fun t => (.cipher t.1, t.2)) ((do
        let _ ← request.run fuel
        return () : CipherReader.Pull σ κ ρ Unit) (r, env))
    | s => askedPlain fuel request s

/-- The adapter keeps the flag that it looks at unless it goes out of use, and what it stands on goes
on. -/
def Goes (G : ρ × Env σ → ρ × Env σ → Prop) (s t : ReadLayer κ γ ρ × Env σ) : Prop :=
  AbortHandle.Onward s.1.token t.1.token ∧ G (s.1.inner, s.2) (t.1.inner, t.2)

variable {G : ρ × Env σ → ρ × Env σ → Prop} (hG : Source.Carries G)

include hG

theorem goes_read [Accumulator γ] (fuel n : Nat) (s : ReadLayer κ γ ρ × Env σ) :
    Goes G s (reached ((Source.read fuel n : Transfer σ (ReadLayer κ γ ρ) Bytes) s)) := by
  obtain ⟨layer, env⟩ := s
  cases layer with
  | abortable r =>
    obtain ⟨habort, hgo⟩ := AbortableReader.keeps_read (s := (r.inner, env)) hG fuel n
      (r, env) ⟨rfl, hG.refl _⟩
    show Goes G _ (reached (mapState _ _))
    rw [reached_mapState]
    exact ⟨.of_eq habort, hgo⟩
  | checked r =>
    show Goes G _ (reached (mapState _ _))
    rw [reached_mapState]
    exact ⟨.refl _, CheckedReader.keeps_read (s := (r.inner, env)) hG fuel n (r, env) (hG.refl _)⟩
  | buffered r =>
    show Goes G _ (reached (mapState _ _))
    rw [reached_mapState]
    exact ⟨.refl _, BufferedReader.keeps_read (s := (r.inner, env)) hG fuel n (r, env) (hG.refl _)⟩
  | cipher r =>
    show Goes G _ (reached (mapState _ _))
    rw [reached_mapState]
    have hread : reached ((Source.read fuel n : Transfer σ (CipherReader κ ρ) Bytes) (r, env)) =
        reached ((CipherReader.Request.use (.read n)).run fuel (r, env)) :=
      (reached_adaptExcept _ _ _).trans (CipherReader.reached_request_read fuel n _).symm
    rw [hread]
    obtain ⟨hbecomes, hgo⟩ := CipherReader.goes_request hG fuel (.use (.read n)) (r, env)
    exact ⟨.becomes hbecomes, hgo⟩
  | removed inner => exact ⟨.refl _, hG.refl _⟩

omit [Session κ σ] in
theorem goes_abort (s : ReadLayer κ γ ρ × Env σ) : Goes G s (Abortable.abort s) := by
  obtain ⟨layer, env⟩ := s
  cases layer with
  | abortable r => exact ⟨.becomes (r.abort.becomes_abort env), hG.elsewhere (r.abort.below_abort env)⟩
  | checked r => exact ⟨.refl _, hG.abort (r.inner, env)⟩
  | buffered r => exact ⟨.refl _, hG.abort (r.inner, env)⟩
  | cipher r =>
    exact ⟨.becomes (r.abort.becomes_abort env),
      hG.trans (hG.elsewhere (r.abort.below_abort env)) (hG.abort _)⟩
  | removed inner => exact ⟨.refl _, hG.refl _⟩

/-- So an adapter is a source that goes on, in turn. -/
theorem carries [Accumulator γ] :
    Source.Carries (Goes G : ReadLayer κ γ ρ × Env σ → ReadLayer κ γ ρ × Env σ → Prop) where
  below h := hG.below h.2
  trans h h' := ⟨h.1.trans h'.1, hG.trans h.2 h'.2⟩
  elsewhere henv := ⟨.refl _, hG.elsewhere henv⟩
  read := goes_read hG
  position _ := ⟨.refl _, hG.refl _⟩
  seek _ _ := ⟨.refl _, hG.refl _⟩
  abort := goes_abort hG

omit [Session κ σ] in
theorem goes_raise (s : ReadLayer κ γ ρ × Env σ) : Goes G s (raise s) := by
  obtain ⟨layer, env⟩ := s
  cases layer with
  | abortable r => exact ⟨.becomes (r.abort.becomes_abort env), hG.elsewhere (r.abort.below_abort env)⟩
  | cipher r => exact ⟨.becomes (r.abort.becomes_abort env), hG.elsewhere (r.abort.below_abort env)⟩
  | checked r => exact ⟨.refl _, hG.refl _⟩
  | buffered r => exact ⟨.refl _, hG.refl _⟩
  | removed inner => exact ⟨.refl _, hG.refl _⟩

theorem goes_close (s : ReadLayer κ Checksum ρ × Env σ) :
    Goes G s (reached ((close : EStateM Error (ReadLayer κ Checksum ρ × Env σ) _) s)) := by
  obtain ⟨layer, env⟩ := s
  cases layer with
  | cipher r =>
    have hbelow (w : σ) : env.Below { env with world := w } := .world env w
    simp only [close, CipherReader.run_close]
    cases r.abort.check env <;> exact ⟨.gone _, hG.elsewhere (hbelow _)⟩
  | abortable r => exact ⟨.gone _, hG.refl _⟩
  | checked r => exact ⟨.gone _, hG.refl _⟩
  | buffered r => exact ⟨.gone _, hG.refl _⟩
  | removed inner => exact ⟨.gone _, hG.refl _⟩

omit [Session κ σ] in
theorem goes_skip (fuel n : Nat) (s : ReadLayer κ Checksum ρ × Env σ) :
    Goes G s (reached (skip fuel n s)) := by
  obtain ⟨layer, env⟩ := s
  cases layer with
  | checked r =>
    simp only [skip, reached_mapState, reached_bind_pure, reached_adaptExcept]
    exact ⟨.refl _, Source.keeps_discardLoop (fun m => CheckedReader.keeps_read hG fuel m) fuel n 0 (r, env)
      (hG.refl (r.inner, env))⟩
  | _ => exact ⟨.refl _, hG.refl _⟩

theorem goes_askedPlain (fuel : Nat) (request : CipherReader.Request)
    (s : ReadLayer κ Checksum ρ × Env σ) : Goes G s (reached (askedPlain fuel request s)) := by
  cases request with
  | use use =>
    cases use with
    | read n =>
      simp only [askedPlain, reached_bind_pure, reached_adaptExcept]
      exact goes_read hG fuel n s
    | skip n => exact goes_skip hG fuel n s
    | available => exact (carries hG).refl s
  | mark => exact (carries hG).refl s
  | reset => exact (carries hG).refl s
  | abort => exact goes_abort hG s

/-- Whatever it is asked. -/
theorem goes_asked (fuel : Nat) (request : Request) (s : ReadLayer κ Checksum ρ × Env σ) :
    Goes G s (reached (asked fuel request s)) := by
  cases request with
  | close =>
    simp only [asked, reached_bind_pure]
    exact goes_close hG s
  | raise => exact goes_raise hG s
  | ask request =>
    obtain ⟨layer, env⟩ := s
    cases layer with
    | cipher r =>
      simp only [asked, reached_mapState, reached_bind_pure]
      obtain ⟨hbecomes, hgo⟩ := CipherReader.goes_request hG fuel request (r, env)
      exact ⟨.becomes hbecomes, hgo⟩
    | _ => exact goes_askedPlain hG fuel request _

end ReadLayer

/-! ## Refusals -/

namespace ReadLayer

/-- What an adapter looks at its flag for before it does anything. -/
def Heeds : Request → ReadLayer κ γ ρ → Prop
  | .ask (.use _), .cipher _ => True
  | .ask .reset, .cipher _ => True
  | .close, .cipher _ => True
  | .ask (.use (.read _)), .abortable _ => True
  | _, _ => False

/-- Only for what it has a flag for. -/
theorem exists_token {layer : ReadLayer κ γ ρ} {request : Request} (hr : layer.Heeds request) :
    ∃ h, layer.token = some h := by
  unfold Heeds at hr
  split at hr <;> first | exact ⟨_, rfl⟩ | exact hr.elim

variable [Session κ σ]

/-- What the adapter is asked for fails since it is aborted. What it stands on has no part in this,
whatever it is, and no flag goes up. -/
def Refused (fuel : Nat) (request : Request) (layer : ReadLayer κ Checksum ρ)
    (env : Env σ) : Prop :=
  ∃ (layer' : ReadLayer κ Checksum ρ) (env' : Env σ), env'.raised = env.raised ∧
    ∀ {ρ' : Type} [Source σ ρ'] [Seekable σ ρ'] [Abortable σ ρ'] (i : ρ'),
      asked fuel request (layer.on i, env) = .error .aborted (layer'.on i, env')

/-- **An adapter whose flag is up refuses what it looks at the flag for.** -/
theorem refused_of_heeds {fuel : Nat} {request : Request} {layer : ReadLayer κ Checksum ρ}
    {env : Env σ} {h : AbortHandle} (hr : layer.Heeds request) (ht : layer.token = some h)
    (ha : h.isAborted env = true) : layer.Refused fuel request env := by
  cases layer with
  | cipher r =>
    cases ht
    have hcheck : r.abort.check env = .error .aborted := by
      simp only [AbortHandle.check, ha, if_true]
    cases request with
    | raise => exact hr.elim
    | close =>
      refine ⟨.removed r.inner, { env with world := (CipherReader.finalized (r, env)).2 }, rfl, ?_⟩
      intro ρ' _ _ _ i
      simp only [asked, on, run_bind, close, CipherReader.run_close, hcheck]
      rfl
    | ask request =>
      refine ⟨.cipher r, env, rfl, fun {ρ'} _ _ _ i => ?_⟩
      cases request with
      | use use =>
        have hfailed : CipherReader.verdict ((({ r with inner := i } : CipherReader κ ρ'), env)) =
            .failed .aborted := CipherReader.verdict_of_aborted ha
        simp only [asked, on, CipherReader.Request.run, run_bind,
          CipherReader.use_of_failed hfailed, mapState]
      | reset =>
        simp only [asked, on, CipherReader.Request.run, run_bind, CipherReader.run_reset, hcheck,
          mapState]
      | mark => exact hr.elim
      | abort => exact hr.elim
  | abortable r =>
    cases ht
    have hcheck : r.abort.check env = .error .aborted := by
      simp only [AbortHandle.check, ha, if_true]
    refine ⟨.abortable r, env, rfl, fun {ρ'} _ _ _ i => ?_⟩
    cases request with
    | close => exact hr.elim
    | raise => exact hr.elim
    | ask request =>
      cases request with
      | use use =>
        cases use with
        | read n =>
          have hread : (Source.read fuel n : Transfer σ (AbortableReader ρ') Bytes) (⟨i, r.abort⟩, env) =
              .error (Error.toIo .aborted) (⟨i, r.abort⟩, env) := by
            simp only [Source.read, AbortableReader.checkAbort, run_bind, run_get, run_adaptExcept,
              run_check, hcheck]
          have hlayer : (Source.read fuel n : Transfer σ (ReadLayer κ Checksum ρ') Bytes)
              (.abortable ⟨i, r.abort⟩, env) =
                .error (Error.toIo .aborted) (.abortable ⟨i, r.abort⟩, env) :=
            congrArg (mapState fun t => ((.abortable t.1 : ReadLayer κ Checksum ρ'), t.2)) hread
          simp only [asked, on, askedPlain, run_bind, run_adaptExcept, hlayer]
          rfl
        | skip n => exact hr.elim
        | available => exact hr.elim
      | mark => exact hr.elim
      | reset => exact hr.elim
      | abort => exact hr.elim
  | checked r => cases ht
  | buffered r => cases ht
  | removed inner => cases ht

end ReadLayer

/-! ## Towers -/

namespace ReadLayer

theorem on_inner (layer : ReadLayer κ γ ρ) : layer.on layer.inner = layer := by
  cases layer <;> rfl

theorem inner_setInner (i : ρ) (layer : ReadLayer κ γ ρ) : (layer.setInner i).inner = i := by
  cases layer <;> rfl

theorem onward_setInner (i : ρ) (layer : ReadLayer κ γ ρ) :
    AbortHandle.Onward layer.token (layer.setInner i).token := by
  cases layer <;> exact .refl _

theorem asked_abort [Session κ σ] [Source σ ρ] [Seekable σ ρ] [Abortable σ ρ] (fuel : Nat)
    (s : ReadLayer κ Checksum ρ × Env σ) :
    asked fuel (.ask .abort) s = .ok () (Abortable.abort s) := by
  obtain ⟨layer, env⟩ := s
  cases layer <;> rfl

variable [Abortable σ ρ]

/-- Aborting an adapter raises the flag that it looks at. -/
theorem raises (hbelow : ∀ u : ρ × Env σ, u.2.Below (Abortable.abort u).2) :
    Raises (σ := σ) (token : ReadLayer κ γ ρ → Option AbortHandle) := by
  rintro ⟨layer, env⟩ h ht
  cases layer with
  | abortable r =>
    cases ht
    exact ⟨_, rfl, r.abort.becomes_abort env, r.abort.isAborted_abort env⟩
  | cipher r =>
    cases ht
    refine ⟨_, rfl, r.abort.becomes_abort env, ?_⟩
    exact AbortHandle.isAborted_mono (hbelow _) (r.abort.isAborted_abort env)
  | checked r => cases ht
  | buffered r => cases ht
  | removed inner => cases ht

/-- If the adapter passes an abort on, what it stands on is aborted, after the adapter's own flag. -/
theorem abort_of_passesOn {layer : ReadLayer κ γ ρ} (hp : layer.PassesOn) (env : Env σ) :
    ∃ env₁, (Abortable.abort (layer, env)).1.inner = (Abortable.abort (layer.inner, env₁)).1 ∧
      (Abortable.abort (layer, env)).2 = (Abortable.abort (layer.inner, env₁)).2 := by
  cases layer with
  | abortable r => exact hp.elim
  | checked r => exact ⟨env, rfl, rfl⟩
  | buffered r => exact ⟨env, rfl, rfl⟩
  | cipher r => exact ⟨(r.abort.abort env).2, rfl, rfl⟩
  | removed inner => exact hp.elim

end ReadLayer

namespace ReadTower

/-- What is looked at on top; `token` is what the source looks at. -/
def topToken (token : ρ → Option AbortHandle) : {n : Nat} → ReadTower κ γ ρ n → Option AbortHandle
  | 0, source => token source
  | _ + 1, layer => ReadLayer.token layer

/-- A tower of readers as a stack. -/
def stack [Abortable σ ρ] (κ γ : Type) (token : ρ → Option AbortHandle) :
    Stack σ (ReadTower κ γ ρ) where
  inner := ReadLayer.inner
  setInner := ReadLayer.setInner
  token := topToken token
  PassesOn := ReadLayer.PassesOn
  abort := Abortable.abort
  Onward s t := AbortHandle.Onward (ReadLayer.token s) (ReadLayer.token t)
  inner_setInner := ReadLayer.inner_setInner
  onward_setInner := ReadLayer.onward_setInner
  onward_trans := .trans
  onward_refl _ := .refl _
  onward_token h := h

variable [Session κ σ] [Source σ ρ] [Seekable σ ρ] [Abortable σ ρ]

/-- Asks the adapter at a level. -/
def asked (fuel level : Nat) (request : ReadLayer.Request) :
    (n : Nat) → EStateM Error (ReadTower κ Checksum ρ n × Env σ) Unit :=
  atLevel level (return ()) fun _ => ReadLayer.asked fuel request

/-- Where that leads, also by a failure. -/
def after (fuel : Nat) (n level : Nat) (request : ReadLayer.Request)
    (s : ReadTower κ Checksum ρ n × Env σ) : ReadTower κ Checksum ρ n × Env σ :=
  reached (asked fuel level request n s)

variable {token : ρ → Option AbortHandle} {fuel : Nat}

/-- That is a step of the stack; by induction on the height. -/
theorem asked_eq_atLevel (token : ρ → Option AbortHandle) (level : Nat)
    (request : ReadLayer.Request) : ∀ n : Nat,
    asked fuel level request n = (stack κ Checksum token).atLevel level (return ())
      (fun _ => ReadLayer.asked (σ := σ) fuel request) n
  | 0 => rfl
  | n + 1 => congrArg (fun x => if level ≤ n then
      zoom (fun t : ReadTower κ Checksum ρ (n + 1) × Env σ => (ReadLayer.inner t.1, t.2))
        (fun u t => (ReadLayer.setInner u.1 t.1, u.2)) x
      else ReadLayer.asked fuel request) (asked_eq_atLevel token level request n)

theorem after_eq_onLevel (token : ρ → Option AbortHandle) (level : Nat)
    (request : ReadLayer.Request) (n : Nat) (s : ReadTower κ Checksum ρ n × Env σ) :
    after fuel n level request s = (stack κ Checksum token).onLevel level id
      (fun _ u => reached (ReadLayer.asked fuel request u)) n s := by
  rw [after, asked_eq_atLevel token]
  exact Stack.reached_atLevel n s

section

variable (hG : Source.Carries (Goes (σ := σ) token))

include hG

/-- Towers are sources that go on; by induction on the height. -/
theorem carries [Accumulator γ] : ∀ n : Nat,
    Source.Carries ((stack κ γ token).Goes n : ReadTower κ γ ρ n × Env σ → _ → Prop)
  | 0 => hG
  | n + 1 => ReadLayer.carries (carries n)

theorem goes_after {n : Nat} (level : Nat) (request : ReadLayer.Request)
    (s : ReadTower κ Checksum ρ n × Env σ) :
    (stack κ Checksum token).Goes n s (after fuel n level request s) := by
  rw [after_eq_onLevel token]
  refine Stack.goes_onLevel (S := stack κ Checksum token) (fun s => .refl s) (fun m u => ?_) n s
  exact ReadLayer.goes_asked (carries hG m) fuel request u

theorem aborts (hR : Raises (σ := σ) token) : (stack κ Checksum token : Stack σ _).Aborts where
  raises {n} s _ ht := by
    cases n with
    | zero => exact hR s ht
    | succ n => exact ReadLayer.raises (fun u => (carries hG n).below ((carries hG n).abort u)) s ht
  passed hp env := ReadLayer.abort_of_passesOn hp env

end

/-- **In a tower of readers aborts last and reach down.** -/
theorem stops (hG : Source.Carries (Goes (σ := σ) token)) (hR : Raises (σ := σ) token) (n : Nat) :
    (stack κ Checksum token).Stops n (after fuel n) (.ask .abort) := by
  refine (aborts hG hR).stops (goes_after hG) fun level s => ?_
  have habort : (fun m u => reached (ReadLayer.asked fuel (.ask .abort) u) :
      (m : Nat) → ReadTower κ Checksum ρ (m + 1) × Env σ → _) = fun _ => Abortable.abort := by
    funext m u
    exact congrArg reached (ReadLayer.asked_abort fuel u)
  exact (after_eq_onLevel token level _ n s).trans
    (congrArg (fun f => (stack κ Checksum token).onLevel level id f n s) habort)

/-- What is asked of an adapter whose flag is up is refused, if the adapter looks at the flag for it. -/
theorem refused {n level m : Nat} {t : ReadTower κ Checksum ρ n × Env σ}
    {layer : ReadLayer κ Checksum (ReadTower κ Checksum ρ m)} {request : ReadLayer.Request}
    (hlayer : (stack (σ := σ) κ Checksum token).adapterAt n t.1 level = some ⟨m, layer⟩)
    (hup : ∀ h, (stack (σ := σ) κ Checksum token).tokenAt n t.1 level = some h →
      h.isAborted t.2 = true) (hr : layer.Heeds request) :
    layer.Refused fuel request t.2 ∧ outcome (asked fuel level request n t) = .error .aborted := by
  obtain ⟨h, ht⟩ := ReadLayer.exists_token hr
  have hrefused : layer.Refused fuel request t.2 := ReadLayer.refused_of_heeds hr ht
    (hup h ((Stack.tokenAt_of_adapterAt hlayer).trans ht))
  refine ⟨hrefused, ?_⟩
  obtain ⟨layer', env', -, hrun⟩ := hrefused
  have hrun := hrun layer.inner
  rw [ReadLayer.on_inner] at hrun
  rw [asked_eq_atLevel token]
  exact (Stack.outcome_atLevel hlayer).trans (congrArg outcome hrun)

end ReadTower

end SealedStream
