import SealedStream.Proofs.Stream.Aborting
import SealedStream.Proofs.Stream.Alarmed

/-!
# Aborting only cuts a stream short

What a reader hands out that is aborted, and what the sink of a writer receives, is the beginning of
what it would be without the abort (`aborting_cuts_short`). Beside the same one without an alarm a
reader does the same until it is aborted, since it does not give away the block that it reads then
(`CipherReader.tandem_calm`). A writer may finish the write that it is at, as the other one does; then
it trails behind (`CipherWriter.received_of_abreast`).
-/

namespace SealedStream

variable {σ κ ρ ς : Type}

/-! ## Readers -/

namespace CipherReader

/-- The reader over its source without the alarm. -/
def unalarmed (s : State σ κ (Alarmed ρ)) : State σ κ ρ := refit s.1.session s.1.inner.inner s

/-- If the source still gives alarm, then to the reader. -/
def Alerted (s : State σ κ (Alarmed ρ)) : Prop :=
  s.1.abort = .shared s.1.inner.flag ∨ s.1.inner.calm = none

def Aborted (s : State σ κ ρ) : Prop := s.1.abort.isAborted s.2 = true

/-- A reader beside the same one over its source without the alarm. -/
def Calm (s : State σ κ (Alarmed ρ)) (t : State σ κ ρ) : Prop := t = unalarmed s ∧ Alerted s

section

variable [Source σ ρ] {fuel : Nat}

/-- A block is the same, or the reader is aborted while it is read and does not get it. -/
theorem alike_readBlock (h : ∀ (n : Nat) (s : ρ × Env σ),
    s.2.Below (reached ((Source.read fuel n : Transfer σ ρ Bytes) s)).2) :
    Alike Calm (fun _ => Aborted) (readBlock fuel : Pull σ κ (Alarmed ρ) Bytes) (readBlock fuel) := by
  rintro ⟨r, env⟩ _ ⟨rfl, hr⟩
  by_cases ha : r.inner.calm = some 0
  · have hflag : r.abort = .shared r.inner.flag := hr.resolve_right (by simp [ha])
    have hraised := Alarmed.isRaised_call (h r.blockSize) ha env
    have haborted {u : Alarmed ρ × Env σ} (hu : u.2.isRaised r.inner.flag = true) :
        r.abort.isAborted u.2 = true := by
      rw [hflag]
      exact hu
    rw [run_readBlock]
    simp only [Source.read]
    cases hcall : Alarmed.call (Source.read fuel r.blockSize) (r.inner, env) with
    | error e u =>
      rw [hcall] at hraised
      exact .cut _ (haborted hraised)
    | ok block u =>
      rw [hcall] at hraised
      have hcheck : r.abort.check u.2 = .error .aborted := if_pos (haborted hraised)
      simp only [hcheck]
      exact .cut _ (haborted hraised)
  · rw [run_readBlock, run_readBlock]
    simp only [Source.read, Alarmed.call_of_calm ha, unalarmed, refit]
    cases (Source.read fuel r.blockSize : Transfer σ ρ Bytes) (r.inner.inner, env) with
    | error e u => exact .error _ ⟨rfl, hr.imp id fun h => Alarmed.calm_next h _⟩
    | ok block u =>
      simp only [mapState]
      cases r.abort.check u.2 with
      | error e => exact .error _ ⟨rfl, hr.imp id fun h => Alarmed.calm_next h _⟩
      | ok _ => exact .ok _ ⟨rfl, hr.imp id fun h => Alarmed.calm_next h _⟩

omit [Source σ ρ] in
theorem alike_onSession (x : Step (κ × σ) Bytes) : Alike Calm (fun _ => Aborted)
    (onSession x : Pull σ κ (Alarmed ρ) Bytes) (onSession x) := by
  rintro ⟨r, env⟩ _ ⟨rfl, hr⟩
  simp only [unalarmed, refit, run_onSession]
  cases x (r.session, env.world) with
  | ok out t => exact .ok out ⟨rfl, hr⟩
  | error e t => exact .error e ⟨rfl, hr⟩

omit [Source σ ρ] in
theorem Calm.poison {s : State σ κ (Alarmed ρ)} {t : State σ κ ρ} (e : Error) (h : Calm s t) :
    Calm (poison e s.1, s.2) (poison e t.1, t.2) := by
  obtain ⟨rfl, hr⟩ := h
  unfold CipherReader.poison
  split <;> exact ⟨rfl, hr⟩

variable [Session κ σ]

/-- **Beside a reader without the alarm a reader does the same until it is aborted.** -/
theorem tandem_calm (h : ∀ (n : Nat) (s : ρ × Env σ),
    s.2.Below (reached ((Source.read fuel n : Transfer σ ρ Bytes) s)).2) :
    Tandem fuel (Calm : State σ κ (Alarmed ρ) → State σ κ ρ → Prop) fun _ => Aborted := by
  refine .of_parts ?_ ?_ (fun call => alike_onSession call.run) (alike_readBlock h)
  · rintro s _ ⟨rfl, -⟩
    exact ⟨rfl, rfl, rfl, rfl⟩
  · rintro s _ ⟨rfl, hr⟩ n
    exact ⟨rfl, hr⟩

end

/-! ## What is handed out -/

section

variable [Session κ σ] [Source σ ρ] [Seekable σ ρ] [Abortable σ ρ] {fuel : Nat}

/-- The bytes that an answer hands out. -/
def handed : Except Error (Option Answer) → Bytes
  | .ok (some (.handed bytes)) => bytes
  | _ => []

/-- Raises the flag of the reader alone. -/
def raise (s : State σ κ ρ) : State σ κ ρ :=
  ({ s.1 with abort := (s.1.abort.abort s.2).1 }, (s.1.abort.abort s.2).2)

/-- The bytes that a reader hands out, asked for one thing after the other. When it is closed it
goes out of use. -/
def delivered (fuel : Nat) : List ReadLayer.Request → State σ κ ρ → Bytes
  | [], _ => []
  | .close :: _, _ => []
  | .raise :: requests, s => delivered fuel requests (raise s)
  | .ask request :: requests, s =>
    handed (outcome (request.run fuel s)) ++ delivered fuel requests (reached (request.run fuel s))

end

end CipherReader

/-- Whether a request aborts the reader. -/
def ReadLayer.Request.aborts : ReadLayer.Request → Bool
  | .ask .abort => true
  | .raise => true
  | _ => false

namespace CipherReader

variable [Session κ σ] [Source σ ρ] [Seekable σ ρ] [Abortable σ ρ] {fuel : Nat}
  (hρ : Source.Carries (Upward : ρ × Env σ → _ → Prop))

include hρ

/-- A reader that is aborted stays so, -/
theorem Aborted.request {s : State σ κ ρ} (h : Aborted s) (request : Request) :
    Aborted (reached (request.run fuel s)) := by
  obtain ⟨hbecomes, hbelow⟩ := goes_request hρ fuel request s
  exact hbecomes.isAborted hbelow h

/-- and hands out nothing; by induction on what is asked. -/
theorem delivered_of_aborted (requests : List ReadLayer.Request) {s : State σ κ ρ} (h : Aborted s) :
    delivered fuel requests s = [] := by
  induction requests generalizing s with
  | nil => rfl
  | cons request requests ih =>
    cases request with
    | close => rfl
    | raise => exact ih (s.1.abort.isAborted_abort s.2)
    | ask request =>
      have hnone : handed (outcome (request.run fuel s)) = [] := by
        cases request with
        | use use =>
          simp only [Request.run, run_bind, use_of_failed (verdict_of_aborted h)]
          rfl
        | mark =>
          simp only [Request.run, run_bind]
          cases (setMark : Pull σ κ ρ Unit) s <;> rfl
        | reset =>
          simp only [Request.run, run_bind]
          cases (reset : Pull σ κ ρ Unit) s <;> rfl
        | abort => rfl
      rw [delivered, hnone, ih (h.request hρ request), List.append_nil]

omit [Source σ ρ] [Abortable σ ρ] [Session κ σ] hρ in
theorem alike_setMark : Alike Calm (fun _ => Aborted)
    (setMark : Pull σ κ (Alarmed ρ) Unit) setMark := by
  rintro ⟨r, env⟩ _ ⟨rfl, hr⟩
  rw [run_setMark, run_setMark]
  by_cases ha : r.accessed = true
  · rw [if_pos ha, if_pos (show (unalarmed (r, env)).1.accessed = true from ha)]
    exact .error _ ⟨rfl, hr⟩
  · rw [if_neg ha, if_neg (show ¬ (unalarmed (r, env)).1.accessed = true from ha)]
    simp only [unalarmed, refit, Seekable.position, Alarmed.through]
    cases (Seekable.position : Transfer σ ρ Nat) (r.inner.inner, env) with
    | ok p u => exact .ok () ⟨rfl, hr⟩
    | error e u => exact .error _ ⟨rfl, hr⟩

omit [Source σ ρ] [Abortable σ ρ] hρ in
theorem alike_reset : Alike Calm (fun _ => Aborted)
    (reset : Pull σ κ (Alarmed ρ) Unit) reset := by
  rintro ⟨r, env⟩ _ ⟨rfl, hr⟩
  rw [run_reset, run_reset]
  simp only [unalarmed, refit, Seekable.seek, Alarmed.through]
  cases r.abort.check env with
  | error e => exact .error e ⟨rfl, hr⟩
  | ok _ =>
    cases hm : r.mark with
    | none => exact .error _ ⟨by simp only [unalarmed, refit, hm], hr⟩
    | some p =>
      simp only
      cases (Seekable.seek p : Transfer σ ρ Unit) (r.inner.inner, env) with
      | ok _ u => exact .ok () ⟨rfl, hr⟩
      | error e u => exact .error _ ⟨rfl, hr⟩

/-- Asked for the same, they do the same until the first one is aborted. -/
theorem alike_request {request : Request} (h : request ≠ .abort) : Alike Calm (fun _ => Aborted)
    (request.run fuel : Pull σ κ (Alarmed ρ) _) (request.run fuel) := by
  cases request with
  | use use =>
    refine .bind (((tandem_calm (hρ.read fuel)).use Calm.poison use).mono ?_) fun _ => .pure _
    rintro e _ ⟨t, ht, rfl⟩
    unfold poison
    split <;> exact ht
  | mark => exact .bind alike_setMark fun _ => .pure _
  | reset => exact .bind alike_reset fun _ => .pure _
  | abort => exact absurd rfl h

/-- **A reader that is aborted hands out the beginning of what it would hand out otherwise.** By
induction on what is asked. -/
theorem delivered_isPrefix (requests : List ReadLayer.Request) {s : State σ κ (Alarmed ρ)}
    (hs : Alerted s) : delivered fuel requests s <+:
      delivered fuel (requests.filter fun request => !request.aborts) (unalarmed s) := by
  have hcut {s : State σ κ (Alarmed ρ)} (requests : List ReadLayer.Request) (h : Aborted s) :
      delivered fuel requests s = [] := delivered_of_aborted (Alarmed.carries hρ) requests h
  induction requests generalizing s with
  | nil => exact List.prefix_rfl
  | cons request requests ih =>
    cases request with
    | close => exact List.prefix_rfl
    | raise =>
      have haborted : Aborted (raise s) := s.1.abort.isAborted_abort s.2
      rw [delivered, hcut requests haborted]
      exact List.nil_prefix
    | ask request =>
      by_cases habort : request = .abort
      · subst habort
        have haborted : Aborted (reached (Request.abort.run fuel s)) :=
          AbortHandle.isAborted_mono (hρ.abort (s.1.inner.inner, (s.1.abort.abort s.2).2))
            (s.1.abort.isAborted_abort s.2)
        rw [delivered, hcut requests haborted]
        exact List.nil_prefix
      · have hkept : (!(ReadLayer.Request.ask request).aborts) = true := by
          cases request with
          | abort => exact absurd rfl habort
          | use _ => rfl
          | mark => rfl
          | reset => rfl
        have hrun : Paired Calm (fun _ => Aborted) (request.run fuel s)
            (request.run fuel (unalarmed s)) := alike_request hρ habort s (unalarmed s) ⟨rfl, hs⟩
        rw [List.filter_cons_of_pos (p := fun request : ReadLayer.Request => !request.aborts) hkept,
          delivered, delivered]
        generalize request.run fuel s = p, request.run fuel (unalarmed s) = q at hrun
        cases hrun with
        | ok answer h =>
          obtain ⟨rfl, hs⟩ := h
          exact List.prefix_append_right_inj _ |>.mpr (ih hs)
        | error e h =>
          obtain ⟨rfl, hs⟩ := h
          exact ih hs
        | @cut e u _ h =>
          show [] ++ delivered fuel requests u <+: _
          rw [hcut requests h]
          exact List.nil_prefix

end CipherReader

/-! ## Writers -/

/-- Whether a request aborts the writer. -/
def WriteLayer.Request.aborts : WriteLayer.Request → Bool
  | .abort => true
  | .raise => true
  | _ => false

namespace CipherWriter

/-- The writer over its sink without the alarm. -/
def unalarmed (s : CipherWriter κ (Alarmed ς) × Env σ) : CipherWriter κ ς × Env σ :=
  ({ s.1 with inner := s.1.inner.inner }, s.2)

/-- If the sink still gives alarm, then to the writer. -/
def Alerted (s : CipherWriter κ (Alarmed ς) × Env σ) : Prop :=
  s.1.abort = .shared s.1.inner.flag ∨ s.1.inner.calm = none

def Aborted (s : CipherWriter κ ς × Env σ) : Prop := s.1.abort.isAborted s.2 = true

/-- Raises the flag of the writer alone. -/
def raise (s : CipherWriter κ ς × Env σ) : CipherWriter κ ς × Env σ :=
  ({ s.1 with abort := (s.1.abort.abort s.2).1 }, (s.1.abort.abort s.2).2)

variable [Session κ σ] [Sink σ ς] [Abortable σ ς] {content : ς → Bytes} {fuel : Nat}

/-- What the sink has received, as `content` says, when the writer was asked for one thing after the
other. When it is closed, finished or dropped it goes out of use. -/
def received (content : ς → Bytes) (fuel : Nat) :
    List WriteLayer.Request → CipherWriter κ ς × Env σ → Bytes
  | [], s => content s.1.inner
  | .write bytes :: requests, s => received content fuel requests (reached (writeBytes fuel bytes s))
  | .flush :: requests, s => received content fuel requests (reached (flush fuel s))
  | .close :: _, s => content (reached (close fuel s)).1.inner
  | .finish :: _, s => content (reached (finish fuel s)).1.inner
  | .drop :: _, s => content (drop fuel s).1.inner
  | .abort :: requests, s => received content fuel requests (Abortable.abort s)
  | .raise :: requests, s => received content fuel requests (raise s)

omit [Abortable σ ς] in
theorem drop_eq_reached (s : CipherWriter κ ς × Env σ) :
    drop fuel s = reached ((shutdown fuel false : Push σ κ ς Unit) s) := by
  unfold drop
  cases (shutdown fuel false : Push σ κ ς Unit) s <;> rfl

omit [Abortable σ ς] in
theorem inner_shutdown_of_aborted {s : CipherWriter κ ς × Env σ} (h : Aborted s) (strict : Bool) :
    (reached ((shutdown fuel strict : Push σ κ ς Unit) s)).1.inner = s.1.inner := by
  obtain ⟨w, env⟩ := s
  cases hclosed : w.closed with
  | false =>
    rw [run_shutdown_of_aborted hclosed h]
    rfl
  | true =>
    simp only [shutdown, run_bind, run_get, run_ite, hclosed, if_true, run_pure]
    rfl

/-- Once it is aborted, the sink of a writer receives nothing more; by induction on what is asked. -/
theorem received_of_aborted (habort : ∀ s : ς × Env σ,
      s.2.Below (Abortable.abort s).2 ∧ content (Abortable.abort s).1 = content s.1)
    (requests : List WriteLayer.Request) {s : CipherWriter κ ς × Env σ} (h : Aborted s) :
    received content fuel requests s = content s.1.inner := by
  induction requests generalizing s with
  | nil => rfl
  | cons request requests ih =>
    obtain ⟨w, env⟩ := s
    cases request with
    | write bytes =>
      rw [received, run_write_of_aborted h]
      exact ih h
    | flush =>
      rw [received, run_flush_of_aborted h]
      exact ih h
    | close => exact congrArg content (inner_shutdown_of_aborted h false)
    | finish => exact congrArg content (inner_shutdown_of_aborted h true)
    | drop =>
      rw [received, drop_eq_reached]
      exact congrArg content (inner_shutdown_of_aborted h false)
    | abort =>
      obtain ⟨hbelow, hcontent⟩ := habort (w.inner, (w.abort.abort env).2)
      exact (ih (AbortHandle.isAborted_mono hbelow (w.abort.isAborted_abort env))).trans hcontent
    | raise => exact ih (w.abort.isAborted_abort env)

/-- What the sink has received is the beginning of what it will have; by induction on what is
asked. -/
theorem prefix_received {flag : Nat} (hς : Sink.Steady (σ := σ) flag content)
    (requests : List WriteLayer.Request) (s : CipherWriter κ ς × Env σ) :
    content s.1.inner <+: received content fuel requests s := by
  induction requests generalizing s with
  | nil => exact List.prefix_rfl
  | cons request requests ih =>
    have hA := hς.abreast_grown fuel s.1.abort (content s.1.inner)
    have hclose (strict : Bool) : content s.1.inner <+:
        content (reached ((shutdown fuel strict : Push σ κ ς Unit) s)).1.inner :=
      (trails_shutdown hA strict).keeps s s List.prefix_rfl
    cases request with
    | write bytes =>
      have hwrite := (trails_write hA bytes).keeps s s List.prefix_rfl
      exact hwrite.trans (ih _)
    | flush =>
      have hflush := (trails_flush hA).keeps s s List.prefix_rfl
      exact hflush.trans (ih _)
    | close => exact hclose false
    | finish => exact hclose true
    | drop =>
      rw [received, drop_eq_reached]
      exact hclose false
    | abort =>
      obtain ⟨-, hcontent⟩ := hς.abort (s.1.inner, (s.1.abort.abort s.2).2)
      have hih := ih (Abortable.abort s)
      rw [show content (Abortable.abort s).1.inner = content s.1.inner from hcontent] at hih
      exact hih
    | raise => exact ih (raise s)

/-- Behind an aborted writer another one may go on. -/
theorem received_of_behind {flag : Nat} (hς : Sink.Steady (σ := σ) flag content)
    {s : CipherWriter κ (Alarmed ς) × Env σ} {t : CipherWriter κ ς × Env σ} (hs : Aborted s)
    (hst : content s.1.inner.inner <+: content t.1.inner) (requests requests' : List WriteLayer.Request) :
    received (content ·.inner) fuel requests s <+: received content fuel requests' t := by
  rw [received_of_aborted (fun u => hς.abort (u.1.inner, u.2)) requests hs]
  exact hst.trans (prefix_received hς requests' t)

/-- **Of writers side by side the first one's sink receives the beginning of what the other one's
does.** By induction on what is asked. -/
theorem received_of_abreast {flag : Nat} {h : AbortHandle}
    {R L : Alarmed ς × Env σ → ς × Env σ → Prop} (hA : Sink.Abreast fuel h h R L)
    (hR : ∀ {s t}, R s t → content s.1.inner <+: content t.1)
    (hL : ∀ {s t}, L s t → h.isAborted s.2 = true ∧ content s.1.inner <+: content t.1)
    (hς : Sink.Steady (σ := σ) flag content) (requests : List WriteLayer.Request)
    {s : CipherWriter κ (Alarmed ς) × Env σ} {t : CipherWriter κ ς × Env σ}
    (hst : Abreast h h R s t) : received (content ·.inner) fuel requests s <+:
      received content fuel (requests.filter fun request => !request.aborts) t := by
  induction requests generalizing s t with
  | nil => exact hR hst.sinks
  | cons request requests ih =>
    have hclose (strict : Bool) :
        content (reached ((shutdown fuel strict : Push σ κ (Alarmed ς) Unit) s)).1.inner.inner <+:
          content (reached ((shutdown fuel strict : Push σ κ ς Unit) t)).1.inner := by
      rcases ((trails_shutdown hA strict).run s t hst).related with h | h
      · exact hR h.sinks
      · exact (hL h).2
    -- the first writer is cut short only where it sees its flag up, or its sink does
    have hnext {s' : CipherWriter κ (Alarmed ς) × Env σ} {t' : CipherWriter κ ς × Env σ}
        (hhandle : s'.1.abort = h) (hst' : Abreast h h R s' t' ∨ Behind L s' t') :
        received (content ·.inner) fuel requests s' <+:
          received content fuel (requests.filter fun request => !request.aborts) t' := by
      rcases hst' with hst' | hbehind
      · exact ih hst'
      · obtain ⟨ha, hprefix⟩ := hL hbehind
        rw [← hhandle] at ha
        exact received_of_behind hς ha hprefix requests _
    cases request with
    | write bytes =>
      exact hnext (keeps_inUse_write fuel bytes s ⟨hst.abort, rfl⟩).1
        ((trails_write hA bytes).run s t hst).related
    | flush =>
      exact hnext (keeps_inUse_flush fuel s ⟨hst.abort, rfl⟩).1
        ((trails_flush hA).run s t hst).related
    | close => exact hclose false
    | finish => exact hclose true
    | drop =>
      show content (drop fuel s).1.inner.inner <+: content (drop fuel t).1.inner
      rw [drop_eq_reached, drop_eq_reached]
      exact hclose false
    | abort =>
      obtain ⟨hbelow, hcontent⟩ := hς.abort (s.1.inner.inner, (s.1.abort.abort s.2).2)
      have hs := AbortHandle.isAborted_mono hbelow (s.1.abort.isAborted_abort s.2)
      refine received_of_behind (s := Abortable.abort s) hς hs ?_ requests _
      exact hcontent ▸ hR hst.sinks
    | raise =>
      exact received_of_behind (s := raise s) hς (s.1.abort.isAborted_abort s.2) (hR hst.sinks)
        requests _

/-- **When a writer is aborted, its sink has received the beginning of what it would receive
otherwise.** -/
theorem received_isPrefix {s : CipherWriter κ (Alarmed ς) × Env σ}
    (hς : Sink.Steady (σ := σ) s.1.inner.flag content) (hs : Alerted s)
    (requests : List WriteLayer.Request) : received (content ·.inner) fuel requests s <+:
      received content fuel (requests.filter fun request => !request.aborts) (unalarmed s) := by
  rcases hs with hflag | hcalm
  · refine received_of_abreast (hς.abreast fuel) ?_ (fun h => h) hς requests
      ⟨hflag, hflag, rfl, rfl, rfl, rfl, rfl, .refl s.2⟩
    rintro s ⟨_, env'⟩ ⟨-, rfl, -⟩
    exact List.prefix_rfl
  · refine received_of_abreast (Sink.abreast_of_calm fuel s.1.abort) ?_ False.elim hς requests
      ⟨rfl, rfl, rfl, rfl, rfl, rfl, hcalm⟩
    rintro s _ ⟨rfl, -⟩
    exact List.prefix_rfl

end CipherWriter

/-! ## Streams -/

/-- **Aborting only cuts a stream short.** Whenever the abort comes, asked for or while the source is
read or the sink written to: what the reader has handed out, or the sink received, is the beginning
of what it would be without the abort. -/
theorem aborting_cuts_short [Session κ σ] (fuel : Nat) :
    (∀ [Source σ ρ] [Seekable σ ρ] [Abortable σ ρ],
      Source.Carries (Upward : ρ × Env σ → _ → Prop) →
        ∀ (requests : List ReadLayer.Request) {s : CipherReader.State σ κ (Alarmed ρ)},
          CipherReader.Alerted s → CipherReader.delivered fuel requests s <+:
            CipherReader.delivered fuel (requests.filter fun request => !request.aborts)
              (CipherReader.unalarmed s)) ∧
    ∀ [Sink σ ς] [Abortable σ ς] {content : ς → Bytes} {s : CipherWriter κ (Alarmed ς) × Env σ},
      Sink.Steady (σ := σ) s.1.inner.flag content → CipherWriter.Alerted s →
        ∀ requests : List WriteLayer.Request,
          CipherWriter.received (content ·.inner) fuel requests s <+:
            CipherWriter.received content fuel (requests.filter fun request => !request.aborts)
              (CipherWriter.unalarmed s) :=
  ⟨fun hρ requests _ hs => CipherReader.delivered_isPrefix hρ requests hs,
    fun hς hs requests => CipherWriter.received_isPrefix hς hs requests⟩

section

open Scripted

/-- A reader that is aborted during the second read of its source. -/
def startled : CipherReader.State World (FamilySession World HoldCipher) (Alarmed ScriptedSource) :=
  (.new ⟨{ data := #[1, 2, 3, 4], chunk := some 2 }, some 1, 8, true⟩ holdSession 8 (.shared 8),
    ⟨[], holdWorld []⟩)

/-- A writer that is aborted during the second write to its sink. -/
def startledWriter : CipherWriter (FamilySession World HoldCipher) (Alarmed ScriptedSink) × Env World :=
  ({ inner := ⟨{ chunk := some 20 }, some 1, 8, false⟩, session := holdSession, abort := .shared 8 },
    ⟨[], holdWorld []⟩)

/-- The writer finishes the write that it is at; the reader loses the block that it reads. -/
theorem aborting_cuts_short_startled :
    (CipherReader.delivered 90 [.ask (.use (.read 30)), .ask (.use (.read 30)), .close] startled <+:
        CipherReader.delivered 90 [.ask (.use (.read 30)), .ask (.use (.read 30)), .close]
          (CipherReader.unalarmed startled)) ∧
      CipherWriter.received (·.inner.content) 90 [.write [1, 2, 3], .raise, .write [4], .drop]
          startledWriter <+:
        CipherWriter.received ScriptedSink.content 90 [.write [1, 2, 3], .write [4], .drop]
          (CipherWriter.unalarmed startledWriter) := by
  obtain ⟨hreader, hwriter⟩ := aborting_cuts_short (σ := World) (κ := FamilySession World HoldCipher)
    (ρ := ScriptedSource) (ς := ScriptedSink) 90
  exact ⟨hreader carries_scriptedSource.upward _ (.inl rfl),
    hwriter (steady_scripted 8) (.inl rfl) [_, .raise, _, _]⟩

end

end SealedStream
