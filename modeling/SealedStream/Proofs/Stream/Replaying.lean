import SealedStream.Proofs.Session.Restarting
import SealedStream.Proofs.Stream.Anew
import SealedStream.Proofs.Stream.Pulling
import SealedStream.Proofs.Stream.Requests

/-!
# Going back to the mark

A reader that is reset begins anew: whatever it was asked before, it is a reader that was just made,
over its source at the mark (`CipherReader.Renewable.reset`). So it reads what such a reader reads: in
both modes what its session conveys, encrypting under key material that is drawn only then. A mark is
refused once the reader was accessed, and a reset that fails changes nothing, unless the source moved
when it failed.
-/

namespace SealedStream

variable {σ κ ρ ρ' : Type}

/-- The source is a valid one, of the content `c`. -/
def Source.Holds (valid : ρ → Prop) (content : ρ → Bytes) (c : Bytes) (t : ρ × Env σ) : Prop :=
  valid t.1 ∧ content t.1 = c

/-- Sources that can go back. One that is `valid` stands at a position in its content, and where it
works what remains is the rest of that. It says where it stands; told to go to a place, it has what
is behind that place behind it. Whatever is asked of it, and whether that fails or not, its content
stays the same. -/
structure SeekableSource (σ ρ : Type) [Source σ ρ] [Seekable σ ρ] [Abortable σ ρ]
    extends WorkingSource σ ρ where
  valid : ρ → Prop
  content : ρ → Bytes
  position : ρ → Nat
  stands : ∀ {r}, valid r → works r → remaining r = (content r).drop (position r)
  tells : ∀ {r p} {env : Env σ} {t}, valid r → Seekable.position (r, env) = .ok p t →
    p = position r
  goes : ∀ {r p} {env : Env σ} {t}, valid r → Seekable.seek p (r, env) = .ok () t →
    (content t.1).drop (position t.1) = (content t.1).drop p
  read_keeps : ∀ c fuel n,
    Keeps (Source.Holds valid content c) (Source.read fuel n : Transfer σ ρ Bytes)
  position_keeps : ∀ c,
    Keeps (Source.Holds valid content c) (Seekable.position : Transfer σ ρ Nat)
  seek_keeps : ∀ c p,
    Keeps (Source.Holds valid content c) (Seekable.seek p : Transfer σ ρ Unit)
  abort_keeps : ∀ c (t : ρ × Env σ), Source.Holds valid content c t →
    Source.Holds valid content c (Abortable.abort t)

namespace Scripted.ScriptedSource

theorem runEvents_ne_zero {events : Schedule} (h : ∀ p ∈ events, p.2 ≠ .zero) (k : Nat)
    (env : Env σ) : (runEvents k events env).1 ≠ some .zero := by
  induction events generalizing env with
  | nil => simp [runEvents]
  | cons p events ih =>
    obtain ⟨call, event⟩ := p
    have hrest (env : Env σ) := ih (fun p hp => h p (List.mem_cons_of_mem _ hp)) env
    cases event with
    | fail e =>
      simp only [runEvents]
      split
      · simp
      · exact hrest env
    | zero => exact absurd rfl (h _ List.mem_cons_self)
    | raise flag =>
      simp only [runEvents]
      split
      · exact hrest (env.raise flag)
      · exact hrest env

/-- No call to seek is ended without a word. -/
def Honest (r : ScriptedSource) : Prop := ∀ p ∈ r.seekEvents, p.2 ≠ .zero

theorem seekCall_eq_ok {α : Type} {zero a : α} {f : ScriptedSource → α × ScriptedSource}
    {r : ScriptedSource} {env : Env σ} {t : ScriptedSource × Env σ} (hr : r.Honest)
    (h : seekCall zero f (r, env) = .ok a t) :
    (a, t.1) = f { r with seeks := r.seeks + 1 } := by
  have hcut := runEvents_ne_zero hr r.seeks env
  rcases hrun : runEvents r.seeks r.seekEvents env with ⟨_ | _ | _, env'⟩
  · simp only [seekCall, hrun] at h
    cases h
    rfl
  · simp only [seekCall, hrun] at h
    cases h
  · rw [hrun] at hcut
    exact absurd rfl hcut

theorem holds_seekCall {α : Type} (zero : α) {f : ScriptedSource → α × ScriptedSource} {c : Bytes}
    (hf : ∀ r, Source.Holds (σ := σ) Honest (fun r => r.data.toList) c r →
      Source.Holds Honest (fun r => r.data.toList) c ((f r.1).2, r.2)) :
    Keeps (Source.Holds Honest (fun r => r.data.toList) c)
      (seekCall zero f : Transfer σ ScriptedSource α) := by
  rintro ⟨r, env⟩ hr
  rcases hrun : runEvents r.seeks r.seekEvents env with ⟨_ | _ | _, env'⟩
  · simp only [seekCall, hrun]
    exact hf ({ r with seeks := r.seeks + 1 }, env') hr
  · simp only [seekCall, hrun]
    exact hr
  · simp only [seekCall, hrun]
    exact hr

/-- Scripted sources that seek as they say can go back. -/
def seekable : SeekableSource σ ScriptedSource where
  toWorkingSource := working
  valid := Honest
  content r := r.data.toList
  position r := r.pos
  stands _ _ := rfl
  tells hr h := congrArg Prod.fst (seekCall_eq_ok hr h)
  goes := by
    intro r p env t hr h
    have ht := congrArg Prod.snd (seekCall_eq_ok hr h)
    simp only at ht
    rw [ht]
    show List.drop (min p r.data.size) r.data.toList = List.drop p r.data.toList
    rw [Nat.min_def]
    split
    · rfl
    · rename_i hp
      rw [List.drop_eq_nil_of_le (by simp), List.drop_eq_nil_of_le (by simp; omega)]
  read_keeps := by
    rintro c fuel n ⟨r, env⟩ hr
    simp only [Source.read]
    rcases runEvents r.reads r.readEvents env with ⟨_ | _ | _, env'⟩ <;> exact hr
  position_keeps _ := holds_seekCall 0 fun _ hr => hr
  seek_keeps _ _ := holds_seekCall () fun _ hr => hr
  abort_keeps _ _ hr := hr

end Scripted.ScriptedSource

namespace CipherReader

/-! ## What stays of a reader -/

/-- A reader over a source of the content `c`, in blocks of `size`, whose session can start over. -/
structure Renewable [Source σ ρ] [Seekable σ ρ] [Abortable σ ρ] (S : SeekableSource σ ρ)
    (Away : κ → Prop) (size : Nat) (c : Bytes) (s : State σ κ ρ) : Prop where
  valid : S.valid s.1.inner
  content : S.content s.1.inner = c
  size : s.1.blockSize = size
  session : Away s.1.session

section

variable [Session κ σ] [Source σ ρ] [Seekable σ ρ] [Abortable σ ρ] {S : SeekableSource σ ρ}
  {Away : κ → Prop} {k : κ} {size fuel : Nat} {c : Bytes} {s t u : State σ κ ρ}

omit [Session κ σ] in
theorem Renewable.holds (h : Renewable S Away size c s) :
    Source.Holds S.valid S.content c (s.1.inner, s.2) := ⟨h.valid, h.content⟩

omit [Session κ σ] in
theorem renewable_onInner {α : Type} {x : Transfer σ ρ α}
    (hx : Keeps (Source.Holds S.valid S.content c) x) :
    Keeps (Renewable S Away size c) (onInner x : Pull σ κ ρ α) := by
  refine keeps_onInner fun s hs => ?_
  obtain ⟨hvalid, hcontent⟩ := hx _ hs.holds
  exact ⟨hvalid, hcontent, hs.size, hs.session⟩

/-- No request changes what stays of a reader. -/
theorem renewable_request (hk : Session.Returns Away k) (request : Request) :
    Keeps (Renewable S Away size c) (request.run fuel : Pull σ κ ρ (Option Answer)) := by
  refine keeps_request (fun use => ?_) ?_ ?_ ?_ request
  · refine keeps_use_of_parts ?_ ?_ ?_ use
    · rintro s ⟨hvalid, hcontent, hsize, hsession⟩ n
      exact ⟨hvalid, hcontent, hsize, hsession⟩
    · refine fun call => keeps_onSession fun s hs => ?_
      exact ⟨hs.valid, hs.content, hs.size, hk.keeps hs.session call s.2.world⟩
    · exact keeps_readBlock fun n => renewable_onInner (S.read_keeps c fuel n)
  · refine keeps_setMark (renewable_onInner (S.position_keeps c)) fun s p hs => ?_
    exact ⟨hs.valid, hs.content, hs.size, hs.session⟩
  · refine keeps_reset (fun p => renewable_onInner (S.seek_keeps c p)) fun s hs => ?_
    refine ⟨hs.valid, hs.content, hs.size, ?_⟩
    show Away (Session.restart s.1.session)
    rw [hk.restart hs.session]
    exact hk.fresh
  · rintro ⟨r, env⟩ hs
    obtain ⟨hvalid, hcontent⟩ := S.abort_keeps c (r.inner, (r.abort.abort env).2) hs.holds
    exact ⟨hvalid, hcontent, hs.size, hs.session⟩

omit [Session κ σ] in
/-- A mark is where the source stands. -/
theorem Renewable.setMark (h : Renewable S Away size c s)
    (hmark : (CipherReader.setMark : Pull σ κ ρ Unit) s = .ok () t) :
    Renewable S Away size c t ∧ t.1.mark = some (S.position s.1.inner) := by
  have hholds := S.position_keeps c _ h.holds
  rw [run_setMark] at hmark
  split at hmark
  · cases hmark
  · cases hp : (Seekable.position : Transfer σ ρ Nat) (s.1.inner, s.2) with
    | error e v =>
      rw [hp] at hmark
      cases hmark
    | ok p v =>
      rw [hp] at hmark hholds
      cases hmark
      exact ⟨⟨hholds.1, hholds.2, h.size, h.session⟩, congrArg some (S.tells h.valid hp)⟩

/-- **A reader that is reset is one that was just made**, over its source at the mark. -/
theorem Renewable.reset {blockSize : Nat} (hk : Session.Returns Away k)
    (h : Renewable S Away (max blockSize 1) c s)
    (hreset : (CipherReader.reset : Pull σ κ ρ Unit) s = .ok () t) :
    ∃ (i : ρ) (q : Nat), s.1.mark = some q ∧ S.valid i ∧
      (S.content i).drop (S.position i) = c.drop q ∧ t.1 = { CipherReader.new i k blockSize s.1.abort with mark := some q } := by
  obtain ⟨-, q, v, hmark, hseek, rfl⟩ := exists_of_reset hreset
  have hkeeps := S.seek_keeps c q (s.1.inner, s.2) h.holds
  rw [hseek] at hkeeps
  obtain ⟨hvalid, hcontent⟩ : Source.Holds S.valid S.content c v := hkeeps
  refine ⟨v.1, q, hmark, hvalid, (S.goes h.valid hseek).trans (by rw [hcontent]), ?_⟩
  have hrestart : Session.restart s.1.session = k := hk.restart h.session
  simp only [rewound, CipherReader.new, hrestart, h.size, hmark]

/-! ## Marks -/

/-- Any request may be made but to mark. -/
def Unmarking : Request → State σ κ ρ → Prop := fun request _ => request ≠ .mark

section

omit [Seekable σ ρ] [Abortable σ ρ]

/-- A reader that was accessed stays so while it reads. -/
theorem tandem_accessed :
    Tandem fuel (Itself fun s : State σ κ ρ => s.1.accessed = true) fun _ _ => False :=
  tandem_notes (P := fun accessed _ => accessed = true) fun _ => rfl

omit [Session κ σ] [Source σ ρ] in
theorem accessed_poison (e : Error) (hs : s.1.accessed = true) :
    (poison e s.1).accessed = true := by
  unfold poison
  split <;> exact hs

theorem keeps_accessed (use : Use) :
    Keeps (fun s : State σ κ ρ => s.1.accessed = true) (use.run fuel) :=
  keeps_use tandem_accessed (fun e hs => accessed_poison e hs) (fun _ h => h.elim) use

/-- A usable reader that is read or skipped was accessed. -/
theorem accessed_of_usable (hs : Usable s) {use : Use} (huse : use ≠ .available) :
    (reached (use.run fuel s)).1.accessed = true := by
  have hfilled (n : Nat) : Keeps (fun s : State σ κ ρ => s.1.accessed = true)
      (readFilled fuel n) := by
    refine Alike.keeps ((tandem_accessed.readFilled ?_ n).mono fun _ _ ⟨_, h, _⟩ => h)
      fun _ _ h => h.elim
    rintro _ s e ⟨rfl, hs⟩
    exact ⟨rfl, accessed_poison e hs⟩
  cases use with
  | available => exact absurd rfl huse
  | skip n =>
    simp only [Use.run, run_bind, skip_of_usable hs, run_pure]
    rfl
  | read n =>
    simp only [Use.run, run_bind, readBytes_of_usable hs]
    by_cases hn : n = 0
    · simp only [if_pos hn]
      rfl
    · simp only [if_neg hn]
      have h := hfilled n ({ s.1 with accessed := true }, s.2) rfl
      cases hrun : (readFilled fuel n : Pull σ κ ρ Bytes) ({ s.1 with accessed := true }, s.2) with
      | ok out t =>
        rw [hrun] at h
        exact h
      | error e t =>
        rw [hrun] at h
        exact h

end

/-- The reader has stored an error only if it was accessed. -/
def Noted (s : State σ κ ρ) : Prop := s.1.failed ≠ none → s.1.accessed = true

omit [Seekable σ ρ] [Abortable σ ρ] in
theorem noted_use (use : Use) : Keeps (Noted : State σ κ ρ → Prop) (use.run fuel) := by
  intro s hs
  by_cases hu : Usable s
  · by_cases havailable : use = .available
    · subst havailable
      simp only [Use.run, run_bind, available_of_usable hu]
      exact hs
    · exact fun _ => accessed_of_usable hu havailable
  · obtain ⟨e, he⟩ := exists_failed_of_not_usable hu
    rw [use_of_failed he]
    exact hs

theorem noted_request (request : Request) :
    Keeps (Noted : State σ κ ρ → Prop) (request.run fuel) := by
  refine keeps_request noted_use ?_ ?_ (fun s hs => hs) request
  · exact keeps_setMark (keeps_onInner fun _ hs => hs) fun _ _ hs => hs
  · refine keeps_reset (fun p => keeps_onInner fun _ hs => hs) fun s hs hfailed => ?_
    exact absurd rfl hfailed

/-- What was accessed stays so until a reset succeeds. -/
theorem accessed_of_leads (h : Leads fuel Onward s t) (hs : s.1.accessed = true) :
    t.1.accessed = true :=
  keeps_onward keeps_accessed (keeps_setMark (keeps_onInner fun _ hu => hu) fun _ _ hu => hu)
    (fun _ => keeps_onInner fun _ hu => hu) (fun _ hu => hu) (fun _ _ _ hu => hu) h hs

/-- **A mark is refused behind a read or a skip**, until a reset succeeds: unless it was the raised
flag that the read or the skip met, and the reader had not been accessed before. -/
theorem setMark_refused (hs : Noted s) (hcheck : s.1.abort.check s.2 = .ok ()) {use : Use}
    (huse : use ≠ .available) (h : Leads fuel Onward (reached (use.run fuel s)) t) :
    (setMark : Pull σ κ ρ Unit) t = .error (.invalidState .markAfterAccess) t := by
  have haccessed : (reached (use.run fuel s)).1.accessed = true := by
    by_cases hu : Usable s
    · exact accessed_of_usable hu huse
    · obtain ⟨e, he⟩ := exists_failed_of_not_usable hu
      rw [use_of_failed he]
      exact hs fun hfailed => hu ⟨hcheck, hfailed⟩
  rw [run_setMark, accessed_of_leads h haccessed]
  rfl

/-- A mark stays where it is until another one is set. -/
theorem mark_of_leads (h : Leads fuel Unmarking s t) : t.1.mark = s.1.mark := by
  refine h.keeps (fun u => u.1.mark = s.1.mark) ?_ (fun _ _ _ hs => hs) rfl
  intro request u hmay hu
  cases request with
  | mark => exact absurd rfl hmay
  | abort => exact hu
  | use use =>
    have hkeeps : Keeps (fun v : State σ κ ρ => v.1.mark = s.1.mark) (use.run fuel) :=
      keeps_use_of_parts (fun hs _ => hs) (fun _ => keeps_onSession fun _ hs => hs)
        (keeps_readBlock fun _ => keeps_onInner fun _ hs => hs) use
    exact Keeps.bind hkeeps (fun _ => .pure _) u hu
  | reset =>
    have hkeeps : Keeps (fun v : State σ κ ρ => v.1.mark = s.1.mark)
        (CipherReader.reset : Pull σ κ ρ Unit) :=
      keeps_reset (fun _ => keeps_onInner fun _ hs => hs) fun _ hs => hs
    exact Keeps.bind hkeeps (fun _ => .pure _) u hu

end

/-! ## Readers that say the same -/

section

variable [Session κ σ] [Source σ ρ] {fuel : Nat} {s t : State σ κ ρ}

/-- A mark makes no difference to reading, nor does whose flag the reader looks at, as long as
neither flag is raised or both are. -/
theorem tandem_dressed (mark : Option Nat) (a b : AbortHandle)
    (hread : ∀ (n : Nat) (u : ρ × Env σ), b.check u.2 = a.check u.2 →
      b.check (reached ((Source.read fuel n : Transfer σ ρ Bytes) u)).2 =
        a.check (reached ((Source.read fuel n : Transfer σ ρ Bytes) u)).2) :
    Tandem fuel (fun s t : State σ κ ρ => t = ({ s.1 with mark, abort := b }, s.2) ∧
      s.1.abort = a ∧ b.check s.2 = a.check s.2) fun _ _ => False := by
  refine .of_parts ?_ ?_ (fun call => .of_map ?_ ?_) (.of_map ?_ ?_)
  · rintro s _ ⟨rfl, ha, hcheck⟩
    exact ⟨hcheck.trans (by rw [ha]), rfl, rfl, rfl⟩
  · rintro s _ ⟨rfl, ha, hcheck⟩ n
    exact ⟨rfl, ha, hcheck⟩
  · rintro ⟨r, env⟩ -
    rw [run_onSession, run_onSession]
    cases (call.run : Step (κ × σ) Bytes) (r.session, env.world) <;> rfl
  · exact keeps_onSession fun s hs => hs
  · rintro ⟨r, env⟩ ⟨rfl, hcheck⟩
    have hu := hread r.blockSize (r.inner, env) hcheck
    rw [run_readBlock, run_readBlock]
    cases hrun : (Source.read fuel r.blockSize : Transfer σ ρ Bytes) (r.inner, env) with
    | error e u => rfl
    | ok block u =>
      rw [hrun] at hu
      have hcheck' : b.check u.2 = r.abort.check u.2 := hu
      simp only [hcheck']
      cases r.abort.check u.2 <;> rfl
  · exact keeps_readBlock fun n => keeps_onInner fun s hs => ⟨hs.1, hread n _ hs.2⟩

omit [Session κ σ] [Source σ ρ] in
theorem poison_dressed {mark : Option Nat} {a b : AbortHandle} (e : Error)
    (h : t = ({ s.1 with mark, abort := b }, s.2) ∧ s.1.abort = a ∧ b.check s.2 = a.check s.2) :
    (poison e t.1, t.2) = ({ poison e s.1 with mark, abort := b }, s.2) ∧
      (poison e s.1).abort = a ∧ b.check s.2 = a.check s.2 := by
  obtain ⟨rfl, ha, hcheck⟩ := h
  unfold poison
  split <;> exact ⟨rfl, ha, hcheck⟩

/-- A reader says the same whatever its mark. -/
theorem served_marked (r : CipherReader κ ρ) (env : Env σ) (mark : Option Nat) (uses : List Use) :
    served fuel uses (r, env) = served fuel uses ({ r with mark }, env) :=
  (tandem_dressed mark r.abort r.abort fun _ _ _ => rfl).served_eq (fun e h => poison_dressed e h)
    ⟨rfl, rfl, rfl⟩ uses

/-- Two sources of the type `ρ` in the relation `Q` give the same whenever they are read. -/
def Indistinct (Q : ρ → ρ → Prop) : Prop :=
  ∀ fuel n, Alike (fun x y : ρ × Env σ => Q x.1 y.1 ∧ y.2 = x.2) (fun _ _ => False)
    (Source.read fuel n : Transfer σ ρ Bytes) (Source.read fuel n)

/-- The reader over another source, which is in the relation `Q` to its own. -/
def Swapped (Q : ρ → ρ → Prop) (s t : State σ κ ρ) : Prop :=
  ∃ i, Q s.1.inner i ∧ t = ({ s.1 with inner := i }, s.2)

/-- Readers over sources that are read alike. -/
theorem tandem_swapped {Q : ρ → ρ → Prop} (hQ : Indistinct (σ := σ) Q) :
    Tandem fuel (Swapped Q : State σ κ ρ → State σ κ ρ → Prop) fun _ _ => False := by
  refine .of_parts ?_ ?_ (fun call => ?_) ?_
  · rintro s _ ⟨i, -, rfl⟩
    exact ⟨rfl, rfl, rfl, rfl⟩
  · rintro s _ ⟨i, hi, rfl⟩ n
    exact ⟨i, hi, rfl⟩
  · rintro ⟨r, env⟩ _ ⟨i, hi, rfl⟩
    rw [run_onSession, run_onSession]
    cases (call.run : Step (κ × σ) Bytes) (r.session, env.world) with
    | ok out u => exact .ok out ⟨i, hi, rfl⟩
    | error e u => exact .error e ⟨i, hi, rfl⟩
  · rintro ⟨r, env⟩ _ ⟨i, hi, rfl⟩
    have hread := hQ fuel r.blockSize (r.inner, env) (i, env) ⟨hi, rfl⟩
    rw [run_readBlock, run_readBlock]
    simp only
    generalize (Source.read fuel r.blockSize : Transfer σ ρ Bytes) (r.inner, env) = p,
      (Source.read fuel r.blockSize : Transfer σ ρ Bytes) (i, env) = q at hread
    cases hread with
    | cut _ hfalse => exact hfalse.elim
    | @error e u v huv =>
      obtain ⟨hi', henv⟩ := huv
      exact .error _ ⟨v.1, hi', by rw [henv]⟩
    | @ok block u v huv =>
      obtain ⟨hi', henv⟩ := huv
      simp only [henv]
      cases r.abort.check u.2 with
      | error e => exact .error e ⟨v.1, hi', rfl⟩
      | ok _ => exact .ok block ⟨v.1, hi', rfl⟩

theorem served_swapped {Q : ρ → ρ → Prop} (hQ : Indistinct (σ := σ) Q) (h : Swapped Q s t)
    (uses : List Use) : served fuel uses s = served fuel uses t := by
  refine (tandem_swapped hQ).served_eq ?_ h uses
  rintro s _ e ⟨i, hi, rfl⟩
  unfold poison
  split <;> exact ⟨i, hi, rfl⟩

/-! ## Readers that were just made -/

/-- Whatever buffers it is read with, the reader gives what `D` makes of `w`, and then ends or fails
as that does. -/
def Plays (fuel : Nat) (D : Bytes → Progress) (w : Bytes) (s : State σ κ ρ) : Prop :=
  ∀ ns, Conforms D w [] ns (reads fuel (fun _ => false) ns s)

/-- Reading from the source leaves the world of the sessions alone, and the flag of the reader down. -/
structure Discreet (σ ρ : Type) [Source σ ρ] (abort : AbortHandle) : Prop where
  world : Source.Aloof σ ρ
  flag : ∀ (fuel n : Nat) (u : ρ × Env σ), abort.check u.2 = .ok () →
    abort.check (reached ((Source.read fuel n : Transfer σ ρ Bytes) u)).2 = .ok ()

/-- A reader that was just made, whether it has a mark or not, gives what its session conveys of what
its source has yet to give. -/
theorem plays_new {D : Bytes → Progress} {At : Bytes → κ → σ → Prop} {k : κ} {abort : AbortHandle}
    {env : Env σ} {source : ρ} (hC : Session.Conveys D At k env.world) {W : WorkingSource σ ρ}
    (hd : Discreet σ ρ abort) (hworks : W.works source) (hcheck : abort.check env = .ok ())
    (hfuel : (W.remaining source).length < fuel) (blockSize : Nat) (mark : Option Nat) :
    Plays fuel D (W.remaining source)
      ({ CipherReader.new source k blockSize abort with mark }, env) := by
  intro ns
  have hunread : Unread W (W.remaining source) k env.world
      (({ CipherReader.new source k blockSize with mark } : CipherReader κ ρ), env) :=
    ⟨rfl, rfl, hworks, Nat.le_max_right _ _, rfl, rfl, rfl, rfl, rfl, rfl⟩
  have hplain := reads_conveyed hd.world hC hfuel ns (.inl ⟨rfl, hunread⟩) List.nil_prefix
  have htandem := tandem_dressed (κ := κ) mark abort (.own false)
    fun n u hu => (hd.flag fuel n u hu.symm).symm
  obtain ⟨hbytes, hending⟩ := htandem.reads_eq (fun e h => poison_dressed e h) (fun _ => false)
    (s := ({ CipherReader.new source k blockSize abort with mark }, env)) ⟨rfl, rfl, hcheck.symm⟩ ns
  refine ⟨?_, ?_, ?_, ?_⟩
  · rw [hbytes]
    exact hplain.bytes
  · rw [hbytes, hending]
    exact hplain.going
  · rw [hbytes, hending]
    exact hplain.ended
  · rw [hending]
    exact hplain.failed

end

/-- A reader that went back does what one does that was just made, of blocks of the same size: it says
the same to the same uses, and gives what the session makes, from then on, of the bytes `w`, which are
those behind the mark. -/
structure Replayed [Session κ σ] [Source σ ρ] [Seekable σ ρ] [Abortable σ ρ]
    (S : SeekableSource σ ρ) (D : σ → Bytes → Progress) (k : κ) (blockSize fuel : Nat) (w : Bytes)
    (r : CipherReader κ ρ) : Prop where
  unaccessed : r.accessed = false
  behind : (S.content r.inner).drop (S.position r.inner) = w
  anew : ∀ (env : Env σ) (uses : List Use), served fuel uses (r, env) =
    served fuel uses (CipherReader.new r.inner k blockSize r.abort, env)
  plays : ∀ env : Env σ, S.works r.inner → Discreet σ ρ r.abort → r.abort.check env = .ok () →
    w.length < fuel → Plays fuel (D env.world) w (r, env)

end CipherReader

open CipherReader

/-- A reader over the session `k`, which makes `D w` of its bytes if it starts in the world `w`, is
marked and, some time later, reset: it does what one does that was just made over the source at the
mark. And any reader that was just made, over any source, gives what `D` is of the bytes of that. -/
def Session.Replays [Session κ σ] (D : σ → Bytes → Progress) (k : κ) : Prop :=
  (∀ {ρ : Type} [Source σ ρ] [Seekable σ ρ] [Abortable σ ρ] (S : SeekableSource σ ρ) {source : ρ},
    S.valid source → ∀ (blockSize : Nat) (abort : AbortHandle) (env : Env σ) (fuel : Nat)
      {s s' t u : State σ κ ρ}, Leads fuel Any (CipherReader.new source k blockSize abort, env) s →
      setMark s = .ok () s' → Leads fuel Unmarking s' t → reset t = .ok () u →
      Replayed S D k blockSize fuel ((S.content source).drop (S.position s.1.inner)) u.1) ∧
  ∀ {ρ : Type} [Source σ ρ] (W : WorkingSource σ ρ) {source : ρ}, W.works source →
    ∀ (blockSize : Nat) {abort : AbortHandle} {env : Env σ} {fuel : Nat}, Discreet σ ρ abort →
      abort.check env = .ok () → (W.remaining source).length < fuel →
      Plays fuel (D env.world) (W.remaining source)
        (CipherReader.new source k blockSize abort, env)

theorem Session.Returns.replays [Session κ σ] {Away : κ → Prop} {k : κ}
    (hk : Session.Returns Away k) {D : σ → Bytes → Progress}
    (hC : ∀ w, ∃ At, Session.Conveys (D w) At k w) : Session.Replays D k := by
  constructor
  · intro ρ _ _ _ S source hvalid blockSize abort env fuel s s' t u hs hmark ht hreset
    have hnew : Renewable S Away (max blockSize 1) (S.content source)
        ((CipherReader.new source k blockSize abort, env) : State σ κ ρ) :=
      ⟨hvalid, rfl, rfl, hk.fresh⟩
    have hleads {x y : State σ κ ρ} {may : Request → State σ κ ρ → Prop}
        (h : Leads fuel may x y) (hx : Renewable S Away (max blockSize 1) (S.content source) x) :
        Renewable S Away (max blockSize 1) (S.content source) y :=
      h.keeps _ (fun request z _ => renewable_request hk request z)
        (fun _ _ _ h => ⟨h.valid, h.content, h.size, h.session⟩) hx
    obtain ⟨hs', hq⟩ := (hleads hs hnew).setMark hmark
    obtain ⟨i, q, hq', hi, hbehind, hu⟩ := (hleads ht hs').reset hk hreset
    rw [mark_of_leads ht, hq, Option.some.injEq] at hq'
    rw [hu, hq']
    refine ⟨rfl, hbehind, fun env uses => (served_marked _ env (some q) uses).symm, ?_⟩
    intro env hworks hd hcheck hfuel
    obtain ⟨At, hC⟩ := hC env.world
    rw [← hbehind, ← S.stands hi hworks] at hfuel ⊢
    exact plays_new hC hd hworks hcheck hfuel blockSize (some q)
  · intro ρ _ W source hworks blockSize abort env fuel hd hcheck hfuel
    obtain ⟨At, hC⟩ := hC env.world
    exact plays_new hC hd hworks hcheck hfuel blockSize none

/-- What the sessions of a builder make of a stream, in either mode. Decrypting, the same in every
world if the key wrap is `functional`. Encrypting, a stream that is `issued` in the world they begin
in, and that decrypts to the same again if the key wrap is `faithful`. -/
structure Session.Renews {σ : Type} (functional faithful : Prop) (D : Mode → σ → Bytes → Progress)
    (issued : σ → Bytes → Bytes → Prop) : Prop where
  decrypts : functional → ∀ w v, D .decrypt w = D .decrypt v
  issues : ∀ {w plain out}, D .encrypt w plain = .ready out → issued w plain out
  reopens : faithful → ∀ {w plain out}, D .encrypt w plain = .ready out →
    ∀ v, D .decrypt v out = .ready plain

/-- **A reader that is reset replays the stream.** Over a session of a bundled family or a dispatcher
over these, and over any source that can go back: whatever was asked of the reader since it was
marked, and whatever failed, after a reset it says what one says that was just made over the source at
the mark. Over a source that works, this is what the session conveys of the bytes behind the mark from
the world that it finds: from any other as well, if it decrypts over a functional key wrap; under an
IV and a key that are drawn only then, if it encrypts, and opening to the same over a faithful key
wrap. A mark is refused behind a read or a skip that did not meet a raised flag, until a reset
succeeds; and a reset that fails makes no difference, unless the source moved. -/
theorem reset_replays {σ : Type} :
    (∀ (f : BundledFamily) (s : FamilySession σ CounterStream), s.Bundled f →
      Session.Replays (s.conveyed f) s) ∧
    (∀ (families : UInt32 → BundledFamily) (d : Dispatcher σ (FamilySession σ CounterStream)),
      d.Bundled families → Session.Replays (d.conveyed families) d) ∧
    (∀ (b : CipherBuilder σ),
      (∀ f : BundledFamily, Session.Renews b.wrap.Functional b.wrap.Faithful
        (fun mode => (b.familySession f.family mode).conveyed f)
        ((b.familySession f.family .encrypt).Issues f [])) ∧
      ∀ (families : UInt32 → BundledFamily) (registry : Registry σ (FamilySession σ CounterStream)),
        registry.Makes families → ∀ (encryptType : UInt32) (defaultType : Option UInt32),
          Session.Renews b.wrap.Functional b.wrap.Faithful
            (fun mode => (b.dispatcher mode registry encryptType defaultType).conveyed families)
            (((b.context .encrypt).familySession (families encryptType).family).Issues
              (families encryptType) (Bytes.be32 encryptType))) ∧
    (∀ {κ ρ : Type} [Session κ σ] [Source σ ρ] [Seekable σ ρ] [Abortable σ ρ] (source : ρ) (k : κ)
      (blockSize : Nat) (abort : AbortHandle) (env : Env σ) (fuel : Nat) {s t : State σ κ ρ},
      Leads fuel Any (CipherReader.new source k blockSize abort, env) s →
      s.1.abort.check s.2 = .ok () → ∀ use : Use, use ≠ .available →
      Leads fuel Onward (reached (use.run fuel s)) t →
      (setMark : Pull σ κ ρ Unit) t = .error (.invalidState .markAfterAccess) t) ∧
    ∀ {κ ρ : Type} [Session κ σ] [Source σ ρ] [Seekable σ ρ] (fuel : Nat) {s t : State σ κ ρ}
      {e : Error}, (reset : Pull σ κ ρ Unit) s = .error e t →
      (s.1.mark = none → t = s) ∧
      ∀ Q : ρ → ρ → Prop, Indistinct (σ := σ) Q → Q s.1.inner t.1.inner → t.2 = s.2 →
        ∀ uses, served fuel uses s = served fuel uses t := by
  refine ⟨fun f s hs => (FamilySession.returns hs.phase).replays hs.conveys,
    fun families d hd => (Dispatcher.returns hd.phase).replays hd.conveys,
    fun b => ⟨fun f => ?_, fun families registry hr encryptType defaultType => ?_⟩, ?_, ?_⟩
  · exact {
      decrypts := fun hw w v => FamilySession.progress_world hw w v
      issues := fun h => FamilySession.issues_of_sealed rfl h
      reopens := fun hw _ _ _ h v => CipherBuilder.reopens_familySession hw h }
  · exact {
      decrypts := fun hw w v => Dispatcher.familyProgress_world hr hw w v
      issues := fun h => CipherBuilder.issues_dispatcher hr h
      reopens := fun hw _ _ _ h v => CipherBuilder.reopens_dispatcher hr hw h }
  · intro κ ρ _ _ _ _ source k blockSize abort env fuel s t hs hcheck use huse ht
    refine setMark_refused ?_ hcheck huse ht
    refine hs.keeps Noted (fun request u _ hu => noted_request request u hu)
      (fun _ _ _ hu => hu) ?_
    exact fun hfailed => absurd rfl hfailed
  · intro κ ρ _ _ _ fuel s t e h
    constructor
    · intro hmark
      rcases cases_of_reset_error h with rfl | ⟨p, -, -, hp, -⟩
      · rfl
      · rw [hmark] at hp
        cases hp
    · intro Q hQ hinner henv uses
      refine served_swapped hQ ⟨t.1.inner, hinner, ?_⟩ uses
      rcases cases_of_reset_error h with rfl | ⟨p, e', u, hp, -, rfl⟩
      · rfl
      · exact Prod.ext rfl henv

section

open Scripted

/-- How often a scripted source was asked to seek makes no difference to reading from it. -/
theorem indistinct_seeks {σ : Type} :
    Indistinct (σ := σ) fun x y : ScriptedSource => y = { x with seeks := y.seeks } := by
  rintro fuel n ⟨r, env⟩ ⟨r', env'⟩ ⟨hr, henv⟩
  simp only at hr henv
  rw [hr, henv]
  simp only [Source.read]
  rcases runEvents r.reads r.readEvents env with ⟨_ | _ | _, env''⟩
  · exact .ok _ ⟨rfl, rfl⟩
  · exact .error _ ⟨rfl, rfl⟩
  · exact .ok _ ⟨rfl, rfl⟩

/-- A session that encrypts SM4 streams, over a key wrap that leaves secrets as they are. -/
def plainWriter : FamilySession World CounterStream :=
  .new .encrypt BundledFamily.sm4.family (identityWrap 0) (randomSource 0)

/-- A reader that encrypts two bytes, which stand behind another one. The first seek fails, and so
does the first random draw. -/
def faltering : State World (FamilySession World CounterStream) ScriptedSource :=
  (CipherReader.new
    { data := #[9, 5, 6], pos := 1, seekEvents := [(1, .fail (.plain .other "cannot seek"))] }
    plainWriter 8, ⟨[], { randoms := [⟨.entries [none, some [1]], 0⟩] }⟩)

/-- The same reader with a mark, -/
def falteringMarked : State World (FamilySession World CounterStream) ScriptedSource :=
  reached (Request.mark.run 90 faltering)

/-- after the read that finds the random source failing, -/
def falteringPoisoned : State World (FamilySession World CounterStream) ScriptedSource :=
  reached ((Request.use (.read 4)).run 90 falteringMarked)

/-- and after the reset that fails. -/
def falteringStuck : State World (FamilySession World CounterStream) ScriptedSource :=
  reached (Request.reset.run 90 falteringPoisoned)

theorem leads_falteringStuck : Leads 90 Unmarking falteringMarked falteringStuck :=
  .request .reset (.request (.use (.read 4)) .refl (by simp [Unmarking])) (by simp [Unmarking])

/-- A reader that was poisoned could not be marked. A reset that could not seek made no difference to
it; the next one replays its stream. And a builder encrypts anew. -/
theorem reset_replays_faltering :
    outcome ((Use.read 4).run 90 falteringMarked) = .error (failure "scripted random failure") ∧
    (setMark : Pull World _ ScriptedSource Unit) falteringPoisoned =
      .error (.invalidState .markAfterAccess) falteringPoisoned ∧
    (outcome ((reset : Pull World _ ScriptedSource Unit) falteringPoisoned) =
        .error (.io (.plain .other "cannot seek")) ∧
      served 90 [.read 4, .read 4] falteringPoisoned = served 90 [.read 4, .read 4] falteringStuck) ∧
    (∃ u, (reset : Pull World _ ScriptedSource Unit) falteringStuck = .ok () u ∧
      Replayed ScriptedSource.seekable (plainWriter.conveyed .sm4) plainWriter 8 90 [5, 6] u.1) ∧
    ∃ out, (onesBuilder.familySession BundledFamily.aes.family .encrypt).conveyed .aes () [1, 2] =
        .ready out ∧
      (onesBuilder.familySession BundledFamily.aes.family .encrypt).Issues .aes [] () [1, 2] out ∧
      (onesBuilder.familySession BundledFamily.aes.family .decrypt).conveyed .aes () out =
        .ready [1, 2] := by
  obtain ⟨hfamily, -, -, hrefused, hfailing⟩ := reset_replays (σ := World)
  refine ⟨rfl, ?_, ⟨rfl, ?_⟩, ?_, ?_⟩
  · have hleads : Leads 90 Any faltering falteringMarked := .request .mark .refl trivial
    exact hrefused faltering.1.inner plainWriter 8 (.own false) faltering.2 90 hleads rfl (.read 4)
      Use.noConfusion .refl
  · have hreset : (reset : Pull World _ ScriptedSource Unit) falteringPoisoned =
        .error (.io (.plain .other "cannot seek")) falteringStuck := rfl
    exact (hfailing 90 hreset).2 _ indistinct_seeks rfl rfl _
  · have hvalid : faltering.1.inner.Honest := by
      simp [faltering, CipherReader.new, ScriptedSource.Honest]
    have hmark : (setMark : Pull World _ ScriptedSource Unit) faltering = .ok () falteringMarked :=
      rfl
    exact ⟨_, rfl, (hfamily .sm4 plainWriter ⟨rfl, rfl⟩).1 ScriptedSource.seekable hvalid 8
      (.own false) faltering.2 90 .refl hmark leads_falteringStuck rfl⟩
  · obtain ⟨-, -, hbuilder, -⟩ := reset_replays (σ := Unit)
    have hready : ((onesBuilder.familySession BundledFamily.aes.family .encrypt).conveyed .aes ()
        [1, 2]).isReady = true := by decide +kernel
    cases hD : (onesBuilder.familySession BundledFamily.aes.family .encrypt).conveyed .aes ()
        [1, 2] with
    | failed e =>
      rw [hD] at hready
      cases hready
    | awaiting n =>
      rw [hD] at hready
      cases hready
    | ready out =>
      have hrenews := (hbuilder onesBuilder).1 .aes
      exact ⟨out, rfl, hrenews.issues hD, hrenews.reopens (AesKeyWrap.faithful_keyWrap _ _) hD ()⟩

/-- A reader whose flag is raised before it is asked for anything. -/
def stopped : State World (FamilySession World CounterStream) ScriptedSource :=
  Abortable.abort (CipherReader.new { data := #[1] } plainWriter 8, ⟨[], {}⟩)

/-- A reader that decrypts a byte, over a key wrap that fails when it is asked for a third secret. -/
def tiring : State World (FamilySession World CounterStream) ScriptedSource :=
  reached (Request.mark.run 90
    (CipherReader.new { data := (bareHeader.encode ++ [5]).toArray }
      (.new .decrypt BundledFamily.sm4.family (identityWrap 0) (randomSource 0)),
      ⟨[], { wraps := [{ unwraps := ⟨[2], 0⟩ }] }⟩))

/-- Its key wrap wraps every secret as none at all. -/
def losingBuilder : CipherBuilder Unit := { onesBuilder with wrap := ⟨fun _ => pure [], pure⟩ }

/-- A reader that encrypts a byte over that key wrap, and has gone back to the mark. -/
def losing : State Unit (FamilySession Unit CounterStream) ScriptedSource :=
  reached (Request.reset.run 90 (reached (Request.mark.run 90
    (CipherReader.new { data := #[5] } (losingBuilder.familySession BundledFamily.sm4.family .encrypt),
      ⟨[], ()⟩))))

/-- A read that met the raised flag is no access: the mark behind it is not refused. What was
decrypted once is not decrypted again if the key wrap gives up meanwhile. And what is encrypted anew
does not open if the key wrap does not take back what it wrapped. -/
theorem not_reset_replays :
    (outcome ((Use.read 4).run 90 stopped) = .error .aborted ∧
      outcome ((setMark : Pull World _ ScriptedSource Unit)
        (reached ((Use.read 4).run 90 stopped))) = .ok ()) ∧
    (let once := (Use.read 99).run 90 tiring
    let rewound := Request.reset.run 90 (reached once)
    failed once = false ∧ failed rewound = false ∧
      failed ((Use.read 99).run 90 (reached rewound)) = true) ∧
    (let anew := reads 90 (fun _ => false) [99, 99, 99] losing
    anew.ending = .ended ∧ anew.bytes ≠ [] ∧
      failed (Session.update anew.bytes
        (losingBuilder.familySession BundledFamily.sm4.family .decrypt, ())) = true) :=
  ⟨⟨rfl, rfl⟩, by decide +kernel, by decide +kernel⟩

end

end SealedStream
