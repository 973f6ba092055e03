import SealedStream.Proofs.Session.Conveying
import SealedStream.Proofs.Session.Delegating
import SealedStream.Proofs.Stream.RoundTrip

/-!
# Streams made anew

What a session conveys that begins in some world. Decrypting over a functional key wrap the world
makes no difference: each time the stream gives the same. Encrypting, each stream has its own IV and
key, drawn in the world that the session begins in (`FamilySession.Issues`), and opens to what was
encrypted all the same.
-/

namespace SealedStream

variable {σ : Type}

/-! ## Sessions of one family -/

namespace FamilySession

variable {f : BundledFamily} {s : FamilySession σ CounterStream} {id plain out : Bytes} {w : σ}

/-- The stream `out` has, behind `id`, a header that is sealed for an IV and a key which are drawn in
the world `w`, and then the bytes `plain` under the keystream of the two. -/
def Issues (f : BundledFamily) (s : FamilySession σ CounterStream) (id : Bytes) (w : σ)
    (plain out : Bytes) : Prop :=
  ∃ (m : KeyMaterial) (w₁ w₂ : σ) (h : Header),
    KeyMaterial.generate s.family s.random s.options.rejectZero w = .ok m w₁ ∧
    m.sealHeader s.wrap s.options.version w₁ = .ok h w₂ ∧
    out = id ++ h.encode ++ ((f.stream m.key m.iv).apply plain).1

/-- A session that seals draws and seals. -/
theorem exists_of_sealNew (hf : s.family = f.family) {c : CounterStream} {h : Header} {w w' : σ}
    (hs : sealNew s w = .ok (c, h) w') : ∃ (m : KeyMaterial) (w₁ : σ),
      KeyMaterial.generate s.family s.random s.options.rejectZero w = .ok m w₁ ∧
      m.sealHeader s.wrap s.options.version w₁ = .ok h w' ∧ c = f.stream m.key m.iv := by
  obtain ⟨m, w₁, hg, hs⟩ := exists_of_bind_eq_ok hs
  refine ⟨m, w₁, hg, ?_⟩
  rw [hf] at hs hg
  obtain ⟨hiv, hkey⟩ := KeyMaterial.length_generate hg
  rw [BundledFamily.newCipher_eq f hkey hiv, pure_bind] at hs
  obtain ⟨h', w₂, hh, hs⟩ := exists_of_bind_eq_ok hs
  cases hs
  exact ⟨hh, rfl⟩

theorem exists_of_sealed (h : Session.sealed (s.sealing id) w plain = .ready out) :
    ∃ (c : CounterStream) (hd : Header) (w' : σ), sealNew s w = .ok (c, hd) w' ∧
      out = id ++ hd.encode ++ (c.apply plain).1 := by
  unfold Session.sealed at h
  cases hs : s.sealing id w with
  | error e w' =>
    rw [hs] at h
    cases h
  | ok p w' =>
    obtain ⟨c, head⟩ := p
    obtain ⟨hd, rfl, hseal⟩ := sealing_eq_ok hs
    rw [hs] at h
    cases h
    exact ⟨c, hd, w', hseal, rfl⟩

/-- What is encrypted is issued in the world that the session begins in. -/
theorem issues_of_sealed (hf : s.family = f.family)
    (h : Session.sealed (s.sealing id) w plain = .ready out) : s.Issues f id w plain out := by
  obtain ⟨c, hd, w', hseal, rfl⟩ := exists_of_sealed h
  obtain ⟨m, w₁, hg, hh, rfl⟩ := exists_of_sealNew hf hseal
  exact ⟨m, w₁, w', hd, hg, hh, rfl⟩

/-- What is encrypted opens again, behind its id, in whatever world that happens. -/
theorem progress_of_sealed (hf : s.family = f.family) (hw : s.wrap.Faithful)
    (h : Session.sealed (s.sealing id) w plain = .ready out) (s' : FamilySession σ CounterStream)
    (hwrap : s'.wrap = s.wrap) (hfamily : s'.family = s.family) (hoptions : s'.options = s.options)
    (v : σ) : ∃ rest, out = id ++ rest ∧ s'.progress f v rest = .ready plain := by
  obtain ⟨c, hd, w', hseal, rfl⟩ := exists_of_sealed h
  refine ⟨hd.encode ++ (c.apply plain).1, List.append_assoc _ _ _, ?_⟩
  rw [progress_of_seals hwrap hfamily hoptions (sealNew_eq_ok hf hw hseal),
    CounterStream.apply_apply]

/-- Over a functional key wrap it makes no difference in which world a stream is decrypted. -/
theorem progress_world (hw : s.wrap.Functional) (w v : σ) : s.progress f w = s.progress f v := by
  funext fed
  unfold progress
  cases Header.decode fed s.expectedVersion with
  | error e => rfl
  | ok d =>
    cases d with
    | needMore => rfl
    | complete h n => simp only [KeyMaterial.functional_openHeader hw h s.family w v]

end FamilySession

/-! ## Dispatchers -/

/-- The registry binds its ids to the bundled families: each to `families id`. -/
def Registry.Makes (families : UInt32 → BundledFamily)
    (registry : Registry σ (FamilySession σ CounterStream)) : Prop :=
  ∀ {id make}, registry.get? id = some make → make = fun c => c.familySession (families id).family

namespace Dispatcher

variable {families : UInt32 → BundledFamily} {d : Dispatcher σ (FamilySession σ CounterStream)}

/-- An encrypting dispatcher that conveys anything has a session for its type, of the family that
its registry binds it to. -/
theorem sealed_of_conveyed (hm : d.context.mode = .encrypt) (hr : d.registry.Makes families)
    {w : σ} {plain out : Bytes} (h : d.conveyed families w plain = .ready out) :
    d.registry.get? d.encryptType =
        some (fun c => c.familySession (families d.encryptType).family) ∧
      Session.sealed ((d.context.familySession (families d.encryptType).family).sealing
        (Bytes.be32 d.encryptType)) w plain = .ready out := by
  cases hmake : d.registry.get? d.encryptType with
  | none =>
    have hs : d.select d.encryptType none = .error (.unsupportedAlgorithm d.encryptType) := by
      simp only [select, hmake, Option.bind_none]
    simp only [conveyed, hm, hs] at h
    cases h
  | some make =>
    obtain rfl := hr hmake
    simp only [conveyed, hm, select_of_get? hmake] at h
    exact ⟨rfl, h⟩

/-- Over a functional key wrap it makes no difference in which world a stream is decrypted. -/
theorem familyProgress_world (hr : d.registry.Makes families) (hw : d.context.wrap.Functional)
    (w v : σ) : d.familyProgress families w = d.familyProgress families v := by
  funext fed
  unfold familyProgress
  cases hi : Bytes.be32? fed with
  | none => simp only [progress_of_short hi]
  | some requested =>
    cases hs : d.select requested d.defaultType with
    | error e => rw [progress_of_unknown hi hs, progress_of_unknown hi hs]
    | ok p =>
      obtain ⟨make, hmake, hk⟩ := select_eq_ok hs
      rw [progress_of_known hi hs, progress_of_known hi hs, hk, hr hmake]
      exact congrFun (FamilySession.progress_world hw w v) _

end Dispatcher

/-! ## Sessions of a builder -/

namespace CipherBuilder

variable {b : CipherBuilder σ} {f : BundledFamily} {w v : σ} {plain out : Bytes}

theorem reopens_familySession (hw : b.wrap.Faithful)
    (h : (b.familySession f.family .encrypt).conveyed f w plain = .ready out) :
    (b.familySession f.family .decrypt).conveyed f v out = .ready plain := by
  obtain ⟨rest, rfl, hrest⟩ := FamilySession.progress_of_sealed rfl hw h
    (b.familySession f.family .decrypt) rfl rfl rfl v
  exact hrest

variable {registry : Registry σ (FamilySession σ CounterStream)} {families : UInt32 → BundledFamily}
  {encryptType : UInt32} {defaultType : Option UInt32}

theorem issues_dispatcher (hr : registry.Makes families)
    (h : (b.dispatcher .encrypt registry encryptType defaultType).conveyed families w plain =
      .ready out) :
    ((b.context .encrypt).familySession (families encryptType).family).Issues (families encryptType)
      (Bytes.be32 encryptType) w plain out :=
  FamilySession.issues_of_sealed rfl (Dispatcher.sealed_of_conveyed rfl hr h).2

theorem reopens_dispatcher (hr : registry.Makes families) (hw : b.wrap.Faithful)
    (h : (b.dispatcher .encrypt registry encryptType defaultType).conveyed families w plain =
      .ready out) :
    (b.dispatcher .decrypt registry encryptType defaultType).conveyed families v out =
      .ready plain := by
  obtain ⟨hget, hsealed⟩ := Dispatcher.sealed_of_conveyed rfl hr h
  obtain ⟨rest, rfl, hrest⟩ := FamilySession.progress_of_sealed rfl hw hsealed
    ((b.context .decrypt).familySession (families encryptType).family) rfl rfl rfl v
  have hselect : (b.dispatcher .decrypt registry encryptType defaultType).select encryptType
      defaultType =
        .ok (encryptType, (b.context .decrypt).familySession (families encryptType).family) :=
    Dispatcher.select_of_get? (d := b.dispatcher .decrypt registry encryptType defaultType) hget
  refine (Dispatcher.progress_of_known (Bytes.be32?_be32_append encryptType rest) hselect).trans ?_
  exact hrest

end CipherBuilder

end SealedStream
