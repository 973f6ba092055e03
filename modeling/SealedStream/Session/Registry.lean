import SealedStream.Session.Family

/-!
# Registries of session makers

A registry says for an id which session reads and writes streams that begin with it. It is kept in
the order of the ids.
-/

namespace SealedStream

/-- All that a session needs besides its cipher family. -/
structure SessionContext (σ : Type) where
  mode : Mode
  wrap : KeyWrap σ
  random : RandomSource σ
  checkVersion : Bool := true
  rejectZero : Bool := true

namespace SessionContext

variable {σ γ : Type}

/-- A session of a family under the family's own version. -/
def familySession (c : SessionContext σ) (family : CipherFamily σ γ) : FamilySession σ γ where
  mode := c.mode
  family := family
  wrap := c.wrap
  random := c.random
  options := ⟨family.version, c.checkVersion, c.rejectZero⟩

def describe (c : SessionContext σ) : String :=
  s!"SessionContext \x7b mode: {c.mode.name}, check_version: {c.checkVersion}, " ++
    s!"reject_zero_leading_key: {c.rejectZero}, .. \x7d"

end SessionContext

/-- An id and the session made for it. -/
abbrev RegistryEntry (σ κ : Type) := UInt32 × (SessionContext σ → κ)

namespace RegistryEntry

variable {σ κ : Type}

/-- Puts an entry at its place among ascending ids, over an entry of the same id. -/
def insert (id : UInt32) (make : SessionContext σ → κ) :
    List (RegistryEntry σ κ) → List (RegistryEntry σ κ)
  | [] => [(id, make)]
  | e :: es =>
    if id < e.1 then (id, make) :: e :: es
    else if id = e.1 then (id, make) :: es
    else e :: insert id make es

theorem find?_insert (id id' : UInt32) (make : SessionContext σ → κ)
    (es : List (RegistryEntry σ κ)) :
    (insert id make es).find? (·.1 == id') =
      if id = id' then some (id, make) else es.find? (·.1 == id') := by
  induction es with
  | nil => by_cases e : id = id' <;> simp [insert, e]
  | cons e es ih =>
    rw [insert]
    split
    · by_cases e' : id = id' <;> simp [e']
    · split
      · rename_i hlt heq
        by_cases e' : id = id'
        · simp [e']
        · simp [e', ← heq]
      · rename_i hlt hne
        by_cases e' : e.1 = id'
        · simp [e', show id ≠ id' from fun x => hne (x.trans e'.symm)]
        · simp [e', ih]

theorem mem_insert {id : UInt32} {make : SessionContext σ → κ} {es : List (RegistryEntry σ κ)}
    {x : UInt32} (h : x ∈ (insert id make es).map (·.1)) : x = id ∨ x ∈ es.map (·.1) := by
  induction es with
  | nil => simpa [insert] using h
  | cons e es ih =>
    rw [insert] at h
    split at h
    · simpa using h
    · split at h
      · simp only [List.map_cons, List.mem_cons] at h ⊢
        exact h.imp_right .inr
      · simp only [List.map_cons, List.mem_cons] at h ⊢
        rcases h with h | h
        · exact .inr (.inl h)
        · exact (ih h).imp_right .inr

/-- Insertion keeps ids ascending. -/
theorem ascending_insert (id : UInt32) (make : SessionContext σ → κ)
    {es : List (RegistryEntry σ κ)} (h : (es.map (·.1)).Pairwise (· < ·)) :
    ((insert id make es).map (·.1)).Pairwise (· < ·) := by
  induction es with
  | nil => simp [insert]
  | cons e es ih =>
    rw [List.map_cons, List.pairwise_cons] at h
    rw [insert]
    split
    · rename_i hlt
      simp only [List.map_cons, List.pairwise_cons, List.mem_cons]
      refine ⟨fun x hx => ?_, h⟩
      rcases hx with rfl | hx
      · exact hlt
      · exact UInt32.lt_trans hlt (h.1 x hx)
    · split
      · rename_i heq
        simpa [heq] using h
      · rename_i hlt hne
        rw [List.map_cons, List.pairwise_cons]
        refine ⟨fun x hx => ?_, ih h.2⟩
        rcases mem_insert hx with rfl | hx
        · exact UInt32.lt_of_le_of_ne (UInt32.not_lt.mp hlt) (Ne.symm hne)
        · exact h.1 x hx

end RegistryEntry

/-- Session makers by id, ids ascending. -/
structure Registry (σ κ : Type) where
  entries : List (RegistryEntry σ κ) := []
  ascending : (entries.map (·.1)).Pairwise (· < ·) := by simp

namespace Registry

variable {σ κ : Type}

/-- Binds an id, also over a binding that it had. -/
def register (r : Registry σ κ) (id : UInt32) (make : SessionContext σ → κ) : Registry σ κ :=
  ⟨RegistryEntry.insert id make r.entries, RegistryEntry.ascending_insert id make r.ascending⟩

def get? (r : Registry σ κ) (id : UInt32) : Option (SessionContext σ → κ) :=
  (r.entries.find? (·.1 == id)).map (·.2)

def contains (r : Registry σ κ) (id : UInt32) : Bool := (r.get? id).isSome

def ids (r : Registry σ κ) : List UInt32 := r.entries.map (·.1)

/-- Registering binds the id and leaves all others as they were. -/
theorem get?_register (r : Registry σ κ) (id id' : UInt32) (make : SessionContext σ → κ) :
    (r.register id make).get? id' = if id = id' then some make else r.get? id' := by
  simp only [get?, register, RegistryEntry.find?_insert]
  split <;> rfl

/-- The two bundled families under their own ids. -/
def bundled {γ : Type} (family : CipherFamily σ CounterStream → CipherFamily σ γ)
    (session : FamilySession σ γ → κ) : Registry σ κ :=
  [BundledFamily.aes, .sm4].foldl (fun r f => r.register f.id fun c =>
    session (c.familySession (family f.family))) {}

def describe (r : Registry σ κ) : String :=
  let ids := ", ".intercalate (r.ids.map toString)
  s!"DispatchRegistry \x7b ids: [{ids}] \x7d"

end Registry

end SealedStream
