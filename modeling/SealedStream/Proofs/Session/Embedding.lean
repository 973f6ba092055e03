import SealedStream.Proofs.Session.Progress

/-!
# Sessions among others

A registry may hold sessions of many kinds. `Session.Embeds` says that a map takes sessions into a
larger type without changing what they do, and a decrypting session computes the same there.
-/

namespace SealedStream

variable {κ μ σ : Type} [Session κ σ] [Session μ σ]

/-- `ι` takes each session to one that does the same. -/
structure Session.Embeds (ι : κ → μ) : Prop where
  mode : ∀ k, Session.mode (ι k) = Session.mode k
  isReady : ∀ k, Session.isReady (ι k) = Session.isReady k
  start : ∀ (k : κ) (w : σ),
    Session.start (ι k, w) = mapState (fun t => (ι t.1, t.2)) (Session.start (k, w))
  update : ∀ (input : Bytes) (k : κ) (w : σ),
    Session.update input (ι k, w) = mapState (fun t => (ι t.1, t.2)) (Session.update input (k, w))
  finalize : ∀ (k : κ) (w : σ),
    Session.finalize (ι k, w) = mapState (fun t => (ι t.1, t.2)) (Session.finalize (k, w))

namespace Session.Embeds

theorem refl : Session.Embeds (fun k : κ => k) where
  mode _ := rfl
  isReady _ := rfl
  start k w := by cases Session.start (k, w) <;> rfl
  update input k w := by cases Session.update input (k, w) <;> rfl
  finalize k w := by cases Session.finalize (k, w) <;> rfl

/-- In a registry of sessions of two kinds, those of the first kind do what they do alone. -/
theorem inl : Session.Embeds (Sum.inl : κ → κ ⊕ μ) where
  mode _ := rfl
  isReady _ := rfl
  start _ _ := rfl
  update _ _ _ := rfl
  finalize _ _ := rfl

variable {ι : κ → μ} (hι : Session.Embeds ι) {D : Bytes → Progress} {At : Bytes → κ → Prop}
  {whole : Bytes}

include hι

/-- What a session computes, it computes among others. -/
theorem decodes (h : Decodes D At whole) :
    Decodes D (fun fed m => ∃ k, At fed k ∧ m = ι k) whole where
  grows := h.grows
  mode := by
    rintro fed _ ⟨k, hk, rfl⟩
    rw [hι.mode, h.mode hk]
  going := by
    rintro fed _ ⟨k, hk, rfl⟩
    exact h.going hk
  isReady := by
    rintro fed _ ⟨k, hk, rfl⟩
    rw [hι.isReady, h.isReady hk]
  start := by
    rintro fed _ ⟨k, hk, rfl⟩ w
    rw [hι.start, h.start hk w]
    rfl
  update := by
    rintro fed _ more ⟨k, hk, rfl⟩ hw w
    rw [hι.update]
    rcases h.update hk hw w with ⟨e, t, he, hu⟩ | ⟨out, k', w', hu, hk', hplain⟩
    · rw [hu]
      exact .inl ⟨e, _, he, rfl⟩
    · rw [hu]
      exact .inr ⟨out, ι k', w', rfl, ⟨k', hk', rfl⟩, hplain⟩
  finalize_awaiting := by
    rintro fed _ n ⟨k, hk, rfl⟩ hn w
    obtain ⟨t, ht⟩ := h.finalize_awaiting hk hn w
    exact ⟨(ι t.1, t.2), by rw [hι.finalize, ht]; rfl⟩
  finalize_ready := by
    rintro fed _ p ⟨k, hk, rfl⟩ hp w
    obtain ⟨k', w', ht, hk'⟩ := h.finalize_ready hk hp w
    exact ⟨ι k', w', by rw [hι.finalize, ht]; rfl, k', hk', rfl⟩

end Session.Embeds

end SealedStream
