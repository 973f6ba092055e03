import SealedStream.Family

/-!
# Sessions

A session turns the bytes of one stream, fed piece by piece, into the bytes of the other side. An
encrypting session puts a header in front, a decrypting one takes it off again.
-/

namespace SealedStream

/-- One stream on its way through a cipher. `κ` is the session's state, `σ` the world of its
collaborators. -/
class Session (κ : Type) (σ : outParam Type) where
  mode : κ → Mode
  /-- The header version, as far as it is known. -/
  version : κ → Option UInt32
  /-- Whether the header is behind. -/
  isReady : κ → Bool
  /-- What comes before the first byte: the header when encrypting, nothing when decrypting. -/
  start : Step (κ × σ) Bytes
  update : Bytes → Step (κ × σ) Bytes
  /-- What comes after the last byte. -/
  finalize : Step (κ × σ) Bytes
  /-- A fresh session with the same settings. -/
  restart : κ → κ

/-- A session of either type. -/
instance {κ μ σ : Type} [Session κ σ] [Session μ σ] : Session (κ ⊕ μ) σ where
  mode := Sum.elim Session.mode Session.mode
  version := Sum.elim Session.version Session.version
  isReady := Sum.elim Session.isReady Session.isReady
  start
    | (.inl k, s) => mapState (fun t => (.inl t.1, t.2)) (Session.start (k, s))
    | (.inr k, s) => mapState (fun t => (.inr t.1, t.2)) (Session.start (k, s))
  update input
    | (.inl k, s) => mapState (fun t => (.inl t.1, t.2)) (Session.update input (k, s))
    | (.inr k, s) => mapState (fun t => (.inr t.1, t.2)) (Session.update input (k, s))
  finalize
    | (.inl k, s) => mapState (fun t => (.inl t.1, t.2)) (Session.finalize (k, s))
    | (.inr k, s) => mapState (fun t => (.inr t.1, t.2)) (Session.finalize (k, s))
  restart := Sum.map Session.restart Session.restart

end SealedStream
