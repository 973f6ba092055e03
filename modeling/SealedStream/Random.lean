import SealedStream.Bytes
import SealedStream.Step

/-!
# Random sources

The collaborators of a session (random source, key wrap, cipher family) may have state of their own
and may share it. All of it together is the world `σ`, and whatever calls them is a step over `σ`.
-/

namespace SealedStream

/-- A source of random bytes. -/
structure RandomSource (σ : Type) where
  fill : (n : Nat) → Step σ (Vector UInt8 n)

end SealedStream
