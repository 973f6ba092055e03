import SealedStream.Stream.Source

/-!
# The version at the front of a source
-/

namespace SealedStream

variable {σ ρ : Type} [Source σ ρ]

/-- Takes the four bytes of a header's version from a source. A source that ends before them has a
truncated header, reported as one of which nothing was gathered. -/
def readVersion (fuel : Nat) : EStateM Error (ρ × Env σ) UInt32 := fun s =>
  match Source.readExact fuel 4 s with
  | .ok bytes s => .ok ((Bytes.be32? bytes).getD 0) s
  | .error e s =>
    if e.kind = .unexpectedEof then .error (.truncatedHeader 0) s else .error (.ofIo e) s

end SealedStream
