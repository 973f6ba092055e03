import SealedStream.Error
import SealedStream.Hash.Md5
import SealedStream.Hash.Sha256
import SealedStream.Hash.Sha512
import SealedStream.Hash.Sm3
import SealedStream.Hash.Blake3

/-!
# Digests by name

The five digest algorithms behind one type. A running digest can be asked for its value more than
once, but the question ends the message: the digest starts afresh.
-/

namespace SealedStream

inductive DigestAlgorithm
  | md5 | sha256 | sha512 | sm3 | blake3
  deriving DecidableEq, Repr

namespace DigestAlgorithm

/-- The name as standards write it. -/
def name : DigestAlgorithm → String
  | .md5 => "MD5"
  | .sha256 => "SHA-256"
  | .sha512 => "SHA-512"
  | .sm3 => "SM3"
  | .blake3 => "BLAKE3"

/-- The name as one word. -/
def identifier : DigestAlgorithm → String
  | .md5 => "Md5"
  | .sha256 => "Sha256"
  | .sha512 => "Sha512"
  | .sm3 => "Sm3"
  | .blake3 => "Blake3"

/-- Length of the digest in bytes. -/
def outputLen : DigestAlgorithm → Nat
  | .md5 => 16
  | .sha256 => 32
  | .sha512 => 64
  | .sm3 => 32
  | .blake3 => 32

/-- A name without hyphens and underscores, its ASCII letters made capital. -/
def normalize (name : String) : String :=
  String.ofList ((name.toList.filter fun c => c != '-' && c != '_').map Char.toUpper)

/-- The algorithm of a name, however hyphens, underscores and ASCII case are written. -/
def ofName (name : String) : Except Error DigestAlgorithm :=
  match normalize name with
  | "MD5" => .ok .md5
  | "SHA256" => .ok .sha256
  | "SHA512" => .ok .sha512
  | "SM3" => .ok .sm3
  | "BLAKE3" => .ok .blake3
  | _ => .error (.unknownDigest name)

/-- What the algorithm keeps of the blocks behind it. -/
abbrev Chain : DigestAlgorithm → Type
  | .md5 => Md5.Chain × Nat
  | .sha256 => Sha256.Chain × Nat
  | .sha512 => Sha512.Chain × Nat
  | .sm3 => Sm3.Chain × Nat
  | .blake3 => List Blake3.Chaining

def absorber : (a : DigestAlgorithm) → Absorber a.Chain
  | .md5 => Md5.absorber
  | .sha256 => Sha256.absorber
  | .sha512 => Sha512.absorber
  | .sm3 => Sm3.absorber
  | .blake3 => Blake3.absorber

end DigestAlgorithm

/-- A running digest. -/
structure Digest where
  algorithm : DigestAlgorithm
  running : Running algorithm.Chain

namespace Digest

def new (a : DigestAlgorithm) : Digest := ⟨a, a.absorber.new⟩

def update (d : Digest) (bytes : Bytes) : Digest :=
  ⟨d.algorithm, d.algorithm.absorber.update d.running bytes⟩

def reset (d : Digest) : Digest := new d.algorithm

/-- The digest of the bytes since the last start, and a fresh start. -/
def value (d : Digest) : Bytes × Digest :=
  (d.algorithm.absorber.digest d.running, d.reset)

def describe (d : Digest) : String :=
  s!"DigestChecksum \x7b algorithm: {d.algorithm.identifier}, .. \x7d"

theorem update_append (d : Digest) (a b : Bytes) : (d.update a).update b = d.update (a ++ b) := by
  simp [update, Absorber.update_append]

end Digest

end SealedStream
