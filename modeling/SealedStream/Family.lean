import SealedStream.Block.Aes
import SealedStream.Block.Counter
import SealedStream.Block.Sm4
import SealedStream.Random

/-!
# Cipher families

A family makes content ciphers and says what key material they need. The two bundled families run
AES-256 and SM4 in counter mode. `γ` is the type of running content ciphers.
-/

namespace SealedStream

/-- Which way a session works. -/
inductive Mode
  | encrypt | decrypt
  deriving DecidableEq, Repr

def Mode.name : Mode → String
  | .encrypt => "Encrypt"
  | .decrypt => "Decrypt"

/-- A running content cipher. -/
class ContentCipher (σ γ : Type) where
  update : Bytes → Step (γ × σ) Bytes
  finalize : Step (γ × σ) Bytes

/-- How to make a content cipher, what key material it needs, and the version of its headers. -/
structure CipherFamily (σ γ : Type) where
  name : String
  version : UInt32
  keyLen : Nat
  ivLen : Nat
  generateIv : RandomSource σ → Step σ Bytes
  newCipher : (key iv : Bytes) → Mode → Step σ γ

/-- Bytes 8 to 11 cleared, if there are twelve bytes: room for the block counter. -/
def clearCounter (iv : Bytes) : Bytes :=
  if 12 ≤ iv.length then iv.take 8 ++ [0, 0, 0, 0] ++ iv.drop 12 else iv

/-- A random IV of `n` bytes with room for the block counter. -/
def defaultIv {σ : Type} (n : Nat) (random : RandomSource σ) : Step σ Bytes := do
  let iv ← random.fill n
  return clearCounter iv.toList

/-- A keystream never ends and leaves nothing for the end. -/
instance {σ : Type} : ContentCipher σ CounterStream where
  update input := fun (c, s) =>
    let (out, c) := c.apply input
    .ok out (c, s)
  finalize := pure []

/-- A content cipher of either type. -/
instance {σ γ δ : Type} [ContentCipher σ γ] [ContentCipher σ δ] : ContentCipher σ (γ ⊕ δ) where
  update input
    | (.inl c, s) => mapState (fun t => (.inl t.1, t.2)) (ContentCipher.update input (c, s))
    | (.inr c, s) => mapState (fun t => (.inr t.1, t.2)) (ContentCipher.update input (c, s))
  finalize
    | (.inl c, s) => mapState (fun t => (.inl t.1, t.2)) (ContentCipher.finalize (c, s))
    | (.inr c, s) => mapState (fun t => (.inr t.1, t.2)) (ContentCipher.finalize (c, s))

namespace CipherFamily

variable {σ : Type}

/-- A family in counter mode over a block cipher, given as a function from keys. Any key or IV of
another length is refused. -/
def counterMode (name : String) (version : UInt32) (keyLen : Nat)
    (cipher : Bytes → Option (Block → Block)) : CipherFamily σ CounterStream where
  name := name
  version := version
  keyLen := keyLen
  ivLen := 16
  generateIv := defaultIv 16
  newCipher key iv _ :=
    match cipher key with
    | some encrypt =>
      if iv.length = 16 then pure ⟨encrypt, Bytes.toNat iv, 0⟩ else throw (.crypto .contentLengths)
    | none => throw (.crypto .contentLengths)

/-- The same family with its ciphers among others. -/
def map {γ δ : Type} (f : γ → δ) (F : CipherFamily σ γ) : CipherFamily σ δ :=
  { F with newCipher := fun key iv mode => f <$> F.newCipher key iv mode }

/-- AES-256 in counter mode. -/
def aes : CipherFamily σ CounterStream :=
  counterMode "AES" 1 32 fun key => (Aes.Schedule.ofKey? key).map Aes.encrypt

/-- SM4 in counter mode. -/
def sm4 : CipherFamily σ CounterStream :=
  counterMode "SM4" 2 16 fun key => (Sm4.schedule? key).map Sm4.encrypt

end CipherFamily

/-- The bundled families. -/
inductive BundledFamily
  | aes | sm4
  deriving DecidableEq, Repr

namespace BundledFamily

/-- The id that stands in front of a stream of this family. -/
def id : BundledFamily → UInt32
  | .aes => 1
  | .sm4 => 2

def ofId? (id : UInt32) : Option BundledFamily :=
  if id = 1 then some .aes else if id = 2 then some .sm4 else none

def name : BundledFamily → String
  | .aes => "Aes"
  | .sm4 => "Sm4"

def family {σ : Type} : BundledFamily → CipherFamily σ CounterStream
  | .aes => .aes
  | .sm4 => .sm4

end BundledFamily

end SealedStream
