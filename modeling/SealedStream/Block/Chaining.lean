import SealedStream.Block.Basic

/-!
# Cipher block chaining

Each block is added to the ciphertext before it, the first one to the IV.
-/

namespace SealedStream.Chaining

def encrypt (f : Block → Block) : Block → List Block → List Block
  | _, [] => []
  | previous, b :: bs =>
    let c := f (b ^^^ previous)
    c :: encrypt f c bs

def decrypt (f : Block → Block) : Block → List Block → List Block
  | _, [] => []
  | previous, c :: cs => (f c ^^^ previous) :: decrypt f c cs

/-- Decryption takes a chain back, whatever the block cipher. -/
theorem decrypt_encrypt {f g : Block → Block} (h : ∀ b, g (f b) = b) (previous : Block)
    (bs : List Block) : decrypt g previous (encrypt f previous bs) = bs := by
  induction bs generalizing previous with
  | nil => rfl
  | cons b bs ih => simp only [encrypt, decrypt, h, Block.xor_xor, ih]

/-- Encryption puts a chain back that decryption took apart. -/
theorem encrypt_decrypt {f g : Block → Block} (h : ∀ b, f (g b) = b) (previous : Block)
    (cs : List Block) : encrypt f previous (decrypt g previous cs) = cs := by
  induction cs generalizing previous with
  | nil => rfl
  | cons c cs ih => simp only [encrypt, decrypt, h, Block.xor_xor, ih]

theorem length_encrypt (f : Block → Block) (previous : Block) (bs : List Block) :
    (encrypt f previous bs).length = bs.length := by
  induction bs generalizing previous with
  | nil => rfl
  | cons b bs ih => simp only [encrypt, List.length_cons, ih]

end SealedStream.Chaining
