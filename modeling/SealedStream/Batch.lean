import SealedStream.Session.Builder
import SealedStream.Stream.Whole

/-!
# Batches

Many streams through sessions of one builder and one family. Each stream has its own session; the
first failure ends the batch.
-/

namespace SealedStream.CipherBuilder

variable {σ γ ρ ς : Type} [ContentCipher σ γ] [Source σ ρ] [Sink σ ς]

/-- Runs `work` on each stream in turn. -/
def forEach (work : EStateM Error ((ρ × ς) × Env σ) Nat) :
    List (ρ × ς) → Env σ → EStateM.Result Error (List (ρ × ς) × Env σ) Unit
  | [], env => .ok () ([], env)
  | stream :: streams, env =>
    match work (stream, env) with
    | .error e (stream, env) => .error e (stream :: streams, env)
    | .ok _ (stream, env) => mapState (fun t => (stream :: t.1, t.2)) (forEach work streams env)

def encryptBatch (b : CipherBuilder σ) (family : CipherFamily σ γ) (fuel : Nat) :
    EStateM Error (List (ρ × ς) × Env σ) Unit :=
  fun s => forEach (encrypt fuel (b.familySession family .encrypt)) s.1 s.2

def decryptBatch (b : CipherBuilder σ) (family : CipherFamily σ γ) (fuel : Nat) :
    EStateM Error (List (ρ × ς) × Env σ) Unit :=
  fun s => forEach (decrypt fuel (b.familySession family .decrypt)) s.1 s.2

end SealedStream.CipherBuilder
