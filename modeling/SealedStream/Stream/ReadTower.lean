import SealedStream.Stream.Abortable
import SealedStream.Stream.Buffered
import SealedStream.Stream.Checked
import SealedStream.Stream.Reader

/-!
# Towers of readers

Adapters stand on each other in any order and number. A tower of height `n` has `n` adapters on top
of a source `ρ`; each of them can be worked on while it stands in the tower, and taken out of use.
-/

namespace SealedStream

/-- One adapter on top of `ρ`. -/
inductive ReadLayer (κ γ ρ : Type)
  | abortable (reader : AbortableReader ρ)
  | checked (reader : CheckedReader γ ρ)
  | buffered (reader : BufferedReader ρ)
  | cipher (reader : CipherReader κ ρ)
  /-- An adapter out of use. -/
  | removed (inner : ρ)

namespace ReadLayer

variable {σ κ γ ρ : Type}

/-- What the adapter stands on. -/
def inner : ReadLayer κ γ ρ → ρ
  | .abortable r => r.inner
  | .checked r => r.inner
  | .buffered r => r.inner
  | .cipher r => r.inner
  | .removed inner => inner

def setInner (inner : ρ) : ReadLayer κ γ ρ → ReadLayer κ γ ρ
  | .abortable r => .abortable { r with inner }
  | .checked r => .checked { r with inner }
  | .buffered r => .buffered { r with inner }
  | .cipher r => .cipher { r with inner }
  | .removed _ => .removed inner

/-- The failure of a transfer on an adapter out of use. -/
def closedError : IoError := .plain .other "layer closed"

instance [Accumulator γ] [Session κ σ] [Source σ ρ] : Source σ (ReadLayer κ γ ρ) where
  read fuel n
    | (.abortable r, env) => mapState (fun t => (.abortable t.1, t.2)) (Source.read fuel n (r, env))
    | (.checked r, env) => mapState (fun t => (.checked t.1, t.2)) (Source.read fuel n (r, env))
    | (.buffered r, env) => mapState (fun t => (.buffered t.1, t.2)) (Source.read fuel n (r, env))
    | (.cipher r, env) => mapState (fun t => (.cipher t.1, t.2)) (Source.read fuel n (r, env))
    | (.removed inner, env) => .error closedError (.removed inner, env)

/-- An adapter has no position. -/
instance : Seekable σ (ReadLayer κ γ ρ) where
  position := throw (.plain .unsupported "layer cannot seek")
  seek _ := throw (.plain .unsupported "layer cannot seek")

/-- An adapter out of use is not told. -/
instance [Abortable σ ρ] : Abortable σ (ReadLayer κ γ ρ) where
  abort
    | (.abortable r, env) => let (r, env) := Abortable.abort (r, env); (.abortable r, env)
    | (.checked r, env) => let (r, env) := Abortable.abort (r, env); (.checked r, env)
    | (.buffered r, env) => let (r, env) := Abortable.abort (r, env); (.buffered r, env)
    | (.cipher r, env) => let (r, env) := Abortable.abort (r, env); (.cipher r, env)
    | (.removed inner, env) => (.removed inner, env)

/-- Takes an adapter out of use, also if that fails. A cipher reader is closed; a checksum gives its
value. -/
def close [Session κ σ] : EStateM Error (ReadLayer κ Checksum ρ × Env σ) (Option ChecksumValue)
  | (.cipher r, env) =>
    match CipherReader.close (r, env) with
    | .ok inner (_, env) => .ok none (.removed inner, env)
    | .error e (r, env) => .error e (.removed r.inner, env)
  | (.checked r, env) => .ok (some r.checksum.value.1) (.removed r.inner, env)
  | (layer, env) => .ok none (.removed layer.inner, env)

end ReadLayer

/-- `n` adapters on top of `ρ`. -/
def ReadTower (κ γ ρ : Type) : Nat → Type
  | 0 => ρ
  | n + 1 => ReadLayer κ γ (ReadTower κ γ ρ n)

namespace ReadTower

variable {σ κ γ ρ : Type}

instance sourceInst [Accumulator γ] [Session κ σ] [Source σ ρ] :
    (n : Nat) → Source σ (ReadTower κ γ ρ n)
  | 0 => inferInstanceAs (Source σ ρ)
  | n + 1 =>
    have := sourceInst n
    inferInstanceAs (Source σ (ReadLayer κ γ (ReadTower κ γ ρ n)))

instance seekableInst [Seekable σ ρ] : (n : Nat) → Seekable σ (ReadTower κ γ ρ n)
  | 0 => inferInstanceAs (Seekable σ ρ)
  | n + 1 => inferInstanceAs (Seekable σ (ReadLayer κ γ (ReadTower κ γ ρ n)))

instance abortableInst [Abortable σ ρ] : (n : Nat) → Abortable σ (ReadTower κ γ ρ n)
  | 0 => inferInstanceAs (Abortable σ ρ)
  | n + 1 =>
    have := abortableInst n
    inferInstanceAs (Abortable σ (ReadLayer κ γ (ReadTower κ γ ρ n)))

/-- Works on the source (`level` 0) or on an adapter, counted from the source. A level above the
tower counts as its top. -/
def atLevel {ε α : Type} (level : Nat) (onSource : EStateM ε (ρ × Env σ) α)
    (onLayer : (m : Nat) → EStateM ε (ReadLayer κ γ (ReadTower κ γ ρ m) × Env σ) α) :
    (n : Nat) → EStateM ε (ReadTower κ γ ρ n × Env σ) α
  | 0 => onSource
  | n + 1 =>
    if level ≤ n then
      zoom (fun (t : ReadLayer κ γ (ReadTower κ γ ρ n) × Env σ) => (t.1.inner, t.2))
        (fun u t => (t.1.setInner u.1, u.2)) (atLevel level onSource onLayer n)
    else onLayer n

/-- The source at the bottom. -/
def bottom : (n : Nat) → ReadTower κ γ ρ n → ρ
  | 0, source => source
  | n + 1, layer => bottom n (ReadLayer.inner layer)

end ReadTower

end SealedStream
