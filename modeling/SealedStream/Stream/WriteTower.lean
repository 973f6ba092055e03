import SealedStream.Stream.Abortable
import SealedStream.Stream.Buffered
import SealedStream.Stream.Checked
import SealedStream.Stream.ReadTower
import SealedStream.Stream.Writer

/-!
# Towers of writers

A tower of height `n` has `n` adapters on top of a sink `ς`. An adapter that goes out of use does
what it owes the adapter below: a buffer is emptied, an open cipher writer is closed.
-/

namespace SealedStream

/-- One adapter on top of `ς`. -/
inductive WriteLayer (κ γ ς : Type)
  | abortable (writer : AbortableWriter ς)
  | checked (writer : CheckedWriter γ ς)
  | buffered (writer : BufferedWriter ς)
  | cipher (writer : CipherWriter κ ς)
  /-- An adapter out of use. -/
  | removed (inner : ς)

namespace WriteLayer

variable {σ κ γ ς : Type}

/-- What the adapter stands on. -/
def inner : WriteLayer κ γ ς → ς
  | .abortable w => w.inner
  | .checked w => w.inner
  | .buffered w => w.inner
  | .cipher w => w.inner
  | .removed inner => inner

def setInner (inner : ς) : WriteLayer κ γ ς → WriteLayer κ γ ς
  | .abortable w => .abortable { w with inner }
  | .checked w => .checked { w with inner }
  | .buffered w => .buffered { w with inner }
  | .cipher w => .cipher { w with inner }
  | .removed _ => .removed inner

instance [Accumulator γ] [Session κ σ] [Sink σ ς] : Sink σ (WriteLayer κ γ ς) where
  write fuel bytes
    | (.abortable w, env) =>
      mapState (fun t => (.abortable t.1, t.2)) (Sink.write fuel bytes (w, env))
    | (.checked w, env) => mapState (fun t => (.checked t.1, t.2)) (Sink.write fuel bytes (w, env))
    | (.buffered w, env) =>
      mapState (fun t => (.buffered t.1, t.2)) (Sink.write fuel bytes (w, env))
    | (.cipher w, env) => mapState (fun t => (.cipher t.1, t.2)) (Sink.write fuel bytes (w, env))
    | (.removed inner, env) => .error ReadLayer.closedError (.removed inner, env)
  flush fuel
    | (.abortable w, env) => mapState (fun t => (.abortable t.1, t.2)) (Sink.flush fuel (w, env))
    | (.checked w, env) => mapState (fun t => (.checked t.1, t.2)) (Sink.flush fuel (w, env))
    | (.buffered w, env) => mapState (fun t => (.buffered t.1, t.2)) (Sink.flush fuel (w, env))
    | (.cipher w, env) => mapState (fun t => (.cipher t.1, t.2)) (Sink.flush fuel (w, env))
    | (.removed inner, env) => .error ReadLayer.closedError (.removed inner, env)

/-- An adapter out of use is not told. -/
instance [Abortable σ ς] : Abortable σ (WriteLayer κ γ ς) where
  abort
    | (.abortable w, env) => let (w, env) := Abortable.abort (w, env); (.abortable w, env)
    | (.checked w, env) => let (w, env) := Abortable.abort (w, env); (.checked w, env)
    | (.buffered w, env) => let (w, env) := Abortable.abort (w, env); (.buffered w, env)
    | (.cipher w, env) => let (w, env) := Abortable.abort (w, env); (.cipher w, env)
    | (.removed inner, env) => (.removed inner, env)

variable [Session κ σ] [Sink σ ς]

/-- Takes an adapter out of use. What it owes the adapter below is done as far as that works. -/
def drop (fuel : Nat) : WriteLayer κ γ ς × Env σ → WriteLayer κ γ ς × Env σ
  | (.buffered w, env) =>
    match (BufferedWriter.empty fuel : Transfer σ (BufferedWriter ς) Unit) (w, env) with
    | .ok _ (w, env) => (.removed w.inner, env)
    | .error _ (w, env) => (.removed w.inner, env)
  | (.cipher w, env) =>
    let (w, env) := CipherWriter.drop fuel (w, env)
    (.removed w.inner, env)
  | (w, env) => (.removed w.inner, env)

/-- Closes a cipher writer for good, also if that fails. -/
def closeCipher (fuel : Nat) (strict : Bool) (w : CipherWriter κ ς) (env : Env σ) :
    EStateM.Result Error (WriteLayer κ γ ς × Env σ) (Option ChecksumValue) :=
  match CipherWriter.shutdown fuel strict (w, env) with
  | .ok () (w, env) => .ok none (.removed w.inner, env)
  | .error e (w, env) => .error e (.removed w.inner, env)

/-- Closes an adapter and takes it out of use; a checksum gives its value. -/
def close (fuel : Nat) : EStateM Error (WriteLayer κ Checksum ς × Env σ) (Option ChecksumValue)
  | (.cipher w, env) => closeCipher fuel false w env
  | (.checked w, env) => .ok (some w.checksum.value.1) (.removed w.inner, env)
  | s => .ok none (drop fuel s)

/-- Takes an adapter out of use; a cipher writer insists on its session's tail. -/
def finish (fuel : Nat) : EStateM Error (WriteLayer κ γ ς × Env σ) Unit
  | (.cipher w, env) =>
    match closeCipher fuel true w env with
    | .ok _ s => .ok () s
    | .error e s => .error e s
  | s => .ok () (drop fuel s)

end WriteLayer

/-- `n` adapters on top of `ς`. -/
def WriteTower (κ γ ς : Type) : Nat → Type
  | 0 => ς
  | n + 1 => WriteLayer κ γ (WriteTower κ γ ς n)

namespace WriteTower

variable {σ κ γ ς : Type}

instance sinkInst [Accumulator γ] [Session κ σ] [Sink σ ς] :
    (n : Nat) → Sink σ (WriteTower κ γ ς n)
  | 0 => inferInstanceAs (Sink σ ς)
  | n + 1 =>
    have := sinkInst n
    inferInstanceAs (Sink σ (WriteLayer κ γ (WriteTower κ γ ς n)))

instance abortableInst [Abortable σ ς] : (n : Nat) → Abortable σ (WriteTower κ γ ς n)
  | 0 => inferInstanceAs (Abortable σ ς)
  | n + 1 =>
    have := abortableInst n
    inferInstanceAs (Abortable σ (WriteLayer κ γ (WriteTower κ γ ς n)))

/-- Works on the sink (`level` 0) or on an adapter, counted from the sink. A level above the tower
counts as its top. -/
def atLevel {ε α : Type} (level : Nat) (onSink : EStateM ε (ς × Env σ) α)
    (onLayer : (m : Nat) → EStateM ε (WriteLayer κ γ (WriteTower κ γ ς m) × Env σ) α) :
    (n : Nat) → EStateM ε (WriteTower κ γ ς n × Env σ) α
  | 0 => onSink
  | n + 1 =>
    if level ≤ n then
      zoom (fun (t : WriteLayer κ γ (WriteTower κ γ ς n) × Env σ) => (t.1.inner, t.2))
        (fun u t => (t.1.setInner u.1, u.2)) (atLevel level onSink onLayer n)
    else onLayer n

/-- The sink at the bottom. -/
def bottom : (n : Nat) → WriteTower κ γ ς n → ς
  | 0, sink => sink
  | n + 1, layer => bottom n (WriteLayer.inner layer)

/-- Takes all adapters out of use, from the top down. -/
def dropAll [Accumulator γ] [Session κ σ] [Sink σ ς] (fuel : Nat) :
    (n : Nat) → WriteTower κ γ ς n × Env σ → ς × Env σ
  | 0, s => s
  | n + 1, s =>
    let (layer, env) : WriteLayer κ γ (WriteTower κ γ ς n) × Env σ := WriteLayer.drop fuel s
    dropAll fuel n (layer.inner, env)

end WriteTower

end SealedStream
