import SealedStream.Stream.Sink

/-!
# Scripted sources and sinks

A source over a byte string and a sink into one. Either may move only a few bytes at a time, and
certain calls can be told to fail, to move nothing, or to raise an abort flag first. All calls are
counted, those that fail and those that move nothing too.
-/

namespace SealedStream.Scripted

/-- What befalls a call. -/
inductive Event
  | fail (error : IoError)
  /-- The call gives or takes nothing. -/
  | zero
  /-- A flag is raised, and the call goes on. -/
  | raise (flag : Nat)

/-- Events by the number of the call. -/
abbrev Schedule := List (Nat × Event)

/-- How a call ends that its events end. -/
inductive Cut
  | fail (error : IoError)
  | zero

/-- Runs the events of call `k` in order, up to one that ends the call. -/
def runEvents {σ : Type} (k : Nat) : Schedule → Env σ → Option Cut × Env σ
  | [], env => (none, env)
  | (call, event) :: events, env =>
    if call = k then
      match event with
      | .fail e => (some (.fail e), env)
      | .zero => (some .zero, env)
      | .raise flag => runEvents k events (env.raise flag)
    else runEvents k events env

/-- The smaller of a limit, if there is one, and `n`. -/
def limited (limit : Option Nat) (n : Nat) : Nat :=
  match limit with
  | some c => min c n
  | none => n

/-! ## Sources -/

structure ScriptedSource where
  data : Array UInt8
  /-- Most bytes of one read. -/
  chunk : Option Nat := none
  readEvents : Schedule := []
  seekEvents : Schedule := []
  pos : Nat := 0
  reads : Nat := 0
  seeks : Nat := 0
  aborts : Nat := 0

namespace ScriptedSource

variable {σ : Type}

instance : Source σ ScriptedSource where
  read _ n
    | (r, env) =>
      let (cut, env) := runEvents r.reads r.readEvents env
      let r := { r with reads := r.reads + 1 }
      match cut with
      | some (.fail e) => .error e (r, env)
      | some .zero => .ok [] (r, env)
      | none =>
        let bytes := r.data.extract r.pos (r.pos + limited r.chunk n)
        .ok bytes.toList ({ r with pos := r.pos + bytes.size }, env)

/-- A call that asks for the position or sets it, unless its events end it with `zero`. -/
def seekCall {α : Type} (zero : α) (f : ScriptedSource → α × ScriptedSource) :
    Transfer σ ScriptedSource α := fun (r, env) =>
  let (cut, env) := runEvents r.seeks r.seekEvents env
  let r := { r with seeks := r.seeks + 1 }
  match cut with
  | some (.fail e) => .error e (r, env)
  | some .zero => .ok zero (r, env)
  | none => let (a, r) := f r; .ok a (r, env)

/-- A seek behind the end goes to the end. -/
instance : Seekable σ ScriptedSource where
  position := seekCall 0 fun r => (r.pos, r)
  seek p := seekCall () fun r => ((), { r with pos := min p r.data.size })

instance : Abortable σ ScriptedSource where
  abort | (r, env) => ({ r with aborts := r.aborts + 1 }, env)

/-- Keeps the data before `start` and replaces the rest. A source that stood behind the new end
stands at it. -/
def patch (r : ScriptedSource) (start : Nat) (bytes : Bytes) : ScriptedSource :=
  let data := r.data.extract 0 start ++ bytes
  { r with data, pos := min r.pos data.size }

end ScriptedSource

/-! ## Sinks -/

structure ScriptedSink where
  /-- Most bytes of one write. -/
  chunk : Option Nat := none
  writeEvents : Schedule := []
  flushEvents : Schedule := []
  /-- What was accepted, write by write, the latest first. -/
  parts : List Bytes := []
  writes : Nat := 0
  flushes : Nat := 0
  aborts : Nat := 0

namespace ScriptedSink

variable {σ : Type}

/-- All bytes accepted so far. -/
def content (w : ScriptedSink) : Bytes := w.parts.reverse.flatten

def length (w : ScriptedSink) : Nat := w.parts.flatten.length

instance : Sink σ ScriptedSink where
  write _ bytes
    | (w, env) =>
      let (cut, env) := runEvents w.writes w.writeEvents env
      let w := { w with writes := w.writes + 1 }
      match cut with
      | some (.fail e) => .error e (w, env)
      | some .zero => .ok 0 (w, env)
      | none =>
        let part := bytes.take (w.chunk.getD bytes.length)
        .ok part.length ({ w with parts := part :: w.parts }, env)
  flush _
    | (w, env) =>
      let (cut, env) := runEvents w.flushes w.flushEvents env
      let w := { w with flushes := w.flushes + 1 }
      match cut with
      | some (.fail e) => .error e (w, env)
      | _ => .ok () (w, env)

instance : Abortable σ ScriptedSink where
  abort | (w, env) => ({ w with aborts := w.aborts + 1 }, env)

end ScriptedSink

end SealedStream.Scripted
