import SealedStream.Stream.Reader
import SealedStream.Stream.Writer

/-!
# Whole streams

`encrypt` and `decrypt` move one source to one sink through a session and say how many bytes of
plaintext there were.
-/

namespace SealedStream

variable {σ κ ρ ς : Type} [Session κ σ] [Source σ ρ] [Sink σ ς]

/-- Copies the source into a writer and finishes it. If copying fails the writer goes out of use,
which still closes the stream as far as that works. -/
def encrypt (fuel : Nat) (session : κ) : EStateM Error ((ρ × ς) × Env σ) Nat :=
  fun ((source, sink), env) =>
    if Session.mode session ≠ .encrypt then
      .error (.invalidState .needsEncrypting) ((source, sink), env)
    else
      let writer : CipherWriter κ ς := { inner := sink, session }
      match copy fuel ((source, writer), env) with
      | .error e ((source, writer), env) =>
        let (writer, env) := CipherWriter.drop fuel (writer, env)
        .error (.ofIo e) ((source, writer.inner), env)
      | .ok n ((source, writer), env) =>
        match CipherWriter.finish fuel (writer, env) with
        | .ok () (writer, env) => .ok n ((source, writer.inner), env)
        | .error e (writer, env) => .error e ((source, writer.inner), env)

/-- Copies a reader of the source into the sink and flushes the sink. -/
def decrypt (fuel : Nat) (session : κ) : EStateM Error ((ρ × ς) × Env σ) Nat :=
  fun ((source, sink), env) =>
    if Session.mode session ≠ .decrypt then
      .error (.invalidState .needsDecrypting) ((source, sink), env)
    else
      match copy fuel ((CipherReader.new source session, sink), env) with
      | .error e ((reader, sink), env) => .error (.ofIo e) ((reader.inner, sink), env)
      | .ok n ((reader, sink), env) =>
        match Sink.flush fuel (sink, env) with
        | .ok () (sink, env) => .ok n ((reader.inner, sink), env)
        | .error e (sink, env) => .error (.ofIo e) ((reader.inner, sink), env)

end SealedStream
