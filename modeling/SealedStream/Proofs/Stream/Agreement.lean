import SealedStream.Proofs.Stream.Pulling
import SealedStream.Proofs.Stream.Pushing

/-!
# Pulling and pushing agree

A reader starts its session at the first read, assembles a header before it gives anything, and
finalizes when its source has nothing more; a writer starts its session at the first write or when
it is closed, and gives what it has at once. Over one session they come to the same all the same
(`reads_writes_agree`): the bytes read to the end are those in the sink, and if one of them fails
the other does, with the same error and behind the same bytes. Both are compared with what the
session conveys of the input, and not with each other.
-/

namespace SealedStream

variable {σ κ ρ ς : Type}

/-- The reading is over, as that of a stream with this error. -/
def CipherReader.Ending.Tells : CipherReader.Ending → Option Error → Prop
  | .going, _ => False
  | .ended, e? => e? = none
  | .failed e, e? => e? = some e

open CipherReader (Reading reads) in
open CipherWriter (Halt writeThrough) in
/-- Reading and writing come to the bytes `out`, and then to the end or to one error. The reading
may not be over yet, but it goes on for no more buffers than it has bytes, those of no length
apart. -/
structure Agree [Sink σ ς] (K : WorkingSink σ ς) (before out : Bytes) (error? : Option Error)
    (ns : List Nat) (reading : Reading σ κ ρ) (writing : Halt × (CipherWriter κ ς × Env σ)) :
    Prop where
  read : reading.bytes <+: out
  ended : reading.ending ≠ .going → reading.bytes = out ∧ reading.ending.Tells error?
  going : reading.ending = .going → ns.countP (0 < ·) ≤ reading.bytes.length
  wrote : K.content writing.2.1.inner = before ++ out
  halted : writing.1.Tells error?

/-- Of each input, in the world `w`, a caller who reads it through the session `k` and one who
writes it get `D` of it, each stopping at the first error, whatever the blocks, the buffers and the
pieces, and however the source gives and the sink takes them. A source that used the collaborators
itself would not leave them to both sessions in the same world. `fuel` bounds the rounds of the
loops. -/
def Session.Agrees [Session κ σ] (D : Bytes → Progress) (k : κ) (w : σ) : Prop :=
  ∀ (input : Bytes) (fuel : Nat), input.length < fuel → (D input).plain.length ≤ fuel →
    ∀ {ρ ς : Type} [Source σ ρ] [Sink σ ς] (S : WorkingSource σ ρ) (K : WorkingSink σ ς)
      {source : ρ} {sink : ς}, Source.Aloof σ ρ → S.works source → S.remaining source = input →
      K.works sink → ∀ (blockSize : Nat) (ns : List Nat) (pieces : List Bytes)
      (raised raised' : List Nat), pieces.flatten = input →
      Agree K (K.content sink) (D input).plain (D input).error? ns
        (CipherReader.reads fuel (fun _ => false) ns
          (CipherReader.new source k blockSize, ⟨raised, w⟩))
        (CipherWriter.writeThrough fuel pieces ({ inner := sink, session := k }, ⟨raised', w⟩))

/-- Callers of a session that conveys something agree on that. -/
theorem Session.Conveys.agrees [Session κ σ] {D : Bytes → Progress} {At : Bytes → κ → σ → Prop}
    {k : κ} {w : σ} (hC : Session.Conveys D At k w) : Session.Agrees D k w := by
  intro input fuel hfuel hlen ρ ς _ _ S K source sink ha hsource hinput hsink blockSize ns pieces
    raised raised' hpieces
  have hunread : CipherReader.Unread S input k w
      (CipherReader.new source k blockSize, ⟨raised, w⟩) :=
    ⟨rfl, rfl, hsource, Nat.le_max_right _ _, hinput, rfl, rfl, rfl, rfl, rfl⟩
  have hunwritten : CipherWriter.Unwritten K (K.content sink) k w
      ({ inner := sink, session := k }, ⟨raised', w⟩) :=
    ⟨rfl, hsink, rfl, rfl, rfl, rfl⟩
  have hread := CipherReader.reads_conveyed ha hC hfuel ns (.inl ⟨rfl, hunread⟩) List.nil_prefix
  obtain ⟨hhalt, hcontent⟩ := CipherWriter.writeThrough_conveyed hC hlen pieces
    (.inl ⟨rfl, hunwritten⟩) rfl hpieces
  refine ⟨hread.bytes, fun hover => ?_, hread.going, hcontent, hhalt⟩
  cases hend : (CipherReader.reads fuel (fun _ => false) ns
    (CipherReader.new source k blockSize, ⟨raised, w⟩)).ending with
  | going => exact absurd hend hover
  | ended => exact hread.ended hend
  | failed e =>
    have herror := hread.failed e hend
    have hbytes := hread.bytes
    rw [Progress.plain_of_error? herror, List.prefix_nil] at hbytes
    rw [Progress.plain_of_error? herror]
    exact ⟨hbytes, herror⟩

/-- **Pulling and pushing agree**, for sessions of the bundled families and for dispatchers over
registries of such sessions, encrypting and decrypting, under any options, whatever their key wrap
and their random source do: encrypting, on the head of the stream and the bytes under its keystream,
or on the error of a start that is refused; decrypting, on what the whole input is a stream of. -/
theorem reads_writes_agree (w : σ) :
    (∀ (f : BundledFamily) (s : FamilySession σ CounterStream), s.Bundled f →
      Session.Agrees (s.conveyed f w) s w) ∧
    ∀ (families : UInt32 → BundledFamily) (d : Dispatcher σ (FamilySession σ CounterStream)),
      d.Bundled families → Session.Agrees (d.conveyed families w) d w := by
  constructor
  · intro f s hs
    obtain ⟨At, hC⟩ := hs.conveys w
    exact hC.agrees
  · intro families d hd
    obtain ⟨At, hC⟩ := hd.conveys w
    exact hC.agrees

section

open Scripted

/-- Three bytes to encrypt, read two at a time and written in two pieces, into a sink that takes one
byte at a time; and an id that nobody registered. -/
theorem reads_writes_agree_scripted :
    (Agree ScriptedSink.working [] ((⟨2, clearCounter (.replicate 16 1), .replicate 16 1⟩ :
          Header).encode ++ ((BundledFamily.sm4.stream (.replicate 16 1)
            (clearCounter (.replicate 16 1))).apply [1, 2, 3]).1) none [5, 0, 99, 99]
        (CipherReader.reads 60 (fun _ => false) [5, 0, 99, 99]
          (CipherReader.new ({ data := #[1, 2, 3], chunk := some 1 } : ScriptedSource)
            (bareBuilder.familySession BundledFamily.sm4.family .encrypt) 2, ⟨[], ()⟩))
        (CipherWriter.writeThrough 60 [[1], [], [2, 3]]
          ({ inner := ({ chunk := some 1 } : ScriptedSink),
             session := bareBuilder.familySession BundledFamily.sm4.family .encrypt }, ⟨[], ()⟩))) ∧
    Agree ScriptedSink.working [] [] (some (.unsupportedAlgorithm 9)) [8]
        (CipherReader.reads 60 (fun _ => false) [8]
          (CipherReader.new ({ data := #[0, 0, 0, 9] } : ScriptedSource)
            (bareBuilder.dispatcher .decrypt (Registry.bundled id id) 1 none), ⟨[], ()⟩))
        (CipherWriter.writeThrough 60 [[0], [0, 0, 9]]
          ({ inner := ({} : ScriptedSink),
             session := bareBuilder.dispatcher .decrypt (Registry.bundled id id) 1 none },
            ⟨[], ()⟩)) := by
  constructor
  · have hsource : (ScriptedSource.working : WorkingSource Unit ScriptedSource).works
        { data := #[1, 2, 3], chunk := some 1 } := ⟨rfl, by decide⟩
    have hsink : (ScriptedSink.working : WorkingSink Unit ScriptedSink).works { chunk := some 1 } :=
      ⟨rfl, rfl, by decide⟩
    have hD : (bareBuilder.familySession BundledFamily.sm4.family .encrypt).conveyed .sm4 ()
        [1, 2, 3] = .ready ((⟨2, clearCounter (.replicate 16 1), .replicate 16 1⟩ :
          Header).encode ++ ((BundledFamily.sm4.stream (.replicate 16 1)
            (clearCounter (.replicate 16 1))).apply [1, 2, 3]).1) := rfl
    have hagree := (reads_writes_agree ()).1 .sm4 _
      (bareBuilder.bundled_familySession .sm4 .encrypt) [1, 2, 3] 60 (by decide)
      (by rw [hD]; decide +kernel) ScriptedSource.working ScriptedSink.working ScriptedSource.aloof
      hsource rfl hsink 2 [5, 0, 99, 99] [[1], [], [2, 3]] [] [] rfl
    rwa [hD] at hagree
  · have hsource : (ScriptedSource.working : WorkingSource Unit ScriptedSource).works
        { data := #[0, 0, 0, 9] } := ⟨rfl, by decide⟩
    have hsink : (ScriptedSink.working : WorkingSink Unit ScriptedSink).works {} :=
      ⟨rfl, rfl, by decide⟩
    exact (reads_writes_agree ()).2 _ _ (bareBuilder.bundled_dispatcher .decrypt 1 none)
      [0, 0, 0, 9] 60 (by decide) (by decide) ScriptedSource.working ScriptedSink.working
      ScriptedSource.aloof hsource rfl hsink _ [8] [[0], [0, 0, 9]] [] [] rfl

end

end SealedStream
