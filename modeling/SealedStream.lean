import SealedStream.Batch
import SealedStream.Block.AesInverse
import SealedStream.Checksum.Crc64Combine
import SealedStream.Proofs.Batch
import SealedStream.Proofs.Checksum.Bitwise
import SealedStream.Proofs.Checksum.Concatenation
import SealedStream.Proofs.Checksum.FanOut
import SealedStream.Proofs.Checksum.Grouping
import SealedStream.Proofs.Checksum.Squaring
import SealedStream.Proofs.CounterRoom
import SealedStream.Proofs.Session.Calls
import SealedStream.Proofs.Session.Chunking
import SealedStream.Proofs.Session.Delegating
import SealedStream.Proofs.Session.Demanding
import SealedStream.Proofs.Session.FailStop
import SealedStream.Proofs.Session.HeaderFirst
import SealedStream.Proofs.Session.KeyDraws
import SealedStream.Proofs.Session.Regardless
import SealedStream.Proofs.Session.Reopening
import SealedStream.Proofs.Session.Restarting
import SealedStream.Proofs.Session.SealedOnce
import SealedStream.Proofs.Session.Transient
import SealedStream.Proofs.Stream.Aborting
import SealedStream.Proofs.Stream.Account
import SealedStream.Proofs.Stream.Agreement
import SealedStream.Proofs.Stream.Alarmed
import SealedStream.Proofs.Stream.Anew
import SealedStream.Proofs.Stream.Apart
import SealedStream.Proofs.Stream.BrokenOff
import SealedStream.Proofs.Stream.Checked
import SealedStream.Proofs.Stream.Complete
import SealedStream.Proofs.Stream.CutShort
import SealedStream.Proofs.Stream.Discipline
import SealedStream.Proofs.Stream.Ending
import SealedStream.Proofs.Stream.FailedStart
import SealedStream.Proofs.Stream.Flags
import SealedStream.Proofs.Stream.Interrupted
import SealedStream.Proofs.Stream.Misdirected
import SealedStream.Proofs.Stream.Pacing
import SealedStream.Proofs.Stream.Probing
import SealedStream.Proofs.Stream.ReadTower
import SealedStream.Proofs.Stream.Replaying
import SealedStream.Proofs.Stream.Requests
import SealedStream.Proofs.Stream.Retrying
import SealedStream.Proofs.Stream.RoundTrip
import SealedStream.Proofs.Stream.Stack
import SealedStream.Proofs.Stream.Sticky
import SealedStream.Proofs.Stream.Surviving
import SealedStream.Proofs.Stream.Tandem
import SealedStream.Proofs.Stream.TornWrites
import SealedStream.Proofs.Stream.Trailing
import SealedStream.Proofs.Stream.Unmistaken
import SealedStream.Proofs.Stream.WriteTower
import SealedStream.Proofs.Unpadding
import SealedStream.Scripted.Streams
import SealedStream.Scripted.World
import SealedStream.Stream.ReadTower
import SealedStream.Stream.Version
import SealedStream.Stream.WriteTower
