/-!
# Errors

`Error` is what an operation on sealed data can fail with, `IoError` what a transfer of bytes can
fail with. Each carries the other: a failed transfer is an `Error.io`, and an `Error` that has to
pass through a transfer travels inside an `IoError.carrying` and comes out as it went in
(`Error.ofIo_toIo`). Causes are constructors; their wording is in `message` alone.
-/

namespace SealedStream

/-- The class of a failed transfer. -/
inductive IoKind
  | notFound | permissionDenied | connectionRefused | connectionReset | hostUnreachable
  | networkUnreachable | connectionAborted | notConnected | addrInUse | addrNotAvailable
  | networkDown | brokenPipe | alreadyExists | wouldBlock | notADirectory | isADirectory
  | directoryNotEmpty | readOnlyFilesystem | staleNetworkFileHandle | invalidInput | invalidData
  | timedOut | writeZero | storageFull | notSeekable | quotaExceeded | fileTooLarge | resourceBusy
  | executableFileBusy | deadlock | crossesDevices | tooManyLinks | invalidFilename
  | argumentListTooLong | interrupted | unsupported | unexpectedEof | outOfMemory | other
  deriving DecidableEq, Repr

namespace IoKind

def name : IoKind → String
  | .notFound => "NotFound"
  | .permissionDenied => "PermissionDenied"
  | .connectionRefused => "ConnectionRefused"
  | .connectionReset => "ConnectionReset"
  | .hostUnreachable => "HostUnreachable"
  | .networkUnreachable => "NetworkUnreachable"
  | .connectionAborted => "ConnectionAborted"
  | .notConnected => "NotConnected"
  | .addrInUse => "AddrInUse"
  | .addrNotAvailable => "AddrNotAvailable"
  | .networkDown => "NetworkDown"
  | .brokenPipe => "BrokenPipe"
  | .alreadyExists => "AlreadyExists"
  | .wouldBlock => "WouldBlock"
  | .notADirectory => "NotADirectory"
  | .isADirectory => "IsADirectory"
  | .directoryNotEmpty => "DirectoryNotEmpty"
  | .readOnlyFilesystem => "ReadOnlyFilesystem"
  | .staleNetworkFileHandle => "StaleNetworkFileHandle"
  | .invalidInput => "InvalidInput"
  | .invalidData => "InvalidData"
  | .timedOut => "TimedOut"
  | .writeZero => "WriteZero"
  | .storageFull => "StorageFull"
  | .notSeekable => "NotSeekable"
  | .quotaExceeded => "QuotaExceeded"
  | .fileTooLarge => "FileTooLarge"
  | .resourceBusy => "ResourceBusy"
  | .executableFileBusy => "ExecutableFileBusy"
  | .deadlock => "Deadlock"
  | .crossesDevices => "CrossesDevices"
  | .tooManyLinks => "TooManyLinks"
  | .invalidFilename => "InvalidFilename"
  | .argumentListTooLong => "ArgumentListTooLong"
  | .interrupted => "Interrupted"
  | .unsupported => "Unsupported"
  | .unexpectedEof => "UnexpectedEof"
  | .outOfMemory => "OutOfMemory"
  | .other => "Other"

def all : List IoKind :=
  [.notFound, .permissionDenied, .connectionRefused, .connectionReset, .hostUnreachable,
   .networkUnreachable, .connectionAborted, .notConnected, .addrInUse, .addrNotAvailable,
   .networkDown, .brokenPipe, .alreadyExists, .wouldBlock, .notADirectory, .isADirectory,
   .directoryNotEmpty, .readOnlyFilesystem, .staleNetworkFileHandle, .invalidInput,
   .invalidData, .timedOut, .writeZero, .storageFull, .notSeekable, .quotaExceeded,
   .fileTooLarge, .resourceBusy, .executableFileBusy, .deadlock, .crossesDevices, .tooManyLinks,
   .invalidFilename, .argumentListTooLong, .interrupted, .unsupported, .unexpectedEof,
   .outOfMemory, .other]

/-- The kind of a name. -/
def ofName? (name : String) : Option IoKind := all.find? (·.name == name)

end IoKind

/-- Why a cryptographic operation failed. -/
inductive CryptoFault
  /-- Padded data is empty or not made of whole blocks. -/
  | paddedLength
  /-- The last byte of padded data is no padding length. -/
  | paddingByte
  /-- The padding bytes differ from each other. -/
  | paddingCorrupt
  /-- A wrapped secret of a length that wrapping never produces. -/
  | wrappedLength (length : Nat)
  /-- The authentication tag of a wrapped secret is wrong. -/
  | tagMismatch
  /-- A content key or IV of a length that the cipher does not take. -/
  | contentLengths
  /-- A key was to be derived from no password at all. -/
  | emptyPassword
  /-- An iteration count outside the allowed range. -/
  | iterations (count : UInt32)
  /-- A collaborator's own account of its failure. -/
  | reported (text : String)
  deriving DecidableEq, Repr

/-- The two wrapped secrets of a header. -/
inductive WrappedField
  | iv | key
  deriving DecidableEq, Repr

/-- Why a header that decodes cannot be used. -/
inductive HeaderFault
  /-- A declared length above the limit. -/
  | wrappedTooLong (field : WrappedField) (length : UInt32)
  /-- The unwrapped IV or key has not the length that the cipher family needs. -/
  | secretLength (field : WrappedField) (family : String) (expected actual : Nat)
  /-- A collaborator's own account of its failure. -/
  | reported (text : String)
  deriving DecidableEq, Repr

/-- Which rule of use was broken. -/
inductive StateFault
  | markAfterAccess
  | resetWithoutMark
  | writeAfterClose
  | needsEncrypting
  | needsDecrypting
  /-- A CRC-64 was to be read from another number of bytes than eight. -/
  | crcBytes (length : Nat)
  /-- A collaborator's own account of its failure. -/
  | reported (text : String)
  deriving DecidableEq, Repr

mutual

/-- A failed transfer of bytes. -/
inductive IoError
  /-- A failure of its own, with its own words. -/
  | plain (kind : IoKind) (text : String)
  /-- An `Error` on its way through a transfer. -/
  | carrying (kind : IoKind) (error : Error)
  /-- A loop used up the rounds it was given. -/
  | stalled

/-- What an operation on sealed data or on a checksum can fail with. -/
inductive Error
  | io (error : IoError)
  | unsupportedVersion (version : UInt32)
  | unsupportedAlgorithm (id : UInt32)
  /-- The data ended inside a header of which `buffered` bytes were there. -/
  | truncatedHeader (buffered : Nat)
  /-- Every key drawn was refused. -/
  | keyGenerationExhausted (attempts : Nat)
  | aborted
  | crypto (fault : CryptoFault)
  | header (fault : HeaderFault)
  | unknownDigest (name : String)
  | invalidState (fault : StateFault)

end

/-! ## Wording -/

/-- Upper bound on each declared length of a wrapped secret. -/
def maxWrappedLen : Nat := 16384

/-- Range of the iteration counts that may derive a key from a password. -/
def minIterations : UInt32 := 1
/-- The largest allowed iteration count. -/
def maxIterations : UInt32 := 5000000

def CryptoFault.message : CryptoFault → String
  | .paddedLength => "invalid PKCS#7 block length"
  | .paddingByte => "invalid PKCS#7 padding"
  | .paddingCorrupt => "corrupt PKCS#7 padding"
  | .wrappedLength n => s!"wrapped key material has invalid length {n}"
  | .tagMismatch => "wrapped key material corrupted or tampered (HMAC mismatch)"
  | .contentLengths => "invalid content key or IV length"
  | .emptyPassword => "empty password"
  | .iterations n =>
    s!"PBKDF2 iterations must be within {minIterations}..={maxIterations}, got {n}"
  | .reported text => text

def WrappedField.lengthName : WrappedField → String
  | .iv => "wrappedIvLen"
  | .key => "wrappedCekLen"

def WrappedField.secretName : WrappedField → String
  | .iv => "IV"
  | .key => "key"

def HeaderFault.message : HeaderFault → String
  | .wrappedTooLong field n => s!"{field.lengthName} {n} exceeds the {maxWrappedLen}-byte limit"
  | .secretLength field family expected actual =>
    s!"{family} expects a {expected}-byte {field.secretName}, header carries {actual}"
  | .reported text => text

def StateFault.message : StateFault → String
  | .markAfterAccess => "mark is only supported before the first read or skip"
  | .resetWithoutMark => "reset without mark"
  | .writeAfterClose => "write after close"
  | .needsEncrypting => "encrypt requires an encrypting session"
  | .needsDecrypting => "decrypt requires a decrypting session"
  | .crcBytes n => s!"CRC-64 needs 8 bytes, got {n}"
  | .reported text => text

mutual

/-- A carried error speaks for itself. -/
def IoError.message : IoError → String
  | .plain _ text => text
  | .carrying _ error => error.message
  | .stalled => "no progress within the allowed number of rounds"

def Error.message : Error → String
  | .io error => s!"I/O error: {error.message}"
  | .unsupportedVersion v => s!"Unsupported version: {v}"
  | .unsupportedAlgorithm id => s!"Unsupported algorithm: {id}"
  | .truncatedHeader n => s!"Truncated header: source ended after {n} header bytes"
  | .keyGenerationExhausted n => s!"Key generation exhausted after {n} attempts"
  | .aborted => "Stream aborted"
  | .crypto fault => s!"Crypto error: {fault.message}"
  | .header fault => s!"Header error: {fault.message}"
  | .unknownDigest name => s!"Unknown digest algorithm: {name}"
  | .invalidState fault => s!"Invalid state: {fault.message}"

end

/-- The name of an error's kind. -/
def Error.kindName : Error → String
  | .io _ => "Io"
  | .unsupportedVersion _ => "UnsupportedVersion"
  | .unsupportedAlgorithm _ => "UnsupportedAlgorithm"
  | .truncatedHeader _ => "TruncatedHeader"
  | .keyGenerationExhausted _ => "KeyGenerationExhausted"
  | .aborted => "Aborted"
  | .crypto _ => "Crypto"
  | .header _ => "Header"
  | .unknownDigest _ => "UnknownDigest"
  | .invalidState _ => "InvalidState"

/-! ## Crossing a transfer -/

namespace IoError

def kind : IoError → IoKind
  | .plain kind _ => kind
  | .carrying kind _ => kind
  | .stalled => .other

/-- An interrupted transfer moved nothing and may be tried again. -/
def isInterrupted (e : IoError) : Bool := e.kind == .interrupted

end IoError

namespace Error

/-- The error behind a failed transfer: a carried one comes out whole. -/
def ofIo : IoError → Error
  | .carrying _ error => error
  | error => .io error

/-- The failed transfer that reports an error. -/
def toIo : Error → IoError
  | .io error => error
  | error => .carrying .other error

/-- What a record of an error keeps: kind and text of a failed transfer, all of any other. -/
def recorded : Error → Error
  | .io error => .io (.plain error.kind error.message)
  | error => error

def isAborted : Error → Bool
  | .aborted => true
  | _ => false

def isIo : Error → Bool
  | .io _ => true
  | _ => false

/-- Going through a transfer keeps every error that is not itself about a transfer. -/
theorem ofIo_toIo {e : Error} (h : e.isIo = false) : ofIo e.toIo = e := by
  cases e <;> first | rfl | simp [isIo] at h

@[simp] theorem isIo_recorded (e : Error) : e.recorded.isIo = e.isIo := by cases e <;> rfl

theorem recorded_of_not_isIo {e : Error} (h : e.isIo = false) : e.recorded = e := by
  cases e <;> first | rfl | simp [isIo] at h

end Error

end SealedStream
