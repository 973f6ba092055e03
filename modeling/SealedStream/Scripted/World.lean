import SealedStream.KeyWrap
import SealedStream.Family

/-!
# Scripted collaborators

Reproducible stand-ins for the collaborators of a session: random sources that follow a rule or a
script, a key wrap that changes nothing, and a cipher family that holds bytes back. They can be told
to fail at certain calls, and their calls are counted. Each lives in a numbered cell of the world,
so sessions may share one or not.
-/

namespace SealedStream.Scripted

/-- Where the bytes of a random source come from. -/
inductive RandomScript
  /-- Each call gives this byte throughout and counts it up. -/
  | counter (next : UInt8)
  /-- The high bytes of a linear congruential generator. -/
  | congruential (state : UInt32)
  /-- Call by call, the last entry for ever: bytes to repeat, or a failure. -/
  | entries (entries : List (Option Bytes))
  deriving Repr

structure RandomCell where
  script : RandomScript
  calls : Nat := 0
  deriving Repr

/-- Numbers of the calls that fail, and how many calls there were. -/
structure CallPlan where
  failing : List Nat := []
  calls : Nat := 0
  deriving Repr

/-- Counts a call and says whether it fails. -/
def CallPlan.next (p : CallPlan) : Bool × CallPlan :=
  (p.failing.contains p.calls, { p with calls := p.calls + 1 })

structure WrapCell where
  wraps : CallPlan := {}
  unwraps : CallPlan := {}
  deriving Repr

structure FamilyCell where
  news : CallPlan := {}
  updates : CallPlan := {}
  finals : CallPlan := {}
  deriving Repr

/-- All scripted collaborators. -/
structure World where
  randoms : List RandomCell := []
  wraps : List WrapCell := []
  families : List FamilyCell := []
  deriving Repr

/-- A failure with a text. -/
def failure (text : String) : Error := .crypto (.reported text)

/-! ## Random sources -/

/-- The first `n` bytes of a generator, and its state after them. -/
def congruentialBytes : Nat → UInt32 → Bytes × UInt32
  | 0, s => ([], s)
  | n + 1, s =>
    let t := s * 1664525 + 1013904223
    let (bytes, u) := congruentialBytes n t
    ((t >>> 24).toUInt8 :: bytes, u)

/-- `bytes` over and over, up to `n` bytes; zeros if there are none. -/
def repeated (bytes : Bytes) (n : Nat) : Vector UInt8 n :=
  let cycle := bytes.toArray
  Vector.ofFn fun i => cycle.getD (i.val % cycle.size) 0

/-- One call: the bytes, or nothing for a failure, and the cell after it. -/
def RandomCell.fill (c : RandomCell) (n : Nat) : Option (Vector UInt8 n) × RandomCell :=
  let calls := c.calls + 1
  match c.script with
  | .counter next => (some (Vector.replicate n next), ⟨.counter (next + 1), calls⟩)
  | .congruential state =>
    let (bytes, state) := congruentialBytes n state
    (some (repeated bytes n), ⟨.congruential state, calls⟩)
  | .entries entries =>
    let entry := (entries[min c.calls (entries.length - 1)]?).getD (some [])
    (entry.map (repeated · n), { c with calls })

/-- The random source in cell `i`. -/
def randomSource (i : Nat) : RandomSource World where
  fill n := fun w =>
    match w.randoms[i]? with
    | none => .error (failure "no such random source") w
    | some cell =>
      let (bytes, cell) := cell.fill n
      let w := { w with randoms := w.randoms.set i cell }
      match bytes with
      | some bytes => .ok bytes w
      | none => .error (failure "scripted random failure") w

/-- How often the random source in cell `i` was called. -/
def World.randomCalls (w : World) (i : Nat) : Nat := (w.randoms[i]?.map (·.calls)).getD 0

/-! ## Key wraps -/

/-- The key wrap in cell `i`, which gives back what it is given. -/
def identityWrap (i : Nat) : KeyWrap World where
  wrap plain := fun w =>
    let cell := w.wraps.getD i {}
    let (fails, plan) := cell.wraps.next
    let w := { w with wraps := w.wraps.set i { cell with wraps := plan } }
    if fails then .error (failure "scripted wrap failure") w else .ok plain w
  unwrap wrapped := fun w =>
    let cell := w.wraps.getD i {}
    let (fails, plan) := cell.unwraps.next
    let w := { w with wraps := w.wraps.set i { cell with unwraps := plan } }
    if fails then .error (failure "scripted unwrap failure") w else .ok wrapped w

/-! ## A family that holds bytes back -/

/-- A content cipher that adds one byte to all bytes and gives them out in multiples of `hold`. -/
structure HoldCipher where
  cell : Nat
  hold : Nat
  tail : Bytes
  mask : UInt8
  buffer : Bytes := []
  deriving Repr

instance : ContentCipher World HoldCipher where
  update input
    | (c, w) =>
      let cell := w.families.getD c.cell {}
      let (fails, plan) := cell.updates.next
      let w := { w with families := w.families.set c.cell { cell with updates := plan } }
      if fails then .error (failure "scripted update failure") (c, w)
      else
        let buffer := c.buffer ++ input.map (· ^^^ c.mask)
        let n := buffer.length - buffer.length % max c.hold 1
        .ok (buffer.take n) ({ c with buffer := buffer.drop n }, w)
  finalize
    | (c, w) =>
      let cell := w.families.getD c.cell {}
      let (fails, plan) := cell.finals.next
      let w := { w with families := w.families.set c.cell { cell with finals := plan } }
      if fails then .error (failure "scripted finalize failure") (c, w)
      else .ok (c.buffer ++ c.tail) ({ c with buffer := [] }, w)

/-- The family in cell `i`: its ciphers add the first key byte and do not look at the IV. -/
def holdFamily (i hold : Nat) (version : UInt32) (keyLen ivLen : Nat) (tail : Bytes) :
    CipherFamily World HoldCipher where
  name := "HOLD"
  version := version
  keyLen := keyLen
  ivLen := ivLen
  generateIv := defaultIv ivLen
  newCipher key _ _ := fun w =>
    let cell := w.families.getD i {}
    let (fails, plan) := cell.news.next
    let w := { w with families := w.families.set i { cell with news := plan } }
    if fails then .error (failure "scripted new failure") w
    else .ok { cell := i, hold, tail, mask := key.headD 0 } w

end SealedStream.Scripted
