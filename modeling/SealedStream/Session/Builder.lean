import SealedStream.Session.Dispatch

/-!
# Building sessions

A builder holds the collaborators and the policies once, and makes sessions of every kind from them.
-/

namespace SealedStream

/-- Collaborators and policies for the sessions to be made. -/
structure CipherBuilder (σ : Type) where
  wrap : KeyWrap σ
  random : RandomSource σ
  /-- Stands in for a family's own version. -/
  version : Option UInt32 := none
  checkVersion : Bool := true
  rejectZero : Bool := true

namespace CipherBuilder

variable {σ γ κ : Type}

/-- A builder whose key wrap comes from a password and draws its IVs from `wrapRandom`. -/
def ofPassword (password : String) (salt : Bytes) (iterations : UInt32)
    (wrapRandom random : RandomSource σ) : Except Error (CipherBuilder σ) :=
  (AesKeyWrap.ofPassword password salt iterations).map fun w =>
    { wrap := w.keyWrap wrapRandom, random }

def context (b : CipherBuilder σ) (mode : Mode) : SessionContext σ :=
  ⟨mode, b.wrap, b.random, b.checkVersion, b.rejectZero⟩

/-- A session of one family, under the builder's version if it has one. -/
def familySession (b : CipherBuilder σ) (family : CipherFamily σ γ) (mode : Mode) :
    FamilySession σ γ where
  mode := mode
  family := family
  wrap := b.wrap
  random := b.random
  options := ⟨b.version.getD family.version, b.checkVersion, b.rejectZero⟩

/-- A session that chooses by id. The builder's version does not reach the sessions chosen. -/
def dispatcher (b : CipherBuilder σ) (mode : Mode) (registry : Registry σ κ)
    (encryptType : UInt32) (defaultType : Option UInt32) : Dispatcher σ κ :=
  { context := b.context mode, registry, encryptType, defaultType }

def describe (b : CipherBuilder σ) : String :=
  let version := match b.version with
    | some v => s!"Some({v})"
    | none => "None"
  s!"CipherBuilder \x7b version: {version}, check_version: {b.checkVersion}, " ++
    s!"reject_zero_leading_key: {b.rejectZero}, .. \x7d"

end CipherBuilder

end SealedStream
