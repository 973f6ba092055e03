import Mathlib.Data.List.DropRight
import SealedStream.Checksum.Tree

/-!
# A group of checksums against checksums on their own

An `Arrangement` has things at the leaves of groups in groups: kinds of checksums, what each leaf has
been called with, or the checksums themselves. All that is made of one is a fold, and one law moves
an operation on groups to their leaves (`fold_fusion`). With it a tree of checksums in which children
are put at any time is at every moment the arrangement of checksums that stand alone, each called
as often and as the tree was since its leaf is there (`performed_eq`). What stands alone is settled
leaf by leaf: it is a fresh checksum fed in one go with the bytes since it last started over
(`Entry.alone_eq`).
-/

namespace SealedStream

/-- Things at the leaves of groups in groups. -/
inductive Arrangement (α : Type)
  | leaf (a : α)
  | group (children : List (Arrangement α))

namespace Arrangement

variable {α β γ : Type}

mutual

/-- What the leaves come to, put together group by group. -/
def fold (leaf : α → β) (group : List β → β) : Arrangement α → β
  | .leaf a => leaf a
  | .group children => group (foldAll leaf group children)

def foldAll (leaf : α → β) (group : List β → β) : List (Arrangement α) → List β
  | [] => []
  | c :: cs => c.fold leaf group :: foldAll leaf group cs

end

/-- The things from left to right. -/
def leaves : Arrangement α → List α := fold (fun a => [a]) List.flatten

def map (f : α → β) : Arrangement α → Arrangement β := fold (fun a => .leaf (f a)) .group

/-- The checksum with one in the place of each thing. -/
def plant (f : α → Checksum) : Arrangement α → Checksum := fold f .group

/-- The value with one in the place of each thing. -/
def report (f : α → ChecksumValue) : Arrangement α → ChecksumValue := fold f .group

/-- Puts a child at the end of the group that `path` leads down to, place by place. -/
def pushAt : Arrangement α → List Nat → Arrangement α → Arrangement α
  | .group children, [], child => .group (children ++ [child])
  | .group children, i :: path, child => .group (children.modify i fun c => c.pushAt path child)
  | .leaf a, _, _ => .leaf a

@[simp] theorem fold_leaf (leaf : α → β) (group : List β → β) (a : α) :
    fold leaf group (.leaf a) = leaf a := rfl

@[simp] theorem fold_group (leaf : α → β) (group : List β → β) (cs : List (Arrangement α)) :
    fold leaf group (.group cs) = group (cs.map (fold leaf group)) := by
  have all : foldAll leaf group cs = cs.map (fold leaf group) := by
    induction cs with
    | nil => rfl
    | cons c cs ih => rw [foldAll, ih, List.map_cons]
  rw [fold, all]

/-- What holds of every leaf, and of every group whose children have it, holds throughout. -/
@[elab_as_elim] theorem ofChildren {P : Arrangement α → Prop} (t : Arrangement α)
    (leaf : ∀ a, P (.leaf a)) (group : ∀ cs, (∀ c ∈ cs, P c) → P (.group cs)) : P t :=
  @Arrangement.rec α P (fun cs => ∀ c ∈ cs, P c) leaf group
    (fun _ h => absurd h List.not_mem_nil)
    (fun _ _ hc hcs => List.forall_mem_cons.mpr ⟨hc, hcs⟩) t

/-- A function that goes through groups child by child may be applied at the leaves. -/
theorem fold_fusion {h : β → γ} {leaf : α → β} {group : List β → β} {group' : List γ → γ}
    (hgroup : ∀ bs, h (group bs) = group' (bs.map h)) (t : Arrangement α) :
    h (t.fold leaf group) = t.fold (fun a => h (leaf a)) group' := by
  induction t using ofChildren with
  | leaf a => rfl
  | group cs ih =>
    rw [fold_group, fold_group, hgroup, List.map_map]
    exact congrArg group' (List.map_congr_left ih)

theorem plant_map (f : α → β) (g : β → Checksum) (t : Arrangement α) :
    (t.map f).plant g = t.plant fun a => g (f a) :=
  fold_fusion (h := plant g) (fold_group g .group) t

theorem toBytes_report (f : α → ChecksumValue) (t : Arrangement α) :
    (t.report f).toBytes = t.leaves.flatMap fun a => (f a).toBytes := by
  have group (vs : List ChecksumValue) :
      (ChecksumValue.group vs).toBytes = (vs.map ChecksumValue.toBytes).flatten := by
    rw [ChecksumValue.toBytes]
    induction vs with
    | nil => rfl
    | cons v vs ih => rw [ChecksumValue.toBytesAll, ih, List.map_cons, List.flatten_cons]
  have flat (ls : List (List α)) : ls.flatten.flatMap (fun a => (f a).toBytes) =
      (ls.map (List.flatMap fun a => (f a).toBytes)).flatten := by
    induction ls with
    | nil => rfl
    | cons l ls ih => rw [List.flatten_cons, List.flatMap_append, ih, List.map_cons, List.flatten_cons]
  calc (t.report f).toBytes
      = t.fold (fun a => (f a).toBytes) List.flatten := fold_fusion group t
    _ = t.fold (fun a => [a].flatMap fun a => (f a).toBytes) List.flatten := by simp
    _ = t.leaves.flatMap fun a => (f a).toBytes := (fold_fusion flat t).symm

end Arrangement

namespace Checksum

/-- A child put at the end of the group that `path` leads down to, place by place. -/
def pushAt : Checksum → List Nat → Checksum → Checksum
  | c, [], child => c.push child
  | .group children, i :: path, child => .group (children.modify i fun c => c.pushAt path child)
  | c, _ :: _, _ => c

theorem pushAt_of_ne_group {c : Checksum} (h : ∀ cs, c ≠ .group cs) (path : List Nat)
    (child : Checksum) : c.pushAt path child = c := by
  cases c with
  | group cs => exact absurd rfl (h cs)
  | _ => cases path <;> rfl

/-! ## Calls on a tree are calls on its leaves -/

theorem update_group (cs : List Checksum) (bytes : Bytes) :
    (Checksum.group cs).update bytes = .group (cs.map fun c => c.update bytes) := by
  have all : updateAll cs bytes = cs.map fun c => c.update bytes := by
    induction cs with
    | nil => rfl
    | cons c cs ih => rw [updateAll, ih, List.map_cons]
  rw [update, all]

theorem updateByte_group (cs : List Checksum) (byte : UInt8) :
    (Checksum.group cs).updateByte byte = .group (cs.map fun c => c.updateByte byte) := by
  have all : updateByteAll cs byte = cs.map fun c => c.updateByte byte := by
    induction cs with
    | nil => rfl
    | cons c cs ih => rw [updateByteAll, ih, List.map_cons]
  rw [updateByte, all]

theorem reset_group (cs : List Checksum) :
    (Checksum.group cs).reset = .group (cs.map reset) := by
  have all : resetAll cs = cs.map reset := by
    induction cs with
    | nil => rfl
    | cons c cs ih => rw [resetAll, ih, List.map_cons]
  rw [reset, all]

theorem value_group (cs : List Checksum) : (Checksum.group cs).value =
    (.group (cs.map fun c => c.value.1), .group (cs.map fun c => c.value.2)) := by
  have all : valueAll cs = (cs.map fun c => c.value.1, cs.map fun c => c.value.2) := by
    induction cs with
    | nil => rfl
    | cons c cs ih => rw [valueAll, ih, List.map_cons, List.map_cons]
  rw [value, all]

/-- A call on a checksum. -/
inductive Call
  | update (bytes : Bytes)
  | updateByte (byte : UInt8)
  | value
  | reset

/-- What a call leaves. -/
def after (c : Checksum) : Call → Checksum
  | .update bytes => c.update bytes
  | .updateByte byte => c.updateByte byte
  | .value => c.value.2
  | .reset => c.reset

theorem after_group (call : Call) (cs : List Checksum) :
    (Checksum.group cs).after call = .group (cs.map fun c => c.after call) := by
  cases call with
  | update bytes => exact update_group cs bytes
  | updateByte byte => exact updateByte_group cs byte
  | value => exact congrArg Prod.snd (value_group cs)
  | reset => exact reset_group cs

variable {α : Type}

theorem after_plant (f : α → Checksum) (t : Arrangement α) (call : Call) :
    (t.plant f).after call = t.plant fun a => (f a).after call :=
  Arrangement.fold_fusion (h := fun c => after c call) (after_group call) t

theorem value_plant (f : α → Checksum) (t : Arrangement α) :
    (t.plant f).value.1 = t.report fun a => (f a).value.1 :=
  Arrangement.fold_fusion (h := fun c => (value c).1) (fun cs => congrArg Prod.fst (value_group cs)) t

/-- A child goes to the same place whether it is put in before or after planting, since what is
planted at the leaves are no groups. -/
theorem pushAt_plant {f : α → Checksum} (hf : ∀ a cs, f a ≠ .group cs) (path : List Nat)
    (t child : Arrangement α) :
    (t.plant f).pushAt path (child.plant f) = (t.pushAt path child).plant f := by
  induction path generalizing t with
  | nil =>
    cases t with
    | leaf a => exact pushAt_of_ne_group (hf a) [] _
    | group cs => simp [Arrangement.plant, Arrangement.pushAt, pushAt, push]
  | cons i path ih =>
    cases t with
    | leaf a => exact pushAt_of_ne_group (hf a) _ _
    | group cs =>
      have places : (cs.modify i fun c => c.pushAt path child).map (Arrangement.plant f) =
          (cs.map (Arrangement.plant f)).modify i fun c => c.pushAt path (child.plant f) := by
        refine List.ext_getElem? fun j => ?_
        by_cases h : i = j <;> simp [h, Function.comp_def, ih]
      simp only [Arrangement.plant, Arrangement.fold_group, Arrangement.pushAt, pushAt] at places ⊢
      rw [places]

/-! ## A checksum that stands alone -/

/-- The kinds of checksums that are no groups. -/
inductive Kind
  | crc64
  | crc32
  | digest (algorithm : DigestAlgorithm)
  deriving DecidableEq, Repr

/-- The bytes that a call feeds. -/
def Call.bytes : Call → Bytes
  | .update bytes => bytes
  | .updateByte byte => [byte]
  | .value => []
  | .reset => []

namespace Kind

/-- A checksum that was fed nothing. -/
def fresh : Kind → Checksum
  | .crc64 => .crc64 .new
  | .crc32 => .crc32 .new
  | .digest a => .digest (.new a)

/-- The value of a whole byte string. -/
def oneShot : Kind → Bytes → ChecksumValue
  | .crc64, bytes => .crc64 (Crc64.checksum bytes)
  | .crc32, bytes => .crc32 (Crc32.new.update bytes).value
  | .digest a, bytes => .digest (a.absorber.hash bytes)

/-- Whether a call makes a checksum of this kind forget what it was fed. -/
def startsOver : Kind → Call → Bool
  | _, .reset => true
  | .digest _, .value => true
  | _, _ => false

/-- The bytes fed since the last call that made the checksum forget. -/
def heard (k : Kind) (calls : List Call) : Bytes :=
  (calls.rtakeWhile fun call => !k.startsOver call).flatMap Call.bytes

theorem heard_concat (k : Kind) (calls : List Call) (call : Call) :
    k.heard (calls ++ [call]) = if k.startsOver call then [] else k.heard calls ++ call.bytes := by
  by_cases h : k.startsOver call = true <;> simp [heard, h]

example : heard .crc64 [.update [1, 2], .value, .updateByte 3] = [1, 2, 3] ∧
    heard (.digest .md5) [.update [1, 2], .value, .updateByte 3] = [3] := by decide

theorem update_ne_group (k : Kind) (bytes : Bytes) (cs : List Checksum) :
    k.fresh.update bytes ≠ .group cs := by
  cases k <;> simp [fresh, update]

theorem update_nil (k : Kind) : k.fresh.update [] = k.fresh := by
  cases k with
  | crc64 => simp [fresh, update, Crc64.update, Crc64.new]
  | crc32 => simp [fresh, update, Crc32.update, Crc32.new]
  | digest a =>
    simp [fresh, update, Digest.update, Digest.new, Absorber.update, Absorber.new,
      Absorber.drain_of_drop_eq_nil]

theorem update_append (k : Kind) (a b : Bytes) :
    (k.fresh.update a).update b = k.fresh.update (a ++ b) := by
  cases k with
  | crc64 => exact congrArg Checksum.crc64 (Crc64.update_append _ a b)
  | crc32 => exact congrArg Checksum.crc32 (Crc32.update_append _ a b)
  | digest d => exact congrArg Checksum.digest (Digest.update_append _ a b)

/-- The value of what was fed in one go, and what is left after asking. -/
theorem value_update (k : Kind) (bytes : Bytes) : (k.fresh.update bytes).value =
    (k.oneShot bytes, if k.startsOver .value then k.fresh else k.fresh.update bytes) := by
  cases k <;> rfl

/-- One call on a checksum that was fed in one go: either it forgets, or it was fed so much more. -/
theorem after_update (k : Kind) (bytes : Bytes) (call : Call) :
    (k.fresh.update bytes).after call =
      k.fresh.update (if k.startsOver call then [] else bytes ++ call.bytes) := by
  cases call with
  | update more => exact k.update_append bytes more
  | updateByte byte =>
    have single : (k.fresh.update bytes).updateByte byte = (k.fresh.update bytes).update [byte] := by
      cases k <;> rfl
    exact single.trans (k.update_append bytes [byte])
  | value =>
    rw [after, k.value_update]
    cases k <;> simp [startsOver, Call.bytes, update_nil]
  | reset =>
    have forgets : (k.fresh.update bytes).reset = k.fresh := by cases k <;> rfl
    rw [after, forgets]
    cases k <;> simp [startsOver, update_nil]

end Kind

/-- A leaf: its kind, and the calls made since it is there. -/
structure Entry where
  kind : Kind
  calls : List Call

namespace Entry

/-- A leaf that is just put in. -/
def opened (k : Kind) : Entry := ⟨k, []⟩

def noted (e : Entry) (call : Call) : Entry := ⟨e.kind, e.calls ++ [call]⟩

/-- A checksum of its own, called as the leaf was. -/
def alone (e : Entry) : Checksum := e.calls.foldl after e.kind.fresh

/-- However its bytes were cut, a checksum of its own is a fresh one fed in one go with what it heard
since it last started over: by induction on the calls from the last one on. -/
theorem alone_eq (e : Entry) : e.alone = e.kind.fresh.update (e.kind.heard e.calls) := by
  obtain ⟨k, calls⟩ := e
  induction calls using List.reverseRecOn with
  | nil => exact k.update_nil.symm
  | append_singleton calls call ih =>
    rw [alone, List.foldl_append, List.foldl_cons, List.foldl_nil]
    rw [alone] at ih
    rw [ih, k.after_update, k.heard_concat]

theorem alone_noted (e : Entry) (call : Call) : (e.noted call).alone = e.alone.after call := by
  simp [alone, noted]

theorem alone_value (e : Entry) : e.alone.value =
    (e.kind.oneShot (e.kind.heard e.calls),
      if e.kind.startsOver .value then e.kind.fresh else e.alone) := by
  rw [e.alone_eq, e.kind.value_update]

theorem alone_reset (e : Entry) : e.alone.reset = e.kind.fresh := by
  rw [e.alone_eq]
  cases e.kind <;> rfl

end Entry

/-! ## A tree through its history -/

/-- What is done with a tree at its root: a call, or a fresh child put in somewhere. -/
inductive Operation
  | call (call : Call)
  | push (path : List Nat) (child : Arrangement Kind)

def perform (c : Checksum) : Operation → Checksum
  | .call call => c.after call
  | .push path child => c.pushAt path (child.plant Kind.fresh)

/-- Every leaf notes every call, and a child that is put in begins with empty notes. -/
def record (ledger : Arrangement Entry) : Operation → Arrangement Entry
  | .call call => ledger.map fun e => e.noted call
  | .push path child => ledger.pushAt path (child.map Entry.opened)

theorem plant_fresh (shape : Arrangement Kind) :
    shape.plant Kind.fresh = (shape.map Entry.opened).plant Entry.alone :=
  (Arrangement.plant_map Entry.opened Entry.alone shape).symm

theorem perform_plant (ledger : Arrangement Entry) (op : Operation) :
    (ledger.plant Entry.alone).perform op = (record ledger op).plant Entry.alone := by
  cases op with
  | call call =>
    rw [perform, after_plant, record, Arrangement.plant_map]
    simp only [Entry.alone_noted]
  | push path child =>
    have single (e : Entry) (cs : List Checksum) : e.alone ≠ .group cs := by
      rw [e.alone_eq]
      exact e.kind.update_ne_group _ cs
    rw [perform, plant_fresh, pushAt_plant single, record]

theorem performed_eq (shape : Arrangement Kind) (history : List Operation) :
    history.foldl perform (shape.plant Kind.fresh) =
      (history.foldl record (shape.map Entry.opened)).plant Entry.alone := by
  rw [plant_fresh]
  exact List.foldl_hom _ perform_plant

/-- **A group is its children on their own.** Whatever a tree of fresh checksums went through, with
fresh children put in at any time, its leaves stand where checksums of their own stand that had the
same calls since the leaf is there; the value has theirs in their places, and their bytes one after
the other; a reset leaves fresh ones, and asking leaves fresh digests and CRCs as they were. A
checksum of its own is settled by the bytes it heard since it last started over, in whatever
pieces. -/
theorem fan_out_faithful (shape : Arrangement Kind) (history : List Operation) :
    let tree := history.foldl perform (shape.plant Kind.fresh)
    let ledger := history.foldl record (shape.map Entry.opened)
    tree = ledger.plant Entry.alone ∧
    tree.value.1 = ledger.report (fun e => e.alone.value.1) ∧
    tree.value.1.toBytes = ledger.leaves.flatMap (fun e => e.alone.value.1.toBytes) ∧
    tree.reset = ledger.plant (fun e => e.kind.fresh) ∧
    tree.value.2 = ledger.plant
      (fun e => if e.kind.startsOver .value then e.kind.fresh else e.alone) ∧
    ∀ e : Entry, e.alone = e.kind.fresh.update (e.kind.heard e.calls) ∧
      e.alone.value.1 = e.kind.oneShot (e.kind.heard e.calls) := by
  intro tree ledger
  have planted : tree = ledger.plant Entry.alone := performed_eq shape history
  have reported : tree.value.1 = ledger.report fun e => e.alone.value.1 := by
    rw [planted, value_plant]
  refine ⟨planted, reported, ?_, ?_, ?_, fun e => ⟨e.alone_eq, congrArg Prod.fst e.alone_value⟩⟩
  · rw [reported, Arrangement.toBytes_report]
  · have left := after_plant Entry.alone ledger .reset
    simp only [after, Entry.alone_reset] at left
    rw [planted, left]
  · have left := after_plant Entry.alone ledger .value
    simp only [after, Entry.alone_value] at left
    rw [planted, left]

end Checksum

end SealedStream
