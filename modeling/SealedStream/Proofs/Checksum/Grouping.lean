import SealedStream.Proofs.Checksum.Concatenation

/-!
# CRC-64 of pieces, brought together in any order of joins

A worker that brings the checksums of pieces together two at a time may choose which neighbours it
joins first, and it may put in the neutral pair where a group has no pieces. `Grouping` is the tree
of its choices. Joining is neither associative on all pairs nor is the neutral pair neutral on all
of them: an empty second part makes `combine` forget the second checksum. What holds is that every
group of a tree over pieces is the summary of those pieces in a row (`reduce_eq_summary`), and on
summaries joining is concatenation (`join_summary`).
-/

namespace SealedStream

/-- How items in a row are brought together: two neighbouring groups at a time, with the neutral
item wherever a group has no items. -/
inductive Grouping (α : Type)
  | neutral
  | item (a : α)
  | join (left right : Grouping α)

namespace Grouping

variable {α : Type}

/-- The items in their order. -/
def items : Grouping α → List α
  | neutral => []
  | item a => [a]
  | join left right => left.items ++ right.items

/-- What the groups come to. -/
def reduce (op : α → α → α) (unit : α) : Grouping α → α
  | neutral => unit
  | item a => a
  | join left right => op (left.reduce op unit) (right.reduce op unit)

/-- One item after the other joined to a group that is there. -/
def chain (start : Grouping α) : List α → Grouping α
  | [] => start
  | a :: as => chain (start.join (item a)) as

theorem items_chain (start : Grouping α) (as : List α) :
    (start.chain as).items = start.items ++ as := by
  induction as generalizing start with
  | nil => simp [chain]
  | cons a as ih => simp [chain, ih, items]

/-- A fold from the left is one way of grouping. -/
theorem reduce_chain (op : α → α → α) (unit : α) (start : Grouping α) (as : List α) :
    (start.chain as).reduce op unit = as.foldl op (start.reduce op unit) := by
  induction as generalizing start with
  | nil => rfl
  | cons a as ih => rw [chain, ih, reduce, reduce, List.foldl_cons]

end Grouping

namespace Crc64

/-- What is kept of a piece: its checksum and its length. -/
def summary (piece : Bytes) : UInt64 × Nat := (checksum piece, piece.length)

/-- What is kept of two pieces in a row, from what is kept of each. -/
def join (a b : UInt64 × Nat) : UInt64 × Nat := (combine a.1 b.1 b.2, a.2 + b.2)

theorem summary_nil : summary [] = (0, 0) := by decide

theorem join_summary (a b : Bytes) : join (summary a) (summary b) = summary (a ++ b) := by
  simp only [join, summary, combine_checksum, List.length_append]

/-- Every group of a tree over pieces is the summary of those pieces in a row: by induction on the
tree, a join cutting the row of its pieces in two. -/
theorem reduce_eq_summary (tree : Grouping (UInt64 × Nat)) (pieces : List Bytes)
    (h : tree.items = pieces.map summary) : tree.reduce join (0, 0) = summary pieces.flatten := by
  induction tree generalizing pieces with
  | neutral =>
    have none : pieces = [] := List.map_eq_nil_iff.mp h.symm
    rw [none, List.flatten_nil, summary_nil, Grouping.reduce]
  | item a =>
    obtain ⟨piece, rfl, rfl⟩ : ∃ piece, pieces = [piece] ∧ a = summary piece := by
      cases pieces with
      | nil => simp [Grouping.items] at h
      | cons piece rest =>
        obtain ⟨rfl, rfl⟩ : rest = [] ∧ a = summary piece := by
          simpa [Grouping.items, and_comm] using h
        exact ⟨piece, rfl, rfl⟩
    simp [Grouping.reduce]
  | join left right ihl ihr =>
    obtain ⟨front, back, rfl, hl, hr⟩ := List.map_eq_append_iff.mp h.symm
    rw [Grouping.reduce, ihl front hl.symm, ihr back hr.symm, join_summary, List.flatten_append]

/-- A fold over pieces from the left comes to the summary of the pieces in a row. -/
theorem foldl_join_summary (pieces : List Bytes) :
    (pieces.map summary).foldl join (0, 0) = summary pieces.flatten := by
  have tree := Grouping.reduce_chain join (0, 0) .neutral (pieces.map summary)
  rw [reduce_eq_summary _ pieces (Grouping.items_chain .neutral _)] at tree
  exact tree.symm

/-- The lengths of the pieces behind do not matter to a fold over the checksums alone. -/
theorem foldl_combine_eq (pieces : List Bytes) (start : UInt64 × Nat) :
    pieces.foldl (fun crc piece => combine crc (checksum piece) piece.length) start.1 =
      ((pieces.map summary).foldl join start).1 := by
  induction pieces generalizing start with
  | nil => rfl
  | cons piece pieces ih => exact ih (join start (summary piece))

/-- **The checksum does not depend on the grouping.** Whatever the size of the pieces that a byte
string is cut into, every way of bringing the pieces together gives the checksum and the length of
the whole; so does the fold from the left that `ofChunks` makes, and the fold over the pieces of any
cut at all, empty ones among them. -/
theorem checksum_of_grouping (size : Nat) (bytes : Bytes) :
    (∀ tree : Grouping (UInt64 × Nat), tree.items = (Bytes.chunks size bytes).map summary →
      tree.reduce join (0, 0) = (checksum bytes, bytes.length)) ∧
    ofChunks size bytes = checksum bytes ∧
    ∀ pieces : List Bytes, pieces.flatten = bytes →
      pieces.foldl (fun crc piece => combine crc (checksum piece) piece.length) 0 =
        checksum bytes := by
  refine ⟨fun tree h => ?_, ?_, fun pieces h => ?_⟩
  · rw [reduce_eq_summary tree _ h, Bytes.flatten_chunks, summary]
  · change (((Bytes.chunks size bytes).map summary).foldl join (0, 0)).1 = checksum bytes
    rw [foldl_join_summary, Bytes.flatten_chunks, summary]
  · rw [foldl_combine_eq pieces (0, 0), foldl_join_summary, h, summary]

/-- Five bytes in pieces of two, the last two pieces joined first and neutral pairs put in on both
sides; and in pieces of their own sizes, one of them empty. -/
theorem checksum_of_grouping_of_five :
    let bytes : Bytes := [1, 2, 3, 4, 5]
    (Grouping.join (.join .neutral (.item (summary [1, 2])))
      (.join (.join (.item (summary [3, 4])) (.item (summary [5]))) .neutral)).reduce join (0, 0) =
        (checksum bytes, 5) ∧
    [[1], [], [2, 3, 4, 5]].foldl
      (fun crc piece => combine crc (checksum piece) piece.length) 0 = checksum bytes := by
  have cut : Bytes.chunks 2 [1, 2, 3, 4, 5] = [[1, 2], [3, 4], [5]] := by
    simp [Bytes.chunks]
  exact ⟨(checksum_of_grouping 2 [1, 2, 3, 4, 5]).1 _ (by rw [cut]; rfl),
    (checksum_of_grouping 2 [1, 2, 3, 4, 5]).2.2 [[1], [], [2, 3, 4, 5]] rfl⟩

end Crc64

end SealedStream
