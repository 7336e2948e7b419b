import TypedCells.Gen.Basic
import TypedCells.Gen.Packing

/-!
# Patches

Stored data is a long list of variables packed in a chain of cells, of which code usually needs a
few. A `Patch` picks the variables that are to be read or updated. The leaves from the first
variable of its range to the last one picked are the leaves that it visits; a leaf belongs to the
picked variable that it is part of, or to none.

* `Patch.runs` cuts the visited leaves where a cell opens and where picked leaves begin or end.
  The leaves of a run are treated alike and lie in one cell.
* `Patch.fragments` cuts a run further, into leaves of fixed size that can be passed over together
  and single leaves of varying size. Counts that are put into code are cut to words.
-/

namespace TypedCells

/-- A variable of stored data. -/
structure Variable where
  /-- Its index among all variables. -/
  index : Nat
  /-- Its type. -/
  type : Ty
deriving DecidableEq

/-- A leaf of stored data, as a patch sees it. -/
structure StoredLeaf extends PackedLeaf where
  /-- The picked variable that the leaf is part of. -/
  owner : Option Variable
deriving DecidableEq

/-- Whether the leaf is part of a picked variable. -/
def StoredLeaf.picked (l : StoredLeaf) : Bool := l.owner.isSome

/-- A part of a run. -/
inductive Fragment where
  /-- Leaves of fixed size, which take this much together. -/
  | raw (bits refs : Nat)
  /-- A leaf of varying size. -/
  | value (type : Ty)
deriving DecidableEq

/-- Variables of stored data that are to be read or updated. -/
structure Patch where
  /-- The leaves up to the last one that is part of a picked variable. -/
  leaves : List StoredLeaf
  /-- The number of leaves before the range. -/
  start : Nat
  /-- The number of picked variables. -/
  picked : Nat

namespace Patch

/-- The leaves of marked variables, each with its owner; `index` counts the variables. The first
`start` variables are before the range and may not be marked. -/
def owners (start : Nat) : (index : Nat) → List (Ty × Bool) →
    Except GenError (List (Option Variable))
  | _, [] => return []
  | index, (t, mark) :: vars => do
    if mark ∧ index < start then throw (.internal (.markedBeforeRange index))
    if mark ∧ t.leaves.isEmpty then throw (.unsupported (.noLeaves t))
    let owner := if mark then some ⟨index, t⟩ else none
    return t.leaves.map (fun _ => owner) ++ (← owners start (index + 1) vars)

/-- The list without its unpicked end. -/
def dropUnpicked (leaves : List StoredLeaf) : List StoredLeaf :=
  (leaves.reverse.dropWhile (!·.picked)).reverse

/-- The patch of the marked variables. All variables are packed behind `bits` bits and `refs`
references, and the range starts at the variable with index `start`. -/
def ofMarksWith (o : Overflow) (bits refs start : Nat) (types : List Ty) (marks : List Bool) :
    Except GenError Patch := do
  if marks.length ≠ types.length then
    throw (.internal (.markCount marks.length types.length))
  if start ≥ types.length then
    throw (.internal (.rangeStart start types.length))
  let owners ← owners start 0 (types.zip marks)
  if marks.all (!·) then throw (.internal .nothingMarked)
  let packing ← Packing.ofTypesWith o bits refs types
  let leaves := List.zipWith (fun l owner => { l with owner }) packing.leaves owners
  return {
    leaves := dropUnpicked leaves
    start := (Ty.allLeaves (types.take start)).length
    picked := marks.countP id }

/-- The patch of the marked variables like `ofMarksWith`, unless no word holds a sum in the packing
of all variables. -/
def ofMarks (bits refs start : Nat) (types : List Ty) (marks : List Bool) : Except GenError Patch :=
  ofMarksWith .stops bits refs start types marks

/-- The leaves that are visited. -/
def visited (p : Patch) : List StoredLeaf := p.leaves.drop p.start

/-- Cuts leaves where a cell opens and where picked leaves begin or end. -/
def runs (leaves : List StoredLeaf) : List (List StoredLeaf) :=
  leaves.splitBy fun l l' => !l'.opensCell && l.picked == l'.picked

/-- Cuts leaves where the owner changes and, outside picked variables, where a cell opens. -/
def pieces (leaves : List StoredLeaf) : List (List StoredLeaf) :=
  leaves.splitBy fun l l' => l.owner == l'.owner && (l.picked || !l'.opensCell)

/-- Cuts leaves where picked leaves begin or end and, outside them, where a cell opens. -/
def stretches (leaves : List StoredLeaf) : List (List StoredLeaf) :=
  leaves.splitBy fun l l' => l.picked == l'.picked && (l.picked || !l'.opensCell)

/-- The variables that the leaves are part of, in order. -/
def pickedVariables (leaves : List StoredLeaf) : List Variable :=
  (pieces leaves).filterMap fun piece => piece.head?.bind (·.owner)

/-- Whether the next part, if there is one, starts in a new cell. -/
def opensNext (parts : List (List StoredLeaf)) : Bool :=
  parts.head?.any fun part => part.head?.any (·.opensCell)

/-- Whether the first of the leaves opens a cell. -/
def opensCell (leaves : List StoredLeaf) : Bool := leaves.head?.any (·.opensCell)

/-- Cuts leaves into fragments. -/
def fragments : List StoredLeaf → List Fragment
  | [] => []
  | l :: ls =>
    let size := l.type.size
    if size.fixed then
      match fragments ls with
      | .raw bits refs :: rest => .raw (size.bits + bits) (size.refs + refs) :: rest
      | rest => .raw size.bits size.refs :: rest
    else .value l.type :: fragments ls

/-- The number of references that the leaves take, counted in words, if it does not depend on the
values. -/
def fixedRefs? (leaves : List StoredLeaf) : Option Nat :=
  let size := Ty.totalSize (leaves.map (·.type))
  if size.fixedRefs then some (cutToWord size.refs) else none

end Patch

end TypedCells
