import TypedCells.Gen.Packing

/-!
# Walks along a packing

A `Walk.Move` passes the leaves of a packing from a cursor on (`Walk.move`). One that is refused
leaves the cursor at the leaf that is refused, and the walk can go on from there.
-/

namespace TypedCells.Walk

/-- A move along a packing. -/
inductive Move where
  /-- Passes one leaf, given as it is. -/
  | leaf (t : Ty)
  /-- Passes the leaves of the types. -/
  | types (ts : List Ty)

/-- What a move gives: for one leaf, whether it opens a cell. -/
abbrev Outcome := Except GenError (Option Bool)

/-- Carries out a move. -/
def move (c : Cursor) : Move → Outcome × Cursor
  | .leaf t =>
    match c.skip t with
    | .ok (opens, c) => (.ok (some opens), c)
    | .error e => (.error e, c)
  | .types ts =>
    let (c, result) := Cursor.skipAll (Ty.allLeaves ts) c
    (result.map fun _ => none, c)

/-- Carries out moves in turn: the outcome of each and the cursor after it. -/
def trace : List Move → Cursor → List (Outcome × Cursor)
  | [], _ => []
  | m :: ms, c =>
    let (outcome, c) := move c m
    (outcome, c) :: trace ms c

end TypedCells.Walk
