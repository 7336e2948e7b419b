import TypedCells.Gen.Read
import TypedCells.Patch.Basic

/-!
# Reading the picked variables

`Patch.unpack` turns a slice of stored data into the values of the picked variables. What lies
between them is passed over with as little work as possible: leaves of fixed size at a stroke, and
a run that ends its cell by way of the link in the cell's last reference.
-/

namespace TypedCells.Patch

open Gen

/-- Turns a slice into that of the cell behind its first reference. -/
def enterLink : Gen Unit := do
  op .ldRefRest
  dropUnder 1 1

/-- Passes over fragments: `s → s`. Values of varying size are read and left under the slice. -/
def passFragments : List Fragment → Gen Unit
  | [] => pure ()
  | .raw bits refs :: fragments => do
    op (.pushInt (cutToWord bits))
    op (.pushInt (cutToWord refs))
    op .skipFirst
    passFragments fragments
  | .value t :: fragments => do
    op (.load t)
    passFragments fragments

/-- Whether a fragment is a value of varying size. -/
def isValue : Fragment → Bool
  | .raw _ _ => false
  | .value _ => true

/-- Passes over leaves of one cell: `s → s`. -/
def passLeaves (leaves : List StoredLeaf) : Gen Unit := do
  let fragments := fragments leaves
  passFragments fragments
  dropUnder (fragments.countP isValue) 1

/-- Passes over the leaves that are left in a cell and enters the next one: `s → s`. The link is the
reference behind those of the leaves. -/
def passToLink (leaves : List StoredLeaf) : Gen Unit :=
  match fixedRefs? leaves with
  | some refs => do
    op (.peekRef refs)
    op .ctos
  | none =>
    match leaves with
    | [_] => do
      passLeaves leaves
      op (.peekRef 0)
      op .ctos
    | _ => do
      op (.pushInt 0)
      op (.pushInt 1)
      op .cutLast
      enterLink

/-- Passes over a run, and to the next cell if the leaf after it opens one. -/
def passRun (run : List StoredLeaf) (nextOpens : Bool) : Gen Unit :=
  if nextOpens then passToLink run else passLeaves run

/-- Enters the first cell if the first leaf opens one. -/
def enterFirst (p : Patch) : Gen Unit := do
  if opensCell p.visited then enterLink

/-- Reads the picked ones of the pieces: `s → x₁ … xₙ s`. -/
def unpackPieces : List (List StoredLeaf) → Gen Unit
  | [] => pure ()
  | piece :: rest => do
    match piece.head?.bind (·.owner) with
    | some v => do
      let _ ← read v.type (Packing.start ⟨piece.map (·.toPackedLeaf)⟩) false
      if opensNext rest then enterLink
    | none => passRun piece (opensNext rest)
    unpackPieces rest

/-- Turns a slice into the values of the picked variables in order. -/
def unpack (p : Patch) : Gen Unit := do
  let entry ← depth
  require 1 "unpacked_data"
  enterFirst p
  unpackPieces (pieces p.visited)
  drop 1
  ensureDepth (entry - 1 + p.picked) "unpacked_data"

end TypedCells.Patch
