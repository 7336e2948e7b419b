import TypedCells.Cell.Builder

/-!
# A bench for cells

A `Bench` holds a builder, a slice and a mark, which is an earlier state of the slice. A
`Bench.Step` works on one of them and gives a result (`Bench.run`); one that fails leaves the bench
as it was.
-/

namespace TypedCells

/-- A builder, a slice and a mark. -/
structure Bench where
  /-- The builder. -/
  builder : Builder := {}
  /-- The slice. -/
  slice : Slice := .ofCell .empty
  /-- An earlier state of the slice. -/
  mark : Slice := .ofCell .empty

namespace Bench

/-- An operation on the bench. -/
inductive Step where
  | writeBits (bits : Bits)
  | writeBit (bit : Bool)
  | writeNat (v : Int) (width : Nat)
  | writeInt (v : Int) (width : Nat)
  | writeRef (cell : Cell)
  /-- Writes what the slice shows to the builder. -/
  | writeSlice
  /-- Finishes the builder, takes an empty one, and opens the cell. -/
  | finish
  | openCell (cell : Cell)
  | readBits (n : Nat)
  | readBit
  | readNat (width : Nat)
  | readInt (width : Nat)
  | readRef
  | peekRef (i : Nat)
  | split (bits refs : Nat)
  | dropFront (bits refs : Nat)
  | keepBack (bits refs : Nat)
  /-- Marks the slice as it is. -/
  | setMark
  /-- The bits between the mark and the slice. -/
  | fromMark
  | sameAsMark
  | toCell
  | sameAs (cell : Cell)
  /-- The sizes of the cells in the chain of what the slice shows. -/
  | chain (links : Nat)

/-- What an operation gives. -/
inductive Result where
  | nothing
  | bits (bs : Bits)
  | bool (b : Bool)
  | int (v : Int)
  | cell (c : Cell)
  /-- The numbers of bits and references of several cells, if there are that many. -/
  | sizes (sizes : Option (List (Nat × Nat)))

/-- Opens a cell. -/
def openAt (b : Bench) (c : Cell) : Bench := { b with slice := .ofCell c, mark := .ofCell c }

/-- Replaces the builder. -/
def withBuilder (b : Bench) (x : Except Trap Builder) : Except Trap (Result × Bench) := do
  return (.nothing, { b with builder := ← x })

/-- Replaces the slice and gives a result. -/
def withSlice {α : Type} (b : Bench) (x : Except Trap (α × Slice)) (result : α → Result) :
    Except Trap (Result × Bench) := do
  let (a, slice) ← x
  return (result a, { b with slice })

/-- Carries out an operation. -/
def run (b : Bench) : Step → Except Trap (Result × Bench)
  | .writeBits bits => b.withBuilder (b.builder.writeBits bits)
  | .writeBit bit => b.withBuilder (b.builder.writeBit bit)
  | .writeNat v width => b.withBuilder (b.builder.writeNat width v)
  | .writeInt v width => b.withBuilder (b.builder.writeInt width v)
  | .writeRef c => b.withBuilder (b.builder.writeRef c)
  | .writeSlice => b.withBuilder (b.builder.writeSlice b.slice)
  | .finish =>
    let c := b.builder.toCell
    return (.cell c, { b with builder := {} }.openAt c)
  | .openCell c => return (.nothing, b.openAt c)
  | .readBits n => b.withSlice (b.slice.readBits n) .bits
  | .readBit => b.withSlice b.slice.readBit .bool
  | .readNat width => b.withSlice (b.slice.readNat width) fun n => .int n
  | .readInt width => b.withSlice (b.slice.readInt width) .int
  | .readRef => b.withSlice b.slice.readRef .cell
  | .peekRef i => do return (.cell (← b.slice.peekRef i), b)
  | .split bits refs => b.withSlice (b.slice.split bits refs) fun head => .cell head.toCell
  | .dropFront bits refs => do
    return (.nothing, { b with slice := ← b.slice.dropFront bits refs })
  | .keepBack bits refs => do
    return (.nothing, { b with slice := ← b.slice.keepBack bits refs })
  | .setMark => return (.nothing, { b with mark := b.slice })
  | .fromMark => return (.cell (b.mark.upTo b.slice).toCell, b)
  | .sameAsMark => return (.bool (b.slice.same b.mark), b)
  | .toCell => return (.cell b.slice.toCell, b)
  | .sameAs c => return (.bool (b.slice.same (.ofCell c)), b)
  | .chain links =>
    let sizes := (b.slice.toCell.chain? links).map
      (·.map fun c => (c.bits.length, c.refs.length))
    return (.sizes sizes, b)

/-- Carries out operations in turn: the outcome of each and the bench after it. -/
def trace : List Step → Bench → List (Except Trap Result × Bench)
  | [], _ => []
  | s :: ss, b =>
    match b.run s with
    | .ok (result, b) => (.ok result, b) :: trace ss b
    | .error trap => (.error trap, b) :: trace ss b

end Bench

end TypedCells
