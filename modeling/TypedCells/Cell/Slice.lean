import TypedCells.Cell.Basic
import TypedCells.Trap

/-!
# Slices

A slice is a window on a cell: reading moves its front, cutting moves its back, and the cell stays
as it is. What it shows are `Slice.bits` and `Slice.refs`; two slices are equal to the machine when
they show the same (`Slice.same`), whatever cells they look at.

A read that asks for more than is shown is a cell underflow.
-/

namespace TypedCells

/-- A window on the bits and references of a cell. -/
structure Slice where
  /-- The cell looked at. -/
  cell : Cell
  /-- The position of the first bit shown. -/
  bitStart : Nat
  /-- The position after the last bit shown. -/
  bitStop : Nat
  /-- The position of the first reference shown. -/
  refStart : Nat
  /-- The position after the last reference shown. -/
  refStop : Nat

namespace Slice

/-- The slice that shows all of a cell. -/
def ofCell (c : Cell) : Slice := ⟨c, 0, c.bits.length, 0, c.refs.length⟩

/-- The number of bits shown. -/
def bitCount (s : Slice) : Nat := s.bitStop - s.bitStart

/-- The number of references shown. -/
def refCount (s : Slice) : Nat := s.refStop - s.refStart

/-- The bits shown. -/
def bits (s : Slice) : Bits := (s.cell.bits.drop s.bitStart).take s.bitCount

/-- The references shown. -/
def refs (s : Slice) : List Cell := (s.cell.refs.drop s.refStart).take s.refCount

/-- Whether nothing is shown. -/
def isEmpty (s : Slice) : Bool := s.bitCount == 0 && s.refCount == 0

/-- A cell of its own with the data shown. -/
def toCell (s : Slice) : Cell := ⟨s.bits, s.refs⟩

/-- Whether two slices show the same data. -/
def same (s t : Slice) : Bool := s.bits == t.bits && s.refs == t.refs

/-! ### Reading from the front -/

/-- Reads `n` bits. -/
def readBits (n : Nat) (s : Slice) : Except Trap (Bits × Slice) :=
  if s.bitCount < n then throw .cellUnderflow
  else return ((s.cell.bits.drop s.bitStart).take n, { s with bitStart := s.bitStart + n })

/-- Reads one bit. -/
def readBit (s : Slice) : Except Trap (Bool × Slice) := do
  let (bs, s) ← s.readBits 1
  return (bs.headD false, s)

/-- Reads a natural number of `width` bits. -/
def readNat (width : Nat) (s : Slice) : Except Trap (Nat × Slice) := do
  let (bs, s) ← s.readBits width
  return (bs.toNat, s)

/-- Reads an integer of `width` bits in two's complement. -/
def readInt (width : Nat) (s : Slice) : Except Trap (Int × Slice) := do
  let (bs, s) ← s.readBits width
  return (bs.toInt, s)

/-- Reads a reference. -/
def readRef (s : Slice) : Except Trap (Cell × Slice) :=
  if s.refCount = 0 then throw .cellUnderflow
  else
    match s.cell.refs[s.refStart]? with
    | some c => return (c, { s with refStart := s.refStart + 1 })
    | none => throw .cellUnderflow

/-- The reference with index `i` among those shown, which stays in the slice. -/
def peekRef (i : Nat) (s : Slice) : Except Trap Cell :=
  match s.refs[i]? with
  | some c => return c
  | none => throw .cellUnderflow

/-! ### Cutting -/

/-- Cuts after the first `bits` bits and `refs` references. -/
def split (bits refs : Nat) (s : Slice) : Except Trap (Slice × Slice) :=
  if bits > s.bitCount ∨ refs > s.refCount then throw .cellUnderflow
  else return (
    { s with bitStop := s.bitStart + bits, refStop := s.refStart + refs },
    { s with bitStart := s.bitStart + bits, refStart := s.refStart + refs })

/-- What is left behind the first `bits` bits and `refs` references. -/
def dropFront (bits refs : Nat) (s : Slice) : Except Trap Slice := do
  return (← s.split bits refs).2

/-- The last `bits` bits and `refs` references. -/
def keepBack (bits refs : Nat) (s : Slice) : Except Trap Slice :=
  if bits > s.bitCount ∨ refs > s.refCount then throw .cellUnderflow
  else return { s with bitStart := s.bitStop - bits, refStart := s.refStop - refs }

/-- The bits between the front of `s` and that of `t`, a later state of the same slice, without
references. -/
def upTo (s t : Slice) : Slice := { s with bitStop := t.bitStart, refStop := s.refStart }

end Slice

end TypedCells
