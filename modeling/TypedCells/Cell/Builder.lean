import TypedCells.Cell.Slice

/-!
# Builders

A builder is a cell under construction. Every write goes to its end and is refused whole, as a cell
overflow, when the cell could not hold the result.
-/

namespace TypedCells

/-- A cell under construction. -/
structure Builder where
  /-- The bits written so far. -/
  bits : Bits := []
  /-- The references written so far. -/
  refs : List Cell := []
deriving DecidableEq

namespace Builder

/-- A builder with the contents of a cell. -/
def ofCell (c : Cell) : Builder := ⟨c.bits, c.refs⟩

/-- The finished cell. -/
def toCell (b : Builder) : Cell := ⟨b.bits, b.refs⟩

/-- Writes bits. -/
def writeBits (bs : Bits) (b : Builder) : Except Trap Builder :=
  if b.bits.length + bs.length > maxBits then throw .cellOverflow
  else return { b with bits := b.bits ++ bs }

/-- Writes one bit. -/
def writeBit (bit : Bool) (b : Builder) : Except Trap Builder := b.writeBits [bit]

/-- Writes a number that is not negative in `width` bits. -/
def writeNat (width : Nat) (v : Int) (b : Builder) : Except Trap Builder :=
  if v < 0 ∨ v ≥ twoPow width then throw .rangeCheck
  else b.writeBits (.ofNat width v.toNat)

/-- Writes an integer in `width` bits of two's complement, of which there must be one at least. -/
def writeInt (width : Nat) (v : Int) (b : Builder) : Except Trap Builder :=
  if width = 0 ∨ v < -twoPow (width - 1) ∨ v ≥ twoPow (width - 1) then throw .rangeCheck
  else b.writeBits (.ofInt width v)

/-- Writes a reference. -/
def writeRef (c : Cell) (b : Builder) : Except Trap Builder :=
  if b.refs.length ≥ maxRefs then throw .cellOverflow
  else return { b with refs := b.refs ++ [c] }

/-- Writes the bits and references that a slice shows. -/
def writeSlice (s : Slice) (b : Builder) : Except Trap Builder :=
  if b.refs.length + s.refCount > maxRefs then throw .cellOverflow
  else do
    let b ← b.writeBits s.bits
    return { b with refs := b.refs ++ s.refs }

end Builder

end TypedCells
