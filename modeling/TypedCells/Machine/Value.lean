import TypedCells.Cell.Builder

/-!
# Stack entries

The machine works on a stack of `Value`s. `Value.same` is the comparison that it can make: integers,
cells and builders by what they are, slices by what they show.
-/

namespace TypedCells

/-- A stack entry. -/
inductive Value where
  /-- Nothing. -/
  | null
  /-- An integer of any size. -/
  | int (v : Int)
  /-- A cell. -/
  | cell (c : Cell)
  /-- A slice of a cell. -/
  | slice (s : Slice)
  /-- A cell under construction. -/
  | builder (b : Builder)
  /-- Several entries in one. -/
  | tuple (items : List Value)

namespace Value

/-- The entry for a truth value: `-1` stands for true and `0` for false. -/
def ofBool (b : Bool) : Value := .int (if b then -1 else 0)

/-- The kind of an entry. -/
def kind : Value → Kind
  | .null => .null
  | .int _ => .integer
  | .cell _ => .cell
  | .slice _ => .slice
  | .builder _ => .builder
  | .tuple _ => .tuple

mutual

/-- Whether the machine sees two entries as equal. -/
def same : Value → Value → Bool
  | .null, .null => true
  | .int v, .int v' => v == v'
  | .cell c, .cell c' => c == c'
  | .slice s, .slice s' => s.same s'
  | .builder b, .builder b' => b == b'
  | .tuple vs, .tuple vs' => sameAll vs vs'
  | _, _ => false

/-- Whether the machine sees two lists of entries as equal. -/
def sameAll : List Value → List Value → Bool
  | [], [] => true
  | v :: vs, v' :: vs' => same v v' && sameAll vs vs'
  | _, _ => false

end

/-! ### Entries of one kind -/

/-- The integer, if the entry is one. -/
def toInt : Value → Except Trap Int
  | .int v => return v
  | v => throw (.typeCheck (.kind .integer) v.kind)

/-- The truth value: every integer but `0` counts as true. -/
def toBool (v : Value) : Except Trap Bool := do
  return (← v.toInt) != 0

/-- The cell, if the entry is one. -/
def toCell : Value → Except Trap Cell
  | .cell c => return c
  | v => throw (.typeCheck (.kind .cell) v.kind)

/-- The slice, if the entry is one. -/
def toSlice : Value → Except Trap Slice
  | .slice s => return s
  | v => throw (.typeCheck (.kind .slice) v.kind)

/-- The builder, if the entry is one. -/
def toBuilder : Value → Except Trap Builder
  | .builder b => return b
  | v => throw (.typeCheck (.kind .builder) v.kind)

/-- The entries of a tuple, if the entry is one. -/
def toTuple : Value → Except Trap (List Value)
  | .tuple vs => return vs
  | v => throw (.typeCheck (.kind .tuple) v.kind)

/-! ### Common entries -/

/-- A standard address: the tag `100`, the workchain in 8 bits and the bytes of the account. -/
def stdAddress (workchain : Int) (account : List UInt8) : Except Trap Value := do
  let b ← Builder.writeBits [true, false, false] {}
  let b ← b.writeInt 8 workchain
  let b ← account.foldlM (fun b byte => b.writeNat 8 byte.toNat) b
  return .slice (.ofCell b.toCell)

/-- The empty address: the tag `00`. -/
def noAddress : Except Trap Value := do
  let b ← Builder.writeBits [false, false] {}
  return .slice (.ofCell b.toCell)

/-- A cell that holds one number. -/
def cellOfNat (width : Nat) (v : Nat) : Except Trap Value := do
  let b ← Builder.writeNat width v {}
  return .cell b.toCell

/-- A stand-in for the root of a dictionary, told from others by a 64-bit tag. -/
def dictRoot (tag : Nat) : Except Trap Value := cellOfNat 64 tag

end Value

end TypedCells
