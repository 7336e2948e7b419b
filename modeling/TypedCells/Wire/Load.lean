import TypedCells.Machine.Value
import TypedCells.Ty.Size

/-!
# Reading a value by its type

`Ty.load` reads a value from the front of a slice and returns it with the rest. It undoes
`Ty.store` and gives values of the same shapes.
-/

namespace TypedCells

namespace Slice

/-- Reads a dictionary: a presence bit, and the root behind a reference. -/
def readDict (s : Slice) : Except Trap (Value × Slice) := do
  let (present, s) ← s.readBit
  if present then
    let (root, s) ← s.readRef
    return (.cell root, s)
  else return (.null, s)

/-- Skips the anycast prefix of an address: a presence bit, and then a depth from 1 to 30 in five
bits with as many bits of prefix. -/
def skipAnycast (s : Slice) : Except Trap Slice := do
  let (present, s) ← s.readBit
  if present then
    let (depth, s) ← s.readNat 5
    if depth = 0 ∨ depth > 30 then throw .cellUnderflow
    return (← s.readBits depth).2
  else return s

/-- Skips any message address. The two-bit tag tells the empty address, an external one with its
length in nine bits, a standard one, and one of varying length. -/
def skipAddress (s : Slice) : Except Trap Slice := do
  let (tag, s) ← s.readNat 2
  match tag with
  | 0 => return s
  | 1 =>
    let (length, s) ← s.readNat 9
    return (← s.readBits length).2
  | 2 =>
    let s ← s.skipAnycast
    return (← s.readBits (8 + 256)).2
  | _ =>
    let s ← s.skipAnycast
    let (length, s) ← s.readNat 9
    return (← s.readBits (32 + length)).2

/-- Reads a message address as a slice of its bits. -/
def readAddress (s : Slice) : Except Trap (Value × Slice) := do
  let rest ← s.skipAddress
  return (.slice (s.upTo rest), rest)

/-- Reads a standard address without anycast as a slice of its bits. -/
def readStdAddress (s : Slice) : Except Trap (Value × Slice) := do
  let (tag, rest) ← s.readBits 3
  if tag = [true, false, false] then
    let (_, rest) ← rest.readBits (8 + 256)
    return (.slice (s.upTo rest), rest)
  else throw .cellUnderflow

/-- Reads an integer of an integral type. -/
def readIntegral (width : Nat) (signed : Bool) (s : Slice) : Except Trap (Value × Slice) :=
  if signed then do
    let (v, s) ← s.readInt width
    return (.int v, s)
  else do
    let (v, s) ← s.readNat width
    return (.int v, s)

/-- Reads a variable integer: the number of its bytes, then the bytes. Their width is a word. -/
def readVarInt (bytes : Nat) (signed : Bool) (s : Slice) : Except Trap (Value × Slice) := do
  let (length, s) ← s.readNat (varLengthBits bytes)
  s.readIntegral (cutToWord (8 * length)) signed

/-- Reads a reference as a cell. -/
def readCell (s : Slice) : Except Trap (Value × Slice) := do
  let (c, s) ← s.readRef
  return (.cell c, s)

end Slice

namespace Ty

mutual

/-- Reads a value of the type from the front of a slice. -/
def load : Ty → Slice → Except Trap (Value × Slice)
  | .integer bits signed, s => s.readIntegral bits signed
  | .bool, s => s.readIntegral 1 true
  | .fixedBytes n, s => s.readIntegral (n * 8) false
  | .function, s => s.readIntegral 32 false
  | .enumeration _ variants, s => s.readIntegral (enumBits variants) false
  | .address, s => s.readAddress
  | .addressStd, s => s.readStdAddress
  | .cell, s => s.readCell
  | .bytes, s => s.readCell
  | .string, s => s.readCell
  | .mapping _ _, s => s.readDict
  | .array _ _, s => do
    let (length, s) ← s.readNat 32
    let (dict, s) ← s.readDict
    return (.tuple [.int length, dict], s)
  | .varInteger n signed, s => s.readVarInt n signed
  | .optional t, s => do
    let (present, s) ← s.readBit
    if !present then return (.null, s)
    let (v, s) ←
      if t.wordSize.StaysInline then t.load s
      else do
        let (box, s) ← s.readRef
        let (v, _) ← t.load (.ofCell box)
        pure (v, s)
    return (if t.mayBeNull then .tuple [v] else v, s)
  | .struct _ fs, s => do
    let (vs, s) ← loadFields fs s
    return (.tuple vs, s)
  | .tuple ts, s => do
    let (vs, s) ← loadAll ts s
    return (.tuple vs, s)
  | .alias _ t, s => t.load s

/-- Reads values of the types in turn. -/
def loadAll : List Ty → Slice → Except Trap (List Value × Slice)
  | [], s => return ([], s)
  | t :: ts, s => do
    let (v, s) ← t.load s
    let (vs, s) ← loadAll ts s
    return (v :: vs, s)

/-- Reads the members of a structure in turn. -/
def loadFields : List (Field Ty) → Slice → Except Trap (List Value × Slice)
  | [], s => return ([], s)
  | ⟨_, t⟩ :: fs, s => do
    let (v, s) ← t.load s
    let (vs, s) ← loadFields fs s
    return (v :: vs, s)

end

end Ty

end TypedCells
