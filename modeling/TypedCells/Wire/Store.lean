import TypedCells.Machine.Value
import TypedCells.Ty.Size

/-!
# Writing a value by its type

`Ty.store` appends a value to a builder. On the stack the values of a type look like this:

* integral and variable integer types: an integer, a truth value being `-1` or `0`;
* addresses: a slice of exactly the address;
* cell, bytes, string: a cell;
* mapping: null when empty, else the root cell; array: a tuple of the length and such a mapping;
* optional: null, or the payload; a payload that may be null itself is wrapped in a tuple of one;
* struct, tuple: a tuple of the members.
-/

namespace TypedCells

/-- Writes a dictionary: a presence bit, and the root behind a reference. -/
def Builder.writeDict (v : Value) (b : Builder) : Except Trap Builder :=
  match v with
  | .null => b.writeBit false
  | .cell root => do (← b.writeBit true).writeRef root
  | v => throw (.typeCheck .cellOrNull v.kind)

/-- The number of bytes of the shortest form of `v`; a signed form has room for the sign. -/
def varByteLength (v : Int) (signed : Bool) : Nat :=
  if v = 0 then 0
  else if signed then
    ((if v < 0 then bitLength (-v - 1).toNat else bitLength v.toNat) + 1 + 7) / 8
  else (bitLength v.natAbs + 7) / 8

/-- Writes a variable integer: the number of its bytes, then the fewest bytes that hold it. -/
def Builder.writeVarInt (bytes : Nat) (signed : Bool) (v : Int) (b : Builder) :
    Except Trap Builder :=
  let length := varByteLength v signed
  if !signed ∧ v < 0 ∨ length ≥ bytes then throw .rangeCheck
  else do
    let b ← b.writeNat (varLengthBits bytes) length
    if length = 0 then return b
    else if signed then b.writeInt (8 * length) v
    else b.writeNat (8 * length) v

/-- Writes an integer of an integral type. -/
def Builder.writeIntegral (width : Nat) (signed : Bool) (v : Value) (b : Builder) :
    Except Trap Builder := do
  let v ← v.toInt
  if signed then b.writeInt width v else b.writeNat width v

/-- Takes a payload out of the tuple of one in which an optional wraps it. -/
def Value.unwrapSingleton (v : Value) : Except Trap Value := do
  match ← v.toTuple with
  | [v] => return v
  | _ => throw (.typeCheck .singleton .tuple)

namespace Ty

mutual

/-- Appends a value of the type to a builder. -/
def store : Ty → Value → Builder → Except Trap Builder
  | .integer bits signed, v, b => b.writeIntegral bits signed v
  | .bool, v, b => b.writeIntegral 1 true v
  | .fixedBytes n, v, b => b.writeIntegral (n * 8) false v
  | .function, v, b => b.writeIntegral 32 false v
  | .enumeration _ variants, v, b => b.writeIntegral (enumBits variants) false v
  | .address, v, b => do b.writeSlice (← v.toSlice)
  | .addressStd, v, b => do
    let s ← v.toSlice
    if s.bitCount = stdAddressBits then b.writeSlice s else throw .rangeCheck
  | .cell, v, b => do b.writeRef (← v.toCell)
  | .bytes, v, b => do b.writeRef (← v.toCell)
  | .string, v, b => do b.writeRef (← v.toCell)
  | .mapping _ _, v, b => b.writeDict v
  | .array _ _, v, b => do
    match ← v.toTuple with
    | [length, dict] => do (← b.writeNat 32 (← length.toInt)).writeDict dict
    | _ => throw (.typeCheck .pair .tuple)
  | .varInteger n signed, v, b => do b.writeVarInt n signed (← v.toInt)
  | .optional _, .null, b => b.writeBit false
  | .optional t, v, b => do
    let v ← if t.mayBeNull then v.unwrapSingleton else pure v
    let b ← b.writeBit true
    if t.wordSize.StaysInline then t.store v b
    else b.writeRef (← t.store v {}).toCell
  | .struct _ fs, v, b => do
    let vs ← v.toTuple
    if vs.length = fs.length then storeFields fs vs b
    else throw (.typeCheck .memberCount .tuple)
  | .tuple ts, v, b => do
    let vs ← v.toTuple
    if vs.length = ts.length then storeAll ts vs b
    else throw (.typeCheck .memberCount .tuple)
  | .alias _ t, v, b => t.store v b

/-- Appends values of the types in turn. -/
def storeAll : List Ty → List Value → Builder → Except Trap Builder
  | t :: ts, v :: vs, b => do storeAll ts vs (← t.store v b)
  | _, _, b => return b

/-- Appends the members of a structure in turn. -/
def storeFields : List (Field Ty) → List Value → Builder → Except Trap Builder
  | ⟨_, t⟩ :: fs, v :: vs, b => do storeFields fs vs (← t.store v b)
  | _, _, b => return b

end

/-- A slice of a fresh cell that holds one value of the type. -/
def pack (t : Ty) (v : Value) : Except Trap Slice := do
  return .ofCell (← t.store v {}).toCell

end Ty

end TypedCells
