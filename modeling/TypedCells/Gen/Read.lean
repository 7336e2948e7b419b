import TypedCells.Gen.Basic
import TypedCells.Gen.Packing

/-!
# Code that reads values

`Gen.readAll` turns a slice into the values `x₁ … xₙ` under the rest of the slice. A leaf that opens
a new cell is read from the cell behind the last reference, after a check that nothing else is left
(`followLink`). An ordinal that its enumeration does not have raises the exception `badOrdinal`.
-/

namespace TypedCells

/-- The exception for an ordinal outside its enumeration. -/
def badOrdinal : Nat := 73

namespace Gen

/-- Turns a slice that holds nothing but a link into the slice of the cell linked to. -/
def followLink : Gen Unit := do
  op .ldRef
  op .ends
  op .ctos

/-- Turns `v s` into `v s` and the truth value of `v ≥ variants`. -/
def testOrdinal (variants : Nat) : Gen Unit := do
  push 1
  op (.pushInt variants)
  op .geq

/-- Raises an exception at `v s` unless the ordinal `v` is in range. -/
def checkOrdinal : Ty → Gen Unit
  | .enumeration _ variants => do
    testOrdinal variants
    op (.throwIf badOrdinal)
  | _ => pure ()

/-- Turns `x₁ … xₙ s` into `t s` with the tuple of the entries. -/
def closeStruct (members : Nat) : Gen Unit := do
  blkSwap members 1
  tuple members
  xchg 1

/-- Reads a leaf: `s → x s`, from the next cell if the leaf opens one and `follow` holds. -/
def readLeaf (leaf : Ty) (position : Position) (follow : Bool) : Gen Position := do
  let (opens, position) ← ofExcept (position.skip leaf)
  if opens ∧ follow then followLink
  op (.load leaf)
  checkOrdinal leaf
  return position

mutual

/-- Reads a value: `s → x s`. The link to the cell that the first leaf opens is followed if
`followFirst` holds; it does not for a caller that has done so already. -/
def read : Ty → Position → (followFirst : Bool) → Gen Position
  | .struct _ fs, position, followFirst => do
    let position ← readFields fs position followFirst
    closeStruct fs.length
    return position
  | .alias _ t, position, followFirst => read t position followFirst
  | .tuple ts, _, _ => fail (.unsupported (.readTuple (.tuple ts)))
  | leaf, position, followFirst => readLeaf leaf position followFirst

/-- Reads the members of a structure: `s → x₁ … xₙ s`. -/
def readFields : List (Field Ty) → Position → (followFirst : Bool) → Gen Position
  | [], position, _ => pure position
  | ⟨_, t⟩ :: fs, position, followFirst => do
    let position ← read t position followFirst
    readFields fs position true

end

/-- Reads values: `s → x₁ … xₙ s`. -/
def readEach : List Ty → Position → Gen Position
  | [], position => pure position
  | t :: ts, position => do
    let entry ← depth
    let position ← read t position true
    ensureDepth (entry + 1) "decode_parameter"
    readEach ts position

/-- Turns a slice into the values of the types under the rest of it. -/
def readAll (ts : List Ty) (position : Position) : Gen Position := do
  require 1 "decode_parameters"
  readEach ts position

/-- Reads stored data that starts `bits` bits and `refs` references into its cell:
`s → x₁ … xₙ`, where nothing may be left over, or `s → x₁ … xₙ s` with `keepRest`. -/
def readDataWith (o : Overflow) (bits refs : Nat) (ts : List Ty) (keepRest : Bool) : Gen Unit := do
  let packing ← ofExcept (Packing.ofTypesWith o bits refs ts)
  let _ ← readAll ts packing.start
  if !keepRest then op .ends

/-- Reads stored data like `readDataWith`, unless no word holds a sum in its packing. -/
def readData (bits refs : Nat) (ts : List Ty) (keepRest : Bool) : Gen Unit :=
  readDataWith .stops bits refs ts keepRest

/-! ### Reading without traps -/

/-- Turns `x₁ … xₙ s` into `null s`. -/
def giveUp (n : Nat) : Gen Unit := do
  dropUnder n 1
  op .pushNull
  blkSwap 1 1

/-- Like `followLink`, but gives up on the `n` values read so far when the slice holds anything
else than a link. -/
def followLinkQuiet (n : Nat) : Gen Unit := do
  push 0
  op .bitRefs
  op (.pushInt 1)
  op .equal
  xchg 1
  op (.pushInt 0)
  op .equal
  op .and
  jumpUnless (giveUp n)
  followLink

/-- Gives up on the `n` values read so far if the last one is an ordinal out of range. -/
def checkOrdinalQuiet (n : Nat) : Ty → Gen Unit
  | .enumeration _ variants => do
    testOrdinal variants
    jumpIf (giveUp n)
  | _ => pure ()

/-- Reads a leaf, or gives up on the `n` values read so far. -/
def readLeafQuiet (leaf : Ty) (position : Position) (n : Nat) : Gen Position := do
  let (opens, position) ← ofExcept (position.skip leaf)
  if opens then followLinkQuiet n
  let entry ← depth
  op (.loadQuiet leaf)
  jumpUnlessAt entry (giveUp n)
  checkOrdinalQuiet (n + 1) leaf
  return position

mutual

/-- Reads a value, or gives up on the `n` values read so far. -/
def readQuiet : Ty → Position → (n : Nat) → Gen Position
  | .struct _ fs, position, n => do
    let position ← readFieldsQuiet fs position n
    closeStruct fs.length
    return position
  | .alias _ t, position, n => readQuiet t position n
  | .tuple ts, _, _ => fail (.unsupported (.readTuple (.tuple ts)))
  | leaf, position, n => readLeafQuiet leaf position n

/-- Reads the members of a structure, or gives up on the `n` values read so far. -/
def readFieldsQuiet : List (Field Ty) → Position → (n : Nat) → Gen Position
  | [], position, _ => pure position
  | ⟨_, t⟩ :: fs, position, n => do
    let position ← readQuiet t position n
    readFieldsQuiet fs position (n + 1)

end

/-- Reads values, or gives up on the `n` values read so far. -/
def readEachQuiet : List Ty → Position → (n : Nat) → Gen Position
  | [], position, _ => pure position
  | t :: ts, position, n => do
    let position ← readQuiet t position n
    readEachQuiet ts position (n + 1)

/-- Turns `x₁ … xₙ` into one entry that is not null: a tuple, or for one type the value itself
unless it may be null. -/
def wrapResult : List Ty → Gen Unit
  | [t] => if t.mayBeNull then tuple 1 else pure ()
  | ts => tuple ts.length

/-- Turns a slice into `x s`: `x` holds the values and `s` is the rest, or `x` is null when the
data does not hold such values. -/
def readAllQuiet (ts : List Ty) (position : Position) : Gen Position :=
  call 1 2 do
    let position ← readEachQuiet ts position 0
    blkSwap ts.length 1
    wrapResult ts
    blkSwap 1 1
    return position

end Gen

end TypedCells
