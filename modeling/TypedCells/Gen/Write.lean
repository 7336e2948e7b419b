import TypedCells.Gen.Basic
import TypedCells.Gen.Packing

/-!
# Code that writes values

`Gen.writeAll` turns `xₙ … x₁ b` into a builder: the values are written to `b` leaf by leaf in
order. A structure is taken apart on the stack. A leaf that opens a new cell gets a new builder,
and the old one waits under the values still to be written; at the end each builder becomes the
last reference of the one before it.
-/

namespace TypedCells

/-- How far a chain of cells has been written. -/
structure Chain where
  /-- Where the next leaf goes. -/
  position : Position
  /-- The number of builders on the stack. -/
  builders : Nat := 1

namespace Gen

/-- Turns `b₁ … bₙ` into `b₁`, each builder behind the last reference of the one before. -/
def linkBuilders : (n : Nat) → Gen Unit
  | 0 => pure ()
  | 1 => pure ()
  | n + 2 => do
    op .stBuilderRef
    linkBuilders (n + 1)

/-- Turns `x b` into `x₁ … b` with the members of the structure `x`, the first under the builder. -/
def openStruct (members : Nat) : Gen Unit := do
  xchg 1
  untuple members
  reverse (members + 1) 0

/-- Writes a leaf: `x b → b`, in a new builder if the leaf opens a cell. There are `below` more
values under `x`. -/
def writeLeaf (leaf : Ty) (below : Nat) (chain : Chain) : Gen Chain := do
  let (opens, position) ← ofExcept (chain.position.skip leaf)
  if opens then
    blkSwap (below + 1) 1
    op .newc
  op (.store leaf)
  return ⟨position, if opens then chain.builders + 1 else chain.builders⟩

mutual

/-- Writes a value: `x b → b`. There are `below` more values under `x`. -/
def write : Ty → (below : Nat) → Chain → Gen Chain
  | .struct _ fs, below, chain => do
    openStruct fs.length
    writeFields fs below chain
  | .alias _ t, below, chain => write t below chain
  | .tuple ts, _, _ => fail (.unsupported (.writeTuple (.tuple ts)))
  | leaf, below, chain => writeLeaf leaf below chain

/-- Writes the members of a structure: `xₙ … x₁ b → b`. -/
def writeFields : List (Field Ty) → (below : Nat) → Chain → Gen Chain
  | [], _, chain => pure chain
  | ⟨_, t⟩ :: fs, below, chain => do
    let chain ← write t (below + fs.length) chain
    writeFields fs below chain

end

/-- Writes values: `xₙ … x₁ b → b`. -/
def writeEach : List Ty → (below : Nat) → Chain → Gen Chain
  | [], _, chain => pure chain
  | t :: ts, below, chain => do
    let chain ← write t (below + ts.length) chain
    writeEach ts below chain

/-- Turns `xₙ … x₁ b` into a builder with the values behind the contents of `b`. With `tail` the
stack is `s xₙ … x₁ b`, and the data of the slice `s` goes behind the last value. -/
def writeAll (ts : List Ty) (position : Position) (tail : Bool) : Gen Position := do
  let entry ← depth
  let extra := if tail then 1 else 0
  let chain ← writeEach ts extra { position }
  if tail then op .stSlice
  linkBuilders chain.builders
  ensureDepth (entry - (ts.length + extra)) "encode_parameters"
  return chain.position

end Gen

end TypedCells
