import TypedCells.Gen.Read
import TypedCells.Gen.Write
import TypedCells.Interface.Headers
import TypedCells.Interface.Signature

/-!
# Message bodies

The body of a message is the id of the function, the id of the answer if there is one, and the
arguments. `Gen.appendBody` puts a body behind what a message already holds: in place if there is
room for all of it whatever the arguments are, else in a cell of its own behind a reference. A bit
in front tells which.

`Gen.readArguments` reads the arguments of a call. Calls from outside and from other contracts have
the arguments packed at different places, so code for both has to find out first which it is.
-/

namespace TypedCells

/-- Where the function id of a body comes from. -/
inductive IdSource (Code : Type) where
  /-- It is known. -/
  | known (id : UInt32)
  /-- Code pushes it. -/
  | pushed (code : Code)

namespace Gen

variable {α : Type}

/-- Writes the function id: `b → b`. Code that pushes the id gets `a` and gives the result. -/
def writeId (a : α) : IdSource (α → Gen α) → Gen α
  | .known id => do
    op (.stConst id)
    return a
  | .pushed code => do
    let a ← code a
    op (.stNat idBits)
    return a

/-- Writes a body: `xₙ … x₁ b → b`. -/
def writeBody (ts : List Ty) (a : α) (id : IdSource (α → Gen α)) (answerId : Option UInt32)
    (position : Position) : Gen (α × Position) := do
  let a ← writeId a id
  match answerId with
  | some word => op (.stConst word)
  | none => pure ()
  let position ← writeAll ts position false
  return (a, position)

/-- Appends a body to a message of which at most `used` bits are filled: `x₁ … xₙ b → b`, or
`xₙ … x₁ b → b` if the arguments are `reversed`. -/
def appendBodyWith (o : Overflow) (ts : List Ty) (a : α) (id : IdSource (α → Gen α))
    (answerId : Option UInt32) (used : Nat) (reversed : Bool) : Gen α := do
  let entry ← depth
  let n := ts.length
  let ids := idBits + if answerId.isSome then idBits else 0
  let packing ← ofExcept (Packing.ofTypesWith o (o.keep (used + ids)) 0 ts)
  let inline := packing.newCells = 0
  op (.stBit !inline)
  if n ≥ 2 ∧ !reversed then reverse n 1
  let a ←
    if inline then do
      let (a, _) ← writeBody ts a id answerId packing.start
      pure a
    else do
      let packing ← ofExcept (Packing.ofTypesWith o ids 0 ts)
      blkSwap n 1
      op .newc
      let (a, _) ← writeBody ts a id answerId packing.start
      op .stBuilderRef
      pure a
  ensureDepth (entry - n) "create_msg_body_and_append_to_builder"
  return a

/-- Appends a body like `appendBodyWith`, unless no word holds a sum in its packings. -/
def appendBody (ts : List Ty) (a : α) (id : IdSource (α → Gen α)) (answerId : Option UInt32)
    (used : Nat) (reversed : Bool) : Gen α :=
  appendBodyWith .stops ts a id answerId used reversed

/-- Appends a call of the constructor without arguments to a message of which `used` bits are
filled: `b → b`. It goes in place if the bit in front and the id leave a bit of the cell free. -/
def appendConstructor (used : Nat) : Gen Unit :=
  if used < maxBits - idBits - 1 then do
    op (.stBit false)
    op (.stConst constructorId)
  else do
    op (.stBit true)
    op .newc
    op (.stConst constructorId)
    op .stBuilderRef

/-- Reads the arguments of a call: `s → x₁ … xₙ`. They start `offset` bits into the message. -/
def readArgumentsAt (o : Overflow) (offset : Nat) (ts : List Ty) : Gen Unit := do
  let packing ← ofExcept (Packing.ofTypesWith o offset 0 ts)
  let _ ← readAll ts packing.start
  op .ends

/-- Reads the arguments of a call from outside. -/
def readExternal (o : Overflow) (h : Headers) (ts : List Ty) (answers : Bool) : Gen Unit :=
  readArgumentsAt o (h.externalOffset answers) ts

/-- Reads the arguments of a call from another contract. -/
def readInternal (o : Overflow) (ts : List Ty) (answers : Bool) : Gen Unit :=
  readArgumentsAt o (Headers.internalOffset answers) ts

end Gen

/-- Which calls a function accepts. -/
inductive Origin where
  /-- Calls from outside. -/
  | external
  /-- Calls from other contracts. -/
  | internal
  /-- Both; a flag tells them apart. -/
  | either
deriving DecidableEq, Repr

/-- Reads the arguments of a call: `s → x₁ … xₙ`, or `flag s → flag x₁ … xₙ` if both kinds are
accepted, where the flag is zero for a call from another contract. -/
def Gen.readArgumentsWith (o : Overflow) (h : Headers) (ts : List Ty) (answers : Bool) :
    Origin → Gen Unit
  | .external => readExternal o h ts answers
  | .internal => readInternal o ts answers
  | .either => do
    let entry ← depth
    require 2 "decode_function_parameters"
    push 1
    ifElse (readExternal o h ts answers) fun _ => readInternal o ts answers
    ensureDepth (entry - 1 + ts.length) "decode_function_parameters"

/-- Reads the arguments of a call like `readArgumentsWith`, unless no word holds a sum in their
packing. -/
def Gen.readArguments (h : Headers) (ts : List Ty) (answers : Bool) (origin : Origin) : Gen Unit :=
  readArgumentsWith .stops h ts answers origin

end TypedCells
