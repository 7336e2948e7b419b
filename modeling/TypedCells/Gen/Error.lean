import TypedCells.Ty.Name
import TypedCells.Ty.Size

/-!
# Why no code can be generated

A `GenError` is a fault of what code was asked for, found before anything runs. Data that the
generated code meets later can only make the machine trap.
-/

namespace TypedCells

/-- What a type is not fit for. -/
inductive Unsupported where
  /-- An optional payload is too large for a cell of its own. -/
  | oversizedPayload (payload : Ty)
  /-- A leaf leaves no room for the link in the cell it starts. -/
  | oversizedLeaf (leaf : Ty)
  /-- A tuple that is not inside an optional or a container is not written member by member. -/
  | writeTuple (type : Ty)
  /-- Nor is it read so. -/
  | readTuple (type : Ty)
  /-- A variable without leaves cannot be picked. -/
  | noLeaves (type : Ty)
deriving DecidableEq

/-- The words for an unsupported type. -/
def Unsupported.message : Unsupported → String
  | .oversizedPayload t => "optional payload `" ++ t.name ++ "` does not fit one cell"
  | .oversizedLeaf t =>
    "`" ++ t.name ++ "` does not fit a chained cell (" ++ toString t.wordSize.bits ++ " bits, "
      ++ toString t.wordSize.refs ++ " refs)"
  | .writeTuple t => "cannot encode bare tuple `" ++ t.name ++ "`"
  | .readTuple t => "cannot decode `" ++ t.name ++ "` as a parameter"
  | .noLeaves t => "`" ++ t.name ++ "` has no fields to repack"

/-- What the stack holds for a stored leaf while stored data is updated. -/
inductive Held where
  /-- A slice of data to be copied. -/
  | raw
  /-- A value of a type. -/
  | value (type : Ty)
deriving DecidableEq

/-- The words for what is held, or for nothing. -/
def Held.describe : Option Held → String
  | none => "nothing"
  | some .raw => "a raw fragment"
  | some (.value t) => "a `" ++ t.name ++ "` value"

/-- A check of the generator's own that failed. -/
inductive InternalFault where
  /-- An instruction cannot name an entry or count that large. -/
  | operandOutOfRange (n : Nat)
  /-- A jump has no call to leave. -/
  | jumpOutsideCall (jump : String)
  /-- There are not as many marks as variables. -/
  | markCount (marks vars : Nat)
  /-- The range of variables starts behind the last one. -/
  | rangeStart (start vars : Nat)
  /-- A variable before the range is marked. -/
  | markedBeforeRange (index : Nat)
  /-- No variable is marked. -/
  | nothingMarked
  /-- A slice to copy is not what the stack holds. -/
  | rawExpected (found : Option Held)
  /-- A value of a leaf is not what the stack holds. -/
  | valueExpected (leaf : Ty) (found : Option Held)
  /-- A value on the stack has no such leaf. -/
  | noSuchLeaf (type leaf : Ty)
  /-- Something held on the stack was not used up. -/
  | heldLeft (count : Nat)
deriving DecidableEq

/-- The words for a failed check. -/
def InternalFault.message : InternalFault → String
  | .operandOutOfRange n => "stack operand " ++ toString n ++ " out of range"
  | .jumpOutsideCall jump => jump ++ " outside of a call"
  | .markCount marks vars =>
    toString marks ++ " needed flags for " ++ toString vars ++ " variables"
  | .rangeStart start vars =>
    "variable offset " ++ toString start ++ " out of " ++ toString vars ++ " variables"
  | .markedBeforeRange v => "variable " ++ toString v ++ " lies before the repacked range"
  | .nothingMarked => "no variable is needed"
  | .rawExpected found => "expected a raw fragment, found " ++ Held.describe found
  | .valueExpected leaf found =>
    "expected a `" ++ leaf.name ++ "` value, found " ++ Held.describe found
  | .noSuchLeaf t leaf => "`" ++ t.name ++ "` does not contain leaf `" ++ leaf.name ++ "`"
  | .heldLeft count => toString count ++ " unpacked fragments left after repacking"

/-- Why no code can be generated. -/
inductive GenError where
  /-- A type is not fit for what is asked. -/
  | unsupported (cause : Unsupported)
  /-- No word holds a sum, and the generator stops there. -/
  | overflow
  /-- Another leaf is packed at this index. -/
  | packingMismatch (index : Nat) (expected found : Ty)
  /-- All packed leaves have been passed. -/
  | packingExhausted (count : Nat)
  /-- The stack does not have the height it should have. -/
  | stackMismatch (context : String) (expected found : Nat)
  /-- The stack does not have the entries that are needed. -/
  | stackUnderflow (context : String)
  /-- A check of the generator's own failed. -/
  | internal (fault : InternalFault)
deriving DecidableEq

/-- The text of an error. -/
def GenError.message : GenError → String
  | .unsupported cause => "unsupported type: " ++ cause.message
  | .overflow => "sum out of range"
  | .packingMismatch index expected found =>
    "layout mismatch at leaf " ++ toString index ++ ": planned `" ++ expected.name ++ "`, got `"
      ++ found.name ++ "`"
  | .packingExhausted count =>
    "layout exhausted: only " ++ toString count ++ " leaves were planned"
  | .stackMismatch context expected found =>
    "stack mismatch in " ++ context ++ ": expected depth " ++ toString expected ++ ", found "
      ++ toString found
  | .stackUnderflow context => "stack underflow in " ++ context
  | .internal fault => "internal codegen error: " ++ fault.message

end TypedCells
