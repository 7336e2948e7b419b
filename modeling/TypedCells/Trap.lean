/-!
# Traps

A run of the machine ends early with a `Trap`: the cause, its text and its exit code.
-/

namespace TypedCells

/-- The kind of a stack entry. -/
inductive Kind where
  | null
  | integer
  | cell
  | slice
  | builder
  | tuple
deriving DecidableEq, Repr

/-- The word for a kind. -/
def Kind.name : Kind → String
  | .null => "null"
  | .integer => "integer"
  | .cell => "cell"
  | .slice => "slice"
  | .builder => "builder"
  | .tuple => "tuple"

/-- What an operation demands of a stack entry. -/
inductive Demand where
  /-- An entry of one kind. -/
  | kind (k : Kind)
  /-- A dictionary: its root cell, or null when it is empty. -/
  | cellOrNull
  /-- A tuple of two. -/
  | pair
  /-- A tuple of one. -/
  | singleton
  /-- A tuple with as many entries as a composite has members. -/
  | memberCount
  /-- A tuple with as many entries as an instruction asks for. -/
  | requestedSize
deriving DecidableEq, Repr

/-- The words for a demand. -/
def Demand.name : Demand → String
  | .kind k => k.name
  | .cellOrNull => "cell or null"
  | .pair => "pair"
  | .singleton => "singleton"
  | .memberCount => "tuple of member count"
  | .requestedSize => "tuple of requested size"

/-- Why a run ended early. -/
inductive Trap where
  /-- The stack holds fewer entries than an instruction needs. -/
  | stackUnderflow
  /-- An integer does not fit where it is to go. -/
  | rangeCheck
  /-- A stack entry is not what is demanded. -/
  | typeCheck (expected : Demand) (found : Kind)
  /-- A builder cannot hold that much. -/
  | cellOverflow
  /-- A slice does not hold that much, or holds anything at all where it must be empty. -/
  | cellUnderflow
  /-- The program raised an exception of its own. -/
  | exception (code : Nat)
deriving DecidableEq, Repr

namespace Trap

/-- The text of a trap. -/
def message : Trap → String
  | .stackUnderflow => "stack underflow"
  | .rangeCheck => "integer out of expected range"
  | .typeCheck expected found =>
    "type check error: expected " ++ expected.name ++ ", found " ++ found.name
  | .cellOverflow => "cell overflow"
  | .cellUnderflow => "cell underflow"
  | .exception code => "exception " ++ toString code

/-- The exit code that the machine reports. -/
def exitCode : Trap → Nat
  | .stackUnderflow => 2
  | .rangeCheck => 5
  | .typeCheck _ _ => 7
  | .cellOverflow => 8
  | .cellUnderflow => 9
  | .exception code => code

end Trap

end TypedCells
