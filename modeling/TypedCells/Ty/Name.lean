import TypedCells.Ty.Basic

/-!
# Names of types

A type has three spellings. `Ty.name` is shown to people. `Ty.signature` is the canonical one that
function ids are derived from: composites are written out and names of the user's do not appear.
`Ty.interfaceName` is the one in interface descriptions, where a structure is called `tuple` and
its members are listed apart.
-/

namespace TypedCells.Ty

/-- The name of an integer type of the given width. -/
def integerName (bits : Nat) (signed : Bool) : String :=
  (if signed then "int" else "uint") ++ toString bits

/-- The name of a variable integer type. -/
def varIntegerName (bytes : Nat) (signed : Bool) : String :=
  (if signed then "varint" else "varuint") ++ toString bytes

mutual

/-- The type as shown to people. -/
def name : Ty → String
  | .integer bits signed => integerName bits signed
  | .bool => "bool"
  | .address => "address"
  | .addressStd => "address_std"
  | .cell => "TvmCell"
  | .bytes => "bytes"
  | .string => "string"
  | .fixedBytes n => "bytes" ++ toString n
  | .function => "function"
  | .enumeration x _ => "enum " ++ x
  | .varInteger n signed => varIntegerName n signed
  | .array t none => t.name ++ "[]"
  | .array t (some n) => t.name ++ "[" ++ toString n ++ "]"
  | .mapping k v => "mapping(" ++ k.name ++ " => " ++ v.name ++ ")"
  | .optional t => "optional(" ++ t.name ++ ")"
  | .struct x _ => "struct " ++ x
  | .tuple ts => "tuple(" ++ String.intercalate "," (names ts) ++ ")"
  | .alias x _ => x

/-- The names of several types. -/
def names : List Ty → List String
  | [] => []
  | t :: ts => t.name :: names ts

end

mutual

/-- The canonical spelling, from which function ids are derived. -/
def signature : Ty → String
  | .integer bits signed => integerName bits signed
  | .bool => "bool"
  | .address => "address"
  | .addressStd => "address_std"
  | .cell => "cell"
  | .bytes => "bytes"
  | .string => "string"
  | .fixedBytes n => "fixedbytes" ++ toString n
  | .function => "uint32"
  | .enumeration _ variants => integerName (enumBits variants) false
  | .varInteger n signed => varIntegerName n signed
  | .array t _ => t.signature ++ "[]"
  | .mapping k v => "map(" ++ k.signature ++ "," ++ v.signature ++ ")"
  | .optional t => "optional(" ++ t.signature ++ ")"
  | .struct _ fs => "(" ++ String.intercalate "," (fieldSignatures fs) ++ ")"
  | .tuple ts => "(" ++ String.intercalate "," (signatures ts) ++ ")"
  | .alias _ t => t.signature

/-- The canonical spellings of several types. -/
def signatures : List Ty → List String
  | [] => []
  | t :: ts => t.signature :: signatures ts

/-- The canonical spellings of the members of a structure. -/
def fieldSignatures : List (Field Ty) → List String
  | [] => []
  | ⟨_, t⟩ :: fs => t.signature :: fieldSignatures fs

end

/-- The spelling in interface descriptions. -/
def interfaceName : Ty → String
  | .array t _ => t.interfaceName ++ "[]"
  | .mapping k v => "map(" ++ k.interfaceName ++ "," ++ v.interfaceName ++ ")"
  | .optional t => "optional(" ++ t.interfaceName ++ ")"
  | .struct _ _ => "tuple"
  | .tuple _ => "tuple"
  | .alias _ t => t.interfaceName
  | t => t.signature

end TypedCells.Ty
