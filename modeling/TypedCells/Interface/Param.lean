import TypedCells.Text.Json
import TypedCells.Ty.Name

/-!
# Interface descriptions

The parameters of a function are published as a list of records (`Param`): a name, the spelling of
the type, and for a type with members a list of records of its own. `Param.toText` writes a record
as a JSON object and `Param.ofText?` reads one.

A record may also be given as the array of its entries in order. Arrays and objects may be nested
`Param.maxNesting` deep; what stands under an unknown key is passed over and may be anything.
-/

namespace TypedCells

/-- The description of a parameter. -/
structure Param where
  /-- The name. -/
  name : String
  /-- The spelling of the type. -/
  type : String
  /-- The members, for a type that has them. -/
  components : Option (List Param)

namespace Param

/-! ### Describing types -/

mutual

/-- The members that the description of a type lists: those of the structure or tuple in it. -/
def componentsOf : Ty → Option (List Param)
  | .array t _ => componentsOf t
  | .mapping _ v => componentsOf v
  | .optional t => componentsOf t
  | .struct _ fs => some (ofFields fs)
  | .tuple ts => some (ofItems 0 ts)
  | .alias _ t => componentsOf t
  | _ => none

/-- The descriptions of the members of a structure. -/
def ofFields : List (Field Ty) → List Param
  | [] => []
  | ⟨name, t⟩ :: fs => ⟨name, t.interfaceName, componentsOf t⟩ :: ofFields fs

/-- The descriptions of the items of a tuple, which are numbered from `i`. -/
def ofItems : (i : Nat) → List Ty → List Param
  | _, [] => []
  | i, t :: ts => ⟨"value" ++ toString i, t.interfaceName, componentsOf t⟩ :: ofItems (i + 1) ts

end

/-- The description of a parameter of the given type. -/
def ofTy (name : String) (t : Ty) : Param := ⟨name, t.interfaceName, componentsOf t⟩

/-- The descriptions of a list of parameters; those without a name get one from their index. -/
def ofParams (params : List (Field Ty)) : List Param :=
  params.zipIdx.map fun (p, i) =>
    ofTy (if p.name = "" then "value" ++ toString i else p.name) p.type

/-- The descriptions of the inputs of a function. One that answers takes the id of the answer
first. -/
def ofInputs (params : List (Field Ty)) (answers : Bool) : List Param :=
  if answers then ofTy "answerId" (.integer 32 false) :: ofParams params else ofParams params

/-! ### Writing -/

mutual

/-- The JSON text of a record, without blanks. -/
def toText : Param → String
  | ⟨name, type, none⟩ => "\x7b\"name\":" ++ Json.quote name ++ ",\"type\":" ++ Json.quote type
      ++ "\x7d"
  | ⟨name, type, some ps⟩ => "\x7b\"name\":" ++ Json.quote name ++ ",\"type\":" ++ Json.quote type
      ++ ",\"components\":[" ++ String.intercalate "," (toTexts ps) ++ "]\x7d"

/-- The JSON texts of several records. -/
def toTexts : List Param → List String
  | [] => []
  | p :: ps => toText p :: toTexts ps

end

/-- The JSON text of a list of records, without blanks. -/
def listText (ps : List Param) : String := "[" ++ String.intercalate "," (toTexts ps) ++ "]"

/-! ### Reading -/

/-- How deep arrays and objects may be nested in the part of a text that is read. -/
def maxNesting : Nat := 127

/-- The text of a string that denotes one. -/
def textOf? : Json → Option String
  | .string text? => text?
  | _ => none

/-- The value under a key, if it occurs at most once. -/
def valueOf? (key : String) (members : List (Option String × Json)) : Option (Option Json) :=
  match members.filter (·.1 = some key) with
  | [] => some none
  | [m] => some (some m.2)
  | _ => none

/-- The entries of a record: name, type and components. -/
def entriesOf? : Json → Option (Json × Json × Option Json)
  | .object members => do
    if members.any (·.1.isNone) then none
    let name ← valueOf? "name" members
    let type ← valueOf? "type" members
    let components ← valueOf? "components" members
    return (← name, ← type, components)
  | .array [name, type] => some (name, type, none)
  | .array [name, type, components] => some (name, type, some components)
  | _ => none

mutual

/-- The record that a JSON value describes, in which no more than `nesting` arrays and objects are
inside each other. -/
def ofJson? : (nesting : Nat) → Json → Option Param
  | 0, _ => none
  | n + 1, v => do
    let (name, type, components) ← entriesOf? v
    return ⟨← textOf? name, ← textOf? type, ← membersOf? n components⟩

/-- The members of a record, which are absent if no value or null is given for them. -/
def membersOf? : (nesting : Nat) → Option Json → Option (Option (List Param))
  | _, none => some none
  | _, some .null => some none
  | n + 1, some (.array vs) => do return some (← vs.mapM (ofJson? n))
  | _, _ => none

end

/-- The record that a text describes. -/
def ofText? (text : String) : Option Param := do ofJson? maxNesting (← Json.parse? text)

end Param

end TypedCells
