import TypedCells.Interface.Param
import TypedCells.Text.Grammar

/-!
# Exchanging descriptions

Records (`Param`) are exchanged as JSON by a library that derives their form from the declaration of
a record. `Param.Format` is such a library, and `Param.Format.Documented` what it promises.
-/

namespace TypedCells

namespace Param

/-- A library that writes and reads records as JSON. -/
structure Format where
  /-- The value of a record. -/
  toValue : Param → Json
  /-- The record that a value describes. -/
  ofValue? : Json → Option Param
  /-- Writes a record. -/
  write : Param → String
  /-- Reads a text as a record. -/
  read? : String → Option Param
  /-- How many arrays and objects may be inside each other in a text that is read. -/
  limit : Nat

/-- What is promised of such a library. -/
structure Format.Documented (f : Format) : Prop where
  /-- The entries of a record are the members of an object, without the components if there is no
  list of them. -/
  toValue_none (name type : String) : f.toValue ⟨name, type, none⟩ =
    .object [(some "name", .string (some name)), (some "type", .string (some type))]
  /-- A list of components, empty or not, is an array of their values. -/
  toValue_some (name type : String) (ps : List Param) : f.toValue ⟨name, type, some ps⟩ =
    .object [(some "name", .string (some name)), (some "type", .string (some type)),
      (some "components", .array (ps.map f.toValue))]
  /-- An object without components describes a record without a list of them. -/
  ofValue?_none (name type : String) : f.ofValue?
    (.object [(some "name", .string (some name)), (some "type", .string (some type))]) =
      some ⟨name, type, none⟩
  /-- An array of components, empty or not, describes the list of what its items describe. -/
  ofValue?_some (name type : String) (vs : List Json) : f.ofValue?
    (.object [(some "name", .string (some name)), (some "type", .string (some type)),
      (some "components", .array vs)]) =
        (vs.mapM f.ofValue?).map fun ps => ⟨name, type, some ps⟩
  /-- What is written is a text of the value, by the standard grammar. -/
  write_denotes (p : Param) : Json.Denotes (f.write p).toList (f.toValue p)
  /-- A text of a value within the limit is read as what the value describes. -/
  read?_of_le {text : String} {v : Json} (h : Json.Denotes text.toList v)
    (hv : v.nesting ≤ f.limit) : f.read? text = f.ofValue? v
  /-- A text of a record beyond the limit is refused. -/
  read?_of_lt {text : String} {p : Param} (h : Json.Denotes text.toList (f.toValue p))
    (hp : f.limit < (f.toValue p).nesting) : f.read? text = none

end Param

end TypedCells
