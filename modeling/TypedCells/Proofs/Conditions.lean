import TypedCells.Ty.Size

/-!
# Conditions on the parts of a type

A condition holds for `Ty.Each` part of a type if it holds for the types of all values that are
stored, in place or in a cell of their own, as part of a value of the type. Such conditions tell
when values that were read can be written (`Ty.Proper`), and when values have only one content
(`Ty.Exact`).
-/

namespace TypedCells

namespace Ty

section Each

variable (p : Ty → Prop)

mutual

/-- The condition holds for each type of a value that is stored in place or in a cell of its own as
part of a value of the type. What containers keep in their dictionaries does not count. -/
def Each : Ty → Prop
  | .optional t => p (.optional t) ∧ t.Each
  | .struct _ fs => EachField fs
  | .tuple ts => EachItem ts
  | .alias _ t => t.Each
  | t => p t

/-- The condition holds for each part of the items of a tuple. -/
def EachItem : List Ty → Prop
  | [] => True
  | t :: ts => t.Each ∧ EachItem ts

/-- The condition holds for each part of the members of a structure. -/
def EachField : List (Field Ty) → Prop
  | [] => True
  | ⟨_, t⟩ :: fs => t.Each ∧ EachField fs

end

end Each

section Mono

variable {p q : Ty → Prop}

mutual

theorem each_mono (h : ∀ t, p t → q t) : ∀ t : Ty, t.Each p → t.Each q
  | .integer .., ht | .bool, ht | .address, ht | .addressStd, ht | .cell, ht | .bytes, ht
  | .string, ht | .fixedBytes _, ht | .function, ht | .enumeration .., ht | .varInteger .., ht
  | .array .., ht | .mapping .., ht => h _ ht
  | .optional t, ht => ⟨h _ ht.1, each_mono h t ht.2⟩
  | .struct _ fs, ht => eachField_mono h fs ht
  | .tuple ts, ht => eachItem_mono h ts ht
  | .alias _ t, ht => each_mono h t ht

theorem eachItem_mono (h : ∀ t, p t → q t) : ∀ ts : List Ty, EachItem p ts → EachItem q ts
  | [], _ => trivial
  | t :: ts, ht => ⟨each_mono h t ht.1, eachItem_mono h ts ht.2⟩

theorem eachField_mono (h : ∀ t, p t → q t) :
    ∀ fs : List (Field Ty), EachField p fs → EachField q fs
  | [], _ => trivial
  | ⟨_, t⟩ :: fs, ht => ⟨each_mono h t ht.1, eachField_mono h fs ht.2⟩

end

end Mono

mutual

/-- The widths in the type are documented ones: a signed integer has a bit at least, a variable
integer 16 or 32 bytes. What containers keep in their dictionaries does not count. -/
def Documented : Ty → Prop
  | .integer bits signed => signed = true → 1 ≤ bits
  | .varInteger n _ => n = 16 ∨ n = 32
  | .optional t => t.Documented
  | .struct _ fs => DocumentedFields fs
  | .tuple ts => DocumentedAll ts
  | .alias _ t => t.Documented
  | _ => True

/-- The widths in the types are documented ones. -/
def DocumentedAll : List Ty → Prop
  | [] => True
  | t :: ts => t.Documented ∧ DocumentedAll ts

/-- The widths in the types of members are documented ones. -/
def DocumentedFields : List (Field Ty) → Prop
  | [] => True
  | ⟨_, t⟩ :: fs => t.Documented ∧ DocumentedFields fs

end

/-- The bytes of each variable integer are a power of two, so that the count in front of them cannot
exceed them. -/
def PowerBytes : Ty → Prop := Each fun
  | .varInteger n _ => n.isPowerOfTwo
  | _ => True

/-- Values of the type that were read can be written if there is room: a signed integer has a bit at
least, and the bytes of a variable integer are a power of two. -/
def Proper : Ty → Prop := Each fun
  | .integer bits signed => signed = true → 1 ≤ bits
  | .varInteger n _ => n.isPowerOfTwo
  | _ => True

/-- Values of the type have only one content each: there is no variable integer, no payload in a
cell of its own, where more could follow, and a signed integer has a bit at least. -/
def Exact : Ty → Prop := Each fun
  | .integer bits signed => signed = true → 1 ≤ bits
  | .varInteger _ _ => False
  | .optional t => t.wordSize.StaysInline
  | _ => True

theorem Proper.powerBytes {t : Ty} (h : t.Proper) : t.PowerBytes :=
  each_mono (fun t ht => by
    cases t with
    | varInteger => exact ht
    | _ => trivial) t h

theorem Exact.proper {t : Ty} (h : t.Exact) : t.Proper :=
  each_mono (fun t ht => by
    cases t with
    | integer => exact ht
    | varInteger => exact ht.elim
    | _ => trivial) t h

mutual

theorem proper_of_documented : ∀ t : Ty, t.Documented → t.Proper
  | .integer .., h => h
  | .bool, _ | .address, _ | .addressStd, _ | .cell, _ | .bytes, _ | .string, _ | .fixedBytes _, _
  | .function, _ | .enumeration .., _ | .array .., _ | .mapping .., _ => trivial
  | .varInteger .., h => h.elim (fun h => ⟨4, h⟩) fun h => ⟨5, h⟩
  | .optional t, h => ⟨trivial, proper_of_documented t h⟩
  | .struct _ fs, h => proper_of_documentedFields fs h
  | .tuple ts, h => proper_of_documentedAll ts h
  | .alias _ t, h => proper_of_documented t h

theorem proper_of_documentedAll : ∀ ts : List Ty, DocumentedAll ts → (Ty.tuple ts).Proper
  | [], _ => trivial
  | t :: ts, h => ⟨proper_of_documented t h.1, proper_of_documentedAll ts h.2⟩

theorem proper_of_documentedFields : ∀ fs : List (Field Ty), DocumentedFields fs →
    (Ty.struct "" fs).Proper
  | [], _ => trivial
  | ⟨_, t⟩ :: fs, h => ⟨proper_of_documented t h.1, proper_of_documentedFields fs h.2⟩

end

end Ty

end TypedCells
