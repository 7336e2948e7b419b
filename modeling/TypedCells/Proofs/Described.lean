import TypedCells.Interface.Param
import TypedCells.Proofs.Spelling

/-!
# What a description tells of a type

The record of a parameter spells every structure and tuple as `tuple` and lists the members of one
of them apart: the one that is found through arrays, optionals and the values of mappings. Members
are described in the same way, so a reader of the record can put them back in their places and spell
the type as its signature does (`Param.read_ofTy`). Only the members of a structure or tuple in the
key of a mapping are listed nowhere.

* `Param.ofTy_determines`: the record determines the signature of the type just when no such key
  occurs in it.
-/

namespace TypedCells

namespace Ty

/-! ### What is told -/

/-- The type as far as the spelling in a description tells it: of members nothing. -/
def outline : Ty → Ty
  | .function => .integer 32 false
  | .enumeration _ variants => .integer (enumBits variants) false
  | .array t _ => .array t.outline none
  | .mapping k v => .mapping k.outline v.outline
  | .optional t => .optional t.outline
  | .struct _ _ => .tuple []
  | .tuple _ => .tuple []
  | .alias _ t => t.outline
  | t => t

mutual

/-- The type as far as its description tells it: nothing of the members in keys. -/
def described : Ty → Ty
  | .function => .integer 32 false
  | .enumeration _ variants => .integer (enumBits variants) false
  | .array t _ => .array t.described none
  | .mapping k v => .mapping k.outline v.described
  | .optional t => .optional t.described
  | .struct _ fs => .tuple (describedFields fs)
  | .tuple ts => .tuple (describedAll ts)
  | .alias _ t => t.described
  | t => t

/-- The types as far as their descriptions tell them. -/
def describedAll : List Ty → List Ty
  | [] => []
  | t :: ts => t.described :: describedAll ts

/-- The types of members as far as their descriptions tell them. -/
def describedFields : List (Field Ty) → List Ty
  | [] => []
  | ⟨_, t⟩ :: fs => t.described :: describedFields fs

end

/-- Puts members, if there are any, where the spelling says `tuple`. -/
def withMembers : Ty → Option (List Ty) → Ty
  | .array t n, ms => .array (t.withMembers ms) n
  | .mapping k v, ms => .mapping k (v.withMembers ms)
  | .optional t, ms => .optional (t.withMembers ms)
  | .tuple _, some ms => .tuple ms
  | t, _ => t

end Ty

/-! ### Reading a description -/

theorem SignatureReader.spells_interfaceName : ∀ t : Ty, Spells t.interfaceName.toList [t.outline]
  | .integer .. | .bool | .address | .addressStd | .cell | .bytes | .string | .fixedBytes _
  | .function | .enumeration .. | .varInteger .. => spells_signature _
  | .alias _ t => spells_interfaceName t
  | .array t _ => by
    rw [Ty.interfaceName, String.toList_append]
    exact (spells_interfaceName t).array
  | .mapping k v => by
    have h := ((spells_interfaceName k).cons (spells_interfaceName v)).brackets "map".toList
      (by decide)
    simpa [Ty.interfaceName, Ty.outline, composite] using h
  | .optional t => by
    have h := (spells_interfaceName t).brackets "optional".toList (by decide)
    simpa [Ty.interfaceName, Ty.outline, composite] using h
  | .struct _ _ | .tuple _ =>
    have h : Spells "tuple".toList [.tuple []] :=
      spells_word (by decide) (by decide) (by decide)
    h

namespace Param

/-- The type that has the given spelling, members left out. -/
def outlineOf (type : String) : Ty :=
  (SignatureReader.run ⟨[], [], []⟩ type.toList).endWord.types.headD (.tuple [])

theorem outlineOf_interfaceName (t : Ty) : outlineOf t.interfaceName = t.outline := by
  rw [outlineOf, SignatureReader.spells_interfaceName t]
  rfl

mutual

/-- The type that a record describes. -/
def read : Param → Ty
  | ⟨_, type, none⟩ => (outlineOf type).withMembers none
  | ⟨_, type, some ps⟩ => (outlineOf type).withMembers (some (readAll ps))

/-- The types that several records describe. -/
def readAll : List Param → List Ty
  | [] => []
  | p :: ps => p.read :: readAll ps

end

theorem read_eq (name type : String) (components : Option (List Param)) :
    read ⟨name, type, components⟩ = (outlineOf type).withMembers (components.map readAll) := by
  cases components <;> rw [read] <;> rfl

mutual

theorem withMembers_outline : ∀ t : Ty,
    t.outline.withMembers ((componentsOf t).map readAll) = t.described
  | .integer .. | .bool | .address | .addressStd | .cell | .bytes | .string | .fixedBytes _
  | .function | .enumeration .. | .varInteger .. => rfl
  | .array t _ => by
    rw [Ty.outline, componentsOf, Ty.withMembers, withMembers_outline t, Ty.described]
  | .mapping k v => by
    rw [Ty.outline, componentsOf, Ty.withMembers, withMembers_outline v, Ty.described]
  | .optional t => by
    rw [Ty.outline, componentsOf, Ty.withMembers, withMembers_outline t, Ty.described]
  | .struct _ fs => by
    rw [Ty.outline, componentsOf, Option.map_some, Ty.withMembers, readAll_ofFields fs,
      Ty.described]
  | .tuple ts => by
    rw [Ty.outline, componentsOf, Option.map_some, Ty.withMembers, readAll_ofItems 0 ts,
      Ty.described]
  | .alias _ t => by rw [Ty.outline, componentsOf, withMembers_outline t, Ty.described]

theorem readAll_ofFields : ∀ fs : List (Field Ty), readAll (ofFields fs) = Ty.describedFields fs
  | [] => rfl
  | ⟨_, t⟩ :: fs => by
    rw [ofFields, readAll, read_eq, outlineOf_interfaceName, withMembers_outline t,
      readAll_ofFields fs, Ty.describedFields]

theorem readAll_ofItems : ∀ (i : Nat) (ts : List Ty), readAll (ofItems i ts) = Ty.describedAll ts
  | _, [] => rfl
  | i, t :: ts => by
    rw [ofItems, readAll, read_eq, outlineOf_interfaceName, withMembers_outline t,
      readAll_ofItems (i + 1) ts, Ty.describedAll]

end

/-- **A record is read back as the type that it describes,** up to the members in keys. -/
theorem read_ofTy (name : String) (t : Ty) : (ofTy name t).read = t.described := by
  rw [ofTy, read_eq, outlineOf_interfaceName, withMembers_outline]

end Param

/-! ### Keys without members -/

namespace Ty

/-- Whether a structure or tuple occurs in the type. -/
def hasMembers : Ty → Bool
  | .array t _ => t.hasMembers
  | .mapping k v => k.hasMembers || v.hasMembers
  | .optional t => t.hasMembers
  | .struct _ _ => true
  | .tuple _ => true
  | .alias _ t => t.hasMembers
  | _ => false

mutual

/-- Whether no structure or tuple occurs in the key of any mapping in the type. -/
def plainKeys : Ty → Bool
  | .array t _ => t.plainKeys
  | .mapping k v => !k.hasMembers && v.plainKeys
  | .optional t => t.plainKeys
  | .struct _ fs => plainKeysFields fs
  | .tuple ts => plainKeysAll ts
  | .alias _ t => t.plainKeys
  | _ => true

/-- Whether the types have plain keys. -/
def plainKeysAll : List Ty → Bool
  | [] => true
  | t :: ts => t.plainKeys && plainKeysAll ts

/-- Whether the types of members have plain keys. -/
def plainKeysFields : List (Field Ty) → Bool
  | [] => true
  | ⟨_, t⟩ :: fs => t.plainKeys && plainKeysFields fs

end

theorem hasMembers_outline : ∀ t : Ty, t.outline.hasMembers = t.hasMembers
  | .integer .. | .bool | .address | .addressStd | .cell | .bytes | .string | .fixedBytes _
  | .function | .enumeration .. | .varInteger .. | .struct .. | .tuple _ => rfl
  | .array t _ | .optional t | .alias _ t => hasMembers_outline t
  | .mapping k v => by
    rw [outline, hasMembers, hasMembers, hasMembers_outline k, hasMembers_outline v]

theorem outline_eq_spelled : ∀ t : Ty, t.hasMembers = false → t.outline = t.spelled
  | .integer .., _ | .bool, _ | .address, _ | .addressStd, _ | .cell, _ | .bytes, _ | .string, _
  | .fixedBytes _, _ | .function, _ | .enumeration .., _ | .varInteger .., _ => rfl
  | .array t _, h => by rw [outline, spelled, outline_eq_spelled t h]
  | .optional t, h => by rw [outline, spelled, outline_eq_spelled t h]
  | .alias _ t, h => by rw [outline, spelled, outline_eq_spelled t h]
  | .mapping k v, h => by
    rw [hasMembers, Bool.or_eq_false_iff] at h
    rw [outline, spelled, outline_eq_spelled k h.1, outline_eq_spelled v h.2]

mutual

theorem plainKeys_described : ∀ t : Ty, t.described.plainKeys = t.plainKeys
  | .integer .. | .bool | .address | .addressStd | .cell | .bytes | .string | .fixedBytes _
  | .function | .enumeration .. | .varInteger .. => rfl
  | .array t _ | .optional t | .alias _ t => plainKeys_described t
  | .mapping k v => by
    rw [described, plainKeys, plainKeys, hasMembers_outline k, plainKeys_described v]
  | .struct _ fs => plainKeysAll_describedFields fs
  | .tuple ts => plainKeysAll_describedAll ts

theorem plainKeysAll_describedAll : ∀ ts : List Ty, plainKeysAll (describedAll ts) = plainKeysAll ts
  | [] => rfl
  | t :: ts => by
    rw [describedAll, plainKeysAll, plainKeysAll, plainKeys_described t,
      plainKeysAll_describedAll ts]

theorem plainKeysAll_describedFields : ∀ fs : List (Field Ty),
    plainKeysAll (describedFields fs) = plainKeysFields fs
  | [] => rfl
  | ⟨_, t⟩ :: fs => by
    rw [describedFields, plainKeysAll, plainKeysFields, plainKeys_described t,
      plainKeysAll_describedFields fs]

end

mutual

theorem described_eq_spelled : ∀ t : Ty, t.plainKeys = true → t.described = t.spelled
  | .integer .., _ | .bool, _ | .address, _ | .addressStd, _ | .cell, _ | .bytes, _ | .string, _
  | .fixedBytes _, _ | .function, _ | .enumeration .., _ | .varInteger .., _ => rfl
  | .array t _, h => by rw [described, spelled, described_eq_spelled t h]
  | .optional t, h => by rw [described, spelled, described_eq_spelled t h]
  | .alias _ t, h => by rw [described, spelled, described_eq_spelled t h]
  | .mapping k v, h => by
    rw [plainKeys, Bool.and_eq_true, Bool.not_eq_true'] at h
    rw [described, spelled, outline_eq_spelled k h.1, described_eq_spelled v h.2]
  | .struct _ fs, h => by rw [described, spelled, describedFields_eq_spelled fs h]
  | .tuple ts, h => by rw [described, spelled, describedAll_eq_spelled ts h]

theorem describedAll_eq_spelled : ∀ ts : List Ty, plainKeysAll ts = true →
    describedAll ts = spelledAll ts
  | [], _ => rfl
  | t :: ts, h => by
    rw [plainKeysAll, Bool.and_eq_true] at h
    rw [describedAll, spelledAll, described_eq_spelled t h.1, describedAll_eq_spelled ts h.2]

theorem describedFields_eq_spelled : ∀ fs : List (Field Ty), plainKeysFields fs = true →
    describedFields fs = spelledFields fs
  | [], _ => rfl
  | ⟨_, t⟩ :: fs, h => by
    rw [plainKeysFields, Bool.and_eq_true] at h
    rw [describedFields, spelledFields, described_eq_spelled t h.1,
      describedFields_eq_spelled fs h.2]

end

/-! ### Keys with other members -/

/-- The type with one more member in front of every structure and tuple. -/
def enlarged : Ty → Ty
  | .array t n => .array t.enlarged n
  | .mapping k v => .mapping k.enlarged v.enlarged
  | .optional t => .optional t.enlarged
  | .struct x fs => .struct x (⟨"more", .bool⟩ :: fs)
  | .tuple ts => .tuple (.bool :: ts)
  | .alias x t => .alias x t.enlarged
  | t => t

theorem interfaceName_enlarged : ∀ t : Ty, t.enlarged.interfaceName = t.interfaceName
  | .integer .. | .bool | .address | .addressStd | .cell | .bytes | .string | .fixedBytes _
  | .function | .enumeration .. | .varInteger .. | .struct .. | .tuple _ => rfl
  | .array t _ => by rw [enlarged, interfaceName, interfaceName, interfaceName_enlarged t]
  | .optional t => by rw [enlarged, interfaceName, interfaceName, interfaceName_enlarged t]
  | .alias _ t => interfaceName_enlarged t
  | .mapping k v => by
    rw [enlarged, interfaceName, interfaceName, interfaceName_enlarged k, interfaceName_enlarged v]

/-- The signature shows the member. -/
theorem spelled_enlarged_ne : ∀ t : Ty, t.hasMembers = true → t.enlarged.spelled ≠ t.spelled
  | .array t _, h => by
    simpa [enlarged, spelled] using spelled_enlarged_ne t h
  | .optional t, h => by
    simpa [enlarged, spelled] using spelled_enlarged_ne t h
  | .alias _ t, h => spelled_enlarged_ne t h
  | .struct _ fs, _ => by simp [enlarged, spelled, spelledFields]
  | .tuple ts, _ => by simp [enlarged, spelled, spelledAll]
  | .mapping k v, h => by
    rw [hasMembers, Bool.or_eq_true] at h
    rw [enlarged, spelled, spelled, ne_eq, Ty.mapping.injEq, not_and_or]
    exact h.imp (spelled_enlarged_ne k) (spelled_enlarged_ne v)

mutual

/-- The type with one more member in front of every structure and tuple in a key. -/
def withOtherKeys : Ty → Ty
  | .array t n => .array t.withOtherKeys n
  | .mapping k v => .mapping k.enlarged v.withOtherKeys
  | .optional t => .optional t.withOtherKeys
  | .struct x fs => .struct x (withOtherKeysFields fs)
  | .tuple ts => .tuple (withOtherKeysAll ts)
  | .alias x t => .alias x t.withOtherKeys
  | t => t

/-- The types with other keys. -/
def withOtherKeysAll : List Ty → List Ty
  | [] => []
  | t :: ts => t.withOtherKeys :: withOtherKeysAll ts

/-- The members with other keys. -/
def withOtherKeysFields : List (Field Ty) → List (Field Ty)
  | [] => []
  | ⟨x, t⟩ :: fs => ⟨x, t.withOtherKeys⟩ :: withOtherKeysFields fs

end

theorem interfaceName_withOtherKeys : ∀ t : Ty, t.withOtherKeys.interfaceName = t.interfaceName
  | .integer .. | .bool | .address | .addressStd | .cell | .bytes | .string | .fixedBytes _
  | .function | .enumeration .. | .varInteger .. | .struct .. | .tuple _ => rfl
  | .array t _ => by
    rw [withOtherKeys, interfaceName, interfaceName, interfaceName_withOtherKeys t]
  | .optional t => by
    rw [withOtherKeys, interfaceName, interfaceName, interfaceName_withOtherKeys t]
  | .alias _ t => by rw [withOtherKeys, interfaceName, interfaceName, interfaceName_withOtherKeys t]
  | .mapping k v => by
    rw [withOtherKeys, interfaceName, interfaceName, interfaceName_enlarged k,
      interfaceName_withOtherKeys v]

mutual

theorem spelled_withOtherKeys_ne : ∀ t : Ty, t.plainKeys = false →
    t.withOtherKeys.spelled ≠ t.spelled
  | .array t _, h => by
    simpa [withOtherKeys, spelled] using spelled_withOtherKeys_ne t h
  | .optional t, h => by
    simpa [withOtherKeys, spelled] using spelled_withOtherKeys_ne t h
  | .alias _ t, h => by
    rw [withOtherKeys, spelled, spelled]
    exact spelled_withOtherKeys_ne t h
  | .struct _ fs, h => by
    simpa [withOtherKeys, spelled] using spelledFields_withOtherKeys_ne fs h
  | .tuple ts, h => by
    simpa [withOtherKeys, spelled] using spelledAll_withOtherKeys_ne ts h
  | .mapping k v, h => by
    rw [plainKeys, Bool.and_eq_false_iff, Bool.not_eq_false'] at h
    rw [withOtherKeys, spelled, spelled, ne_eq, Ty.mapping.injEq, not_and_or]
    exact h.imp (spelled_enlarged_ne k) (spelled_withOtherKeys_ne v)

theorem spelledAll_withOtherKeys_ne : ∀ ts : List Ty, plainKeysAll ts = false →
    spelledAll (withOtherKeysAll ts) ≠ spelledAll ts
  | t :: ts, h => by
    rw [plainKeysAll, Bool.and_eq_false_iff] at h
    rw [withOtherKeysAll, spelledAll, spelledAll, ne_eq, List.cons.injEq, not_and_or]
    exact h.imp (spelled_withOtherKeys_ne t) (spelledAll_withOtherKeys_ne ts)

theorem spelledFields_withOtherKeys_ne : ∀ fs : List (Field Ty), plainKeysFields fs = false →
    spelledFields (withOtherKeysFields fs) ≠ spelledFields fs
  | ⟨_, t⟩ :: fs, h => by
    rw [plainKeysFields, Bool.and_eq_false_iff] at h
    rw [withOtherKeysFields, spelledFields, spelledFields, ne_eq, List.cons.injEq, not_and_or]
    exact h.imp (spelled_withOtherKeys_ne t) (spelledFields_withOtherKeys_ne fs)

end

end Ty

namespace Param

mutual

theorem componentsOf_withOtherKeys : ∀ t : Ty, componentsOf t.withOtherKeys = componentsOf t
  | .integer .. | .bool | .address | .addressStd | .cell | .bytes | .string | .fixedBytes _
  | .function | .enumeration .. | .varInteger .. => rfl
  | .array t _ => by
    rw [Ty.withOtherKeys, componentsOf, componentsOf, componentsOf_withOtherKeys t]
  | .mapping _ v => by
    rw [Ty.withOtherKeys, componentsOf, componentsOf, componentsOf_withOtherKeys v]
  | .optional t => by
    rw [Ty.withOtherKeys, componentsOf, componentsOf, componentsOf_withOtherKeys t]
  | .struct _ fs => by
    rw [Ty.withOtherKeys, componentsOf, componentsOf, ofFields_withOtherKeys fs]
  | .tuple ts => by
    rw [Ty.withOtherKeys, componentsOf, componentsOf, ofItems_withOtherKeys 0 ts]
  | .alias _ t => by
    rw [Ty.withOtherKeys, componentsOf, componentsOf, componentsOf_withOtherKeys t]

theorem ofFields_withOtherKeys : ∀ fs : List (Field Ty),
    ofFields (Ty.withOtherKeysFields fs) = ofFields fs
  | [] => rfl
  | ⟨_, t⟩ :: fs => by
    rw [Ty.withOtherKeysFields, ofFields, ofFields, Ty.interfaceName_withOtherKeys,
      componentsOf_withOtherKeys t, ofFields_withOtherKeys fs]

theorem ofItems_withOtherKeys : ∀ (i : Nat) (ts : List Ty),
    ofItems i (Ty.withOtherKeysAll ts) = ofItems i ts
  | _, [] => rfl
  | i, t :: ts => by
    rw [Ty.withOtherKeysAll, ofItems, ofItems, Ty.interfaceName_withOtherKeys,
      componentsOf_withOtherKeys t, ofItems_withOtherKeys (i + 1) ts]

end

/-- The description says nothing of the members in keys. -/
theorem ofTy_withOtherKeys (name : String) (t : Ty) : ofTy name t.withOtherKeys = ofTy name t := by
  rw [ofTy, ofTy, Ty.interfaceName_withOtherKeys, componentsOf_withOtherKeys]

/-! ### What a description determines -/

/-- **The description of a type determines its signature just when no structure or tuple occurs in
the key of a mapping.** Where none does, the signature is that of the type which the record is read
back as. -/
theorem ofTy_determines (name : String) (t : Ty) :
    ((∀ u, ofTy name t = ofTy name u → t.signature = u.signature) ↔ t.plainKeys = true) ∧
      (t.plainKeys = true → (ofTy name t).read.signature = t.signature) := by
  refine ⟨⟨fun h => ?_, fun ht u h => ?_⟩, fun ht => ?_⟩
  · -- one more member in such a key shows in the signature only
    by_contra hk
    rw [Bool.not_eq_true] at hk
    refine Ty.spelled_withOtherKeys_ne t hk (Ty.spelled_eq_of_signature ?_)
    exact (h _ (ofTy_withOtherKeys name t).symm).symm
  · have hd : t.described = u.described := by rw [← read_ofTy name t, h, read_ofTy]
    have hu : u.plainKeys = true := by
      rw [← Ty.plainKeys_described u, ← hd, Ty.plainKeys_described, ht]
    rw [Ty.described_eq_spelled t ht, Ty.described_eq_spelled u hu] at hd
    rw [← Ty.signature_spelled t, hd, Ty.signature_spelled]
  · rw [read_ofTy, Ty.described_eq_spelled t ht, Ty.signature_spelled]

/-- Offers of a seller at a price, kept by the seller and by the place in the list. -/
def offersType : Ty :=
  .mapping .address (.array (.struct "Offer" [⟨"price", .varInteger 16 false⟩,
    ⟨"open", .optional (.tuple [.mapping (.integer 32 false) .bool])⟩]) none)

theorem ofTy_determines_offers :
    (∀ u, ofTy "offers" offersType = ofTy "offers" u → offersType.signature = u.signature) ∧
      (ofTy "offers" offersType).read.signature = offersType.signature := by
  have hk : offersType.plainKeys = true := by decide
  obtain ⟨h, h'⟩ := ofTy_determines "offers" offersType
  exact ⟨h.2 hk, h' hk⟩

/-- Two mappings from points, of which only the signatures tell the coordinates. -/
theorem ofTy_point_key :
    ofTy "p" (.mapping (.struct "Point" [⟨"x", .integer 8 false⟩]) .bool) =
        ofTy "p" (.mapping (.struct "Point" [⟨"x", .integer 16 false⟩]) .bool) ∧
      (Ty.mapping (.struct "Point" [⟨"x", .integer 8 false⟩]) .bool).signature ≠
        (Ty.mapping (.struct "Point" [⟨"x", .integer 16 false⟩]) .bool).signature :=
  ⟨rfl, by decide⟩

end Param

end TypedCells
