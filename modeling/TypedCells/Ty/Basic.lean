import TypedCells.Bits
import TypedCells.Word

/-!
# Types of stored data

A value kept on chain has one of the types `Ty`. Integral types take a fixed number of bits, the
other simple types a varying number or a reference, and composites are built from them. A name
given to a type by its user (`Ty.alias`) changes how the type is shown and nothing else.

* `Ty.integralBits`, `Ty.isSigned`: how an integral type is written.
* `Ty.same_iff`: the comparison of types that runs is equality, so types have decidable equality.
-/

namespace TypedCells

/-- A named member of a structure. -/
@[ext] structure Field (α : Type) where
  /-- The name of the member. -/
  name : String
  /-- The type of the member. -/
  type : α

/-- A type of stored data. -/
inductive Ty where
  /-- An integer of `bits` bits, in two's complement if it is signed. -/
  | integer (bits : Nat) (signed : Bool)
  /-- A truth value, one bit. -/
  | bool
  /-- Any message address, of varying length. -/
  | address
  /-- An address of the standard form, of fixed length. -/
  | addressStd
  /-- An arbitrary cell, behind a reference. -/
  | cell
  /-- A byte string, behind a reference. -/
  | bytes
  /-- A text, behind a reference. -/
  | string
  /-- A byte string of `count` bytes, in place. -/
  | fixedBytes (count : Nat)
  /-- A function, kept as its 32-bit id. -/
  | function
  /-- One of `variants` named alternatives, kept as its ordinal. -/
  | enumeration (name : String) (variants : Nat)
  /-- An integer of fewer than `bytes` whole bytes behind their number. -/
  | varInteger (bytes : Nat) (signed : Bool)
  /-- A list of elements; the declared length, if any, is not stored. -/
  | array (elem : Ty) (length : Option Nat)
  /-- A dictionary. -/
  | mapping (key value : Ty)
  /-- A value that may be missing. -/
  | optional (payload : Ty)
  /-- A structure with named members. -/
  | struct (name : String) (fields : List (Field Ty))
  /-- A structure without names. -/
  | tuple (items : List Ty)
  /-- A type under a name of the user's. -/
  | alias (name : String) (target : Ty)

namespace Ty

/-! ### Equality -/

mutual

/-- Structural equality; names and declared lengths count. -/
def same : Ty → Ty → Bool
  | .integer b s, .integer b' s' => b == b' && s == s'
  | .bool, .bool => true
  | .address, .address => true
  | .addressStd, .addressStd => true
  | .cell, .cell => true
  | .bytes, .bytes => true
  | .string, .string => true
  | .fixedBytes n, .fixedBytes n' => n == n'
  | .function, .function => true
  | .enumeration x n, .enumeration x' n' => x == x' && n == n'
  | .varInteger n s, .varInteger n' s' => n == n' && s == s'
  | .array t n, .array t' n' => same t t' && n == n'
  | .mapping k v, .mapping k' v' => same k k' && same v v'
  | .optional t, .optional t' => same t t'
  | .struct x fs, .struct x' fs' => x == x' && sameFields fs fs'
  | .tuple ts, .tuple ts' => sameAll ts ts'
  | .alias x t, .alias x' t' => x == x' && same t t'
  | _, _ => false

/-- Structural equality of lists of types. -/
def sameAll : List Ty → List Ty → Bool
  | [], [] => true
  | t :: ts, t' :: ts' => same t t' && sameAll ts ts'
  | _, _ => false

/-- Structural equality of lists of members. -/
def sameFields : List (Field Ty) → List (Field Ty) → Bool
  | [], [] => true
  | ⟨x, t⟩ :: fs, ⟨x', t'⟩ :: fs' => x == x' && same t t' && sameFields fs fs'
  | _, _ => false

end

mutual

theorem same_iff : ∀ t u : Ty, same t u = true ↔ t = u
  | .integer _ _, u => by cases u <;> simp [same]
  | .bool, u => by cases u <;> simp [same]
  | .address, u => by cases u <;> simp [same]
  | .addressStd, u => by cases u <;> simp [same]
  | .cell, u => by cases u <;> simp [same]
  | .bytes, u => by cases u <;> simp [same]
  | .string, u => by cases u <;> simp [same]
  | .fixedBytes _, u => by cases u <;> simp [same]
  | .function, u => by cases u <;> simp [same]
  | .enumeration _ _, u => by cases u <;> simp [same]
  | .varInteger _ _, u => by cases u <;> simp [same]
  | .array t _, u => by cases u <;> simp [same, same_iff t]
  | .mapping k v, u => by cases u <;> simp [same, same_iff k, same_iff v]
  | .optional t, u => by cases u <;> simp [same, same_iff t]
  | .struct _ fs, u => by cases u <;> simp [same, sameFields_iff fs]
  | .tuple ts, u => by cases u <;> simp [same, sameAll_iff ts]
  | .alias _ t, u => by cases u <;> simp [same, same_iff t]

theorem sameAll_iff : ∀ ts us : List Ty, sameAll ts us = true ↔ ts = us
  | [], us => by cases us <;> simp [sameAll]
  | t :: ts, us => by cases us <;> simp [sameAll, same_iff t, sameAll_iff ts]

theorem sameFields_iff : ∀ fs gs : List (Field Ty), sameFields fs gs = true ↔ fs = gs
  | [], gs => by cases gs <;> simp [sameFields]
  | ⟨_, t⟩ :: fs, gs => by
    cases gs <;> simp [sameFields, same_iff t, sameFields_iff fs, Field.ext_iff]

end

instance : DecidableEq Ty := fun t u => decidable_of_iff _ (same_iff t u)

end Ty

/-! ### Widths -/

/-- The width of an enumeration: the whole bytes that its last ordinal needs, and at least one. -/
def enumBits (variants : Nat) : Nat := 8 * max 1 ((bitLength (variants - 1) + 7) / 8)

/-- The width of the byte count in front of a variable integer of fewer than `bytes` bytes, which is
that of the largest count, `bytes - 1`. This is computed in words, so that a type without any bytes
has counts of a whole word. -/
def varLengthBits (bytes : Nat) : Nat := bitLength (predInWord bytes)

namespace Ty

/-- The bits of an integral type; other types have none of their own. -/
def integralBits : Ty → Option Nat
  | .integer bits _ => some bits
  | .bool => some 1
  | .fixedBytes n => some (n * 8)
  | .function => some 32
  | .enumeration _ variants => some (enumBits variants)
  | _ => none

/-- Whether the stored integer is in two's complement. -/
def isSigned : Ty → Bool
  | .integer _ signed => signed
  | .bool => true
  | .varInteger _ signed => signed
  | _ => false

/-- The type behind all names given to it. -/
def resolve : Ty → Ty
  | .alias _ t => t.resolve
  | t => t

/-- Whether a value of the type can itself be null, so that an optional around it has to wrap it. -/
def mayBeNull (t : Ty) : Bool :=
  match t.resolve with
  | .optional _ => true
  | .mapping _ _ => true
  | _ => false

end Ty

end TypedCells
