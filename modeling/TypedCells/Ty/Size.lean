import TypedCells.Cell.Basic
import TypedCells.Ty.Basic

/-!
# How much room a type takes

`Ty.size` is the most bits and references that a value of a type can take in a cell, and says
whether every value takes exactly that. A composite takes what its members take together.

An optional stays in the cell it is in when its payload leaves room for the presence bit and one
reference (`Size.StaysInline`); otherwise the payload has a cell of its own behind a reference.
`Ty.oversized?` finds a payload that does not fit such a cell either: the type then has a size, but
no present value of it can be stored.

Sizes are counted in words (`Ty.wordSize`), and all these decisions are made on what the words hold.
Unless words hold every sum on the way (`Ty.sumsFit`), they are too small for some values.
-/

namespace TypedCells

/-- The longest message address: tag, anycast prefix, length, workchain and address. -/
def addressBits : Nat := 591

/-- A standard address: tag, anycast bit, workchain and 256 bits of account. -/
def stdAddressBits : Nat := 267

/-- A bound on the room that values of a type take in a cell. -/
structure Size where
  /-- The most bits a value takes. -/
  bits : Nat
  /-- The most references a value takes. -/
  refs : Nat
  /-- Every value takes exactly `bits` bits and `refs` references. -/
  fixed : Bool
  /-- Every value takes exactly `refs` references. -/
  fixedRefs : Bool
deriving DecidableEq, Repr

namespace Size

/-- The size of values that all take the same room. -/
def exact (bits refs : Nat) : Size := ⟨bits, refs, true, true⟩

/-- The size of values whose room varies. -/
def upTo (bits refs : Nat) (fixedRefs : Bool) : Size := ⟨bits, refs, false, fixedRefs⟩

/-- Values side by side take the sum, and a fixed room only if each of them does. -/
instance : Add Size where
  add a b := ⟨a.bits + b.bits, a.refs + b.refs, a.fixed && b.fixed, a.fixedRefs && b.fixedRefs⟩

/-- The size of nothing at all. -/
instance : OfNat Size 0 where
  ofNat := exact 0 0

@[simp] theorem bits_zero : (0 : Size).bits = 0 := rfl

@[simp] theorem refs_zero : (0 : Size).refs = 0 := rfl

@[simp] theorem bits_add (z z' : Size) : (z + z').bits = z.bits + z'.bits := rfl

@[simp] theorem refs_add (z z' : Size) : (z + z').refs = z.refs + z'.refs := rfl

@[simp] theorem fixed_add (z z' : Size) : (z + z').fixed = (z.fixed && z'.fixed) := rfl

@[simp] theorem fixedRefs_add (z z' : Size) :
    (z + z').fixedRefs = (z.fixedRefs && z'.fixedRefs) := rfl

/-- What words keep of a size. -/
def cut (s : Size) : Size := { s with bits := cutToWord s.bits, refs := cutToWord s.refs }

/-- Words hold the size. -/
def InWords (s : Size) : Prop := s.bits < wordLimit ∧ s.refs < wordLimit

instance (s : Size) : Decidable s.InWords :=
  inferInstanceAs (Decidable (_ ∧ _))

/-- A payload of this size leaves room for a presence bit and a spare reference. -/
def StaysInline (s : Size) : Prop := s.bits < maxBits ∧ s.refs < maxRefs

instance (s : Size) : Decidable s.StaysInline :=
  inferInstanceAs (Decidable (_ ∧ _))

/-- Values of this size fit an empty cell. -/
def FitsCell (s : Size) : Prop := s.bits ≤ maxBits ∧ s.refs ≤ maxRefs

instance (s : Size) : Decidable s.FitsCell :=
  inferInstanceAs (Decidable (_ ∧ _))

/-- The size of an optional with a payload of size `s`. Where the payload goes is decided on what
words keep of its size. -/
def optional (s : Size) : Size :=
  if s.cut.StaysInline then upTo (1 + s.bits) s.refs (s.refs == 0) else upTo 1 1 false

end Size

namespace Ty

mutual

/-- The room that values of the type take. -/
def size : Ty → Size
  | .integer bits _ => .exact bits 0
  | .bool => .exact 1 0
  | .address => .upTo addressBits 0 true
  | .addressStd => .exact stdAddressBits 0
  | .cell => .exact 0 1
  | .bytes => .exact 0 1
  | .string => .exact 0 1
  | .fixedBytes n => .exact (n * 8) 0
  | .function => .exact 32 0
  | .enumeration _ variants => .exact (enumBits variants) 0
  | .varInteger n _ => .upTo (varLengthBits n + 8 * predInWord n) 0 true
  | .array _ _ => .upTo 33 1 false
  | .mapping _ _ => .upTo 1 1 false
  | .optional t => t.size.optional
  | .struct _ fs => fieldsSize fs
  | .tuple ts => totalSize ts
  | .alias _ t => t.size

/-- The room that values of the types take side by side. -/
def totalSize : List Ty → Size
  | [] => 0
  | t :: ts => t.size + totalSize ts

/-- The room that the members of a structure take side by side. -/
def fieldsSize : List (Field Ty) → Size
  | [] => 0
  | ⟨_, t⟩ :: fs => t.size + fieldsSize fs

end

/-! ### Words -/

mutual

/-- The room that values of the type take, counted in words. -/
def wordSize : Ty → Size
  | .optional t => t.wordSize.optional
  | .struct _ fs => fieldsWordSize fs
  | .tuple ts => totalWordSize ts
  | .alias _ t => t.wordSize
  | t => t.size.cut

/-- The room that values of the types take side by side, counted in words. -/
def totalWordSize : List Ty → Size
  | [] => 0
  | t :: ts => (t.wordSize + totalWordSize ts).cut

/-- The room that the members of a structure take side by side, counted in words. -/
def fieldsWordSize : List (Field Ty) → Size
  | [] => 0
  | ⟨_, t⟩ :: fs => (t.wordSize + fieldsWordSize fs).cut

end

mutual

/-- Whether words hold all sums in the size of the type. -/
def sumsFit : Ty → Bool
  | .optional t => t.sumsFit
  | .struct _ fs => fieldSumsFit fs && decide (fieldsSize fs).InWords
  | .tuple ts => allSumsFit ts && decide (totalSize ts).InWords
  | .alias _ t => t.sumsFit
  | t => decide t.size.InWords

/-- Whether words hold all sums in the size of each type. -/
def allSumsFit : List Ty → Bool
  | [] => true
  | t :: ts => t.sumsFit && allSumsFit ts

/-- Whether words hold all sums in the size of each member of a structure. -/
def fieldSumsFit : List (Field Ty) → Bool
  | [] => true
  | ⟨_, t⟩ :: fs => t.sumsFit && fieldSumsFit fs

end

/-! ### Payloads -/

mutual

/-- The first optional payload that neither stays inline nor fits a cell of its own. Containers
keep their contents in a dictionary, so nothing inside them counts. -/
def oversized? : Ty → Option Ty
  | .optional t =>
    if t.wordSize.StaysInline ∨ t.wordSize.FitsCell then t.oversized? else some t
  | .struct _ fs => oversizedField? fs
  | .tuple ts => oversizedAmong? ts
  | .alias _ t => t.oversized?
  | _ => none

/-- The first oversized payload in a list of types. -/
def oversizedAmong? : List Ty → Option Ty
  | [] => none
  | t :: ts => t.oversized? <|> oversizedAmong? ts

/-- The first oversized payload among the members of a structure. -/
def oversizedField? : List (Field Ty) → Option Ty
  | [] => none
  | ⟨_, t⟩ :: fs => t.oversized? <|> oversizedField? fs

end

/-! ### Leaves -/

mutual

/-- The leaves of a type: structures are replaced by their members in order and names by what they
stand for. Containers, optionals and tuples are leaves. -/
def leaves : Ty → List Ty
  | .struct _ fs => fieldLeaves fs
  | .alias _ t => t.leaves
  | t => [t]

/-- The leaves of the members of a structure. -/
def fieldLeaves : List (Field Ty) → List Ty
  | [] => []
  | ⟨_, t⟩ :: fs => t.leaves ++ fieldLeaves fs

end

/-- The leaves of a list of types. -/
def allLeaves (ts : List Ty) : List Ty := ts.flatMap leaves

end Ty

end TypedCells
