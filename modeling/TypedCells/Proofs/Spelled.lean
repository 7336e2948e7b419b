import Mathlib.Data.List.Forall2
import TypedCells.Interface.Signature
import TypedCells.Proofs.Images

/-!
# What a signature tells of a type

The signature of a type leaves out the names of structures, members, enumerations and aliases, the
declared length of an array, and which of two types of the same integers was meant. `Ty.spelled` is
the type with all that taken away. It has the signature of the type, takes the same room, and is
written and read in the same way.
-/

namespace TypedCells

namespace Ty

mutual

/-- The type as far as its signature tells it. -/
def spelled : Ty → Ty
  | .function => .integer 32 false
  | .enumeration _ variants => .integer (enumBits variants) false
  | .array t _ => .array t.spelled none
  | .mapping k v => .mapping k.spelled v.spelled
  | .optional t => .optional t.spelled
  | .struct _ fs => .tuple (spelledFields fs)
  | .tuple ts => .tuple (spelledAll ts)
  | .alias _ t => t.spelled
  | t => t

/-- The types as far as their signatures tell them. -/
def spelledAll : List Ty → List Ty
  | [] => []
  | t :: ts => t.spelled :: spelledAll ts

/-- The types of members as far as their signatures tell them. -/
def spelledFields : List (Field Ty) → List Ty
  | [] => []
  | ⟨_, t⟩ :: fs => t.spelled :: spelledFields fs

end

/-! ### The same signature -/

mutual

theorem signature_spelled : ∀ t : Ty, t.spelled.signature = t.signature
  | .integer .. | .bool | .address | .addressStd | .cell | .bytes | .string | .fixedBytes _
  | .function | .enumeration .. | .varInteger .. => rfl
  | .array t _ => by rw [spelled, signature, signature, signature_spelled t]
  | .mapping k v => by rw [spelled, signature, signature, signature_spelled k, signature_spelled v]
  | .optional t => by rw [spelled, signature, signature, signature_spelled t]
  | .struct _ fs => by rw [spelled, signature, signature, signatures_spelledFields fs]
  | .tuple ts => by rw [spelled, signature, signature, signatures_spelledAll ts]
  | .alias _ t => by rw [spelled, signature, signature_spelled t]

theorem signatures_spelledAll : ∀ ts : List Ty, signatures (spelledAll ts) = signatures ts
  | [] => rfl
  | t :: ts => by
    rw [spelledAll, signatures, signatures, signature_spelled t, signatures_spelledAll ts]

theorem signatures_spelledFields : ∀ fs : List (Field Ty),
    signatures (spelledFields fs) = fieldSignatures fs
  | [] => rfl
  | ⟨_, t⟩ :: fs => by
    rw [spelledFields, signatures, fieldSignatures, signature_spelled t,
      signatures_spelledFields fs]

end

/-! ### The same form of values -/

/-- Values of the two types take the same room, also when it is counted in words, and are written
and read in the same way, whether that works out or traps. -/
structure SameForm (t u : Ty) : Prop where
  size : t.size = u.size
  wordSize : t.wordSize = u.wordSize
  mayBeNull : t.mayBeNull = u.mayBeNull
  store : t.store = u.store
  load : t.load = u.load

namespace SameForm

variable {t u : Ty} {ts us : List Ty}

theorem refl (t : Ty) : t.SameForm t := ⟨rfl, rfl, rfl, rfl, rfl⟩

theorem symm (h : t.SameForm u) : u.SameForm t :=
  ⟨h.size.symm, h.wordSize.symm, h.mayBeNull.symm, h.store.symm, h.load.symm⟩

theorem trans {w : Ty} (h : t.SameForm u) (h' : u.SameForm w) : t.SameForm w :=
  ⟨h.size.trans h'.size, h.wordSize.trans h'.wordSize, h.mayBeNull.trans h'.mayBeNull,
    h.store.trans h'.store, h.load.trans h'.load⟩

theorem named (h : t.SameForm u) (x : String) : (Ty.alias x t).SameForm u where
  size := h.size
  wordSize := h.wordSize
  mayBeNull := by rw [mayBeNull_alias, h.mayBeNull]
  store := by funext v b; rw [← h.store, Ty.store]
  load := by funext s; rw [← h.load, Ty.load]

theorem optional (h : t.SameForm u) : (Ty.optional t).SameForm (.optional u) where
  size := by rw [Ty.size, Ty.size, h.size]
  wordSize := by rw [Ty.wordSize, Ty.wordSize, h.wordSize]
  mayBeNull := rfl
  store := by
    funext v b
    cases v <;> simp only [Ty.store, h.wordSize, h.mayBeNull, h.store]
  load := by
    funext s
    simp only [Ty.load, h.wordSize, h.mayBeNull, h.load]

theorem totalSize (h : List.Forall₂ SameForm ts us) : Ty.totalSize ts = Ty.totalSize us := by
  induction h with
  | nil => rfl
  | cons h _ ih => rw [Ty.totalSize, Ty.totalSize, h.size, ih]

theorem totalWordSize (h : List.Forall₂ SameForm ts us) :
    Ty.totalWordSize ts = Ty.totalWordSize us := by
  induction h with
  | nil => rfl
  | cons h _ ih => rw [Ty.totalWordSize, Ty.totalWordSize, h.wordSize, ih]

theorem storeAll (h : List.Forall₂ SameForm ts us) (vs : List Value) (b : Builder) :
    Ty.storeAll ts vs b = Ty.storeAll us vs b := by
  induction h generalizing vs b with
  | nil => rfl
  | cons h _ ih =>
    cases vs with
    | nil => rfl
    | cons v vs => simp only [Ty.storeAll, h.store, ih]

theorem loadAll (h : List.Forall₂ SameForm ts us) (s : Slice) :
    Ty.loadAll ts s = Ty.loadAll us s := by
  induction h generalizing s with
  | nil => rfl
  | cons h _ ih => simp only [Ty.loadAll, h.load, ih]

theorem tuple (h : List.Forall₂ SameForm ts us) : (Ty.tuple ts).SameForm (.tuple us) where
  size := totalSize h
  wordSize := totalWordSize h
  mayBeNull := rfl
  store := by
    funext v b
    simp only [Ty.store, storeAll h, h.length_eq]
  load := by
    funext s
    simp only [Ty.load, loadAll h]

theorem struct (x : String) (fs : List (Field Ty)) :
    (Ty.struct x fs).SameForm (.tuple (fs.map (·.type))) :=
  ⟨size_struct x fs, wordSize_struct x fs, rfl, store_struct x fs, load_struct x fs⟩

end SameForm

mutual

/-- Nothing that a signature leaves out matters to the form of values. -/
theorem sameForm_spelled : ∀ t : Ty, t.SameForm t.spelled
  | .integer .. | .bool | .address | .addressStd | .cell | .bytes | .string | .fixedBytes _
  | .varInteger .. => .refl _
  | .function | .enumeration .. | .array .. | .mapping .. => ⟨rfl, rfl, rfl, rfl, rfl⟩
  | .optional t => (sameForm_spelled t).optional
  | .struct x fs => (SameForm.struct x fs).trans (.tuple (sameForm_spelledFields fs))
  | .tuple ts => .tuple (sameForm_spelledAll ts)
  | .alias x t => (sameForm_spelled t).named x

theorem sameForm_spelledAll : ∀ ts : List Ty, List.Forall₂ SameForm ts (spelledAll ts)
  | [] => .nil
  | t :: ts => .cons (sameForm_spelled t) (sameForm_spelledAll ts)

theorem sameForm_spelledFields : ∀ fs : List (Field Ty),
    List.Forall₂ SameForm (fs.map (·.type)) (spelledFields fs)
  | [] => .nil
  | ⟨_, t⟩ :: fs => .cons (sameForm_spelled t) (sameForm_spelledFields fs)

end

end Ty

end TypedCells
