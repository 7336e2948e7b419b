import TypedCells.Proofs.Content
import TypedCells.Wire.Load
import TypedCells.Wire.Store

/-!
# Values up to what their slices show

The machine compares slices by what they show. `Value.canon` replaces every slice in a value by one
that shows all of a fresh cell, so that two values are the same to the machine exactly when their
canonical forms are equal (`Value.same_iff`). Writing a value does not tell it from its canonical
form (`Ty.store_canon`).
-/

namespace TypedCells

namespace Value

mutual

/-- The value with each slice shown in full by a cell of its own. -/
def canon : Value → Value
  | .slice s => .slice (.ofCell s.toCell)
  | .tuple vs => .tuple (canonAll vs)
  | v => v

/-- The canonical forms of values. -/
def canonAll : List Value → List Value
  | [] => []
  | v :: vs => v.canon :: canonAll vs

end

mutual

/-- Every slice in the value lies in its cell. -/
def Valid : Value → Prop
  | .slice s => s.Valid
  | .tuple vs => ValidAll vs
  | _ => True

/-- Every slice in the values lies in its cell. -/
def ValidAll : List Value → Prop
  | [] => True
  | v :: vs => v.Valid ∧ ValidAll vs

end

theorem canonAll_eq_map : ∀ vs : List Value, canonAll vs = vs.map canon
  | [] => rfl
  | v :: vs => by rw [canonAll, canonAll_eq_map vs, List.map_cons]

theorem canonAll_take (n : Nat) (vs : List Value) :
    canonAll (vs.take n) = (canonAll vs).take n := by
  simp [canonAll_eq_map]

theorem canonAll_drop (n : Nat) (vs : List Value) :
    canonAll (vs.drop n) = (canonAll vs).drop n := by
  simp [canonAll_eq_map]

@[simp] theorem length_canonAll (vs : List Value) : (canonAll vs).length = vs.length := by
  simp [canonAll_eq_map]

theorem validAll_iff : ∀ vs : List Value, ValidAll vs ↔ ∀ v ∈ vs, v.Valid
  | [] => by simp [ValidAll]
  | v :: vs => by simp [ValidAll, validAll_iff vs]

theorem ofCell_inj {c d : Cell} : Slice.ofCell c = Slice.ofCell d ↔ c = d :=
  ⟨fun h => by simpa using congrArg Slice.toCell h, congrArg _⟩

mutual

theorem same_iff : ∀ v w : Value, same v w = true ↔ v.canon = w.canon
  | .null, w => by cases w <;> simp [same, canon]
  | .int _, w => by cases w <;> simp [same, canon]
  | .cell _, w => by cases w <;> simp [same, canon]
  | .slice s, w => by cases w <;> simp [same, canon, Slice.same_iff, ofCell_inj]
  | .builder _, w => by cases w <;> simp [same, canon]
  | .tuple vs, w => by cases w <;> simp [same, canon, sameAll_iff vs]

theorem sameAll_iff : ∀ vs ws : List Value, sameAll vs ws = true ↔ canonAll vs = canonAll ws
  | [], ws => by cases ws <;> simp [sameAll, canonAll]
  | v :: vs, ws => by cases ws <;> simp [sameAll, canonAll, same_iff v, sameAll_iff vs]

end

@[simp] theorem toInt_canon (v : Value) : v.canon.toInt = v.toInt := by cases v <;> rfl

@[simp] theorem toCell_canon (v : Value) : v.canon.toCell = v.toCell := by cases v <;> rfl

end Value

theorem Builder.writeSlice_canon {s : Slice} (hs : s.Valid) (b : Builder) :
    b.writeSlice (.ofCell s.toCell) = b.writeSlice s := by
  have h1 := hs.length_refs
  have h2 := (Slice.valid_ofCell s.toCell).length_refs
  have h3 : (Slice.ofCell s.toCell).toCell = s.toCell := Slice.toCell_ofCell _
  have h4 : (Slice.ofCell s.toCell).bits = s.bits := congrArg Cell.bits h3
  have h5 : (Slice.ofCell s.toCell).refs = s.refs := congrArg Cell.refs h3
  rw [writeSlice, writeSlice, ← h2, ← h1, h4, h5]

theorem Builder.writeDict_canon (v : Value) (b : Builder) :
    b.writeDict v.canon = b.writeDict v := by
  cases v <;> rfl

namespace Ty

mutual

/-- Writing a value does not tell it from its canonical form. -/
theorem store_canon : ∀ (t : Ty) {v : Value}, v.Valid → ∀ b, t.store v.canon b = t.store v b
  | .integer _ _, v, _, b => by simp [store, Builder.writeIntegral]
  | .bool, v, _, b => by simp [store, Builder.writeIntegral]
  | .fixedBytes _, v, _, b => by simp [store, Builder.writeIntegral]
  | .function, v, _, b => by simp [store, Builder.writeIntegral]
  | .enumeration _ _, v, _, b => by simp [store, Builder.writeIntegral]
  | .address, v, hv, b => by
    cases v with
    | slice s => exact Builder.writeSlice_canon hv b
    | _ => rfl
  | .addressStd, v, hv, b => by
    cases v with
    | slice s =>
      have h1 := Slice.Valid.length_bits hv
      have h2 := (Slice.valid_ofCell s.toCell).length_bits
      have h3 : (Slice.ofCell s.toCell).bits = s.bits :=
        congrArg Cell.bits (Slice.toCell_ofCell _)
      have h4 : (Slice.ofCell s.toCell).bitCount = s.bitCount := by rw [← h2, ← h1, h3]
      simp only [store, Value.canon, Value.toSlice, pure_eq_ok, ok_bind, h4]
      rw [Builder.writeSlice_canon hv]
    | _ => rfl
  | .cell, v, _, b => by simp [store]
  | .bytes, v, _, b => by simp [store]
  | .string, v, _, b => by simp [store]
  | .mapping _ _, v, _, b => by rw [store, store, Builder.writeDict_canon]
  | .array _ _, v, hv, b => by
    cases v with
    | tuple vs =>
      match vs with
      | [] | [_] | _ :: _ :: _ :: _ => rfl
      | [n, d] =>
        simp [store, Value.canon, Value.canonAll, Value.toTuple, Builder.writeDict_canon]
    | _ => rfl
  | .varInteger _ _, v, _, b => by simp [store]
  | .optional t, v, hv, b => by
    cases v with
    | null => rfl
    | tuple vs =>
      by_cases hn : t.mayBeNull = true
      · match vs, hv with
        | [], _ | _ :: _ :: _, _ =>
          simp [store, Value.canon, Value.canonAll, hn, Value.unwrapSingleton, Value.toTuple]
        | [w], hv =>
          have ih := store_canon t (v := w) hv.1
          simp [store, Value.canon, Value.canonAll, hn, Value.unwrapSingleton, Value.toTuple, ih]
      · have ih := store_canon t (v := .tuple vs) hv
        rw [Value.canon] at ih
        simp [store, Value.canon, hn, ih]
    | slice s =>
      have ih := store_canon t (v := .slice s) hv
      rw [Value.canon] at ih
      by_cases hn : t.mayBeNull = true
      · simp [store, Value.canon, hn, Value.unwrapSingleton, Value.toTuple, Value.kind]
      · simp [store, Value.canon, hn, ih]
    | _ => rfl
  | .struct _ fs, v, hv, b => by
    cases v with
    | tuple vs =>
      simp only [store, Value.canon, Value.toTuple, pure_eq_ok, ok_bind, Value.length_canonAll]
      rw [storeFields_canon fs hv]
    | _ => rfl
  | .tuple ts, v, hv, b => by
    cases v with
    | tuple vs =>
      simp only [store, Value.canon, Value.toTuple, pure_eq_ok, ok_bind, Value.length_canonAll]
      rw [storeAll_canon ts hv]
    | _ => rfl
  | .alias _ t, v, hv, b => by rw [store, store, store_canon t hv]

theorem storeAll_canon : ∀ (ts : List Ty) {vs : List Value}, Value.ValidAll vs → ∀ b,
    storeAll ts (Value.canonAll vs) b = storeAll ts vs b
  | [], _, _, _ => by simp [storeAll]
  | _ :: _, [], _, _ => rfl
  | t :: ts, v :: vs, hv, b => by
    simp only [Value.canonAll, storeAll, store_canon t hv.1, storeAll_canon ts hv.2]

theorem storeFields_canon : ∀ (fs : List (Field Ty)) {vs : List Value}, Value.ValidAll vs → ∀ b,
    storeFields fs (Value.canonAll vs) b = storeFields fs vs b
  | [], _, _, _ => by simp [storeFields]
  | _ :: _, [], _, _ => rfl
  | ⟨_, t⟩ :: fs, v :: vs, hv, b => by
    simp only [Value.canonAll, storeFields, store_canon t hv.1, storeFields_canon fs hv.2]

end

end Ty

end TypedCells
