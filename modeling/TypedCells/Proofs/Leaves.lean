import TypedCells.Gen.Read
import TypedCells.Proofs.Generators
import TypedCells.Proofs.Locality

/-!
# Data as a row of leaves

Stored data is read leaf by leaf. `PackedLeaf.fetchAll` reads a row of leaves off a slice, following
a link in front of each leaf that opens a cell, and `Ty.build` puts the values of its leaves
together to a value of a type. `Position.passAll` is the row that a position gives for the leaves of
types.
-/

namespace TypedCells

namespace Ty

/-! ### Types by their leaves -/

/-- The type is neither a structure nor a name for another type. -/
def IsLeaf : Ty → Prop
  | .struct _ _ => False
  | .alias _ _ => False
  | _ => True

section Induction

set_option linter.unusedSectionVars false

variable {P : Ty → Prop} {Q : List (Field Ty) → Prop} (leaf : ∀ t, t.IsLeaf → P t)
  (struct : ∀ x fs, Q fs → P (.struct x fs)) (named : ∀ x t, P t → P (.alias x t)) (nil : Q [])
  (cons : ∀ x t fs, P t → Q fs → Q (⟨x, t⟩ :: fs))

include leaf struct named nil cons

mutual

/-- Induction on a type down to its leaves. -/
theorem leafInduction : ∀ t, P t
  | .integer .. | .bool | .address | .addressStd | .cell | .bytes | .string | .fixedBytes _
  | .function | .enumeration .. | .varInteger .. | .array .. | .mapping .. | .optional _
  | .tuple _ => leaf _ trivial
  | .struct x fs => struct x fs (fieldInduction fs)
  | .alias x t => named x t (leafInduction t)

/-- Induction on the members of a structure down to their leaves. -/
theorem fieldInduction : ∀ fs, Q fs
  | [] => nil
  | ⟨x, t⟩ :: fs => cons x t fs (leafInduction t) (fieldInduction fs)

end

end Induction

theorem leaves_leaf {t : Ty} (h : t.IsLeaf) : t.leaves = [t] := by
  cases t <;> first | rfl | exact h.elim

theorem isLeaf_of_mem_leaves (t : Ty) : ∀ l ∈ t.leaves, l.IsLeaf := by
  refine leafInduction (P := fun t => ∀ l ∈ t.leaves, l.IsLeaf)
    (Q := fun fs => ∀ l ∈ fieldLeaves fs, l.IsLeaf) (fun t h => ?_) (fun x fs h => h)
    (fun x t h => h) (by simp [fieldLeaves]) (fun x t fs ht hfs l hl => ?_) t
  · simpa [leaves_leaf h] using h
  · rw [fieldLeaves, List.mem_append] at hl
    exact hl.elim (ht l) (hfs l)

theorem allLeaves_of_forall {ts : List Ty} (h : ∀ t ∈ ts, t.IsLeaf) : allLeaves ts = ts := by
  induction ts with
  | nil => rfl
  | cons t ts ih =>
    obtain ⟨ht, hts⟩ := List.forall_mem_cons.1 h
    rw [allLeaves, List.flatMap_cons, leaves_leaf ht]
    exact congrArg (t :: ·) (ih hts)

theorem isLeaf_of_mem_allLeaves {ts : List Ty} {l : Ty} (h : l ∈ allLeaves ts) : l.IsLeaf := by
  obtain ⟨t, -, hl⟩ := List.mem_flatMap.1 h
  exact isLeaf_of_mem_leaves t l hl

mutual

/-- Every structure in the type has a member. -/
def Populated : Ty → Prop
  | .struct _ fs => fs ≠ [] ∧ PopulatedFields fs
  | .alias _ t => t.Populated
  | _ => True

/-- Every structure in the types of members has a member. -/
def PopulatedFields : List (Field Ty) → Prop
  | [] => True
  | ⟨_, t⟩ :: fs => t.Populated ∧ PopulatedFields fs

end

/-! ### Types that start or end in a leaf -/

mutual

/-- Whether a leaf comes first in the type, with no member in front of it. -/
def startsInLeaf : Ty → Bool
  | .struct _ fs => fieldsStartInLeaf fs
  | .alias _ t => t.startsInLeaf
  | _ => true

/-- Whether a leaf comes first in the first of the members. -/
def fieldsStartInLeaf : List (Field Ty) → Bool
  | [] => false
  | ⟨_, t⟩ :: _ => t.startsInLeaf

end

mutual

/-- Whether a leaf comes last in the type, with no member behind it. -/
def endsInLeaf : Ty → Bool
  | .struct _ fs => fieldsEndInLeaf fs
  | .alias _ t => t.endsInLeaf
  | _ => true

/-- Whether a leaf comes last in the last of the members. -/
def fieldsEndInLeaf : List (Field Ty) → Bool
  | [] => false
  | [⟨_, t⟩] => t.endsInLeaf
  | _ :: f :: fs => fieldsEndInLeaf (f :: fs)

end

theorem startsInLeaf_leaf {t : Ty} (h : t.IsLeaf) : t.startsInLeaf = true := by
  cases t <;> first | rfl | exact h.elim

theorem endsInLeaf_leaf {t : Ty} (h : t.IsLeaf) : t.endsInLeaf = true := by
  cases t <;> first | rfl | exact h.elim

theorem Populated.startsInLeaf (t : Ty) : t.Populated → t.startsInLeaf = true := by
  refine leafInduction (P := fun t => t.Populated → t.startsInLeaf = true)
    (Q := fun fs => fs ≠ [] ∧ PopulatedFields fs → fieldsStartInLeaf fs = true)
    (fun t h _ => startsInLeaf_leaf h) (fun x fs ih => ih) (fun x t ih => ih)
    (fun h => absurd rfl h.1) (fun x t fs iht _ h => iht h.2.1) t

theorem Populated.endsInLeaf (t : Ty) : t.Populated → t.endsInLeaf = true := by
  refine leafInduction (P := fun t => t.Populated → t.endsInLeaf = true)
    (Q := fun fs => fs ≠ [] ∧ PopulatedFields fs → fieldsEndInLeaf fs = true)
    (fun t h _ => endsInLeaf_leaf h) (fun x fs ih => ih) (fun x t ih => ih)
    (fun h => absurd rfl h.1) (fun x t fs iht ihfs h => ?_) t
  rcases fs with _ | ⟨f, fs⟩
  · exact iht h.2.1
  · exact ihfs ⟨List.cons_ne_nil _ _, h.2.2⟩

theorem leaves_ne_nil (t : Ty) : t.startsInLeaf = true → t.leaves ≠ [] := by
  refine leafInduction (P := fun t => t.startsInLeaf = true → t.leaves ≠ [])
    (Q := fun fs => fieldsStartInLeaf fs = true → fieldLeaves fs ≠ []) (fun t h _ => ?_)
    (fun x fs ih => ih) (fun x t ih => ih) nofun (fun x t fs iht _ h => ?_) t
  · simp [leaves_leaf h]
  · simp [fieldLeaves, iht h]

/-! ### Values by the values of their leaves -/

mutual

/-- The value of a type whose leaves have the given values. -/
def build : Ty → List Value → Value
  | .struct _ fs, xs => .tuple (buildFields fs xs)
  | .alias _ t, xs => t.build xs
  | _, xs => xs.headD .null

/-- The members of a structure whose leaves have the given values. -/
def buildFields : List (Field Ty) → List Value → List Value
  | [], _ => []
  | ⟨_, t⟩ :: fs, xs =>
    t.build (xs.take t.leaves.length) :: buildFields fs (xs.drop t.leaves.length)

end

/-- The values of types whose leaves have the given values. -/
def buildAll : List Ty → List Value → List Value
  | [], _ => []
  | t :: ts, xs => t.build (xs.take t.leaves.length) :: buildAll ts (xs.drop t.leaves.length)

theorem build_leaf {t : Ty} (h : t.IsLeaf) (xs : List Value) : t.build xs = xs.headD .null := by
  cases t <;> first | rfl | exact h.elim

@[simp] theorem length_buildFields : ∀ (fs : List (Field Ty)) (xs : List Value),
    (buildFields fs xs).length = fs.length
  | [], _ => rfl
  | ⟨_, _⟩ :: fs, xs => by simp [buildFields, length_buildFields fs]

@[simp] theorem length_buildAll : ∀ (ts : List Ty) (xs : List Value),
    (buildAll ts xs).length = ts.length
  | [], _ => rfl
  | _ :: ts, xs => by simp [buildAll, length_buildAll ts]

theorem buildFields_append {x : String} {t : Ty} {fs : List (Field Ty)} {xs ys : List Value}
    (h : xs.length = t.leaves.length) :
    buildFields (⟨x, t⟩ :: fs) (xs ++ ys) = t.build xs :: buildFields fs ys := by
  rw [buildFields, ← h, List.take_left, List.drop_left]

theorem buildAll_append {t : Ty} {ts : List Ty} {xs ys : List Value}
    (h : xs.length = t.leaves.length) :
    buildAll (t :: ts) (xs ++ ys) = t.build xs :: buildAll ts ys := by
  rw [buildAll, ← h, List.take_left, List.drop_left]

theorem exists_append_of_length {α : Type} {xs : List α} {n m : Nat} (h : xs.length = n + m) :
    ∃ ys zs, xs = ys ++ zs ∧ ys.length = n ∧ zs.length = m :=
  ⟨xs.take n, xs.drop n, (List.take_append_drop ..).symm, by rw [List.length_take]; omega,
    by rw [List.length_drop]; omega⟩

theorem allLeaves_append (ts ts' : List Ty) :
    allLeaves (ts ++ ts') = allLeaves ts ++ allLeaves ts' := List.flatMap_append

theorem buildAll_append_all : ∀ {ts ts' : List Ty} {xs ys : List Value},
    xs.length = (allLeaves ts).length →
    buildAll (ts ++ ts') (xs ++ ys) = buildAll ts xs ++ buildAll ts' ys
  | [], _, xs, _, h => by
    obtain rfl := List.length_eq_zero_iff.1 h
    rfl
  | t :: ts, ts', xs, ys, h => by
    rw [allLeaves, List.flatMap_cons, List.length_append] at h
    have hdrop : (xs.drop t.leaves.length).length = (allLeaves ts).length := by
      rw [List.length_drop, h, Nat.add_sub_cancel_left]
      rfl
    rw [List.cons_append, buildAll, buildAll, List.take_append_of_le_length (by omega),
      List.drop_append_of_le_length (by omega), buildAll_append_all hdrop, List.cons_append]

theorem canon_build (t : Ty) : ∀ xs, (t.build xs).canon = t.build (Value.canonAll xs) := by
  refine leafInduction (P := fun t => ∀ xs, (t.build xs).canon = t.build (Value.canonAll xs))
    (Q := fun fs => ∀ xs, Value.canonAll (buildFields fs xs) = buildFields fs (Value.canonAll xs))
    (fun t h xs => ?_) (fun x fs h xs => ?_) (fun x t h xs => ?_) (fun xs => rfl)
    (fun x t fs ht hfs xs => ?_) t
  · rw [build_leaf h, build_leaf h]
    cases xs <;> rfl
  · simp only [build, Value.canon, h]
  · simp only [build, h]
  · simp only [buildFields, Value.canonAll, ht, hfs, Value.canonAll_take, Value.canonAll_drop]

theorem canonAll_buildAll : ∀ (ts : List Ty) (xs : List Value),
    Value.canonAll (buildAll ts xs) = buildAll ts (Value.canonAll xs)
  | [], _ => rfl
  | t :: ts, xs => by
    simp only [buildAll, Value.canonAll, canon_build, canonAll_buildAll ts, Value.canonAll_take,
      Value.canonAll_drop]

/-- A value tells the values of its leaves. -/
theorem build_inj (t : Ty) : ∀ {xs ys : List Value}, xs.length = t.leaves.length →
    ys.length = t.leaves.length → t.build xs = t.build ys → xs = ys := by
  refine leafInduction
    (P := fun t => ∀ {xs ys : List Value}, xs.length = t.leaves.length →
      ys.length = t.leaves.length → t.build xs = t.build ys → xs = ys)
    (Q := fun fs => ∀ {xs ys : List Value}, xs.length = (fieldLeaves fs).length →
      ys.length = (fieldLeaves fs).length → buildFields fs xs = buildFields fs ys → xs = ys)
    (fun t h xs ys hx hy he => ?_) (fun x fs ih xs ys hx hy he => ih hx hy (Value.tuple.inj he))
    (fun x t ih xs ys hx hy he => ih hx hy he) (fun hx hy _ => ?_)
    (fun x t fs iht ihfs xs ys hx hy he => ?_) t
  · rw [leaves_leaf h, List.length_singleton, List.length_eq_one_iff] at hx hy
    obtain ⟨v, rfl⟩ := hx
    obtain ⟨w, rfl⟩ := hy
    rw [build_leaf h, build_leaf h] at he
    exact congrArg (fun v => [v]) he
  · rw [List.length_eq_zero_iff.1 hx, List.length_eq_zero_iff.1 hy]
  · rw [fieldLeaves, List.length_append] at hx hy
    obtain ⟨xs, xs', rfl, hx, hx'⟩ := exists_append_of_length hx
    obtain ⟨ys, ys', rfl, hy, hy'⟩ := exists_append_of_length hy
    rw [buildFields_append hx, buildFields_append hy] at he
    obtain ⟨h1, h2⟩ := List.cons.inj he
    rw [iht hx hy h1, ihfs hx' hy' h2]

theorem buildAll_inj : ∀ {ts : List Ty} {xs ys : List Value}, xs.length = (allLeaves ts).length →
    ys.length = (allLeaves ts).length → buildAll ts xs = buildAll ts ys → xs = ys
  | [], _, _, hx, hy, _ => by rw [List.length_eq_zero_iff.1 hx, List.length_eq_zero_iff.1 hy]
  | t :: ts, xs, ys, hx, hy, he => by
    rw [allLeaves, List.flatMap_cons, List.length_append] at hx hy
    obtain ⟨xs, xs', rfl, hx, hx'⟩ := exists_append_of_length hx
    obtain ⟨ys, ys', rfl, hy, hy'⟩ := exists_append_of_length hy
    rw [buildAll_append hx, buildAll_append hy] at he
    obtain ⟨h1, h2⟩ := List.cons.inj he
    rw [build_inj t hx hy h1, buildAll_inj hx' hy' h2]

/-! ### Ordinals -/

/-- Whether a value of the type is in range if it is an ordinal. -/
def inRange : Ty → Value → Bool
  | .enumeration _ variants, .int k => k < variants
  | _, _ => true

theorem inRange_canon (t : Ty) (v : Value) : t.inRange v.canon = t.inRange v := by
  cases t <;> cases v <;> rfl

end Ty

/-! ### Reading leaves -/

/-- Opens the cell behind a slice that holds nothing but a link. -/
def Slice.follow (s : Slice) : Except Trap Slice := do
  let (c, s) ← s.readRef
  if s.isEmpty then return .ofCell c else throw .cellUnderflow

theorem Slice.follow_shows {s s' : Slice} (hs : s.Valid) (h : s.follow = .ok s') :
    s.toCell = .link s'.toCell := by
  simp only [follow, bind_eq_ok] at h
  obtain ⟨⟨c, r⟩, h1, h2⟩ := h
  obtain ⟨d, hc, rfl⟩ := readRef_shows hs h1
  split at h2
  · next he =>
    obtain rfl := Except.ok.inj h2
    have hd := (hs.past hc).isEmpty_iff.1 he
    rw [toCell_past hc] at hd
    rw [hc, hd, Cell.append_empty, toCell_ofCell]
  · simp at h2

/-- A link is followed from exactly the slices that show one reference and no bits. -/
theorem Slice.follow_cases {s : Slice} (hs : s.Valid) :
    (s.bitCount = 0 ∧ s.refCount = 1 ∧ ∃ s', s.follow = .ok s') ∨
      (¬ (s.bitCount = 0 ∧ s.refCount = 1) ∧ s.follow = .error .cellUnderflow) := by
  by_cases h0 : s.refCount = 0
  · refine .inr ⟨by omega, ?_⟩
    simp [follow, readRef, h0]
  · obtain ⟨c, hc⟩ : ∃ c, s.cell.refs[s.refStart]? = some c := by
      have h1 := hs.refs_stop
      rw [refCount] at h0
      exact ⟨_, List.getElem?_eq_getElem (by omega)⟩
    have hr : s.readRef = .ok (c, s.advance 0 1) := readRef_eq_ok.2 ⟨h0, hc, rfl⟩
    by_cases h1 : s.bitCount = 0 ∧ s.refCount = 1
    · refine .inl ⟨h1.1, h1.2, .ofCell c, ?_⟩
      simp [follow, hr, isEmpty, h1.1, h1.2]
    · refine .inr ⟨h1, ?_⟩
      have he : (s.advance 0 1).isEmpty = false := by
        simp only [isEmpty, bitCount_advance, refCount_advance, Bool.and_eq_false_iff,
          beq_eq_false_iff_ne]
        omega
      simp [follow, hr, he]

namespace PackedLeaf

/-- Goes to the next cell if the leaf opens one. -/
def enter (l : PackedLeaf) (s : Slice) : Except Trap Slice :=
  if l.opensCell then s.follow else return s

/-- Reads a leaf, from the next cell if the leaf opens one. -/
def fetch (l : PackedLeaf) (s : Slice) : Except Trap (Value × Slice) := do
  let s ← l.enter s
  let (v, s) ← l.type.load s
  if l.type.inRange v then return (v, s) else throw (.exception badOrdinal)

/-- Reads leaves in turn. -/
def fetchAll : List PackedLeaf → Slice → Except Trap (List Value × Slice)
  | [], s => return ([], s)
  | l :: ls, s => do
    let (v, s) ← l.fetch s
    let (vs, s) ← fetchAll ls s
    return (v :: vs, s)

theorem fetchAll_singleton (l : PackedLeaf) (s : Slice) :
    fetchAll [l] s = do
      let (v, s) ← l.fetch s
      return ([v], s) := by
  simp only [fetchAll]
  rcases l.fetch s with e | ⟨v, s'⟩ <;> rfl

/-- The first leaf of a cell is read from the cell behind the link. -/
theorem fetch_opens (t : Ty) (s : Slice) :
    fetch ⟨t, true⟩ s = s.follow >>= fetch ⟨t, false⟩ := by
  simp only [fetch, enter, if_true]
  rcases s.follow with e | s' <;> rfl

theorem fetchAll_append (ls ls' : List PackedLeaf) (s : Slice) :
    fetchAll (ls ++ ls') s = do
      let (vs, s) ← fetchAll ls s
      let (ws, s) ← fetchAll ls' s
      return (vs ++ ws, s) := by
  induction ls generalizing s with
  | nil =>
    simp only [List.nil_append, fetchAll, pure_eq_ok, ok_bind]
    rcases fetchAll ls' s with e | ⟨ws, s'⟩ <;> rfl
  | cons l ls ih =>
    simp only [List.cons_append, fetchAll]
    rcases l.fetch s with e | ⟨v, s'⟩
    · rfl
    · simp only [ok_bind, ih]
      rcases fetchAll ls s' with e | ⟨vs, s''⟩
      · rfl
      · simp only [ok_bind, pure_eq_ok]
        rcases fetchAll ls' s'' with e | ⟨ws, s'''⟩ <;> rfl

theorem length_fetchAll : ∀ {ls : List PackedLeaf} {s s' : Slice} {vs : List Value},
    fetchAll ls s = .ok (vs, s') → vs.length = ls.length
  | [], s, s', vs, h => by
    simp only [fetchAll, pure_eq_ok, Except.ok.injEq, Prod.mk.injEq] at h
    rw [← h.1]
    rfl
  | l :: ls, s, s', vs, h => by
    simp only [fetchAll, bind_eq_ok, pure_eq_ok, Except.ok.injEq, Prod.mk.injEq] at h
    obtain ⟨_, -, ⟨ws, r⟩, h1, rfl, -⟩ := h
    simp [length_fetchAll h1]

theorem fetch_eq_ok {l : PackedLeaf} {s s' : Slice} {v : Value} (h : l.fetch s = .ok (v, s')) :
    ∃ r, l.enter s = .ok r ∧ l.type.load r = .ok (v, s') ∧ l.type.inRange v = true := by
  simp only [fetch, bind_eq_ok] at h
  obtain ⟨r, h1, ⟨w, r'⟩, h2, h3⟩ := h
  split at h3
  · next hi =>
    obtain ⟨rfl, rfl⟩ := Prod.mk.inj (Except.ok.inj h3)
    exact ⟨r, h1, h2, hi⟩
  · simp at h3

theorem enter_valid {l : PackedLeaf} {s r : Slice} (hs : s.Valid) (h : l.enter s = .ok r) :
    r.Valid := by
  unfold enter at h
  split at h
  · simp only [Slice.follow, bind_eq_ok] at h
    obtain ⟨⟨c, t⟩, -, h⟩ := h
    split at h
    · obtain rfl := Except.ok.inj h
      exact Slice.valid_ofCell c
    · simp at h
  · obtain rfl := Except.ok.inj h
    exact hs

theorem fetch_valid {l : PackedLeaf} {s s' : Slice} {v : Value} (hs : s.Valid)
    (h : l.fetch s = .ok (v, s')) : v.Valid ∧ s'.Valid := by
  obtain ⟨r, h1, h2, -⟩ := fetch_eq_ok h
  have hr := enter_valid hs h1
  obtain ⟨n, m, hm, -⟩ := Ty.load_moves _ h2
  exact ⟨Ty.load_valid _ hr h2, hm.valid hr⟩

theorem fetchAll_cons_eq_ok {l : PackedLeaf} {ls : List PackedLeaf} {s s' : Slice}
    {vs : List Value} (h : fetchAll (l :: ls) s = .ok (vs, s')) :
    ∃ v ws r, l.fetch s = .ok (v, r) ∧ fetchAll ls r = .ok (ws, s') ∧ vs = v :: ws := by
  simp only [fetchAll, bind_eq_ok, pure_eq_ok, Except.ok.injEq, Prod.mk.injEq] at h
  obtain ⟨⟨v, r⟩, h1, ⟨ws, r'⟩, h2, rfl, rfl⟩ := h
  exact ⟨v, ws, r, h1, h2, rfl⟩

theorem fetchAll_append_eq_ok {ls ls' : List PackedLeaf} {s s' : Slice} {xs : List Value}
    (h : fetchAll (ls ++ ls') s = .ok (xs, s')) :
    ∃ vs ws r, fetchAll ls s = .ok (vs, r) ∧ fetchAll ls' r = .ok (ws, s') ∧ xs = vs ++ ws := by
  simp only [fetchAll_append, bind_eq_ok, pure_eq_ok, Except.ok.injEq, Prod.mk.injEq] at h
  obtain ⟨⟨vs, r⟩, h1, ⟨ws, r'⟩, h2, rfl, rfl⟩ := h
  exact ⟨vs, ws, r, h1, h2, rfl⟩

theorem fetchAll_valid : ∀ {ls : List PackedLeaf} {s s' : Slice} {vs : List Value}, s.Valid →
    fetchAll ls s = .ok (vs, s') → Value.ValidAll vs ∧ s'.Valid
  | [], s, s', vs, hs, h => by
    simp only [fetchAll, pure_eq_ok, Except.ok.injEq, Prod.mk.injEq] at h
    obtain ⟨rfl, rfl⟩ := h
    exact ⟨trivial, hs⟩
  | l :: ls, s, s', vs, hs, h => by
    obtain ⟨v, ws, r, h1, h2, rfl⟩ := fetchAll_cons_eq_ok h
    obtain ⟨hv, hr⟩ := fetch_valid hs h1
    obtain ⟨hws, hs'⟩ := fetchAll_valid hr h2
    exact ⟨⟨hv, hws⟩, hs'⟩

/-- The leaves as seen from the cell that the first one opens. -/
def entered : List PackedLeaf → List PackedLeaf
  | [] => []
  | l :: ls => { l with opensCell := false } :: ls

@[simp] theorem length_entered (ls : List PackedLeaf) : (entered ls).length = ls.length := by
  cases ls <;> rfl

theorem entered_append {ls : List PackedLeaf} (h : ls ≠ []) (ls' : List PackedLeaf) :
    entered (ls ++ ls') = entered ls ++ ls' := by
  cases ls with
  | nil => exact absurd rfl h
  | cons l ls => rfl

/-- The leaves as a reader sees them that follows the link to the first one or has done so. -/
def seen (follow : Bool) (ls : List PackedLeaf) : List PackedLeaf :=
  if follow then ls else entered ls

@[simp] theorem seen_true (ls : List PackedLeaf) : seen true ls = ls := rfl

@[simp] theorem seen_false (ls : List PackedLeaf) : seen false ls = entered ls := rfl

@[simp] theorem seen_nil (follow : Bool) : seen follow [] = [] := by cases follow <;> rfl

@[simp] theorem length_seen (follow : Bool) (ls : List PackedLeaf) :
    (seen follow ls).length = ls.length := by
  cases follow <;> simp

theorem seen_append {follow : Bool} {ls : List PackedLeaf} (h : follow = true ∨ ls ≠ [])
    (ls' : List PackedLeaf) : seen follow (ls ++ ls') = seen follow ls ++ ls' := by
  cases follow with
  | true => rfl
  | false => exact entered_append (h.resolve_left Bool.false_ne_true) ls'

end PackedLeaf

/-! ### The leaves at a position -/

namespace Position

/-- Passes leaves in turn and gives the row that they make. -/
def passAll : List Ty → Position → Except GenError (List PackedLeaf × Position)
  | [], p => return ([], p)
  | t :: ts, p => do
    let (opens, p) ← p.skip t
    let (ls, p) ← passAll ts p
    return (⟨t, opens⟩ :: ls, p)

theorem passAll_singleton {t : Ty} {p p' : Position} {ls : List PackedLeaf}
    (h : passAll [t] p = .ok (ls, p')) :
    ∃ opens, p.skip t = .ok (opens, p') ∧ ls = [⟨t, opens⟩] := by
  simp only [passAll, bind_eq_ok, pure_eq_ok, Except.ok.injEq, Prod.mk.injEq] at h
  obtain ⟨⟨opens, q⟩, hs, _, ⟨rfl, rfl⟩, rfl, rfl⟩ := h
  exact ⟨opens, hs, rfl⟩

theorem passAll_append {ts ts' : List Ty} {p p' p'' : Position} {ls ls' : List PackedLeaf}
    (h : passAll ts p = .ok (ls, p')) (h' : passAll ts' p' = .ok (ls', p'')) :
    passAll (ts ++ ts') p = .ok (ls ++ ls', p'') := by
  induction ts generalizing p ls with
  | nil =>
    simp only [passAll, pure_eq_ok, Except.ok.injEq, Prod.mk.injEq] at h
    obtain ⟨rfl, rfl⟩ := h
    exact h'
  | cons t ts ih =>
    simp only [passAll, bind_eq_ok, pure_eq_ok, Except.ok.injEq, Prod.mk.injEq] at h
    obtain ⟨⟨opens, q⟩, h1, ⟨ms, q'⟩, h2, rfl, rfl⟩ := h
    simp only [List.cons_append, passAll, h1, ih h2, ok_bind, pure_eq_ok]

theorem passAll_append_eq_ok {ts ts' : List Ty} {p p'' : Position} {ls : List PackedLeaf}
    (h : passAll (ts ++ ts') p = .ok (ls, p'')) :
    ∃ ks ks' p', passAll ts p = .ok (ks, p') ∧ passAll ts' p' = .ok (ks', p'') := by
  induction ts generalizing p ls with
  | nil => exact ⟨[], ls, p, rfl, h⟩
  | cons t ts ih =>
    simp only [List.cons_append, passAll, bind_eq_ok, pure_eq_ok, Except.ok.injEq,
      Prod.mk.injEq] at h
    obtain ⟨⟨opens, q⟩, h1, ⟨ms, q'⟩, h2, -, rfl⟩ := h
    obtain ⟨ks, ks', p', h3, h4⟩ := ih h2
    exact ⟨⟨t, opens⟩ :: ks, ks', p', by simp [passAll, h1, h3], h4⟩

theorem passAll_types : ∀ {ts : List Ty} {p p' : Position} {ls : List PackedLeaf},
    passAll ts p = .ok (ls, p') → ls.map (·.type) = ts
  | [], p, p', ls, h => by
    simp only [passAll, pure_eq_ok, Except.ok.injEq, Prod.mk.injEq] at h
    rw [← h.1]
    rfl
  | t :: ts, p, p', ls, h => by
    simp only [passAll, bind_eq_ok, pure_eq_ok, Except.ok.injEq, Prod.mk.injEq] at h
    obtain ⟨_, -, ⟨ms, q⟩, h1, rfl, -⟩ := h
    simp [passAll_types h1]

theorem length_passAll {ts : List Ty} {p p' : Position} {ls : List PackedLeaf}
    (h : passAll ts p = .ok (ls, p')) : ls.length = ts.length := by
  rw [← passAll_types h, List.length_map]

/-- Leaves that can be passed make the two parts of a row in turn. -/
theorem passAll_split {ts ts' : List Ty} {p p'' : Position} {ls : List PackedLeaf}
    (h : passAll (ts ++ ts') p = .ok (ls, p'')) :
    ∃ p', passAll ts p = .ok (ls.take ts.length, p') ∧
      passAll ts' p' = .ok (ls.drop ts.length, p'') := by
  obtain ⟨ks, ks', p', h1, h2⟩ := passAll_append_eq_ok h
  obtain ⟨rfl, -⟩ := Prod.mk.inj (Except.ok.inj (h.symm.trans (passAll_append h1 h2)))
  rw [← length_passAll h1, List.take_left, List.drop_left]
  exact ⟨p', h1, h2⟩

/-- In a packing, the leaves passed are the next ones of the packing. -/
theorem passAll_packed : ∀ {ts : List Ty} {k : Packing} {i : Nat} {p : Position}
    {ls : List PackedLeaf}, passAll ts (.packed ⟨k, i⟩) = .ok (ls, p) →
      p = .packed ⟨k, i + ts.length⟩ ∧ ls = (k.leaves.drop i).take ts.length
  | [], k, i, p, ls, h => by
    simp only [passAll, pure_eq_ok, Except.ok.injEq, Prod.mk.injEq] at h
    obtain ⟨rfl, rfl⟩ := h
    simp
  | t :: ts, k, i, p, ls, h => by
    simp only [passAll, Position.skip, bind_eq_ok, pure_eq_ok, Except.ok.injEq, Prod.mk.injEq,
      Prod.exists] at h
    obtain ⟨opens, q, ⟨_, c, h1, rfl, rfl⟩, ms, q', h2, rfl, rfl⟩ := h
    simp only [Cursor.skip] at h1
    rcases hl : k.leaves[i]? with _ | l
    · simp [hl] at h1
    · simp only [hl] at h1
      split at h1
      · next ht =>
        simp only [pure_eq_ok, Except.ok.injEq, Prod.mk.injEq] at h1
        obtain ⟨rfl, rfl⟩ := h1
        obtain ⟨rfl, rfl⟩ := passAll_packed h2
        obtain ⟨hi, hg⟩ := List.getElem?_eq_some_iff.1 hl
        refine ⟨by simp [Nat.add_assoc, Nat.add_comm 1], ?_⟩
        rw [List.length_cons, List.drop_eq_getElem_cons hi, List.take_succ_cons, hg, ← ht]
      · simp at h1

/-- The next leaves of a packing can be passed. -/
theorem passAll_next : ∀ {ls rest : List PackedLeaf} {k : Packing} {i : Nat},
    k.leaves.drop i = ls ++ rest →
    (Position.packed ⟨k, i⟩).passAll (ls.map (·.type)) = .ok (ls, .packed ⟨k, i + ls.length⟩)
  | [], _, _, _, _ => rfl
  | l :: ls, rest, k, i, h => by
    have hl : k.leaves[i]? = some l := by
      have := congrArg (·[0]?) h
      simpa using this
    have hskip : (Position.packed ⟨k, i⟩).skip l.type =
        .ok (l.opensCell, .packed ⟨k, i + 1⟩) := by
      simp [Position.skip, Cursor.skip, hl]
    have hdrop : k.leaves.drop (i + 1) = ls ++ rest := by
      rw [← List.drop_drop, h]
      rfl
    have hnext := passAll_next hdrop
    rw [List.map_cons, Position.passAll, hskip, ok_bind]
    simp only [hnext, ok_bind, pure_eq_ok, List.length_cons, Nat.add_assoc, Nat.add_comm 1]

end Position

/-! ### Leaves in two cells -/

/-- Types whose values take two cells: three references fit in front of the link. -/
def linkedTypes : List Ty :=
  [.cell, .cell, .cell, .struct "item" [⟨"data", .cell⟩, ⟨"kind", .enumeration "Kind" 3⟩],
    .optional (.mapping .bool .cell)]

/-- Their packing. -/
def linkedPacking : Packing :=
  ⟨[⟨.cell, false⟩, ⟨.cell, false⟩, ⟨.cell, false⟩, ⟨.cell, true⟩,
    ⟨.enumeration "Kind" 3, false⟩, ⟨.optional (.mapping .bool .cell), false⟩]⟩

end TypedCells
