import Mathlib.Algebra.GroupWithZero.Nat
import TypedCells.Proofs.Images
import TypedCells.Proofs.Leaves

/-!
# Types and their leaves

Data is laid out leaf by leaf, while the machine writes and reads whole values. A value in which
every structure has a tuple of its members (`Ty.Matches`) is cut into the values of its leaves
(`Ty.leafValues`), and `Ty.build` undoes this. Nothing of a structure is stored but its members, so
the whole and the row of its leaves take the same room, and are written and read alike.

* `Ty.flatten_faithful`: the size, the writing and the reading of a type by its leaves.
-/

namespace TypedCells

namespace Ty

/-! ### Values and the values of their leaves -/

mutual

/-- Every structure in the type, down to its leaves, has a tuple of its members in the value. -/
def Matches : Ty → Value → Prop
  | .struct _ fs, v => ∃ vs, v = .tuple vs ∧ MatchesFields fs vs
  | .alias _ t, v => t.Matches v
  | _, _ => True

/-- The values match the types of the members of a structure one by one. -/
def MatchesFields : List (Field Ty) → List Value → Prop
  | [], vs => vs = []
  | ⟨_, t⟩ :: fs, vs => ∃ w ws, vs = w :: ws ∧ t.Matches w ∧ MatchesFields fs ws

end

mutual

/-- The values of the leaves of a type in a value of the type. -/
def leafValues : Ty → Value → List Value
  | .struct _ fs, .tuple vs => fieldLeafValues fs vs
  | .alias _ t, v => t.leafValues v
  | _, v => [v]

/-- The values of the leaves of the members of a structure. -/
def fieldLeafValues : List (Field Ty) → List Value → List Value
  | ⟨_, t⟩ :: fs, v :: vs => t.leafValues v ++ fieldLeafValues fs vs
  | _, _ => []

end

theorem leafValues_leaf {t : Ty} (h : t.IsLeaf) (v : Value) : t.leafValues v = [v] := by
  cases t <;> first | rfl | exact h.elim

theorem matches_leaf {t : Ty} (h : t.IsLeaf) (v : Value) : t.Matches v := by
  cases t <;> trivial

theorem length_of_matchesFields : ∀ {fs : List (Field Ty)} {vs : List Value},
    MatchesFields fs vs → vs.length = fs.length
  | [], _, h => by rw [show _ = [] from h]; rfl
  | _ :: fs, _, h => by
    obtain ⟨w, ws, rfl, -, hws⟩ := h
    rw [List.length_cons, List.length_cons, length_of_matchesFields hws]

/-- A value that matches its type has a value for each leaf. -/
theorem Matches.length_leafValues (t : Ty) : ∀ {v : Value}, t.Matches v →
    (t.leafValues v).length = t.leaves.length := by
  refine leafInduction
    (P := fun t => ∀ {v}, t.Matches v → (t.leafValues v).length = t.leaves.length)
    (Q := fun fs => ∀ {vs}, MatchesFields fs vs →
      (fieldLeafValues fs vs).length = (fieldLeaves fs).length)
    (fun t h v _ => ?leaf) (fun x fs ih v hv => ?struct) (fun x t ih v hv => ih hv)
    (fun hv => ?nil) (fun x t fs iht ihfs vs hv => ?cons) t
  case leaf =>
    rw [leafValues_leaf h, leaves_leaf h]
    rfl
  case struct =>
    obtain ⟨vs, rfl, hvs⟩ := hv
    exact ih hvs
  case nil => rfl
  case cons =>
    obtain ⟨w, ws, rfl, hw, hws⟩ := hv
    rw [fieldLeafValues, fieldLeaves, List.length_append, List.length_append, iht hw, ihfs hws]

/-- Values of all leaves are those of the value built from them. -/
theorem leafValues_build (t : Ty) : ∀ {xs : List Value}, xs.length = t.leaves.length →
    t.Matches (t.build xs) ∧ t.leafValues (t.build xs) = xs := by
  refine leafInduction
    (P := fun t => ∀ {xs : List Value}, xs.length = t.leaves.length →
      t.Matches (t.build xs) ∧ t.leafValues (t.build xs) = xs)
    (Q := fun fs => ∀ {xs : List Value}, xs.length = (fieldLeaves fs).length →
      MatchesFields fs (buildFields fs xs) ∧ fieldLeafValues fs (buildFields fs xs) = xs)
    (fun t h xs hl => ?leaf) (fun x fs ih xs hl => ?struct) (fun x t ih xs hl => ih hl)
    (fun hl => ?nil) (fun x t fs iht ihfs xs hl => ?cons) t
  case leaf =>
    rw [leaves_leaf h, List.length_singleton, List.length_eq_one_iff] at hl
    obtain ⟨v, rfl⟩ := hl
    exact ⟨matches_leaf h _, by rw [build_leaf h, leafValues_leaf h]; rfl⟩
  case struct =>
    obtain ⟨hm, hv⟩ := ih hl
    exact ⟨⟨_, rfl, hm⟩, hv⟩
  case nil =>
    obtain rfl := List.length_eq_zero_iff.1 hl
    exact ⟨rfl, rfl⟩
  case cons =>
    rw [fieldLeaves, List.length_append] at hl
    obtain ⟨ys, zs, rfl, hy, hz⟩ := exists_append_of_length hl
    obtain ⟨hmy, hvy⟩ := iht hy
    obtain ⟨hmz, hvz⟩ := ihfs hz
    rw [buildFields_append hy]
    exact ⟨⟨_, _, rfl, hmy, hmz⟩, by rw [fieldLeafValues, hvy, hvz]⟩

/-! ### Rows of types -/

theorem storeAll_append : ∀ {ts ts' : List Ty} {vs vs' : List Value} (b : Builder),
    vs.length = ts.length →
    storeAll (ts ++ ts') (vs ++ vs') b = storeAll ts vs b >>= storeAll ts' vs'
  | [], ts', [], vs', b, _ => rfl
  | t :: ts, ts', v :: vs, vs', b, hl => by
    simp only [List.cons_append, storeAll]
    rcases t.store v b with e | b'
    · rfl
    · simp only [ok_bind, storeAll_append b' (Nat.succ.inj hl)]

theorem storeAll_singleton (t : Ty) (v : Value) (b : Builder) :
    storeAll [t] [v] b = t.store v b := by
  rw [storeAll]
  rcases t.store v b with e | b' <;> rfl

theorem loadAll_append (ts ts' : List Ty) (s : Slice) :
    loadAll (ts ++ ts') s = do
      let (xs, s) ← loadAll ts s
      let (ys, s) ← loadAll ts' s
      return (xs ++ ys, s) := by
  induction ts generalizing s with
  | nil =>
    simp only [List.nil_append, loadAll, pure_eq_ok, ok_bind]
    rcases loadAll ts' s with e | ⟨ys, s'⟩ <;> rfl
  | cons t ts ih =>
    simp only [List.cons_append, loadAll]
    rcases t.load s with e | ⟨v, s'⟩
    · rfl
    · simp only [ok_bind, ih]
      rcases loadAll ts s' with e | ⟨xs, s''⟩
      · rfl
      · simp only [ok_bind, pure_eq_ok]
        rcases loadAll ts' s'' with e | ⟨ys, s'''⟩ <;> rfl

/-! ### A type by its leaves -/

/-- The room of a type is that of its leaves together. -/
theorem size_eq_sum (t : Ty) :
    t.size = ⟨(t.leaves.map (·.size.bits)).sum, (t.leaves.map (·.size.refs)).sum,
      t.leaves.all (·.size.fixed), t.leaves.all (·.size.fixedRefs)⟩ := by
  refine leafInduction
    (P := fun t => t.size = ⟨(t.leaves.map (·.size.bits)).sum, (t.leaves.map (·.size.refs)).sum,
      t.leaves.all (·.size.fixed), t.leaves.all (·.size.fixedRefs)⟩)
    (Q := fun fs => fieldsSize fs = ⟨((fieldLeaves fs).map (·.size.bits)).sum,
      ((fieldLeaves fs).map (·.size.refs)).sum, (fieldLeaves fs).all (·.size.fixed),
      (fieldLeaves fs).all (·.size.fixedRefs)⟩)
    (fun t h => by simp [leaves_leaf h]) (fun x fs ih => ih) (fun x t ih => ih) rfl
    (fun x t fs iht ihfs => ?_) t
  rw [fieldsSize, fieldLeaves, iht, ihfs]
  simp only [List.map_append, List.sum_append, List.all_append]
  rfl

/-- **Writing a value is writing the values of its leaves in turn.** -/
theorem Matches.store_eq (t : Ty) : ∀ {v : Value}, t.Matches v → ∀ b,
    t.store v b = storeAll t.leaves (t.leafValues v) b := by
  refine leafInduction
    (P := fun t => ∀ {v}, t.Matches v → ∀ b, t.store v b = storeAll t.leaves (t.leafValues v) b)
    (Q := fun fs => ∀ {vs}, MatchesFields fs vs → ∀ b,
      storeFields fs vs b = storeAll (fieldLeaves fs) (fieldLeafValues fs vs) b)
    (fun t h v _ b => ?leaf) (fun x fs ih v hv b => ?struct) (fun x t ih v hv b => ih hv b)
    (fun hv b => ?nil) (fun x t fs iht ihfs vs hv b => ?cons) t
  case leaf => rw [leafValues_leaf h, leaves_leaf h, storeAll_singleton]
  case struct =>
    obtain ⟨vs, rfl, hvs⟩ := hv
    simp only [store, Value.toTuple, pure_eq_ok, ok_bind, if_pos (length_of_matchesFields hvs)]
    exact ih hvs b
  case nil =>
    rw [show _ = [] from hv]
    rfl
  case cons =>
    obtain ⟨w, ws, rfl, hw, hws⟩ := hv
    rw [fieldLeaves, fieldLeafValues, storeAll_append b (hw.length_leafValues t), ← iht hw b,
      storeFields]
    exact congrArg _ (funext (ihfs hws))

/-- **Reading a value is reading its leaves in turn** and building it from what they are. -/
theorem load_eq (t : Ty) : ∀ s, t.load s = do
    let (xs, s) ← loadAll t.leaves s
    return (t.build xs, s) := by
  refine leafInduction
    (P := fun t => ∀ s, t.load s = do
      let (xs, s) ← loadAll t.leaves s
      return (t.build xs, s))
    (Q := fun fs => ∀ s, loadFields fs s = do
      let (xs, s) ← loadAll (fieldLeaves fs) s
      return (buildFields fs xs, s))
    (fun t h s => ?leaf) (fun x fs ih s => ?struct) (fun x t ih s => ih s)
    (fun s => rfl) (fun x t fs iht ihfs s => ?cons) t
  case leaf =>
    simp only [leaves_leaf h, loadAll]
    rcases t.load s with e | ⟨v, s'⟩
    · rfl
    · simp [build_leaf h]
  case struct =>
    simp only [load, ih, leaves, build]
    rcases loadAll (fieldLeaves fs) s with e | ⟨xs, s'⟩ <;> rfl
  case cons =>
    simp only [loadFields, fieldLeaves, loadAll_append, iht]
    rcases h : loadAll t.leaves s with e | ⟨xs, s'⟩
    · rfl
    · simp only [ok_bind, pure_eq_ok, ihfs]
      rcases loadAll (fieldLeaves fs) s' with e | ⟨ys, s''⟩
      · rfl
      · simp only [ok_bind, buildFields_append (length_loadAll h)]

/-- **A type and its leaves are alike.** The type takes the room of its leaves together. A value
that matches the type is written as the values of its leaves are in turn, or traps as they do.
Reading the type reads the leaves in turn and builds the value that has these leaves, or traps as
they do. -/
theorem flatten_faithful (t : Ty) :
    t.size = ⟨(t.leaves.map (·.size.bits)).sum, (t.leaves.map (·.size.refs)).sum,
      t.leaves.all (·.size.fixed), t.leaves.all (·.size.fixedRefs)⟩ ∧
    (∀ v, t.Matches v → (t.leafValues v).length = t.leaves.length ∧
      ∀ b, t.store v b = storeAll t.leaves (t.leafValues v) b) ∧
    (∀ s, t.load s = (loadAll t.leaves s).map fun (xs, s') => (t.build xs, s')) ∧
    ∀ xs : List Value, xs.length = t.leaves.length →
      t.Matches (t.build xs) ∧ t.leafValues (t.build xs) = xs := by
  refine ⟨t.size_eq_sum, fun v hv => ⟨hv.length_leafValues t, hv.store_eq t⟩, fun s => ?_,
    fun xs hl => leafValues_build t hl⟩
  rw [load_eq]
  rcases loadAll t.leaves s with e | ⟨xs, s'⟩ <;> rfl

/-- A structure with one of no members in it, behind a name, and with a tuple that is a leaf. -/
def nestedType : Ty :=
  .struct "outer" [⟨"id", .alias "Id" (.struct "inner" [⟨"n", .integer 8 false⟩,
    ⟨"none", .struct "empty" []⟩])⟩, ⟨"pair", .tuple [.bool, .struct "box" [⟨"c", .cell⟩]]⟩]

/-- A value that matches it, though the tuple in it holds null where a cell should be. -/
def nestedValue : Value :=
  .tuple [.tuple [.int 5, .tuple []], .tuple [.int (-1), .tuple [.null]]]

/-- The leaves are the integer and the tuple. -/
theorem flatten_faithful_nested :
    nestedType.Matches nestedValue ∧
      (∀ b, nestedType.store nestedValue b =
        storeAll nestedType.leaves [.int 5, .tuple [.int (-1), .tuple [.null]]] b) ∧
      nestedType.Matches (nestedType.build [.int 5, .null]) ∧
      nestedType.leafValues (nestedType.build [.int 5, .null]) = [.int 5, .null] := by
  have hm : nestedType.Matches nestedValue :=
    ⟨_, rfl, _, _, rfl, ⟨_, rfl, _, _, rfl, trivial, _, _, rfl, ⟨_, rfl, rfl⟩, rfl⟩, _, _, rfl,
      trivial, rfl⟩
  obtain ⟨-, hstore, -, hbuild⟩ := flatten_faithful nestedType
  exact ⟨hm, (hstore _ hm).2, hbuild [.int 5, .null] rfl⟩

end Ty

end TypedCells
