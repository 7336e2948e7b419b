import Mathlib.Data.List.Forall2
import TypedCells.Patch.Update
import TypedCells.Proofs.Pieces

/-!
# Members without leaves

A structure may have members in which no leaf is stored. A type is thinned when some of them are
removed, at any place in it (`Ty.Thinned`). This changes the values of the type but none of its
leaves, so data of thinned types is packed as before, and a patch visits the same leaves.

* `Patch.ofMarks_thinned`: the patch of thinned types has the leaves of the patch of the types
  before, under owners with other types.
-/

namespace TypedCells

namespace Ty

mutual

/-- The second type is the first one without some members that have no leaves. -/
inductive Thinned : Ty → Ty → Prop where
  | refl (t : Ty) : Thinned t t
  | alias (x : String) {t t' : Ty} (h : Thinned t t') : Thinned (.alias x t) (.alias x t')
  | struct (x : String) {fs fs' : List (Field Ty)} (h : FieldsThinned fs fs') :
    Thinned (.struct x fs) (.struct x fs')

/-- The second members are the first ones without some that have no leaves. -/
inductive FieldsThinned : List (Field Ty) → List (Field Ty) → Prop where
  | nil : FieldsThinned [] []
  | keep (x : String) {t t' : Ty} {fs fs' : List (Field Ty)} (h : Thinned t t')
      (hs : FieldsThinned fs fs') : FieldsThinned (⟨x, t⟩ :: fs) (⟨x, t'⟩ :: fs')
  | drop (x : String) {t : Ty} {fs fs' : List (Field Ty)} (h : t.leaves = [])
      (hs : FieldsThinned fs fs') : FieldsThinned (⟨x, t⟩ :: fs) fs'

end

mutual

/-- **Thinning a type keeps its leaves.** -/
theorem Thinned.leaves : ∀ {t t' : Ty}, Thinned t t' → t'.leaves = t.leaves
  | _, _, .refl _ => rfl
  | _, _, .alias _ h => h.leaves
  | _, _, .struct _ h => h.leaves

theorem FieldsThinned.leaves : ∀ {fs fs' : List (Field Ty)}, FieldsThinned fs fs' →
    fieldLeaves fs' = fieldLeaves fs
  | _, _, .nil => rfl
  | _, _, .keep _ h hs => by rw [fieldLeaves, fieldLeaves, h.leaves, hs.leaves]
  | _, _, .drop _ h hs => by rw [fieldLeaves, h, List.nil_append, hs.leaves]

end

theorem allLeaves_thinned {ts ts' : List Ty} (h : List.Forall₂ Thinned ts ts') :
    allLeaves ts' = allLeaves ts := by
  induction h with
  | nil => rfl
  | @cons t t' ts ts' h _ ih =>
    rw [allLeaves, allLeaves, List.flatMap_cons, List.flatMap_cons, h.leaves]
    exact congrArg (t.leaves ++ ·) ih

end Ty

/-! ### Owners with other types -/

/-- The variable with the type that a list of types has at its index. -/
def Variable.retype (types : List Ty) (v : Variable) : Variable :=
  ⟨v.index, types.getD v.index v.type⟩

/-- The leaf under an owner of another type. -/
def StoredLeaf.retype (types : List Ty) (l : StoredLeaf) : StoredLeaf :=
  { l with owner := l.owner.map (·.retype types) }

@[simp] theorem StoredLeaf.retype_toPackedLeaf (types : List Ty) (l : StoredLeaf) :
    (l.retype types).toPackedLeaf = l.toPackedLeaf := rfl

@[simp] theorem StoredLeaf.retype_picked (types : List Ty) (l : StoredLeaf) :
    (l.retype types).picked = l.picked := by
  simp [StoredLeaf.retype, StoredLeaf.picked]

namespace Patch

/-- The leaves under owners of other types. -/
def retype (types : List Ty) (ls : List StoredLeaf) : List StoredLeaf := ls.map (·.retype types)

section Retype

variable (types : List Ty) (ls : List StoredLeaf)

@[simp] theorem retype_types : (retype types ls).map (·.type) = ls.map (·.type) := by
  rw [retype, List.map_map]
  rfl

@[simp] theorem any_picked_retype :
    (retype types ls).head?.any (·.picked) = ls.head?.any (·.picked) := by
  cases ls <;> simp [retype]

@[simp] theorem opensCell_retype : opensCell (retype types ls) = opensCell ls := by
  cases ls <;> rfl

@[simp] theorem fixedRefs?_retype : fixedRefs? (retype types ls) = fixedRefs? ls := by
  rw [fixedRefs?, fixedRefs?, retype_types]

@[simp] theorem fragments_retype : fragments (retype types ls) = fragments ls := by
  induction ls with
  | nil => rfl
  | cons l ls ih =>
    rw [retype, List.map_cons, fragments, fragments, ← retype, ih]
    rfl

@[simp] theorem opensNext_retype (parts : List (List StoredLeaf)) :
    opensNext (parts.map (retype types)) = opensNext parts := by
  cases parts with
  | nil => rfl
  | cons part parts => exact opensCell_retype types part

@[simp] theorem heldOf_retype (nextOpens : Bool) :
    heldOf (retype types ls) nextOpens = heldOf ls nextOpens := by
  rw [heldOf, heldOf, fragments_retype]

end Retype

/-! ### Cuts -/

/-- The cut of a list whose entries have been replaced. -/
theorem splitBy_map {α β : Type} (f : α → β) {r : β → β → Bool} {r' : α → α → Bool} :
    ∀ {l : List α}, (∀ a ∈ l, ∀ b ∈ l, r (f a) (f b) = r' a b) →
      List.splitBy r (l.map f) = (List.splitBy r' l).map (·.map f)
  | [], _ => rfl
  | a :: l, h => by
    have ih := splitBy_map f fun a ha b hb =>
      h a (List.mem_cons_of_mem _ ha) b (List.mem_cons_of_mem _ hb)
    have hflat : (List.splitBy r' l).flatten = l := List.flatten_splitBy ..
    rw [List.map_cons, splitBy_cons, splitBy_cons, ih]
    rcases hps : List.splitBy r' l with _ | ⟨p, ps⟩
    · rfl
    have hhead : (p.map f).head?.all (r (f a)) = p.head?.all (r' a) := by
      rcases p with _ | ⟨b, p⟩
      · rfl
      · refine h a (List.mem_cons_self ..) b (List.mem_cons_of_mem _ ?_)
        rw [← hflat, hps]
        simp
    simp only [List.map_cons, hhead]
    split <;> rfl

theorem runs_retype (types : List Ty) (ls : List StoredLeaf) :
    runs (retype types ls) = (runs ls).map (retype types) :=
  splitBy_map _ fun l _ l' _ => by rw [l.retype_picked, l'.retype_picked, l'.retype_toPackedLeaf]

theorem stretches_retype (types : List Ty) (ls : List StoredLeaf) :
    stretches (retype types ls) = (stretches ls).map (retype types) :=
  splitBy_map _ fun l _ l' _ => by rw [l.retype_picked, l'.retype_picked, l'.retype_toPackedLeaf]

/-- The owners of the leaves have the types that the list has at their indices. -/
def Owned (types : List Ty) (ls : List StoredLeaf) : Prop :=
  ∀ l ∈ ls, ∀ v, l.owner = some v → types[v.index]? = some v.type

theorem Owned.retype_inj {types types' : List Ty} {ls : List StoredLeaf} (h : Owned types ls)
    {l l' : StoredLeaf} (hl : l ∈ ls) (hl' : l' ∈ ls) :
    ((l.retype types').owner == (l'.retype types').owner) = (l.owner == l'.owner) := by
  rw [Bool.eq_iff_iff, beq_iff_eq, beq_iff_eq]
  refine ⟨fun he => ?_, fun he => by rw [StoredLeaf.retype, StoredLeaf.retype, he]⟩
  rcases ho : l.owner with _ | v <;> rcases ho' : l'.owner with _ | w <;>
    simp only [StoredLeaf.retype, ho, ho', Option.map_some, Option.map_none, Option.some.injEq,
      reduceCtorEq] at he ⊢
  have hi : (v.retype types').index = (w.retype types').index := congrArg Variable.index he
  change v.index = w.index at hi
  have ht := h l hl v ho
  rw [hi, h l' hl' w ho', Option.some.injEq] at ht
  cases v
  cases w
  cases hi
  cases ht
  rfl

theorem pieces_retype {types types' : List Ty} {ls : List StoredLeaf} (h : Owned types ls) :
    pieces (retype types' ls) = (pieces ls).map (retype types') :=
  splitBy_map _ fun l hl l' hl' => by
    rw [h.retype_inj hl hl', l.retype_picked, l'.retype_toPackedLeaf]

theorem ownerOf_retype (types : List Ty) (ls : List StoredLeaf) :
    ownerOf (retype types ls) = (ownerOf ls).map (·.retype types) := by
  cases ls <;> rfl

theorem pickedVariables_retype {types types' : List Ty} {ls : List StoredLeaf}
    (h : Owned types ls) :
    pickedVariables (retype types' ls) = (pickedVariables ls).map (·.retype types') := by
  rw [pickedVariables_eq, pickedVariables_eq, pieces_retype h, List.filterMap_map,
    List.map_filterMap]
  exact congrArg (List.filterMap · _) (funext (ownerOf_retype types'))

/-! ### The patch of thinned types -/

/-- The owners of leaves of thinned types have their types. -/
theorem owners_thinned {start : Nat} {all : List Ty} : ∀ {i : Nat} {types types' : List Ty}
    {marks : List Bool} {os os' : List (Option Variable)}, List.Forall₂ Ty.Thinned types types' →
    (∀ j, all[i + j]? = types'[j]?) → owners start i (types.zip marks) = .ok os →
    owners start i (types'.zip marks) = .ok os' → os' = os.map (·.map (·.retype all))
  | i, _, _, marks, os, os', .nil, _, h, h' => by
    obtain rfl := Except.ok.inj h
    obtain rfl := Except.ok.inj h'
    rfl
  | i, _, _, [], os, os', .cons _ _, _, h, h' => by
    obtain rfl := Except.ok.inj h
    obtain rfl := Except.ok.inj h'
    rfl
  | i, t :: ts, t' :: ts', mark :: marks, os, os', .cons ht hts, hall, h, h' => by
    obtain ⟨-, -, qs, hq, rfl⟩ := owners_cons h
    obtain ⟨-, -, qs', hq', rfl⟩ := owners_cons h'
    have hall' (j : Nat) : all[i + 1 + j]? = ts'[j]? := by
      rw [Nat.add_assoc, Nat.add_comm 1, hall, List.getElem?_cons_succ]
    have hi : all[i]? = some t' := hall 0
    rw [owners_thinned hts hall' hq hq', List.map_append, List.map_map, ht.leaves]
    congr 2
    funext _
    cases mark <;> simp [Variable.retype, hi]

theorem dropUnpicked_retype (types : List Ty) (ls : List StoredLeaf) :
    dropUnpicked (retype types ls) = retype types (dropUnpicked ls) := by
  have hpicked : (fun l => !l.picked) ∘ StoredLeaf.retype types = fun l => !l.picked :=
    funext fun l => by rw [Function.comp, l.retype_picked]
  rw [dropUnpicked, dropUnpicked, retype, retype, ← List.map_reverse, List.dropWhile_map, hpicked,
    List.map_reverse]

theorem ofMarks_picked {bits refs start : Nat} {types : List Ty} {marks : List Bool} {p : Patch}
    (h : ofMarks bits refs start types marks = .ok p) : p.picked = marks.countP id := by
  simp only [ofMarks, ofMarksWith, throw_eq_error] at h
  split at h
  · cases h
  split at h
  · cases h
  simp only [bind_eq_ok] at h
  obtain ⟨_, -, h⟩ := h
  split at h
  · cases h
  simp only [bind_eq_ok, pure_eq_ok, Except.ok.injEq] at h
  obtain ⟨_, -, rfl⟩ := h
  rfl

/-- **Thinning the types leaves the leaves of a patch,** under owners of the thinned types. -/
theorem ofMarks_thinned {bits refs start : Nat} {types types' : List Ty} {marks : List Bool}
    {p p' : Patch} (ht : List.Forall₂ Ty.Thinned types types')
    (h : ofMarks bits refs start types marks = .ok p)
    (h' : ofMarks bits refs start types' marks = .ok p') :
    Owned types p.visited ∧ p'.visited = retype types' p.visited := by
  obtain ⟨hlen, -, -, os, k, hos, hk, hleaves, hstart⟩ := ofMarks_eq_ok h
  obtain ⟨-, -, -, os', k', hos', hk', hleaves', hstart'⟩ := ofMarks_eq_ok h'
  have hall := Ty.allLeaves_thinned ht
  obtain rfl : k' = k := by
    rw [Packing.ofTypes, Packing.ofTypesWith, hall] at hk'
    exact Except.ok.inj (hk'.symm.trans hk)
  have hstarts : p'.start = p.start := by
    rw [hstart', hstart, Ty.allLeaves_thinned (List.forall₂_take start ht)]
  have hfst : (types.zip marks).map (·.1) = types := List.map_fst_zip (by omega)
  obtain ⟨hlaid, -⟩ := owners_laid hos
    (show k'.leaves.map (·.type) = _ by rw [hfst, Packing.ofTypes_types hk])
  obtain rfl := owners_thinned ht (fun j => by rw [Nat.zero_add]) hos hos'
  constructor
  · intro l hl v hv
    have hmem := List.mem_of_mem_drop hl
    rw [hleaves, dropUnpicked, List.mem_reverse] at hmem
    have hmem := List.mem_reverse.1 (List.dropWhile_sublist _ |>.subset hmem)
    have howned := (hlaid.owned l hmem v hv).2
    rwa [hfst] at howned
  · have hzip : ∀ {ls : List PackedLeaf} {os : List (Option Variable)},
        List.zipWith (fun l owner => { l with owner : StoredLeaf }) ls
          (os.map (·.map (·.retype types'))) =
        retype types' (List.zipWith (fun l owner => { l with owner }) ls os) := by
      intro ls os
      rw [List.zipWith_map_right, retype, List.map_zipWith]
      rfl
    rw [visited, visited, hleaves', hleaves, hstarts, hzip, dropUnpicked_retype, retype, retype,
      List.map_drop]

end Patch

end TypedCells
