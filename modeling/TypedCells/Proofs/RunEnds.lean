import TypedCells.Proofs.Pieces

/-!
# The table of run ends

The runs of a patch can be found by a table that has, for each leaf, the index of the leaf behind
its run. `Patch.runEnds` fills it from the back: where a leaf does not end a run its run ends where
that of the next leaf does. Going by the table (`Patch.follow`) from the start of the range passes
the runs that `Patch.runs` cuts, one after the other.

* `Patch.isRun_runEnd`: what the table says of each leaf is a run that cannot be longer.
* `Patch.ofMarks_runEnds`: the same in terms of the packing and the marks that a patch is made of.
-/

namespace TypedCells.Patch

/-- From `i` to before `e` the indices below `n` are alike as to whether they are picked, and none
but `i` opens a cell; and `e` is the first index of which this does not hold, or `n`. -/
structure IsRun (picked opens : Nat → Bool) (n i e : Nat) : Prop where
  lt : i < e
  le : e ≤ n
  alike : ∀ j, i ≤ j → j < e → picked j = picked i
  oneCell : ∀ j, i < j → j < e → opens j = false
  ends : e < n → opens e = true ∨ picked e ≠ picked i

/-! ### The table -/

/-- Whether the leaf with index `i` is part of a picked variable. -/
def isPicked (p : Patch) (i : Nat) : Bool := p.leaves[i]?.any (·.picked)

/-- Whether the leaf with index `i` opens a cell. -/
def opensAt (p : Patch) (i : Nat) : Bool := p.leaves[i]?.any (·.opensCell)

/-- Whether a run ends with the leaf with index `i`. -/
def endsRun (p : Patch) (i : Nat) : Bool :=
  i + 1 == p.leaves.length || p.opensAt (i + 1) || p.isPicked i != p.isPicked (i + 1)

/-- Fills the entries below `k`, the last of them first. -/
def fillRunEnds (p : Patch) : (k : Nat) → List Nat → List Nat
  | 0, ends => ends
  | k + 1, ends =>
    p.fillRunEnds k (if p.endsRun k then ends else ends.set k (ends.getD (k + 1) 0))

/-- For each leaf the index behind its run. -/
def runEnds (p : Patch) : List Nat :=
  p.fillRunEnds p.leaves.length (List.range' 1 p.leaves.length)

/-- The index behind the run of the leaf with index `i`. -/
def runEnd (p : Patch) (i : Nat) : Nat := p.runEnds.getD i 0

/-- The entries from `k` on are right and those below are as at first. -/
structure Filled (p : Patch) (k : Nat) (ends : List Nat) : Prop where
  length_eq : ends.length = p.leaves.length
  below : ∀ i < k, ends.getD i 0 = i + 1
  above : ∀ i, k ≤ i → i < p.leaves.length →
    ends.getD i 0 = if p.endsRun i then i + 1 else ends.getD (i + 1) 0

variable {p : Patch} {i j k e : Nat} {ends : List Nat}

theorem getD_set (hk : k < ends.length) (x : Nat) :
    (ends.set k x).getD i 0 = if i = k then x else ends.getD i 0 := by
  rw [List.getD_eq_getElem?_getD, List.getD_eq_getElem?_getD, List.getElem?_set, if_pos hk]
  by_cases h : i = k
  · rw [if_pos h, if_pos h.symm]
    rfl
  · rw [if_neg h, if_neg (Ne.symm h)]

/-- One step: the entry below is set, and the one that it is taken from stays. -/
theorem Filled.step (h : p.Filled (k + 1) ends) (hk : k < p.leaves.length) :
    p.Filled k (if p.endsRun k then ends else ends.set k (ends.getD (k + 1) 0)) := by
  by_cases he : p.endsRun k = true
  · rw [if_pos he]
    refine ⟨h.length_eq, fun i hi => h.below i (by omega), fun i hi hn => ?_⟩
    rcases Nat.eq_or_lt_of_le hi with rfl | hi
    · rw [if_pos he, h.below k (by omega)]
    · exact h.above i hi hn
  · rw [if_neg he]
    have hset {i : Nat} := getD_set (i := i) (by rw [h.length_eq]; exact hk) (ends.getD (k + 1) 0)
    refine ⟨by rw [List.length_set, h.length_eq], fun i hi => ?_, fun i hi hn => ?_⟩
    · rw [hset, if_neg (by omega), h.below i (by omega)]
    · rcases Nat.eq_or_lt_of_le hi with rfl | hi
      · rw [hset, if_pos rfl, if_neg he, hset, if_neg (by omega)]
      · have h1 := hset (i := i)
        have h2 := hset (i := i + 1)
        rw [if_neg (by omega)] at h1 h2
        rw [h1, h2, h.above i hi hn]

theorem Filled.fill (h : p.Filled k ends) (hk : k ≤ p.leaves.length) :
    p.Filled 0 (p.fillRunEnds k ends) := by
  induction k generalizing ends with
  | zero => exact h
  | succ k ih => exact ih (h.step hk) (by omega)

theorem runEnds_filled (p : Patch) : p.Filled 0 p.runEnds := by
  refine Filled.fill ⟨List.length_range', fun i hi => ?_, fun i h1 h2 => ?_⟩ (Nat.le_refl _)
  · rw [List.getD_eq_getElem?_getD, List.getElem?_range' hi, Nat.one_mul, Nat.add_comm]
    rfl
  · omega

theorem runEnd_eq (hi : i < p.leaves.length) :
    p.runEnd i = if p.endsRun i then i + 1 else p.runEnd (i + 1) :=
  p.runEnds_filled.above i (Nat.zero_le i) hi

/-- A leaf in front of a run is part of it unless it ends a run itself. -/
theorem IsRun.cons (h : IsRun p.isPicked p.opensAt p.leaves.length (i + 1) e)
    (he : p.endsRun i = false) : IsRun p.isPicked p.opensAt p.leaves.length i e := by
  simp only [endsRun, Bool.or_eq_false_iff, bne_eq_false_iff_eq] at he
  obtain ⟨⟨-, hopen⟩, hpick⟩ := he
  refine ⟨by have := h.lt; omega, h.le, fun j h1 h2 => ?_, fun j h1 h2 => ?_, fun hn => ?_⟩
  · rcases Nat.eq_or_lt_of_le h1 with rfl | h1
    · rfl
    · rw [hpick, h.alike j h1 h2]
  · rcases Nat.eq_or_lt_of_le h1 with rfl | h1
    · exact hopen
    · exact h.oneCell j h1 h2
  · rw [hpick]
    exact h.ends hn

/-- **The table has the ends of the longest runs.** -/
theorem isRun_runEnd (hi : i < p.leaves.length) :
    IsRun p.isPicked p.opensAt p.leaves.length i (p.runEnd i) := by
  -- on the number of leaves behind `i`, because an entry is taken from the next one
  obtain ⟨d, hd⟩ := Nat.exists_eq_add_of_lt hi
  induction d generalizing i with
  | zero =>
    have he : p.endsRun i = true := by simp [endsRun, hd]
    rw [runEnd_eq hi, if_pos he]
    exact ⟨by omega, by omega, fun j h1 h2 => by rw [show j = i by omega], fun j h1 h2 => by omega,
      fun hn => by omega⟩
  | succ d ih =>
    have hn : i + 1 < p.leaves.length := by omega
    rw [runEnd_eq hi]
    by_cases he : p.endsRun i = true
    · rw [if_pos he]
      refine ⟨by omega, by omega, fun j h1 h2 => by rw [show j = i by omega],
        fun j h1 h2 => by omega, fun _ => ?_⟩
      simp only [endsRun, Bool.or_eq_true, beq_iff_eq, bne_iff_ne] at he
      rcases he with (he | he) | he
      · omega
      · exact .inl he
      · exact .inr (Ne.symm he)
    · rw [if_neg he]
      exact (ih hn (by omega)).cons (Bool.eq_false_iff.2 he)

/-! ### Going by the table -/

/-- The spans that are passed by going from one run end to the next until no leaf is there, and the
index that is reached. -/
def follow (p : Patch) (i : Nat) : List (Nat × Nat) × Nat :=
  if h : i < p.leaves.length then
    have : i < p.runEnd i := (isRun_runEnd h).lt
    let (spans, last) := p.follow (p.runEnd i)
    ((i, p.runEnd i) :: spans, last)
  else ([], i)
termination_by p.leaves.length - i
decreasing_by omega

/-- The leaves of a span. -/
def spanned (p : Patch) (x : Nat × Nat) : List StoredLeaf := (p.leaves.take x.2).drop x.1

theorem isPicked_eq (hi : i < p.leaves.length) : p.isPicked i = p.leaves[i].picked := by
  rw [isPicked, List.getElem?_eq_getElem hi]
  rfl

theorem opensAt_eq (hi : i < p.leaves.length) : p.opensAt i = p.leaves[i].opensCell := by
  rw [opensAt, List.getElem?_eq_getElem hi]
  rfl

/-- The leaves from `i` on begin with the run of `i`. -/
theorem runs_drop (h : IsRun p.isPicked p.opensAt p.leaves.length i e) :
    runs (p.leaves.drop i) = p.spanned (i, e) :: runs (p.leaves.drop e) := by
  have hlt := h.lt
  have hle := h.le
  have hlen : (p.spanned (i, e)).length = e - i := by
    rw [spanned, List.length_drop, List.length_take]
    omega
  have hget : ∀ j (hj : j < (p.spanned (i, e)).length) (hij : i + j < p.leaves.length),
      (p.spanned (i, e))[j] = p.leaves[i + j] := fun j hj hij => by
    simp only [spanned, List.getElem_drop, List.getElem_take]
  have hne : p.spanned (i, e) ≠ [] := fun he => by
    rw [he, List.length_nil] at hlen
    omega
  have hone : runs (p.spanned (i, e)) = [p.spanned (i, e)] := by
    refine List.splitBy_of_isChain hne (List.isChain_iff_getElem.2 fun j hj => ?_)
    have h1 := h.oneCell (i + (j + 1)) (by omega) (by omega)
    have h2 := h.alike (i + j) (by omega) (by omega)
    have h3 := h.alike (i + (j + 1)) (by omega) (by omega)
    rw [opensAt_eq (by omega)] at h1
    rw [isPicked_eq (by omega)] at h2 h3
    rw [hget _ _ (by omega), hget _ _ (by omega), h1, h2, h3]
    simp
  have hcut : p.leaves.drop i = p.spanned (i, e) ++ p.leaves.drop e := by
    have h := List.take_append_drop (e - i) (p.leaves.drop i)
    rw [List.drop_drop, Nat.add_sub_cancel' (Nat.le_of_lt hlt)] at h
    rw [spanned, List.drop_take, h]
  rw [hcut, runs, List.splitBy_append]
  · exact congrArg (· ++ runs (p.leaves.drop e)) hone
  · intro x hx y hy
    obtain ⟨j, hj, rfl⟩ := List.mem_iff_getElem.1 (List.mem_of_getLast? hx)
    have hx := h.alike (i + j) (by omega) (by omega)
    rw [List.head?_drop] at hy
    obtain ⟨he, rfl⟩ := List.getElem?_eq_some_iff.1 hy
    have hends := h.ends he
    rw [opensAt_eq he, isPicked_eq he, ← hx, isPicked_eq (by omega)] at hends
    rw [hget _ _ (by omega), Bool.and_eq_false_iff, Bool.not_eq_false', beq_eq_false_iff_ne]
    exact hends.imp_right Ne.symm

theorem follow_of_lt (hi : i < p.leaves.length) : p.follow i =
    ((i, p.runEnd i) :: (p.follow (p.runEnd i)).1, (p.follow (p.runEnd i)).2) := by
  rw [follow, dif_pos hi]

theorem follow_of_ge (hi : p.leaves.length ≤ i) : p.follow i = ([], i) := by
  rw [follow, dif_neg (by omega)]

/-- **Going by the table passes all leaves from `i` on, each one once, run by run.** -/
theorem follow_passes (hi : i ≤ p.leaves.length) :
    (p.follow i).2 = p.leaves.length ∧
    (p.follow i).1.flatMap (fun x => List.range' x.1 (x.2 - x.1)) =
      List.range' i (p.leaves.length - i) ∧
    (p.follow i).1.map p.spanned = runs (p.leaves.drop i) := by
  obtain ⟨d, hd⟩ := Nat.exists_eq_add_of_le hi
  induction d using Nat.strong_induction_on generalizing i with
  | _ d ih =>
    rcases Nat.eq_or_lt_of_le hi with rfl | hi
    · rw [follow_of_ge (Nat.le_refl _), Nat.sub_self, List.drop_length]
      exact ⟨rfl, rfl, rfl⟩
    · have hrun := isRun_runEnd hi
      have hlt := hrun.lt
      have hle := hrun.le
      obtain ⟨h1, h2, h3⟩ := ih (p.leaves.length - p.runEnd i) (by omega) hle (by omega)
      rw [follow_of_lt hi]
      refine ⟨h1, ?_, ?_⟩
      · rw [List.flatMap_cons, h2]
        have hrange := List.range'_append_1 (s := i) (m := p.runEnd i - i)
          (n := p.leaves.length - p.runEnd i)
        rwa [Nat.add_sub_cancel' (Nat.le_of_lt hlt),
          show p.runEnd i - i + (p.leaves.length - p.runEnd i) = p.leaves.length - i by omega]
          at hrange
      · rw [List.map_cons, h3, runs_drop hrun]

/-! ### The cuts that the program goes by -/

/-- The next entry joins the first part or is a part of its own. -/
theorem exists_splitBy_cons_cons {α : Type} (r : α → α → Bool) (a b : α) (l : List α) :
    ∃ q qs, (b :: l).splitBy r = (b :: q) :: qs ∧
      (r a b = true → (a :: b :: l).splitBy r = (a :: b :: q) :: qs) ∧
      (r a b = false → (a :: b :: l).splitBy r = [a] :: (b :: q) :: qs) := by
  have hhead : ∃ q qs, (b :: l).splitBy r = (b :: q) :: qs := by
    rw [splitBy_cons]
    split
    · exact ⟨[], [], rfl⟩
    · split
      · exact ⟨_, _, rfl⟩
      · exact ⟨[], _, rfl⟩
  obtain ⟨q, qs, hq⟩ := hhead
  refine ⟨q, qs, hq, fun h => ?_, fun h => ?_⟩
  · rw [splitBy_cons, hq]
    exact if_pos h
  · rw [splitBy_cons, hq]
    exact if_neg (Bool.eq_false_iff.1 h)

/-- A cut of the parts of a coarser cut is the cut of the whole. -/
theorem flatMap_splitBy {α : Type} {r r' : α → α → Bool} (h : ∀ a b, r' a b = true → r a b = true) :
    ∀ l : List α, (l.splitBy r).flatMap (List.splitBy r') = l.splitBy r'
  | [] => rfl
  | [_] => rfl
  | a :: b :: l => by
    have ih := flatMap_splitBy h (b :: l)
    obtain ⟨q, qs, hq, hjoin, hpart⟩ := exists_splitBy_cons_cons r a b l
    obtain ⟨q', qs', hq', hjoin', hpart'⟩ := exists_splitBy_cons_cons r' a b l
    obtain ⟨s, ss, hs, hsjoin, hspart⟩ := exists_splitBy_cons_cons r' a b q
    rw [hq, hq', List.flatMap_cons, hs] at ih
    obtain ⟨h1, h2⟩ := List.cons.inj ih
    cases hr' : r' a b with
    | true =>
      rw [hjoin (h a b hr'), hjoin' hr', List.flatMap_cons, hsjoin hr', ← h1, ← h2]
      rfl
    | false =>
      rw [hpart' hr', ← ih]
      cases hr : r a b with
      | true =>
        rw [hjoin hr, List.flatMap_cons, hspart hr']
        rfl
      | false =>
        rw [hpart hr, List.flatMap_cons, List.flatMap_cons, hs]
        rfl

/-- Whether the first of the leaves is not picked. -/
def unpicked (ls : List StoredLeaf) : Bool := ls.head?.any (!·.picked)

/-- A picked leaf makes no part that is not picked, nor does it join one. -/
theorem filter_splitBy_cons_picked {r : StoredLeaf → StoredLeaf → Bool} {l : StoredLeaf}
    (hr : ∀ l', r l l' = true → l'.picked = true) (hl : l.picked = true) :
    ∀ ls, ((l :: ls).splitBy r).filter unpicked = (ls.splitBy r).filter unpicked
  | [] => List.filter_cons_of_neg (by simp [unpicked, hl])
  | k :: ls => by
    obtain ⟨q, qs, hq, hjoin, hpart⟩ := exists_splitBy_cons_cons r l k ls
    cases h : r l k with
    | true =>
      rw [hjoin h, hq, List.filter_cons_of_neg (by simp [unpicked, hl]),
        List.filter_cons_of_neg (by simp [unpicked, hr k h])]
    | false => rw [hpart h, hq, List.filter_cons_of_neg (by simp [unpicked, hl])]

/-- A cut that keeps leaves together like runs where they are not picked has the parts of the runs
there. -/
theorem filter_splitBy_eq {r : StoredLeaf → StoredLeaf → Bool}
    (hu : ∀ l l', l.picked = false → r l l' = (!l'.opensCell && l.picked == l'.picked))
    (hp : ∀ l l', l.picked = true → r l l' = true → l'.picked = true) :
    ∀ ls, (ls.splitBy r).filter unpicked = (runs ls).filter unpicked
  | [] => rfl
  | l :: ls => by
    have ih := filter_splitBy_eq hu hp ls
    rw [runs] at ih ⊢
    cases hl : l.picked with
    | true =>
      rw [filter_splitBy_cons_picked (fun l' => hp l l' hl) hl, ih,
        filter_splitBy_cons_picked (fun l' h => ?_) hl]
      simpa [hl] using (Bool.and_eq_true_iff.1 h).2
    | false =>
      have hkeep (q : List StoredLeaf) : unpicked (l :: q) = true := by simp [unpicked, hl]
      cases ls with
      | nil => rfl
      | cons k ls =>
        obtain ⟨q, qs, hq, hjoin, hpart⟩ := exists_splitBy_cons_cons r l k ls
        obtain ⟨q', qs', hq', hjoin', hpart'⟩ := exists_splitBy_cons_cons
          (fun l l' : StoredLeaf => !l'.opensCell && l.picked == l'.picked) l k ls
        rw [hq, hq'] at ih
        have hr := hu l k hl
        cases h : r l k with
        | true =>
          have hk : k.picked = false := by
            simpa [hl] using (Bool.and_eq_true_iff.1 (hr.symm.trans h)).2
          rw [List.filter_cons_of_pos (by simp [unpicked, hk]),
            List.filter_cons_of_pos (by simp [unpicked, hk])] at ih
          obtain ⟨h1, h2⟩ := List.cons.inj ih
          rw [hjoin h, hjoin' (hr.symm.trans h), List.filter_cons_of_pos (hkeep _),
            List.filter_cons_of_pos (hkeep _), h1, h2]
        | false =>
          rw [hpart h, hpart' (hr.symm.trans h), List.filter_cons_of_pos (hkeep _),
            List.filter_cons_of_pos (hkeep _), ih]

/-- The parts that the program goes by are the runs `rs` of the leaves: reading passes over those
that are not picked, and updating copies these and passes over those of picked stretches. -/
structure GoesBy (leaves : List StoredLeaf) (rs : List (List StoredLeaf)) : Prop where
  passed : (pieces leaves).filter unpicked = rs.filter unpicked
  copied : (stretches leaves).filter unpicked = rs.filter unpicked
  replaced : (stretches leaves).flatMap runs = rs

theorem goesBy_runs (ls : List StoredLeaf) : GoesBy ls (runs ls) where
  passed := by
    refine filter_splitBy_eq (fun l l' hl => ?_) (fun l l' hl h => ?_) ls
    · have ho : (l.owner == l'.owner) = (l.picked == l'.picked) := by
        have hn : l.owner = none := by simpa [StoredLeaf.picked] using hl
        rw [StoredLeaf.picked, StoredLeaf.picked, hn]
        cases l'.owner <;> rfl
      rw [ho, hl, Bool.false_or, Bool.and_comm]
    · have ho := eq_of_beq (Bool.and_eq_true_iff.1 h).1
      rwa [StoredLeaf.picked, ← ho]
  copied := by
    refine filter_splitBy_eq (fun l l' hl => ?_) (fun l l' hl h => ?_) ls
    · rw [hl, Bool.false_or, Bool.and_comm]
    · simpa [hl] using h
  replaced := flatMap_splitBy (fun l l' h => by
    simp only [Bool.and_eq_true] at h
    simp [h]) ls

/-! ### Packing and marks -/

/-- Whether the leaf with index `i` is part of a marked type. -/
def isMarked (types : List Ty) (marks : List Bool) (i : Nat) : Bool :=
  (leafMarks types marks).getD i false

theorem isMarked_eq {types : List Ty} {marks : List Bool} {row : List StoredLeaf}
    (h : marksOf row = leafMarks types marks) (i : Nat) :
    isMarked types marks i = row[i]?.any (·.picked) := by
  rw [isMarked, List.getD_eq_getElem?_getD, ← h, marksOf, List.getElem?_map]
  cases row[i]? <;> rfl

theorem opensCell_eq {k : Packing} {row : List StoredLeaf}
    (h : k.leaves = row.map (·.toPackedLeaf)) (i : Nat) :
    k.opensCell i = row[i]?.any (·.opensCell) := by
  rw [Packing.opensCell, h, List.getElem?_map]
  cases row[i]? <;> rfl

theorem picked_of_getLast? {ls : List StoredLeaf} {l : StoredLeaf}
    (h : (dropUnpicked ls).getLast? = some l) : l.picked = true := by
  rw [dropUnpicked, List.getLast?_reverse] at h
  have hnot := List.head?_dropWhile_not (!·.picked) ls.reverse
  rw [h] at hnot
  simpa using hnot

section OfMarks

variable {bits refs start : Nat} {types : List Ty} {marks : List Bool}

/-- A marked variable is in the range, so there is a leaf that is visited. -/
theorem start_lt_length (hp : ofMarks bits refs start types marks = .ok p) :
    p.start < p.leaves.length := by
  obtain ⟨-, -, hmark, os, -, hos, -⟩ := ofMarks_eq_ok hp
  obtain ⟨_, vars, rest, -, -, hc⟩ := ofMarks_covers hp
  have hmarked : ∃ x ∈ vars, x.2 = true := by
    rw [← List.take_append_drop start marks] at hmark
    have hdrop := (List.mem_append.1 hmark).resolve_left fun h => nomatch hc.before true h
    rw [← hc.marks_eq] at hdrop
    exact List.mem_map.1 hdrop
  have hne : ∀ x ∈ vars, x.2 = true → x.1.leaves ≠ [] := fun x hx =>
    (owners_marked hos).1 x (List.mem_of_mem_drop (hc.vars_eq ▸ hx))
  obtain ⟨l, hl, hpick⟩ := hc.laid.exists_picked hne hmarked
  have hvisited := (List.mem_append.1 hl).resolve_right fun h =>
    nomatch hpick.symm.trans (hc.unpicked l h)
  have hpos := List.length_pos_of_mem hvisited
  rw [visited, List.length_drop] at hpos
  omega

/-- The leaves of a patch are the first ones of the packing, up to the last one that is part of a
marked variable. -/
theorem ofMarks_leaves (hp : ofMarks bits refs start types marks = .ok p) :
    ∃ (k : Packing) (rest : List StoredLeaf), Packing.ofTypes bits refs types = .ok k ∧
      k.leaves = (p.leaves ++ rest).map (·.toPackedLeaf) ∧
      marksOf (p.leaves ++ rest) = leafMarks types marks ∧
      (∀ l ∈ rest, l.picked = false) ∧ ∀ l, p.leaves.getLast? = some l → l.picked = true := by
  obtain ⟨hlen, -, -, os, k, hos, hk, hleaves, -⟩ := ofMarks_eq_ok hp
  have hfst : (types.zip marks).map (·.1) = types := List.map_fst_zip (by omega)
  have hsnd : (types.zip marks).map (·.2) = marks := List.map_snd_zip (by omega)
  obtain ⟨hlaid, hrow⟩ := owners_laid hos
    (show k.leaves.map (·.type) = _ by rw [hfst, Packing.ofTypes_types hk])
  obtain ⟨_, _, rest, -, h2, hrest, -, hlaid2⟩ := hlaid.dropUnpicked (owners_marked hos).1
  have hmarks := hlaid.leafMarks
  rw [hfst, hsnd] at hmarks
  rw [← hleaves] at hrest
  rw [hrest] at hrow hmarks
  exact ⟨k, rest, hk, hrow.symm, hmarks, hlaid2.unpicked h2,
    fun l hl => picked_of_getLast? (hleaves ▸ hl)⟩

theorem IsRun.congr {picked picked' opens opens' : Nat → Bool} {n : Nat}
    (h : IsRun picked opens n i e) (hi : i < n) (hpicked : ∀ j < n, picked' j = picked j)
    (hopens : ∀ j < n, opens' j = opens j) : IsRun picked' opens' n i e where
  lt := h.lt
  le := h.le
  alike j h1 h2 := by
    rw [hpicked j (by have := h.le; omega), hpicked i hi, h.alike j h1 h2]
  oneCell j h1 h2 := by rw [hopens j (by have := h.le; omega), h.oneCell j h1 h2]
  ends hn := by
    rw [hopens e hn, hpicked e hn, hpicked i hi]
    exact h.ends hn

/-- **The table of a patch describes its runs.** The leaf `last` is the last one that is part of a
marked variable. For each leaf up to it the table has the end of the longest run of leaves from it
on that are marked alike and lie in one cell of the packing. Going by the table from the start of
the range passes each leaf up to `last` once and ends behind it, and reading and updating go by the
spans on the way. -/
theorem ofMarks_runEnds (hp : ofMarks bits refs start types marks = .ok p) :
    ∃ (k : Packing) (last : Nat), Packing.ofTypes bits refs types = .ok k ∧
      (isMarked types marks last = true ∧ ∀ i, last < i → isMarked types marks i = false) ∧
      (p.start = (Ty.allLeaves (types.take start)).length ∧ p.start ≤ last) ∧
      (∀ i ≤ last, IsRun (isMarked types marks) k.opensCell (last + 1) i (p.runEnd i)) ∧
      (p.follow p.start).2 = last + 1 ∧
      (p.follow p.start).1.flatMap (fun x => List.range' x.1 (x.2 - x.1)) =
        List.range' p.start (last + 1 - p.start) ∧
      GoesBy p.visited ((p.follow p.start).1.map p.spanned) := by
  obtain ⟨-, -, -, -, -, -, -, -, hstart⟩ := ofMarks_eq_ok hp
  obtain ⟨k, rest, hk, hrow, hmarks, hrest, hlast⟩ := ofMarks_leaves hp
  have hlt := start_lt_length hp
  obtain ⟨last, hn⟩ := Nat.exists_eq_succ_of_ne_zero (by omega : p.leaves.length ≠ 0)
  rw [Nat.succ_eq_add_one] at hn
  have hpicked (i : Nat) (hi : i < p.leaves.length) : isMarked types marks i = p.isPicked i := by
    rw [isMarked_eq hmarks, List.getElem?_append_left hi, isPicked]
  have hopens (i : Nat) (hi : i < p.leaves.length) : k.opensCell i = p.opensAt i := by
    rw [opensCell_eq hrow, List.getElem?_append_left hi, opensAt]
  obtain ⟨h1, h2, h3⟩ := follow_passes (Nat.le_of_lt hlt)
  refine ⟨k, last, hk, ⟨?_, fun i hi => ?_⟩, ⟨hstart, by omega⟩, fun i hi => ?_, ?_, ?_, ?_⟩
  · rw [hpicked last (by omega), isPicked_eq (by omega)]
    refine hlast _ ?_
    rw [List.getLast?_eq_getElem?, List.getElem?_eq_getElem (by omega)]
    simp only [hn, Nat.add_sub_cancel]
  · rw [isMarked_eq hmarks, List.getElem?_append_right (by omega)]
    cases h : rest[i - p.leaves.length]? with
    | none => rfl
    | some l => exact hrest l (List.mem_of_getElem? h)
  · rw [← hn]
    exact (isRun_runEnd (by omega)).congr (by omega) hpicked hopens
  · rw [h1, hn]
  · rw [h2, hn]
  · rw [h3]
    exact goesBy_runs _

end OfMarks

/-- Variables that take three cells. -/
def spreadTypes : List Ty :=
  [.integer 8 false, .integer 1000 false, .integer 100 false, .integer 8 false,
    .struct "pair" [⟨"first", .integer 8 false⟩, ⟨"second", .integer 1000 false⟩],
    .integer 8 false]

/-- The fourth and the fifth are marked. -/
def spreadMarks : List Bool := [false, false, false, true, true, false]

/-- A run of two variables, the last of which goes on in the next cell. The range starts inside the
first run. -/
theorem ofMarks_runEnds_spread :
    ∃ p k, ofMarks 0 0 1 spreadTypes spreadMarks = .ok p ∧
      Packing.ofTypes 0 0 spreadTypes = .ok k ∧ p.runEnds = [2, 2, 3, 5, 5, 6] ∧
      IsRun (isMarked spreadTypes spreadMarks) k.opensCell 6 3 (p.runEnd 3) ∧
      (p.follow p.start).2 = 6 ∧
      (p.follow p.start).1.flatMap (fun x => List.range' x.1 (x.2 - x.1)) = [1, 2, 3, 4, 5] := by
  obtain ⟨p, hp⟩ : ∃ p, ofMarks 0 0 1 spreadTypes spreadMarks = .ok p := ⟨_, rfl⟩
  have hends : ((ofMarks 0 0 1 spreadTypes spreadMarks).toOption.all fun p =>
      p.runEnds == [2, 2, 3, 5, 5, 6]) = true := by decide +kernel
  rw [hp, Except.toOption, Option.all_some, beq_iff_eq] at hends
  obtain ⟨k, last, hk, ⟨hmark, hbehind⟩, ⟨hstart, -⟩, hruns, hlast, hflat, -⟩ := ofMarks_runEnds hp
  have hreached := (follow_passes (Nat.le_of_lt (start_lt_length hp))).1
  rw [← p.runEnds_filled.length_eq, hends] at hreached
  obtain rfl : last = 5 := Nat.succ.inj (hlast.symm.trans hreached)
  refine ⟨p, k, hp, hk, hends, hruns 3 (by omega), hlast, ?_⟩
  rw [hflat, hstart]
  rfl

end TypedCells.Patch
