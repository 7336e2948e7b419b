import TypedCells.Proofs.Marks
import TypedCells.Proofs.Passing
import TypedCells.Proofs.Pieces
import TypedCells.Proofs.Reader

/-!
# Reading the picked variables

The code of `Patch.unpack` goes through the pieces of the visited leaves. It reads the picked ones
and passes over the others, and after each piece it is at the slice where reading leaf by leaf is.

* `Patch.unpack_picks`: on data that the strict code reads, it leaves exactly the values of the
  marked variables that the strict code reads.
-/

namespace TypedCells

namespace Patch

variable {s s' s'' : Slice} {xs : List Value}

/-! ### Values of picked leaves -/

/-- The values of the marked variables are built from the values of the picked leaves. -/
theorem Laid.build_chosen : ∀ {i : Nat} {vars : List (Ty × Bool)} {ls : List StoredLeaf}
    {xs : List Value}, Laid i vars ls → xs.length = ls.length →
    Ty.buildAll ((markedVariables i vars).map (·.type)) (chosen (marksOf ls) xs) =
      chosen (vars.map (·.2)) (Ty.buildAll (vars.map (·.1)) xs)
  | _, [], _, _, _, _ => rfl
  | i, (t, mark) :: vars, ls, xs, h, hx => by
    obtain ⟨block, rest, rfl, hb, ho, hr⟩ := h
    rw [List.length_append] at hx
    obtain ⟨ys, zs, rfl, hy, hz⟩ := Ty.exists_append_of_length hx
    have ih := hr.build_chosen hz
    have hyt : ys.length = t.leaves.length := by rw [hy, ← hb, List.length_map]
    simp only [List.map_cons]
    have hm : ys.length = (marksOf block).length := by rw [hy, length_marksOf]
    rw [marksOf_append, chosen_append hm, Ty.buildAll_append hyt, chosen, markedVariables]
    cases mark with
    | true =>
      have hp : ∀ l ∈ block, l.picked = true := picked_of_owner ho
      rw [if_pos rfl, if_pos rfl, List.map_cons, chosen_true (marksOf_picked hp) hm,
        Ty.buildAll_append hyt, ih]
    | false =>
      have hp : ∀ l ∈ block, l.picked = false := picked_of_owner ho
      rw [if_neg Bool.false_ne_true, if_neg Bool.false_ne_true, chosen_false (marksOf_unpicked hp),
        List.nil_append, ih]

/-! ### Rows of stored leaves -/

theorem enteredRow_append {ls : List StoredLeaf} (h : ls ≠ []) (ls' : List StoredLeaf) :
    enteredRow (ls ++ ls') = enteredRow ls ++ rowOf ls' := by
  rw [enteredRow, enteredRow, List.map_append, PackedLeaf.entered_append (by simpa using h)]
  rfl

/-- Reading a row first steps to the cell of its first leaf. -/
theorem fetchAll_rowOf {ls : List StoredLeaf}
    (h : PackedLeaf.fetchAll (rowOf ls) s = .ok (xs, s')) :
    ∃ r, stepTo (opensCell ls) s = .ok r ∧
      PackedLeaf.fetchAll (enteredRow ls) r = .ok (xs, s') := by
  cases ls with
  | nil => exact ⟨s, rfl, h⟩
  | cons l ls =>
    obtain ⟨v, ws, r, h1, h2, rfl⟩ := PackedLeaf.fetchAll_cons_eq_ok h
    obtain ⟨q, hq, hl, hi⟩ := PackedLeaf.fetch_eq_ok h1
    refine ⟨q, hq, ?_⟩
    simp only [enteredRow, List.map_cons, PackedLeaf.entered, PackedLeaf.fetchAll]
    have hf : PackedLeaf.fetch { l.toPackedLeaf with opensCell := false } q = .ok (v, r) := by
      simp [PackedLeaf.fetch, PackedLeaf.enter, hl, hi]
    rw [hf, ok_bind]
    change PackedLeaf.fetchAll (ls.map (·.toPackedLeaf)) r = _ at h2
    rw [h2]
    rfl

theorem stepTo_valid {opens : Bool} (hs : s.Valid) (h : stepTo opens s = .ok s') : s'.Valid := by
  cases opens with
  | true =>
    obtain ⟨c, -, -, -, rfl⟩ := follow_eq_ok h
    exact Slice.valid_ofCell c
  | false =>
    obtain rfl := Except.ok.inj h
    exact hs

theorem opensNext_eq {ps : List (List StoredLeaf)} (h : ∀ p ∈ ps, p ≠ []) :
    opensNext ps = opensCell ps.flatten := by
  rcases ps with _ | ⟨p, ps⟩
  · rfl
  · rcases p with _ | ⟨l, p⟩
    · exact absurd rfl (h [] (List.mem_cons_self ..))
    · rfl

/-- Leaves of one cell in a packing fit it. -/
theorem inCell_of_room {ls ls' : List StoredLeaf} (hc : ∀ l ∈ ls.tail, l.opensCell = false)
    (h : Packing.Room 0 0 (rowOf (ls ++ ls'))) : InCell ls := by
  refine ⟨hc, ?_⟩
  have htail : ∀ {ls : List StoredLeaf} {b r : Nat}, (∀ l ∈ ls, l.opensCell = false) →
      Packing.Room b r (rowOf (ls ++ ls')) →
      b + (Ty.totalSize (ls.map (·.type))).bits ≤ maxBits ∧
        r + (Ty.totalSize (ls.map (·.type))).refs ≤ maxRefs := by
    intro ls
    induction ls with
    | nil => exact fun _ h => h.le
    | cons l ls ih =>
      intro b r hc h
      simp only [rowOf, List.cons_append, List.map_cons, Packing.Room,
        hc l (List.mem_cons_self ..), Bool.false_eq_true, if_false] at h
      have := ih (fun l hl => hc l (List.mem_cons_of_mem _ hl)) h
      simp only [List.map_cons, Ty.totalSize, Size.bits_add, Size.refs_add]
      omega
  rcases ls with _ | ⟨l, ls⟩
  · exact ⟨Nat.zero_le _, Nat.zero_le _⟩
  · simp only [rowOf, List.cons_append, List.map_cons, Packing.Room, Nat.zero_add] at h
    simp only [List.map_cons, Ty.totalSize, Size.bits_add, Size.refs_add]
    split at h
    · exact htail hc h.2.2
    · exact htail hc h

/-! ### Going through the pieces -/

theorem enteredRow_unopened {ls : List StoredLeaf} (h : opensCell ls = false) :
    enteredRow ls = rowOf ls := by
  rcases ls with _ | ⟨l, ls⟩
  · rfl
  · simp only [opensCell, List.head?_cons, Option.any_some] at h
    simp only [enteredRow, rowOf, List.map_cons, PackedLeaf.entered, ← h]

theorem skip_unopened {ls : List StoredLeaf} (h : opensCell ls = false) {l : Ty} {opens : Bool}
    {pos : Position} (hs : (Packing.start ⟨rowOf ls⟩).skip l = .ok (opens, pos)) :
    opens = false := by
  simp only [Packing.start, Position.skip, Cursor.skip, bind_eq_ok] at hs
  obtain ⟨r, h1, h2⟩ := hs
  rcases ls with _ | ⟨k, ls⟩
  · cases h1
  · simp only [rowOf, List.map_cons, List.getElem?_cons_zero] at h1
    split at h1
    · obtain rfl := Except.ok.inj h1
      obtain ⟨rfl, -⟩ := Prod.mk.inj (Except.ok.inj h2)
      exact h
    · cases h1

/-- The code that reads a variable whose leaves are the row of a piece, from the cell of the first
one. -/
theorem read_row {t : Ty} {ls : List StoredLeaf} (ht : ls.map (·.type) = t.leaves)
    (hp : opensCell ls = true → t.startsInLeaf = true) {frame : Option Frame} {d : Nat}
    {g : Generated Position} (hg : Gen.read t (Packing.start ⟨rowOf ls⟩) false frame d = .ok g) :
    g.depth = d + 1 ∧ ∀ s stk, Instr.runAll g.code (.slice s :: stk) = do
      let (xs, s) ← PackedLeaf.fetchAll (enteredRow ls) s
      return (.next, .slice s :: t.build xs :: stk) := by
  have hrow {ks : List PackedLeaf} {pos : Position}
      (h : (Packing.start ⟨rowOf ls⟩).passAll t.leaves = .ok (ks, pos)) : ks = rowOf ls := by
    have hl := congrArg List.length ht
    rw [List.length_map] at hl
    rw [(Position.passAll_packed h).2, List.drop_zero, ← hl, rowOf, ← List.length_map
      (·.toPackedLeaf), List.take_length]
  cases ho : opensCell ls with
  | true =>
    obtain ⟨ks, hpass, hd, hr⟩ := Gen.read_fetches t _ false (.inr (hp ho)) hg
    obtain rfl := hrow hpass
    exact ⟨hd, hr⟩
  | false =>
    rw [Gen.read_unopened t (skip_unopened ho)] at hg
    obtain ⟨ks, hpass, hd, hr⟩ := Gen.read_fetches t _ true (.inl rfl) hg
    obtain rfl := hrow hpass
    rw [enteredRow_unopened ho]
    exact ⟨hd, hr⟩

theorem read_turns {t : Ty} {ls : List StoredLeaf} (ht : ls.map (·.type) = t.leaves)
    (hp : opensCell ls = true → t.startsInLeaf = true)
    (h : PackedLeaf.fetchAll (enteredRow ls) s = .ok (xs, s')) (stk : Stack) :
    (Gen.read t (Packing.start ⟨rowOf ls⟩) false).Turns (.slice s :: stk)
      (.slice s' :: t.build xs :: stk) := by
  intro d frame g hg
  obtain ⟨hd, hr⟩ := read_row ht hp hg
  refine ⟨_, (hr s stk).trans ?_, ?_, rfl⟩
  · rw [h]
    rfl
  · simp only [List.length_cons]
    omega

/-- If the first of the leaves opens a cell, then no member without leaves stands in front of it in
the variable that they are part of. -/
def StartsInLeaf (p : List StoredLeaf) : Prop :=
  ∀ v, ownerOf p = some v → opensCell p = true → v.type.startsInLeaf = true

/-- The code that reads the picked ones of the pieces. -/
theorem unpackPieces_turns : ∀ {ps : List (List StoredLeaf)} {s s' : Slice} {xs : List Value}
    (stk : Stack), (∀ p ∈ ps, IsPiece p) → (∀ p ∈ ps, StartsInLeaf p) →
    Packing.Room 0 0 (rowOf ps.flatten) → s.Valid →
    PackedLeaf.fetchAll (enteredRow ps.flatten) s = .ok (xs, s') →
    (unpackPieces ps).Turns (.slice s :: stk) (.slice s' ::
      ((Ty.buildAll ((ps.filterMap ownerOf).map (·.type))
        (chosen (marksOf ps.flatten) xs)).reverse ++ stk))
  | [], s, s', xs, stk, _, _, _, _, h => by
    obtain ⟨rfl, rfl⟩ := Prod.mk.inj (Except.ok.inj h)
    exact .pure _ _
  | p :: ps, s, s', xs, stk, hps, hstart, hroom, hs, h => by
    have hp := hps p (List.mem_cons_self ..)
    have hstart' : ∀ p ∈ ps, StartsInLeaf p := fun q hq => hstart q (List.mem_cons_of_mem _ hq)
    have hps' : ∀ p ∈ ps, IsPiece p := fun q hq => hps q (List.mem_cons_of_mem _ hq)
    have hnext := opensNext_eq fun q hq => (hps' q hq).ne_nil
    rw [List.flatten_cons] at h hroom ⊢
    rw [enteredRow_append hp.ne_nil] at h
    obtain ⟨ys, zs, r, h1, h2, rfl⟩ := PackedLeaf.fetchAll_append_eq_ok h
    obtain ⟨q, hq, h3⟩ := fetchAll_rowOf h2
    rw [← hnext] at hq
    have hys : ys.length = p.length := by
      rw [PackedLeaf.length_fetchAll h1, enteredRow, PackedLeaf.length_entered, List.length_map]
    have hrv := (PackedLeaf.fetchAll_valid hs h1).2
    have hqv := stepTo_valid hrv hq
    have hroom' : Packing.Room 0 0 (rowOf ps.flatten) := by
      rw [rowOf, List.map_append] at hroom
      exact hroom.drop
    have hm : ys.length = (marksOf p).length := by rw [hys, length_marksOf]
    rw [marksOf_append, chosen_append hm, unpackPieces]
    cases hp with
    | picked v hne ho ht =>
      have hown : ownerOf p = some v := ownerOf_eq hne ho
      rw [List.filterMap_cons, hown]
      have ih := unpackPieces_turns (v.type.build ys :: stk) hps' hstart' hroom' hqv h3
      have hpick : chosen (marksOf p) ys = ys :=
        chosen_true (marksOf_picked (picked_of_owner ho)) hm
      have hyt : ys.length = v.type.leaves.length := by rw [hys, ← ht, List.length_map]
      have hread := read_turns ht (hstart p (List.mem_cons_self ..) v hown) h1 stk
      rw [hpick, List.map_cons, Ty.buildAll_append hyt, List.reverse_cons, List.append_assoc]
      rw [show p.head?.bind (·.owner) = some v from hown]
      refine hread.trans fun _ => ?_
      rcases ho : opensNext ps with _ | _
      · rw [ho] at hq
        obtain rfl := Except.ok.inj hq
        exact ih
      · rw [ho] at hq
        exact (enterLink_follow hq _).trans fun _ => ih
    | unpicked hne ho hc =>
      have hown : ownerOf p = none := ownerOf_eq hne ho
      rw [List.filterMap_cons, hown]
      have ih := unpackPieces_turns stk hps' hstart' hroom' hqv h3
      rw [chosen_false (marksOf_unpicked (picked_of_owner ho))]
      rw [show p.head?.bind (·.owner) = none from hown]
      exact (passRun_turns (inCell_of_room hc hroom) hs h1 hq stk).trans fun _ => ih

/-! ### The picked variables -/

theorem enterFirst_turns {p : Patch} (h : stepTo (opensCell p.visited) s = .ok s') (stk : Stack) :
    p.enterFirst.Turns (.slice s :: stk) (.slice s' :: stk) := by
  unfold enterFirst
  rcases ho : opensCell p.visited with _ | _
  · rw [ho] at h
    obtain rfl := Except.ok.inj h
    exact .pure _ _
  · rw [ho] at h
    exact enterLink_follow h stk

/-- The code of a patch reads the picked values where the visited leaves can be read. -/
theorem unpack_reads {p : Patch} (hps : ∀ q ∈ pieces p.visited, IsPiece q)
    (hstart : ∀ q ∈ pieces p.visited, StartsInLeaf q)
    (hroom : Packing.Room 0 0 (rowOf p.visited)) (hs : s.Valid)
    (h : PackedLeaf.fetchAll (rowOf p.visited) s = .ok (xs, s')) (stk : Stack) :
    p.unpack.Turns (.slice s :: stk)
      ((Ty.buildAll ((pickedVariables p.visited).map (·.type))
        (chosen (marksOf p.visited) xs)).reverse ++ stk) := by
  obtain ⟨r, hr, hf⟩ := fetchAll_rowOf h
  have hflat : (pieces p.visited).flatten = p.visited := List.flatten_splitBy ..
  have hrow := hflat.symm ▸ hf
  have ht := unpackPieces_turns stk hps hstart (by rwa [hflat]) (stepTo_valid hs hr) hrow
  rw [hflat] at ht
  refine (Gen.Turns.depth _).trans fun _ => (Gen.Turns.require _ _ _).trans fun _ =>
    (enterFirst_turns hr stk).trans fun _ => ht.trans fun _ =>
      (Gen.Turns.drop [.slice s'] rfl).trans fun _ => Gen.Turns.ensureDepth _ _ _

theorem unpack_turns {p : Patch} (hps : ∀ q ∈ pieces p.visited, IsPiece q)
    (hpop : ∀ v ∈ pickedVariables p.visited, v.type.Populated)
    (hroom : Packing.Room 0 0 (rowOf p.visited)) (hs : s.Valid)
    (h : PackedLeaf.fetchAll (rowOf p.visited) s = .ok (xs, s')) (stk : Stack) :
    p.unpack.Turns (.slice s :: stk)
      ((Ty.buildAll ((pickedVariables p.visited).map (·.type))
        (chosen (marksOf p.visited) xs)).reverse ++ stk) :=
  unpack_reads hps (fun q hq v hv _ => (hpop v (List.mem_filterMap.2 ⟨q, hq, hv⟩)).startsInLeaf)
    hroom hs h stk

/-- The strict code for the variables of the range fetches the leaves that are visited and the
rest. -/
theorem Covers.exec_strict {start : Nat} {types : List Ty} {marks : List Bool} {p : Patch}
    {k : Packing} {vars : List (Ty × Bool)} {rest : List StoredLeaf} {frame : Option Frame}
    {d : Nat} {strict : Generated Position} (hc : p.Covers start types marks k vars rest)
    (hstrict : Gen.readAll (types.drop start) (.packed ⟨k, p.start⟩) frame d = .ok strict)
    (s : Slice) (stk : Stack) :
    Instr.exec strict.code (.slice s :: stk) = do
      let (xs, s) ← PackedLeaf.fetchAll (rowOf (p.visited ++ rest)) s
      return .slice s :: ((Ty.buildAll (types.drop start) xs).reverse ++ stk) := by
  have hl := congrArg List.length hc.laid.types
  rw [hc.types_eq, List.length_map] at hl
  rw [Gen.readAll_exec hstrict, ← hc.row, ← hl, rowOf, ← List.length_map (·.toPackedLeaf),
    List.take_length]

/-- The values of the picked variables are the marked ones of all values. -/
theorem Covers.chosen_read {start : Nat} {types : List Ty} {marks : List Bool} {p : Patch}
    {k : Packing} {vars : List (Ty × Bool)} {rest : List StoredLeaf} {ys zs : List Value}
    (hc : p.Covers start types marks k vars rest) (hy : ys.length = p.visited.length)
    (hz : zs.length = rest.length) :
    Ty.buildAll ((pickedVariables p.visited).map (·.type)) (chosen (marksOf p.visited) ys) =
      chosen (marks.drop start) (Ty.buildAll (types.drop start) (ys ++ zs)) := by
  have hlen : (ys ++ zs).length = (p.visited ++ rest).length := by simp [hy, hz]
  have h := hc.laid.build_chosen hlen
  rwa [marksOf_append, chosen_append (by rw [hy, length_marksOf]),
    chosen_false (marksOf_unpicked hc.unpicked), List.append_nil, ← hc.picked,
    hc.types_eq, hc.marks_eq] at h

/-- **Reading the picked variables is a projection of reading all of them.** Where the strict code
for the variables of the range reads a slice, the code of the patch leaves exactly the values of
the marked ones in its place, and all below as it is. -/
theorem unpack_picks {bits refs start : Nat} {types : List Ty} {marks : List Bool} {p : Patch}
    {k : Packing} {frame frame' : Option Frame} {d d' : Nat} {strict : Generated Position}
    {g : Generated Unit} (hp : ofMarks bits refs start types marks = .ok p)
    (hk : Packing.ofTypes bits refs types = .ok k)
    (hpop : ∀ t, (t, true) ∈ types.zip marks → t.Populated)
    (hstrict : Gen.readAll (types.drop start) (.packed ⟨k, p.start⟩) frame d = .ok strict)
    (hg : p.unpack frame' d' = .ok g) {vs : List Value} {r : Slice} (hs : s.Valid)
    (hread : Instr.exec strict.code [.slice s] = .ok (.slice r :: vs.reverse)) (stk : Stack) :
    Instr.exec g.code (.slice s :: stk) =
      .ok ((chosen (marks.drop start) vs).reverse ++ stk) := by
  obtain ⟨k', vars, rest, hk', hlen, hc⟩ := ofMarks_covers hp
  obtain rfl := Except.ok.inj (hk.symm.trans hk')
  rw [hc.exec_strict hstrict] at hread
  simp only [bind_eq_ok, pure_eq_ok, Except.ok.injEq, List.cons.injEq, List.append_nil] at hread
  obtain ⟨⟨xs, s'⟩, hf, -, hvs⟩ := hread
  obtain rfl := List.reverse_inj.1 hvs
  rw [rowOf, List.map_append] at hf
  obtain ⟨ys, zs, q, h1, h2, rfl⟩ := PackedLeaf.fetchAll_append_eq_ok hf
  have hy : ys.length = p.visited.length := by rw [PackedLeaf.length_fetchAll h1, List.length_map]
  have hz : zs.length = rest.length := by rw [PackedLeaf.length_fetchAll h2, List.length_map]
  have hroom := hc.room hk
  rw [rowOf, List.map_append] at hroom
  rw [← hc.chosen_read hy hz]
  exact Instr.exec_of_runAll ((unpack_turns hc.isPiece
    (fun v hv => hpop v.type (hc.marked hv)) hroom.left hs h1 stk).ends hg)

/-- Values of the types `linkedTypes` without the first of them. -/
def linkedRest : Slice :=
  ⟨⟨[], [.empty, .empty, .empty, ⟨.ofNat 8 2 ++ [false], [.empty]⟩]⟩, 0, 0, 1, 4⟩

/-- The second and the fourth of the variables are picked. -/
def linkedMarks : List Bool := [false, true, false, true, false]

/-- What a check of a patch shows. -/
theorem exists_patch_of_any {bits refs start : Nat} {types : List Ty} {marks : List Bool}
    (check : Patch → Bool) (h : (ofMarks bits refs start types marks).toOption.any check = true) :
    ∃ p, ofMarks bits refs start types marks = .ok p ∧
      p.start = (Ty.allLeaves (types.take start)).length ∧ check p = true := by
  obtain ⟨p, hp, hcheck⟩ := exists_of_any h
  obtain ⟨_, _, _, -, -, hc⟩ := ofMarks_covers hp
  exact ⟨p, hp, hc.start_eq, hcheck⟩

theorem exists_linkedPatch : ∃ p, ofMarks 0 0 1 linkedTypes linkedMarks = .ok p ∧ p.start = 1 := by
  obtain ⟨p, hp, hstart, -⟩ := exists_patch_of_any (fun _ => true)
    (show (ofMarks 0 0 1 linkedTypes linkedMarks).toOption.any _ = true from rfl)
  exact ⟨p, hp, hstart⟩

theorem linkedTypes_populated (t : Ty) (h : (t, true) ∈ linkedTypes.zip linkedMarks) :
    t.Populated := by
  simp only [linkedTypes, linkedMarks, List.zip_cons_cons, List.zip_nil_right, List.mem_cons,
    Prod.mk.injEq, Bool.true_eq_false, and_false, and_true, List.not_mem_nil, or_false,
    false_or] at h
  rcases h with rfl | rfl
  · trivial
  · simp [Ty.Populated, Ty.PopulatedFields]

theorem valid_linkedRest : linkedRest.Valid := ⟨by decide, by decide, by decide, by decide⟩

/-- The slice on top of the stack that is left. -/
def topSlice? : Except Trap Stack → Option Slice
  | .ok (.slice s :: _) => some s
  | _ => none

theorem topSlice?_eq_some {r : Except Trap Stack} {s : Slice} (h : topSlice? r = some s) :
    ∃ t, r = .ok (.slice s :: t) := by
  unfold topSlice? at h
  split at h
  · next t => exact ⟨t, by rw [Option.some.inj h]⟩
  · cases h

/-- What a check of the slice that the strict code leaves shows: the code is given, reads some
values, and leaves a slice that passes. -/
theorem exists_read_of_any {types : List Ty} {k : Packing} {i d : Nat} {s : Slice}
    (check : Slice → Bool)
    (h : ((Gen.readAll types (.packed ⟨k, i⟩) none d).toOption.any fun g =>
      (topSlice? (Instr.exec g.code [.slice s])).any check) = true) :
    ∃ (strict : Generated Position) (r : Slice) (vs : List Value),
      Gen.readAll types (.packed ⟨k, i⟩) none d = .ok strict ∧
      Instr.exec strict.code [.slice s] = .ok (.slice r :: vs.reverse) ∧
      vs.length = types.length ∧ check r = true := by
  obtain ⟨strict, hs, hrun⟩ := exists_of_any h
  obtain ⟨r, htop, hr⟩ := (Option.any_eq_true ..).1 hrun
  obtain ⟨t, ht⟩ := topSlice?_eq_some htop
  obtain ⟨r', vs, hl, he⟩ := Gen.readAll_leaves hs ht
  obtain ⟨hr', rfl⟩ := List.cons.inj he
  obtain rfl := Value.slice.inj hr'
  exact ⟨strict, r, vs, hs, by rw [ht, List.append_nil], hl, hr⟩

/-- The strict code reads the values to their end. -/
theorem exists_linkedRead {i : Nat} (hi : i = 1) :
    ∃ (strict : Generated Position) (r : Slice) (vs : List Value),
      Gen.readAll (linkedTypes.drop 1) (.packed ⟨linkedPacking, i⟩) none 1 = .ok strict ∧
      Instr.exec strict.code [.slice linkedRest] = .ok (.slice r :: vs.reverse) ∧
      vs.length = 4 ∧ r.isEmpty = true := by
  subst hi
  exact exists_read_of_any (·.isEmpty) (by decide +kernel)

/-- The second and the fourth of five variables are read, the fourth from the next cell. -/
theorem unpack_picks_linked :
    ∃ p strict g r vs, ofMarks 0 0 1 linkedTypes linkedMarks = .ok p ∧
      Gen.readAll (linkedTypes.drop 1) (.packed ⟨linkedPacking, p.start⟩) none 1 = .ok strict ∧
      p.unpack none 2 = .ok g ∧
      Instr.exec strict.code [.slice linkedRest] = .ok (.slice r :: vs.reverse) ∧
      vs.length = 4 ∧
      Instr.exec g.code [.slice linkedRest, .null] =
        .ok ((chosen [true, false, true, false] vs).reverse ++ [.null]) := by
  obtain ⟨p, hp, hstart⟩ := exists_linkedPatch
  obtain ⟨strict, r, vs, h1, h2, hl, -⟩ := exists_linkedRead hstart
  obtain ⟨g, hg⟩ := exists_of_isOk (show (p.unpack none 2).isOk = true by
    have hrun : ((ofMarks 0 0 1 linkedTypes linkedMarks).toOption.all fun p =>
      (p.unpack none 2).isOk) = true := by decide +kernel
    rwa [hp] at hrun)
  exact ⟨p, strict, g, r, vs, hp, h1, hg, h2, hl,
    unpack_picks hp rfl linkedTypes_populated h1 hg valid_linkedRest h2 [.null]⟩

end Patch

end TypedCells
