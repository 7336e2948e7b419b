import TypedCells.Proofs.Leftovers
import TypedCells.Proofs.Update

/-!
# Members without leaves in a patch

Members without leaves add nothing to the data, so a patch of types that have them reads and writes
what the patch of the thinned types does. There are two places where its code takes notice of them.
The code that reads a variable whose first leaf opens a cell is told that the cell has been entered,
and a member in front of the leaf takes that for itself (`Patch.StartsInLeaf`). The code that writes
a new value leaves the members behind the last leaf on the stack (`Patch.EndsClean`). Anywhere else
they make no difference.

* `Patch.thinned_agrees`: what the two patches read, and what they write.
-/

namespace TypedCells

/-! ### Thinned types -/

namespace Ty

mutual

/-- A leaf that comes first still does after the type has been thinned. -/
theorem Thinned.startsInLeaf : ∀ {t t' : Ty}, Thinned t t' → t.startsInLeaf = true →
    t'.startsInLeaf = true
  | _, _, .refl _, h => h
  | _, _, .alias _ ht, h => ht.startsInLeaf h
  | _, _, .struct _ ht, h => ht.startsInLeaf h

theorem FieldsThinned.startsInLeaf : ∀ {fs fs' : List (Field Ty)}, FieldsThinned fs fs' →
    fieldsStartInLeaf fs = true → fieldsStartInLeaf fs' = true
  | _, _, .nil, h => h
  | _, _, .keep _ ht _, h => ht.startsInLeaf h
  | _, _, .drop _ hl _, h => absurd hl (leaves_ne_nil _ h)

end

end Ty

namespace Gen

/-! ### Code that reads no tuple -/

theorem read_noTuple (t : Ty) : ∀ (pos : Position) (follow : Bool) (frame : Option Frame) (d : Nat),
    (read t pos follow).Gives frame d fun _ _ => NoTuple t.leaves := by
  refine Ty.leafInduction
    (P := fun t => ∀ pos follow frame d,
      (read t pos follow).Gives frame d fun _ _ => NoTuple t.leaves)
    (Q := fun fs => ∀ pos follow frame d,
      (readFields fs pos follow).Gives frame d fun _ _ => NoTuple (Ty.fieldLeaves fs))
    (fun t hl pos follow frame d g hg => ?leaf) (fun x fs ih pos follow frame d g hg => ?struct)
    (fun x t ih => ih) (fun pos follow frame d g hg ts hm => nomatch hm)
    (fun x t fs iht ihfs pos follow frame d g hg ts hm => ?cons) t
  case leaf =>
    rw [Ty.leaves_leaf hl]
    cases t with
    | tuple ts => exact absurd hg fail_ok
    | _ => exact fun ts hm => nomatch List.mem_singleton.1 hm
  case struct =>
    obtain ⟨_, _, h, -⟩ := bind_ok.1 hg
    exact ih _ _ _ _ h
  case cons =>
    obtain ⟨_, _, h1, h2, -⟩ := bind_ok.1 hg
    exact (List.mem_append.1 hm).elim (iht _ _ _ _ h1 ts) (ihfs _ _ _ _ h2 ts)

theorem readEach_noTuple : ∀ (ts : List Ty) (pos : Position) (frame : Option Frame) (d : Nat),
    (readEach ts pos).Gives frame d fun _ _ => NoTuple (Ty.allLeaves ts)
  | [], _, _, _, _, _, _, hm => nomatch hm
  | t :: ts, pos, frame, d, g, hg, us, hm => by
    obtain ⟨_, _, -, hg, -⟩ := bind_ok.1 hg
    obtain ⟨_, _, h1, hg, -⟩ := bind_ok.1 hg
    obtain ⟨_, _, -, h2, -⟩ := bind_ok.1 hg
    exact (List.mem_append.1 hm).elim (read_noTuple t _ _ _ _ h1 us)
      (readEach_noTuple ts _ _ _ h2 us)

/-- What is read holds no tuple to be read member by member. -/
theorem readAll_noTuple {ts : List Ty} {pos : Position} {frame : Option Frame} {d : Nat}
    {g : Generated Position} (hg : readAll ts pos frame d = .ok g) : NoTuple (Ty.allLeaves ts) := by
  obtain ⟨_, _, -, h, -⟩ := bind_ok.1 hg
  exact readEach_noTuple ts _ _ _ h

end Gen

namespace Patch

open Gen

section Thinned

variable {bits refs start : Nat} {types types' : List Ty} {marks : List Bool} {p p' : Patch}

theorem length_markedVariables : ∀ {i : Nat} {vars : List (Ty × Bool)},
    (markedVariables i vars).length = (vars.map (·.2)).countP id
  | _, [] => rfl
  | i, (t, true) :: vars => by
    rw [markedVariables, if_pos rfl, List.length_cons, length_markedVariables, List.map_cons,
      List.countP_cons_of_pos rfl]
  | i, (t, false) :: vars => by
    rw [markedVariables, if_neg Bool.false_ne_true, length_markedVariables, List.map_cons,
      List.countP_cons_of_neg Bool.false_ne_true]

theorem picked_eq_length (hp : ofMarks bits refs start types marks = .ok p) :
    p.picked = (pickedVariables p.visited).length := by
  obtain ⟨k, vars, rest, -, -, hc⟩ := ofMarks_covers hp
  have hbefore : (marks.take start).countP id = 0 :=
    List.countP_eq_zero.2 fun m hm => by simp [hc.before m hm]
  rw [ofMarks_picked hp, hc.picked, length_markedVariables, hc.marks_eq,
    ← List.take_append_drop start marks, List.countP_append, hbefore, Nat.zero_add,
    List.take_append_drop]

/-- The owner of a picked leaf has a type of the list, and the thinned one at the same index. -/
theorem Owned.thinned (ht : List.Forall₂ Ty.Thinned types types') (h : Owned types p.visited)
    {v : Variable} (hv : v ∈ pickedVariables p.visited) :
    v.type.Thinned (v.retype types').type := by
  rw [pickedVariables_eq] at hv
  obtain ⟨q, hq, hv⟩ := List.mem_filterMap.1 hv
  obtain ⟨l, hl, hv⟩ := Option.bind_eq_some_iff.1 hv
  have hmem : l ∈ p.visited := by
    rw [← show (pieces p.visited).flatten = p.visited from List.flatten_splitBy ..]
    exact List.mem_flatten_of_mem hq (List.mem_of_mem_head? hl)
  obtain ⟨hi, htype⟩ := List.getElem?_eq_some_iff.1 (h l hmem v hv)
  have hi' : v.index < types'.length := by rwa [← ht.length_eq]
  have hthin := ht.get hi hi'
  rw [List.get_eq_getElem, List.get_eq_getElem, htype] at hthin
  simpa [Variable.retype, hi'] using hthin

/-- **The patch of thinned types visits the same leaves** under owners of the thinned types. -/
theorem retyped_of_thinned (ht : List.Forall₂ Ty.Thinned types types')
    (hp : ofMarks bits refs start types marks = .ok p)
    (hp' : ofMarks bits refs start types' marks = .ok p') : Retyped types types' p p' := by
  obtain ⟨k, vars, rest, -, -, hc⟩ := ofMarks_covers hp
  obtain ⟨k', vars', rest', -, -, hc'⟩ := ofMarks_covers hp'
  obtain ⟨howned, hvisited⟩ := ofMarks_thinned ht hp hp'
  refine ⟨hvisited, howned, hc.isPiece, hc'.isPiece, fun v hv => (howned.thinned ht hv).leaves,
    fun l hl => ?_⟩
  have hmem : l.type ∈ (p.visited ++ rest).map (·.type) :=
    List.mem_map_of_mem (List.mem_append_left _ hl)
  rw [hc.laid.types] at hmem
  exact Ty.isLeaf_of_mem_allLeaves hmem

theorem Retyped.startsInLeaf (h : Retyped types types' p p')
    (ht : List.Forall₂ Ty.Thinned types types')
    (hstart : ∀ q ∈ Patch.pieces p.visited, StartsInLeaf q) :
    ∀ q ∈ Patch.pieces p'.visited, StartsInLeaf q := by
  rw [h.pieces]
  intro q hq v hv hopen
  obtain ⟨q, hq', rfl⟩ := List.mem_map.1 hq
  rw [ownerOf_retype] at hv
  obtain ⟨w, hw, rfl⟩ := Option.map_eq_some_iff.1 hv
  rw [opensCell_retype] at hopen
  have hmem : w ∈ pickedVariables p.visited := by
    rw [pickedVariables_eq]
    exact List.mem_filterMap.2 ⟨q, hq', hw⟩
  exact (h.owned.thinned ht hmem).startsInLeaf (hstart q hq' w hw hopen)

theorem rowOf_retype (types : List Ty) (ls : List StoredLeaf) :
    rowOf (retype types ls) = rowOf ls := by
  rw [rowOf, rowOf, retype, List.map_map]
  rfl

theorem marksOf_retype (types : List Ty) (ls : List StoredLeaf) :
    marksOf (retype types ls) = marksOf ls := by
  rw [marksOf, marksOf, retype, List.map_map]
  exact congrArg (List.map · ls) (funext fun l => l.retype_picked types)

/-- The picked values of both patches are built from the same values of leaves. -/
theorem Retyped.unpack_reads (h : Retyped types types' p p')
    (ht : List.Forall₂ Ty.Thinned types types')
    (hstart : ∀ q ∈ Patch.pieces p.visited, StartsInLeaf q)
    (hroom : Packing.Room 0 0 (rowOf p.visited)) {s s' : Slice} {xs : List Value} (hs : s.Valid)
    (hf : PackedLeaf.fetchAll (rowOf p.visited) s = .ok (xs, s')) (stk : Stack) :
    p.unpack.Turns (.slice s :: stk) ((Ty.buildAll ((pickedVariables p.visited).map (·.type))
        (chosen (marksOf p.visited) xs)).reverse ++ stk) ∧
      p'.unpack.Turns (.slice s :: stk) ((Ty.buildAll ((pickedVariables p'.visited).map (·.type))
        (chosen (marksOf p.visited) xs)).reverse ++ stk) := by
  refine ⟨Patch.unpack_reads h.isPiece hstart hroom hs hf stk, ?_⟩
  have hrow : rowOf p'.visited = rowOf p.visited := by rw [h.visited, rowOf_retype]
  rw [← marksOf_retype types', ← h.visited]
  exact Patch.unpack_reads h.isPiece' (h.startsInLeaf ht hstart) (by rwa [hrow]) hs
    (by rwa [hrow]) stk

/-- Where the strict code reads a slice, the leaves of the patch have values in it, one for each
leaf of the marked types that is picked, and the marked values that are read are built from them. -/
theorem Covers.exists_fetched {k : Packing} {vars : List (Ty × Bool)} {rest : List StoredLeaf}
    {frame : Option Frame} {d : Nat} {strict : Generated Position}
    (hc : p.Covers start types marks k vars rest)
    (hstrict : Gen.readAll (types.drop start) (.packed ⟨k, p.start⟩) frame d = .ok strict)
    {s r : Slice} {old : List Value}
    (hread : Instr.exec strict.code [.slice s] = .ok (.slice r :: old.reverse)) :
    ∃ xs s', PackedLeaf.fetchAll (rowOf p.visited) s = .ok (xs, s') ∧
      (chosen (marksOf p.visited) xs).length = (Ty.allLeaves (chosen marks types)).length ∧
      chosen (marks.drop start) old = Ty.buildAll ((pickedVariables p.visited).map (·.type))
        (chosen (marksOf p.visited) xs) := by
  rw [hc.exec_strict hstrict] at hread
  simp only [bind_eq_ok, pure_eq_ok, Except.ok.injEq, List.cons.injEq, List.append_nil] at hread
  obtain ⟨⟨xs, s'⟩, hf, -, hold⟩ := hread
  obtain rfl := List.reverse_inj.1 hold
  rw [rowOf_append] at hf
  obtain ⟨us, zs, q, h1, h2, rfl⟩ := PackedLeaf.fetchAll_append_eq_ok hf
  have hu : us.length = p.visited.length := by
    rw [PackedLeaf.length_fetchAll h1, rowOf, List.length_map]
  have hz : zs.length = rest.length := by
    rw [PackedLeaf.length_fetchAll h2, rowOf, List.length_map]
  refine ⟨us, q, h1, ?_, (hc.chosen_read hu hz).symm⟩
  rw [length_chosen (by rw [hu, length_marksOf]), ← hc.picked_leaves, List.length_map,
    marksOf, List.countP_map, ← List.countP_eq_length_filter]
  rfl

end Thinned

/-! ### The two patches -/

/-- **Members without leaves make no difference** where they do not stand in the way. Let the types
be thinned to others, and let the strict code for the variables of the range read a slice.

If in front of the first leaf of a marked variable, where it opens a cell, there is no such member,
then the picked variables can be read, as far as the operands of instructions go, and the code of
both patches leaves values that are built from the same values of leaves.

The code for an update is given, as far as the operands go, exactly if behind the last leaf of a
marked variable there is no such member, or the next leaf is marked. Then, given values that are
built from the same values of leaves, it leaves the same slice as the code for the thinned types,
or it traps alike. -/
theorem thinned_agrees {α α' : Type} {bits refs start : Nat} {types types' : List Ty}
    {marks : List Bool} {p p' : Patch} {k : Packing} {frame frame' : Option Frame} {d entry : Nat}
    {strict : Generated Position} (ht : List.Forall₂ Ty.Thinned types types')
    (hp : ofMarks bits refs start types marks = .ok p)
    (hp' : ofMarks bits refs start types' marks = .ok p')
    (hk : Packing.ofTypes bits refs types = .ok k)
    (hstrict : Gen.readAll (types.drop start) (.packed ⟨k, p.start⟩) frame d = .ok strict)
    {s r : Slice} {old : List Value} (hs : s.Valid)
    (hread : Instr.exec strict.code [.slice s] = .ok (.slice r :: old.reverse)) {below : Stack}
    (hentry : 1 ≤ entry) {new : Nat → α → Gen α} {new' : Nat → α' → Gen α'} {a : α} {a' : α'}
    {ys : List Value} (hys : ys.length = (Ty.allLeaves (chosen marks types)).length)
    (hnew : Provides new frame' entry)
    (hsup : Supplies new entry below (chosen marks (List.range marks.length))
      (Ty.buildAll (chosen marks types) ys) a)
    (hsup' : Supplies new' entry below (chosen marks (List.range marks.length))
      (Ty.buildAll (chosen marks types') ys) a') :
    ((∀ q ∈ pieces p.visited, StartsInLeaf q) →
      p.unpack.Moves frame' entry (entry - 1 + p.picked) ∧
      ∃ xs, xs.length = (Ty.allLeaves (chosen marks types)).length ∧
        chosen (marks.drop start) old = Ty.buildAll (chosen marks types) xs ∧
        ∀ {g g' : Generated Unit}, p.unpack frame' entry = .ok g →
          p'.unpack frame' entry = .ok g' →
          Instr.exec g.code (.slice s :: below) =
            .ok ((Ty.buildAll (chosen marks types) xs).reverse ++ below) ∧
          Instr.exec g'.code (.slice s :: below) =
            .ok ((Ty.buildAll (chosen marks types') xs).reverse ++ below)) ∧
    (EndsClean (pieces p.visited) → (p.update new a).Moves frame' entry entry) ∧
    ∀ {g : Generated α}, p.update new a frame' entry = .ok g → EndsClean (pieces p.visited) ∧
      ∀ {g' : Generated α'}, p'.update new' a' frame' entry = .ok g' →
        Instr.exec g.code (.slice s :: below) = Instr.exec g'.code (.slice s :: below) := by
  have hret := retyped_of_thinned ht hp hp'
  obtain ⟨k1, vars, rest, hk1, -, hc⟩ := ofMarks_covers hp
  obtain ⟨k2, vars', rest', -, -, hc'⟩ := ofMarks_covers hp'
  obtain rfl := Except.ok.inj (hk.symm.trans hk1)
  have hvars' : pickedVariables p'.visited =
      (pickedVariables p.visited).map (·.retype types') := by
    rw [hret.visited, pickedVariables_retype hret.owned]
  refine ⟨fun hstart => ?_, fun hend => update_yields hret.isPiece hend hnew a hentry,
    fun hg => ⟨update_ends hret.isPiece hret.isLeaf hnew a hentry hg, fun hg' => ?_⟩⟩
  · have hleaves : (p.visited ++ rest).map (·.type) = Ty.allLeaves (types.drop start) := by
      rw [hc.laid.types, hc.types_eq]
    have htuple : NoTuple (p.visited.map (·.type)) := fun ts hm =>
      readAll_noTuple hstrict ts (by
        rw [← hleaves, List.map_append]
        exact List.mem_append_left _ hm)
    obtain ⟨us, s', hfetch, hlen, hold⟩ := hc.exists_fetched hstrict hread
    have hroom := hc.room hk
    rw [rowOf_append] at hroom
    obtain ⟨hturns, hturns'⟩ := hret.unpack_reads ht hstart hroom.left hs hfetch below
    rw [hc.picked_types] at hturns
    rw [hc'.picked_types] at hturns'
    refine ⟨unpack_moves hret.isPiece htuple (picked_eq_length hp) hentry, _, hlen, ?_,
      fun hg hg' =>
        ⟨Instr.exec_of_runAll (hturns.ends hg), Instr.exec_of_runAll (hturns'.ends hg')⟩⟩
    rw [hold, hc.picked_types]
  · rw [← hc.picked_types, ← hc.picked_indices] at hsup
    rw [← hc'.picked_types, hvars', ← hc.picked_indices, List.map_map] at hsup'
    have hy : ys.length = (p.visited.filter (·.picked)).length := by
      rw [hys, ← hc.picked_leaves, List.length_map]
    exact (update_pairs hret hy hsup hsup' s).exec_eq hg hg'

/-! ### Members in and out of the way -/

/-- A structure without members. -/
def nothing : Ty := .struct "nothing" []

/-- A byte, and two structures of a byte and nothing. -/
def spacedTypes : List Ty := [.integer 8 false,
  .struct "first" [⟨"a", .integer 8 false⟩, ⟨"e", nothing⟩],
  .struct "second" [⟨"e", nothing⟩, ⟨"b", .integer 8 false⟩]]

/-- The types with nothing left out. -/
def tightTypes : List Ty := [.integer 8 false, .struct "first" [⟨"a", .integer 8 false⟩],
  .struct "second" [⟨"b", .integer 8 false⟩]]

/-- The structures are picked. -/
def spacedMarks : List Bool := [false, true, true]

/-- The leaves of both, in one cell. -/
def byteLeaves : List PackedLeaf := List.replicate 3 ⟨.integer 8 false, false⟩

/-- Three bytes. -/
def byteData : Slice := .ofCell (.ofBits (.ofNat 8 5 ++ .ofNat 8 6 ++ .ofNat 8 7))

theorem spacedTypes_thinned : List.Forall₂ Ty.Thinned spacedTypes tightTypes :=
  .cons (.refl _) <| .cons (.struct _ <| .keep _ (.refl _) <| .drop _ rfl .nil) <|
    .cons (.struct _ <| .drop _ rfl <| .keep _ (.refl _) .nil) .nil

/-- Code that puts new values of the structures on the stack. -/
def spacedNew (index : Nat) (_ : Unit) : Gen Unit :=
  if index = 1 then do
    Gen.op (.pushInt 8)
    Gen.tuple 0
    Gen.tuple 2
  else do
    Gen.tuple 0
    Gen.op (.pushInt 9)
    Gen.tuple 2

/-- Code that puts those of the thinned structures there. -/
def tightNew (index : Nat) (_ : Unit) : Gen Unit := do
  Gen.op (.pushInt (if index = 1 then 8 else 9))
  Gen.tuple 1

theorem spacedNew_provides (frame : Option Frame) (entry : Nat) :
    Provides spacedNew frame entry := by
  intro i a d _
  have hpush {i : Int} {d : Nat} : (Gen.op (.pushInt i)).Moves frame d (d + 1) :=
    .op (Nat.zero_le d) rfl
  have hnil {d : Nat} : (Gen.tuple 0).Moves frame d (d + 1) := .tuple (Nat.zero_le d)
  have hpair : (Gen.tuple 2).Moves frame (d + 1 + 1) (d + 1) := .tuple (by omega)
  unfold spacedNew
  split
  · exact hpush.trans fun _ => hnil.trans fun _ => hpair
  · exact hnil.trans fun _ => hpush.trans fun _ => hpair

theorem spacedNew_supplies (entry : Nat) (below : Stack) : Supplies spacedNew entry below [1, 2]
    [.tuple [.int 8, .tuple []], .tuple [.tuple [], .int 9]] () := by
  have hpush (i : Int) (s : Stack) : (Gen.op (.pushInt i)).Turns s (.int i :: s) :=
    .op rfl (Op.run_pushInt ..)
  have hnil (s : Stack) : (Gen.tuple 0).Turns s (.tuple [] :: s) := .tuple [] rfl
  have hpair (v w : Value) (s : Stack) : (Gen.tuple 2).Turns (w :: v :: s) (.tuple [v, w] :: s) :=
    .tuple [v, w] rfl
  have h1 (s : Stack) : (spacedNew 1 ()).Turns s (.tuple [.int 8, .tuple []] :: s) :=
    (hpush 8 s).trans fun _ => (hnil _).trans fun _ => hpair _ _ s
  have h2 (s : Stack) : (spacedNew 2 ()).Turns s (.tuple [.tuple [], .int 9] :: s) :=
    (hnil s).trans fun _ => (hpush 9 _).trans fun _ => hpair _ _ s
  exact fun d top _ => (h1 _ d).mono fun _ t ht => ⟨ht, fun d top _ =>
    (h2 _ d).mono fun _ t ht => ⟨ht, trivial⟩⟩

theorem tightNew_supplies (entry : Nat) (below : Stack) : Supplies tightNew entry below [1, 2]
    [.tuple [.int 8], .tuple [.int 9]] () := by
  have h (i : Nat) (s : Stack) :
      (tightNew i ()).Turns s (.tuple [.int (if i = 1 then 8 else 9)] :: s) :=
    Gen.Turns.trans (.op rfl (Op.run_pushInt ..)) fun _ => .tuple [_] rfl
  exact fun d top _ => (h 1 _ d).mono fun _ t ht => ⟨ht, fun d top _ =>
    (h 2 _ d).mono fun _ t ht => ⟨ht, trivial⟩⟩

/-- The patch of the types: code is given, and no cell is opened. -/
theorem exists_spacedPatch : ∃ (p : Patch) (g h : Generated Unit),
    ofMarks 0 0 0 spacedTypes spacedMarks = .ok p ∧ p.start = 0 ∧ p.unpack none 2 = .ok g ∧
      p.update spacedNew () none 2 = .ok h ∧ ∀ q ∈ pieces p.visited, opensCell q = false := by
  obtain ⟨p, hp, hstart, hrun⟩ := exists_patch_of_any
    (fun p => (p.unpack none 2).isOk && (p.update spacedNew () none 2).isOk &&
      (pieces p.visited).all fun q => !opensCell q)
    (show (ofMarks 0 0 0 spacedTypes spacedMarks).toOption.any _ = true by decide +kernel)
  simp only [Bool.and_eq_true, List.all_eq_true, Bool.not_eq_true'] at hrun
  obtain ⟨⟨hg, hh⟩, hopens⟩ := hrun
  obtain ⟨g, hg⟩ := exists_of_isOk hg
  obtain ⟨h, hh⟩ := exists_of_isOk hh
  exact ⟨p, g, h, hp, hstart, hg, hh, hopens⟩

/-- The patch of the thinned types. -/
theorem exists_tightPatch : ∃ (p : Patch) (g h : Generated Unit),
    ofMarks 0 0 0 tightTypes spacedMarks = .ok p ∧ p.unpack none 2 = .ok g ∧
      p.update tightNew () none 2 = .ok h := by
  obtain ⟨p, hp, -, hrun⟩ := exists_patch_of_any
    (fun p => (p.unpack none 2).isOk && (p.update tightNew () none 2).isOk)
    (show (ofMarks 0 0 0 tightTypes spacedMarks).toOption.any _ = true by decide +kernel)
  obtain ⟨hg, hh⟩ := (Bool.and_eq_true ..).mp hrun
  obtain ⟨g, hg⟩ := exists_of_isOk hg
  obtain ⟨h, hh⟩ := exists_of_isOk hh
  exact ⟨p, g, h, hp, hg, hh⟩

/-- The strict code reads the three bytes. -/
theorem exists_spacedRead {i : Nat} (hi : i = 0) :
    ∃ (strict : Generated Position) (r : Slice) (vs : List Value),
      Gen.readAll (spacedTypes.drop 0) (.packed ⟨⟨byteLeaves⟩, i⟩) none 1 = .ok strict ∧
      Instr.exec strict.code [.slice byteData] = .ok (.slice r :: vs.reverse) := by
  subst hi
  obtain ⟨strict, r, vs, h, hread, -⟩ := exists_read_of_any (fun _ => true) (show
    ((Gen.readAll (spacedTypes.drop 0) (.packed ⟨⟨byteLeaves⟩, 0⟩) none 1).toOption.any fun g =>
      (topSlice? (Instr.exec g.code [.slice byteData])).any _) = true by decide +kernel)
  exact ⟨strict, r, vs, h, hread⟩

/-- Nothing in front of a byte that opens no cell, and behind a byte with a picked one after it, is
not in the way. -/
theorem thinned_agrees_spaced :
    ∃ (p p' : Patch) (strict : Generated Position) (g g' h h' : Generated Unit) (r : Slice)
      (old xs : List Value), ofMarks 0 0 0 spacedTypes spacedMarks = .ok p ∧
      ofMarks 0 0 0 tightTypes spacedMarks = .ok p' ∧
      Gen.readAll (spacedTypes.drop 0) (.packed ⟨⟨byteLeaves⟩, p.start⟩) none 1 = .ok strict ∧
      Instr.exec strict.code [.slice byteData] = .ok (.slice r :: old.reverse) ∧
      p.unpack none 2 = .ok g ∧ p'.unpack none 2 = .ok g' ∧ xs.length = 2 ∧
      chosen spacedMarks old = Ty.buildAll (chosen spacedMarks spacedTypes) xs ∧
      Instr.exec g.code [.slice byteData, .null] =
        .ok ((Ty.buildAll (chosen spacedMarks spacedTypes) xs).reverse ++ [.null]) ∧
      Instr.exec g'.code [.slice byteData, .null] =
        .ok ((Ty.buildAll (chosen spacedMarks tightTypes) xs).reverse ++ [.null]) ∧
      p.update spacedNew () none 2 = .ok h ∧ p'.update tightNew () none 2 = .ok h' ∧
      EndsClean (pieces p.visited) ∧ Instr.exec h.code [.slice byteData, .null] =
        Instr.exec h'.code [.slice byteData, .null] := by
  obtain ⟨p, g, h, hp, hstart, hg, hh, hopens⟩ := exists_spacedPatch
  obtain ⟨p', g', h', hp', hg', hh'⟩ := exists_tightPatch
  obtain ⟨strict, r, old, hstrict, hread⟩ := exists_spacedRead hstart
  have hys : [Value.int 8, .int 9].length =
      (Ty.allLeaves (chosen spacedMarks spacedTypes)).length := rfl
  obtain ⟨hunpack, -, hupdate⟩ := thinned_agrees spacedTypes_thinned hp hp' rfl hstrict
    (Slice.valid_ofCell _) hread (by decide) hys (spacedNew_provides none 2)
    (spacedNew_supplies 2 [.null]) (tightNew_supplies 2 [.null])
  obtain ⟨-, xs, hx, hchosen, hrun⟩ := hunpack fun q hq v _ hopen => by
    rw [hopens q hq] at hopen
    cases hopen
  obtain ⟨hend, hsame⟩ := hupdate hh
  exact ⟨p, p', strict, g, g', h, h', r, old, xs, hp, hp', hstrict, hread, hg, hg', hx, hchosen,
    (hrun hg hg').1, (hrun hg hg').2, hh, hh', hend, hsame hh'⟩

/-- Nothing, and a number that does not fit the rest of a cell. -/
def wideTypes : List Ty := [.struct "second" [⟨"e", nothing⟩, ⟨"b", .integer 256 false⟩]]

/-- The types with nothing left out. -/
def wideTightTypes : List Ty := [.struct "second" [⟨"b", .integer 256 false⟩]]

/-- A five in the next cell. -/
def wideData : Slice := .ofCell ⟨[], [.ofBits (.ofNat 256 5)]⟩

/-- Two bytes. -/
def pairData : Slice := .ofCell (.ofBits (.ofNat 8 5 ++ .ofNat 8 6))

/-- In front of a number that opens a cell, nothing makes the code trap. -/
theorem exists_wide :
    ∃ (p p' : Patch) (strict : Generated Position) (g g' : Generated Unit) (r : Slice)
      (old : List Value) (t : Stack), List.Forall₂ Ty.Thinned wideTypes wideTightTypes ∧
      ofMarks 1000 0 0 wideTypes [true] = .ok p ∧ ofMarks 1000 0 0 wideTightTypes [true] = .ok p' ∧
      Gen.readAll (wideTypes.drop 0) (.packed ⟨⟨[⟨.integer 256 false, true⟩]⟩, p.start⟩) none 1 =
        .ok strict ∧ wideData.Valid ∧
      Instr.exec strict.code [.slice wideData] = .ok (.slice r :: old.reverse) ∧
      r.isEmpty = true ∧ p'.unpack none 1 = .ok g' ∧
      Instr.exec g'.code [.slice wideData] = .ok t ∧ p.unpack none 1 = .ok g ∧
      Instr.exec g.code [.slice wideData] = .error .cellUnderflow := by
  obtain ⟨p, hp, hstart, hrun⟩ := exists_patch_of_any
    (fun p => (p.unpack none 1).toOption.any fun g =>
      error? (Instr.exec g.code [.slice wideData]) == some .cellUnderflow)
    (show (ofMarks 1000 0 0 wideTypes [true]).toOption.any _ = true by decide +kernel)
  obtain ⟨p', hp', -, hrun'⟩ := exists_patch_of_any
    (fun p => (p.unpack none 1).toOption.any fun g =>
      (Instr.exec g.code [.slice wideData]).isOk)
    (show (ofMarks 1000 0 0 wideTightTypes [true]).toOption.any _ = true by decide +kernel)
  obtain ⟨strict, r, vs, h, hread, -, hr⟩ := exists_read_of_any (·.isEmpty) (show
    ((Gen.readAll (wideTypes.drop 0) (.packed ⟨⟨[⟨.integer 256 false, true⟩]⟩, 0⟩) none
      1).toOption.any fun g => (topSlice? (Instr.exec g.code [.slice wideData])).any _) = true by
    decide +kernel)
  obtain ⟨g, hg, htrap⟩ := exists_of_any hrun
  obtain ⟨g', hg', hok⟩ := exists_of_any hrun'
  obtain ⟨t, ht⟩ := exists_of_isOk hok
  refine ⟨p, p', strict, g, g', r, vs, t, ?_, hp, hp', by rw [hstart]; exact h,
    Slice.valid_ofCell _, hread, hr, hg', ht, hg, error?_eq_some (beq_iff_eq.1 htrap)⟩
  exact .cons (.struct _ <| .drop _ rfl <| .keep _ (.refl _) .nil) .nil

/-- Behind the last byte, nothing keeps the code for an update from being given. -/
theorem exists_trailing :
    ∃ (p p' : Patch) (strict : Generated Position) (g' : Generated Unit) (r : Slice)
      (old : List Value) (t : Stack),
      List.Forall₂ Ty.Thinned (spacedTypes.take 2) (tightTypes.take 2) ∧
      ofMarks 0 0 0 (spacedTypes.take 2) [false, true] = .ok p ∧
      ofMarks 0 0 0 (tightTypes.take 2) [false, true] = .ok p' ∧
      Gen.readAll ((spacedTypes.take 2).drop 0) (.packed ⟨⟨byteLeaves.take 2⟩, p.start⟩) none 1 =
        .ok strict ∧ pairData.Valid ∧
      Instr.exec strict.code [.slice pairData] = .ok (.slice r :: old.reverse) ∧
      r.isEmpty = true ∧ p'.update tightNew () none 1 = .ok g' ∧
      Instr.exec g'.code [.slice pairData] = .ok t ∧
      p.update spacedNew () none 1 = .error (.internal (.heldLeft 1)) := by
  obtain ⟨p, hp, hstart, hrun⟩ := exists_patch_of_any
    (fun p => error? (p.update spacedNew () none 1) == some (.internal (.heldLeft 1)))
    (show (ofMarks 0 0 0 (spacedTypes.take 2) [false, true]).toOption.any _ = true by
      decide +kernel)
  obtain ⟨p', hp', -, hrun'⟩ := exists_patch_of_any
    (fun p => (p.update tightNew () none 1).toOption.any fun g =>
      (Instr.exec g.code [.slice pairData]).isOk)
    (show (ofMarks 0 0 0 (tightTypes.take 2) [false, true]).toOption.any _ = true by
      decide +kernel)
  obtain ⟨strict, r, vs, h, hread, -, hr⟩ := exists_read_of_any (·.isEmpty) (show
    ((Gen.readAll ((spacedTypes.take 2).drop 0) (.packed ⟨⟨byteLeaves.take 2⟩, 0⟩) none
      1).toOption.any fun g => (topSlice? (Instr.exec g.code [.slice pairData])).any _) = true by
    decide +kernel)
  obtain ⟨g', hg', hok⟩ := exists_of_any hrun'
  obtain ⟨t, ht⟩ := exists_of_isOk hok
  exact ⟨p, p', strict, g', r, vs, t, List.forall₂_take 2 spacedTypes_thinned, hp, hp',
    by rw [hstart]; exact h, Slice.valid_ofCell _, hread, hr, hg', ht,
    error?_eq_some (beq_iff_eq.1 hrun)⟩

/-- Members without leaves that stand in the way: the code of the thinned types is given and does
not trap, and that of the types traps, or is not given. -/
theorem thinned_disagrees :
    (∃ (p p' : Patch) (strict : Generated Position) (g g' : Generated Unit) (r : Slice)
      (old : List Value) (t : Stack), List.Forall₂ Ty.Thinned wideTypes wideTightTypes ∧
      ofMarks 1000 0 0 wideTypes [true] = .ok p ∧ ofMarks 1000 0 0 wideTightTypes [true] = .ok p' ∧
      Gen.readAll (wideTypes.drop 0) (.packed ⟨⟨[⟨.integer 256 false, true⟩]⟩, p.start⟩) none 1 =
        .ok strict ∧ wideData.Valid ∧
      Instr.exec strict.code [.slice wideData] = .ok (.slice r :: old.reverse) ∧
      r.isEmpty = true ∧ p'.unpack none 1 = .ok g' ∧
      Instr.exec g'.code [.slice wideData] = .ok t ∧ p.unpack none 1 = .ok g ∧
      Instr.exec g.code [.slice wideData] = .error .cellUnderflow) ∧
    (∃ (p p' : Patch) (strict : Generated Position) (g' : Generated Unit) (r : Slice)
      (old : List Value) (t : Stack),
      List.Forall₂ Ty.Thinned (spacedTypes.take 2) (tightTypes.take 2) ∧
      ofMarks 0 0 0 (spacedTypes.take 2) [false, true] = .ok p ∧
      ofMarks 0 0 0 (tightTypes.take 2) [false, true] = .ok p' ∧
      Gen.readAll ((spacedTypes.take 2).drop 0) (.packed ⟨⟨byteLeaves.take 2⟩, p.start⟩) none 1 =
        .ok strict ∧ pairData.Valid ∧
      Instr.exec strict.code [.slice pairData] = .ok (.slice r :: old.reverse) ∧
      r.isEmpty = true ∧ p'.update tightNew () none 1 = .ok g' ∧
      Instr.exec g'.code [.slice pairData] = .ok t ∧
      p.update spacedNew () none 1 = .error (.internal (.heldLeft 1))) ∧
    Provides spacedNew none 1 ∧ Supplies spacedNew 1 [] [1] [.tuple [.int 8, .tuple []]] () ∧
      Supplies tightNew 1 [] [1] [.tuple [.int 8]] () :=
  ⟨exists_wide, exists_trailing, spacedNew_provides none 1,
    fun d top hd => (spacedNew_supplies 1 [] d top hd).mono fun _ _ ht => ⟨ht.1, trivial⟩,
    fun d top hd => (tightNew_supplies 1 [] d top hd).mono fun _ _ ht => ⟨ht.1, trivial⟩⟩

end Patch

end TypedCells
