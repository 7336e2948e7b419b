import TypedCells.Proofs.Rewrite
import TypedCells.Proofs.RoundTrip

/-!
# Updating the picked variables

The code of `Patch.update` takes the visited leaves off a slice, writes them again with the new
values, and puts what is left of the slice behind them. The result is the data with the contents of
the picked leaves replaced (`Patch.update_runs`), and this is how the updated values are written.

* `Patch.update_replaces`: the result is read as the old values with exactly the marked ones
  replaced. If the old data was written by the encoder, then the result is what the encoder writes
  for the updated values, cell by cell.
-/

namespace TypedCells

namespace Patch

/-! ### The code -/

section Runs

variable {α : Type} {new : Nat → α → Gen α} {safe : Prop} {p : Patch} {s : Slice}
  {rest : List StoredLeaf} {ws wrest ns : List Written} {e : Cell} {ys : List Value} {a : α}
  {d : Nat} {below : Stack}

/-- When the pieces have been written, the rest of the slice goes behind them and the builders are
linked. Nothing may be left over. -/
theorem seal_runs {ls : List PackedLeaf} {r : Progress} {t : Stack}
    (hwrote : Wrote ws [] [] s ([], {}) below r t) (hs : s.Valid)
    (hbound : safe → ∀ w ∈ ws, w.Bounded)
    (hfits : safe → ({} : Builder).Fits (ws.map (·.leaf) ++ ls))
    (hroom : safe → (Written.grow ws ([], {})).2.HasRoom s.toCell) (entry : Nat) :
    (do
      Gen.op .stSlice
      Gen.linkBuilders r.builders
      Gen.op .endc
      Gen.op .ctos
      if r.held.length > 0 then Gen.fail (.internal (.heldLeft r.held.length))
      Gen.ensureDepth entry "pack_data"
      return a : Gen α).RunsIf safe d t fun _ t =>
        t = .slice (.ofCell (Written.weave ws s.toCell)) :: below := by
  obtain ⟨hempty, us, -, rfl, rfl⟩ := hwrote
  rcases us with _ | ⟨u, us⟩
  · refine (puts_runs (v := .slice s) rfl (by simp) (fun _ => Builder.writeSlice_puts hs) hempty
      hroom).bind fun _ t d1 ht _ => ?_
    obtain ⟨-, -, rfl⟩ := ht
    refine (Gen.linkBuilders_runs below fun hs => ⟨_, (Written.nest_grow [] (hbound hs) (hfits hs)
      s.toCell).trans rfl⟩).bind fun _ t d2 ht _ => ?_
    obtain ⟨c, hc, rfl⟩ := ht
    obtain rfl := Except.ok.inj (Written.nest_weave [] hc)
    have hcell : (Builder.add {} (Written.weave ws s.toCell)).toCell =
        Written.weave ws s.toCell := Cell.empty_append _
    refine Gen.Turns.bindIf (t := .cell (Written.weave ws s.toCell) :: below)
      (.op rfl (by rw [Op.run_endc, hcell])) fun _ _ _ => ?_
    refine Gen.Turns.bindIf (t := .slice (.ofCell (Written.weave ws s.toCell)) :: below)
      (.op rfl (Op.run_ctos _)) fun _ d3 _ => ?_
    change (do Gen.ensureDepth entry "pack_data"; return a : Gen α).RunsIf safe d3 _ _
    exact (Gen.Turns.ensureDepth _ _ _).bindIf fun _ _ _ => .pure rfl
  · -- values without leaves are left over
    exact Gen.Fails.runsIf <| .of_bind fun _ => .of_bind fun _ => .of_bind fun _ =>
      .of_bind fun _ => (Gen.Fails.fail _).bind

/-- **The code of an update leaves the data with new contents for the picked and the recoded
leaves.** -/
theorem update_runs (hps : ∀ q ∈ pieces p.visited, IsPiece q)
    (hroom : Packing.Room 0 0 (rowOf (p.visited ++ rest))) (hold : Olds p.visited ws)
    (hrest : Olds rest wrest) (hdoc : safe → DocumentedRow (p.visited ++ rest))
    (hnew : News safe (p.visited.filter (·.picked)) ns ys) (hs : s.Valid)
    (h : s.toCell = Written.weave (ws ++ wrest) e) (he : safe → e = .empty)
    (hsup : Supplies new d below ((pickedVariables p.visited).map (·.index))
      (Ty.buildAll ((pickedVariables p.visited).map (·.type)) ys) a) :
    (update p new a).RunsIf safe d (.slice s :: below) fun _ t =>
      ∃ ws', Renewed p.visited (recoded (pieces p.visited)) ns ws ws' ∧
        ws'.map (·.leaf) = rowOf p.visited ∧ (∀ w ∈ ws', w.Reads) ∧
        t = .slice (.ofCell (Written.weave (ws' ++ wrest) e)) :: below := by
  rw [Written.weave_append] at h
  have hflat : (pieces p.visited).flatten = p.visited := List.flatten_splitBy ..
  have hdoc1 (hs : safe) := (documentedRow_append.1 (hdoc hs)).1
  have hdoc2 (hs : safe) := (documentedRow_append.1 (hdoc hs)).2
  rw [rowOf_append] at hroom
  refine Gen.RunsIf.depth_bind ((Gen.Turns.require _ _ _).bindIf fun _ d2 hd2 => ?_)
  obtain rfl : d2 = d := by omega
  refine (gather_runs hps hroom.left hold hdoc1 hnew hs h hsup).bind fun x t d3 ht hd3 => ?_
  obtain ⟨s', ws', es, rfl, hs', hse, hholds⟩ := ht
  have hleaf := hholds.leaf
  have hreads := hholds.reads
  rw [hflat] at hleaf
  have hbound (hs : safe) := (hdoc1 hs).bounded hleaf hreads
  have hfits : ({} : Builder).Fits (ws'.map (·.leaf) ++ rowOf rest) := by rwa [hleaf]
  refine Gen.Turns.bindIf (t := workStack es s' ([], {}) below) (.op rfl (by simp [workStack]))
    fun _ d4 hd4 => ?_
  have hd : d4 + 1 + below.length = d2 + (workStack es s' ([], {}) below).length := by
    simp only [List.length_cons] at hd3 hd4 ⊢
    omega
  refine (writePieces_runs hholds [] (q := ([], {})) (by rwa [hflat]) rfl
    ⟨Nat.zero_le _, Nat.zero_le _⟩ (fun _ => hfits) hd).bind fun r t d5 ht hd5 => ?_
  obtain ⟨hholds, hwrote⟩ := ht
  refine (seal_runs hwrote hs' hbound (fun _ => hfits) (fun hs => ?_) d2).mono fun _ t ht => ?_
  · have hgrown := Written.fits_grow [] (hbound hs) hfits
    rw [← hrest.leaf] at hgrown
    rw [hse, he hs]
    exact Written.hasRoom_weave ((hdoc2 hs).bounded hrest.leaf hrest.reads) hgrown
  · have hren := hholds.renewed
    rw [hflat] at hren
    refine ⟨ws', hren, hleaf, hreads, ?_⟩
    rwa [Written.weave_append, ← hse]

end Runs

/-! ### The variables of the range -/

theorem types_markedVariables : ∀ (i : Nat) (vars : List (Ty × Bool)),
    (markedVariables i vars).map (·.type) = chosen (vars.map (·.2)) (vars.map (·.1))
  | _, [] => rfl
  | i, (t, true) :: vars => congrArg (t :: ·) (types_markedVariables (i + 1) vars)
  | i, (_, false) :: vars => types_markedVariables (i + 1) vars

theorem indices_markedVariables : ∀ (i : Nat) (vars : List (Ty × Bool)),
    (markedVariables i vars).map (·.index) = chosen (vars.map (·.2)) (List.range' i vars.length)
  | _, [] => rfl
  | i, (_, true) :: vars => congrArg (i :: ·) (indices_markedVariables (i + 1) vars)
  | i, (_, false) :: vars => indices_markedVariables (i + 1) vars

/-- The picked leaves are those of the marked variables. -/
theorem Laid.picked_types : ∀ {i : Nat} {vars : List (Ty × Bool)} {ls : List StoredLeaf},
    Laid i vars ls → (ls.filter (·.picked)).map (·.type) =
      Ty.allLeaves ((markedVariables i vars).map (·.type))
  | _, [], _, h => by
    obtain rfl := h
    rfl
  | i, (t, mark) :: vars, ls, h => by
    obtain ⟨block, rest, rfl, hb, ho, hr⟩ := h
    rw [List.filter_append, List.map_append, hr.picked_types, markedVariables]
    cases mark with
    | true =>
      rw [List.filter_eq_self.2 (picked_of_owner ho), hb]
      rfl
    | false =>
      rw [List.filter_eq_nil_iff.2 fun l hl => by simp [picked_of_owner ho l hl]]
      rfl

/-- Values whose leaves are replaced are replaced. -/
theorem Laid.build_replaced : ∀ {i : Nat} {vars : List (Ty × Bool)} {ls : List StoredLeaf}
    {xs ys : List Value}, Laid i vars ls → xs.length = ls.length →
    ys.length = (Ty.allLeaves ((markedVariables i vars).map (·.type))).length →
    Ty.buildAll (vars.map (·.1)) (replaced (marksOf ls) xs ys) =
      replaced (vars.map (·.2)) (Ty.buildAll (vars.map (·.1)) xs)
        (Ty.buildAll ((markedVariables i vars).map (·.type)) ys)
  | _, [], _, _, _, _, _, _ => rfl
  | i, (t, mark) :: vars, ls, xs, ys, h, hx, hy => by
    obtain ⟨block, rest, rfl, hb, ho, hr⟩ := h
    have hbt : block.length = t.leaves.length := by rw [← hb, List.length_map]
    rw [List.length_append] at hx
    obtain ⟨us, zs, rfl, hu, hz⟩ := Ty.exists_append_of_length hx
    have hm : us.length = (marksOf block).length := by rw [hu, length_marksOf]
    rw [List.map_cons, List.map_cons, marksOf_append, Ty.buildAll_append (hu.trans hbt)]
    rw [markedVariables] at hy ⊢
    cases mark with
    | true =>
      have hp : ∀ l ∈ block, l.picked = true := picked_of_owner ho
      rw [if_pos rfl, List.map_cons, Ty.allLeaves, List.flatMap_cons, List.length_append] at hy
      obtain ⟨vs, ys, rfl, hv, hy'⟩ := Ty.exists_append_of_length hy
      rw [replaced_true (marksOf_picked hp) hm (by rw [length_marksOf, hv, hbt]), if_pos rfl,
        List.map_cons, Ty.buildAll_append hv, Ty.buildAll_append hv, hr.build_replaced hz hy']
      rfl
    | false =>
      have hp : ∀ l ∈ block, l.picked = false := picked_of_owner ho
      rw [if_neg Bool.false_ne_true] at hy
      rw [replaced_false (marksOf_unpicked hp) hm, if_neg Bool.false_ne_true,
        Ty.buildAll_append (hu.trans hbt), hr.build_replaced hz hy]
      rfl

section Renewed

variable {ls : List StoredLeaf} {recodes : List Bool} {ns ws ws' : List Written}

theorem Renewed.values (h : Renewed ls recodes ns ws ws') :
    ws'.map (·.value) = replaced (marksOf ls) (ws.map (·.value)) (ns.map (·.value)) := by
  induction h with
  | nil => rfl
  | new hl _ ih => simp only [marksOf, List.map_cons, hl, replaced] at ih ⊢; rw [ih]
  | keep hl hw _ ih => simp only [marksOf, List.map_cons, hl, replaced, hw.value] at ih ⊢; rw [ih]

theorem Renewed.images (h : Renewed ls recodes ns ws ws') (hi : ∀ w ∈ ws, w.Image) :
    ws' = replaced (marksOf ls) ws ns := by
  induction h with
  | nil => rfl
  | new hl _ ih =>
    simp only [marksOf, List.map_cons, hl, replaced] at ih ⊢
    rw [← ih fun w hw => hi w (List.mem_cons_of_mem _ hw)]
  | keep hl hw _ ih =>
    simp only [marksOf, List.map_cons, hl, replaced] at ih ⊢
    rw [← ih fun w hw => hi w (List.mem_cons_of_mem _ hw), hw.same (hi _ (List.mem_cons_self ..))]

end Renewed

section Covers

variable {bits refs start : Nat} {types : List Ty} {marks : List Bool} {p : Patch} {k : Packing}
  {vars : List (Ty × Bool)} {rest : List StoredLeaf} (hc : p.Covers start types marks k vars rest)

include hc

theorem Covers.picked_types :
    (pickedVariables p.visited).map (·.type) = chosen marks types := by
  rw [hc.picked, types_markedVariables, hc.marks_eq, hc.types_eq, ← chosen_drop hc.before]

theorem Covers.picked_indices :
    (pickedVariables p.visited).map (·.index) = chosen marks (List.range marks.length) := by
  have hvars := congrArg List.length hc.marks_eq
  rw [List.length_map, List.length_drop] at hvars
  rw [hc.picked, indices_markedVariables, hc.marks_eq, chosen_drop hc.before, List.range_eq_range',
    List.drop_range', hvars, Nat.zero_add, Nat.mul_one]

theorem Covers.picked_leaves :
    (p.visited.filter (·.picked)).map (·.type) = Ty.allLeaves (chosen marks types) := by
  have hnone : rest.filter (·.picked) = [] := List.filter_eq_nil_iff.2 (by simpa using hc.unpicked)
  have htypes := hc.laid.picked_types
  rwa [List.filter_append, hnone, List.append_nil, ← hc.picked, hc.picked_types] at htypes

theorem Covers.mem_leaves (hk : Packing.ofTypes bits refs types = .ok k) {l : PackedLeaf}
    (hl : l ∈ rowOf (p.visited ++ rest)) : l.type ∈ Ty.allLeaves types := by
  rw [hc.row] at hl
  rw [← Packing.ofTypes_types hk]
  exact List.mem_map_of_mem (List.mem_of_mem_drop hl)

theorem Covers.documented (hk : Packing.ofTypes bits refs types = .ok k)
    (hd : Ty.DocumentedAll types) {l : PackedLeaf} (hl : l ∈ rowOf (p.visited ++ rest)) :
    l.type.Documented :=
  Ty.documented_of_mem_allLeaves hd _ (hc.mem_leaves hk hl)

theorem Covers.accepted (hk : Packing.ofTypes bits refs types = .ok k) {l : PackedLeaf}
    (hl : l ∈ rowOf (p.visited ++ rest)) : l.type.Accepted :=
  Packing.ofTypes_accepted hk _ (hc.mem_leaves hk hl)

theorem Covers.stored (hk : Packing.ofTypes bits refs types = .ok k) {ws : List Written}
    (hl : ws.map (·.leaf) = rowOf (p.visited ++ rest)) (hw : ∀ w ∈ ws, w.Reads) :
    Olds (p.visited ++ rest) ws :=
  ⟨hl, fun w h =>
    have hmem : w.leaf ∈ rowOf (p.visited ++ rest) := hl ▸ List.mem_map_of_mem h
    ⟨hw w h, Ty.isLeaf_of_mem_allLeaves (hc.mem_leaves hk hmem), hc.accepted hk hmem⟩⟩

/-- The leaves of an update that has new contents for the picked ones. -/
theorem Covers.update_runs {α : Type} {new : Nat → α → Gen α} {a : α} {entry : Nat} {safe : Prop}
    {below : Stack} {s : Slice} {ws ns : List Written} {e : Cell} {ys : List Value}
    (hk : Packing.ofTypes bits refs types = .ok k) (hdoc : safe → Ty.DocumentedAll types)
    (hl : ws.map (·.leaf) = rowOf (p.visited ++ rest)) (hw : ∀ w ∈ ws, w.Reads) (hs : s.Valid)
    (h : s.toCell = Written.weave ws e) (he : safe → e = .empty)
    (hnew : News safe (p.visited.filter (·.picked)) ns ys)
    (hsup : Supplies new entry below (chosen marks (List.range marks.length))
      (Ty.buildAll (chosen marks types) ys) a) :
    (p.update new a).RunsIf safe entry (.slice s :: below) fun _ t =>
      ∃ ws', Renewed (p.visited ++ rest)
          (recoded (pieces p.visited) ++ rest.map fun _ => false) ns ws ws' ∧
        ws'.map (·.leaf) = rowOf (p.visited ++ rest) ∧ (∀ w ∈ ws', w.Reads) ∧
        t = .slice (.ofCell (Written.weave ws' e)) :: below := by
  have hdoc' (hs : safe) : DocumentedRow (p.visited ++ rest) := fun l hl =>
    hc.documented hk (hdoc hs) (List.mem_map_of_mem hl)
  obtain ⟨us, us', rfl, h1, h2⟩ := (hc.stored hk hl hw).append
  rw [← hc.picked_types, ← hc.picked_indices] at hsup
  refine (Patch.update_runs hc.isPiece (hc.room hk) h1 h2 hdoc' hnew hs h he hsup).mono
    fun _ t ht => ?_
  obtain ⟨ws', hren, hl', hw', rfl⟩ := ht
  refine ⟨ws' ++ us', ?_, ?_, List.forall_mem_append.2 ⟨hw', h2.reads⟩, rfl⟩
  · have := hren.append (Renewed.refl hc.unpicked h2)
    rwa [List.append_nil] at this
  · rw [List.map_append, hl', h2.leaf, rowOf_append]

end Covers

/-! ### The data part of what the encoder writes -/

/-- The slice is the data behind what `b` holds and some values: the code `write` writes all values,
and the code `skip` reads those before the data. -/
def DataPart (write skip : List Instr) (b : Builder) (vs : List Value) (s : Slice) : Prop :=
  ∃ c r us, Instr.exec (write ++ [.op .endc]) (.builder b :: vs) = .ok [.cell c] ∧
    (Slice.ofCell c).dropFront b.bits.length b.refs.length = .ok r ∧
    Instr.exec skip [.slice r] = .ok (.slice s :: us)

theorem DataPart.unique {write skip : List Instr} {b : Builder} {vs : List Value} {s s' : Slice}
    (h : DataPart write skip b vs s) (h' : DataPart write skip b vs s') : s = s' := by
  obtain ⟨c, r, us, h1, h2, h3⟩ := h
  obtain ⟨c', r', us', h1', h2', h3'⟩ := h'
  obtain rfl : c = c' := by simpa using h1.symm.trans h1'
  obtain rfl := Except.ok.inj (h2.symm.trans h2')
  simpa using (List.cons.inj (Except.ok.inj (h3.symm.trans h3'))).1

theorem DataPart.room {bits refs : Nat} {types : List Ty} {k : Packing} {frame : Option Frame}
    {d : Nat} {write : Generated Position} {skip : List Instr} {b : Builder} {ws : List Written}
    {xs : List Value} {s : Slice} (h : DataPart write.code skip b (Ty.buildAll types xs) s)
    (hk : Packing.ofTypes bits refs types = .ok k)
    (hwrite : Gen.writeAll types k.start false frame d = .ok write)
    (hl : ws.map (·.leaf) = k.leaves) (hw : Written.Encodes ws xs) (hbits : bits ≤ maxBits)
    (hrefs : refs ≤ maxRefs) (hr : b.refs.length = refs) : Packing.Room bits refs k.leaves := by
  obtain ⟨c, q, us, hexec, -, -⟩ := h
  obtain ⟨f, hrun⟩ := Instr.exec_eq_ok.1 hexec
  rw [Instr.runAll_append] at hrun
  obtain ⟨r, hrun, -⟩ := bind_eq_ok.1 hrun
  rw [← List.append_nil (Ty.buildAll types xs)] at hrun
  exact Gen.room_of_written hk hwrite hl hw hbits hrefs hr hrun

/-- New values of the picked variables are built from values of leaves with contents. -/
theorem Covers.exists_news (safe : Prop) {bits refs start : Nat} {types : List Ty}
    {marks : List Bool} {p : Patch} {k : Packing} {vars : List (Ty × Bool)} {rest : List StoredLeaf}
    {xs : List Value} (hc : p.Covers start types marks k vars rest)
    (hk : Packing.ofTypes bits refs types = .ok k) (hd : safe → Ty.DocumentedAll types)
    (hxs : Ty.AdmitsAll (chosen marks types) xs) :
    ∃ ns ys, xs = Ty.buildAll (chosen marks types) ys ∧
      ys.length = (Ty.allLeaves (chosen marks types)).length ∧
      News safe (p.visited.filter (·.picked)) ns ys := by
  obtain ⟨ys, rfl, hys⟩ := hxs.build
  have hmem {l : StoredLeaf} (hl : l ∈ p.visited.filter (·.picked)) :
      l.toPackedLeaf ∈ rowOf (p.visited ++ rest) :=
    List.mem_map_of_mem (List.mem_append_left _ (List.mem_of_mem_filter hl))
  obtain ⟨ns, hns⟩ := Patch.exists_news (fun l hl => hc.accepted hk (hmem hl))
    (fun hs l hl => hc.documented hk (hd hs) (hmem hl)) (hc.picked_leaves ▸ hys)
  exact ⟨ns, ys, rfl, hys.length_eq.symm, hns⟩

section Values

variable {bits refs start : Nat} {types : List Ty} {marks : List Bool} {p : Patch} {k : Packing}
  {vars : List (Ty × Bool)} {rest : List StoredLeaf} {xs ys : List Value}

/-- The values of the range after their leaves have been replaced. -/
theorem Covers.build_replaced (hc : p.Covers start types marks k vars rest)
    (hx : xs.length = (p.visited ++ rest).length)
    (hy : ys.length = (Ty.allLeaves (chosen marks types)).length) :
    Ty.buildAll (types.drop start) (replaced (marksOf (p.visited ++ rest)) xs ys) =
      replaced (marks.drop start) (Ty.buildAll (types.drop start) xs)
        (Ty.buildAll (chosen marks types) ys) := by
  have htypes := hc.picked_types
  rw [hc.picked] at htypes
  have h := hc.laid.build_replaced hx (by rw [hy, htypes])
  rwa [hc.types_eq, hc.marks_eq, htypes] at h

end Values

end Patch

end TypedCells
