import TypedCells.Proofs.Admitted
import TypedCells.Proofs.Reader
import TypedCells.Proofs.Writer

/-!
# Writing and reading again

The code that writes a list of values weaves their contents behind what the builder holds
(`Gen.writeAll_weave`), and the code that reads stored data fetches the leaves of the packing
(`Gen.readData_spec`). The packing is the same, so what was written is read.

* `Gen.read_written`: well-formed values of every list of types that has a packing are written
  without a trap, and reading the data behind the old contents gives the same values.
-/

namespace TypedCells

namespace Gen

variable {frame frame' : Option Frame} {d d' bits refs : Nat} {ts : List Ty} {p : Packing}

/-! ### Writing -/

section Weave

variable {ws : List Written} {xs : List Value} {b : Builder} {g : Generated Position}
  (hp : Packing.ofTypes bits refs ts = .ok p) (hg : writeAll ts p.start false frame d = .ok g)
  (hl : ws.map (·.leaf) = p.leaves) (hw : Written.Encodes ws xs)

include hp hl hw

theorem length_of_encodes : xs.length = (Ty.allLeaves ts).length := by
  rw [hw.length_eq, ← Packing.ofTypes_types hp, ← hl, List.length_map, List.length_map]

include hg

/-- **The code that writes values weaves the contents of their leaves** behind those of the
builder. -/
theorem writeAll_weave (hroom : Packing.Room bits refs p.leaves) (hb : b.bits.length = bits)
    (hr : b.refs.length = refs) (stk : Stack) :
    Instr.runAll g.code (.builder b :: (Ty.buildAll ts xs ++ stk)) =
      .ok (.next, .builder (b.add (Written.weave ws .empty)) :: stk) := by
  have hfits : b.Fits (ws.map (·.leaf)) := by
    rwa [hl, Builder.Fits, hb, hr]
  have hrun := writeAll_spec none hp hg (length_of_encodes hp hl hw) b stk
  rw [← hl, Written.putAll_weave_none hw.stores hfits] at hrun
  exact hrun

/-- Where the code that writes values does not trap, there is room for them: a first leaf that opens
a cell is linked from what the builder holds. -/
theorem room_of_written (hbits : bits ≤ maxBits) (hrefs : refs ≤ maxRefs)
    (hr : b.refs.length = refs) {stk : Stack} {r : Flow × Stack}
    (h : Instr.runAll g.code (.builder b :: (Ty.buildAll ts xs ++ stk)) = .ok r) :
    Packing.Room bits refs p.leaves := by
  rcases Nat.lt_or_ge refs maxRefs with hlt | hge
  · exact Packing.ofTypes_room hp hbits hlt
  have hplace := Packing.ofTypes_place hp
  rcases ht : Ty.allLeaves ts with _ | ⟨t, us⟩
  · rw [ht] at hplace
    obtain hnil := Except.ok.inj hplace
    rw [← hnil]
    exact ⟨hbits, hrefs⟩
  rw [ht] at hplace
  obtain ⟨ls, ⟨hls, hplace', hc⟩ | ⟨hls, hplace', -, hz⟩⟩ := Packing.place_cons hplace
  · refine Packing.place_room hplace (Nat.le_refl _) (Nat.le_refl _) hbits hrefs (.inr ?_)
    simp only [Ty.totalSize, Size.bits_add, Size.refs_add]
    omega
  · -- the link has no room
    exfalso
    have hzero := Packing.ofTypes_room_zero hp
    have hrun := writeAll_spec none hp hg (length_of_encodes hp hl hw) b stk
    rw [hls] at hl hzero hrun
    obtain ⟨w, ws, rfl, hwl, rfl⟩ := List.map_eq_cons_iff.1 hl
    obtain ⟨x, xs, rfl, hi, hx, hv, hw'⟩ := Written.encodes_cons.1 hw
    have ho : w.leaf.opensCell = true := by rw [hwl]
    rw [← hwl] at hzero hrun
    obtain ⟨-, hroom, hfits⟩ := Builder.Fits.open (b := {}) (w := w) hzero ho hi.bounded
    rw [← List.append_nil (ws.map _)] at hfits
    have hstore := (Ty.puts_of_canon hi.writes hx hv).adds hroom
    have hf := Written.fillAll_grow [b] hw'.stores hfits
    have hn := Written.nest_grow [b] hw'.stores.bounded hfits .empty
    rw [Builder.add_empty, Builder.nest, Builder.writeRef, if_pos (by omega)] at hn
    have hput : PackedLeaf.putAll (w.leaf :: ws.map (·.leaf)) (x :: xs) none b =
        .error .cellOverflow := by
      simp only [PackedLeaf.putAll, PackedLeaf.fillAll, PackedLeaf.fill, ho, if_true, hstore,
        ok_bind, pure_eq_ok, hf, Builder.putRest, hn]
      rfl
    rw [hput] at hrun
    cases hrun.symm.trans h

end Weave

/-! ### Reading -/

/-- The code that reads stored data to its end. -/
theorem readData_spec {g : Generated Unit} (hp : Packing.ofTypes bits refs ts = .ok p)
    (hg : readData bits refs ts false frame d = .ok g) (s : Slice) (stk : Stack) :
    Instr.runAll g.code (.slice s :: stk) = do
      let (xs, s) ← PackedLeaf.fetchAll p.leaves s
      if !s.isEmpty then throw .cellUnderflow
      return (.next, (Ty.buildAll ts xs).reverse ++ stk) := by
  rw [readData, readDataWith, bind_ok] at hg
  obtain ⟨_, r, h1, h2, rfl⟩ := hg
  obtain ⟨q, hq, rfl⟩ := ofExcept_ok.1 h1
  obtain rfl := Except.ok.inj (hp.symm.trans hq)
  rw [bind_ok] at h2
  obtain ⟨r1, r2, h2, h3, rfl⟩ := h2
  obtain ⟨ls, hpass, -, hrun⟩ := readAll_fetches ts _ h2
  obtain rfl := Packing.passAll_start hp hpass
  rw [Bool.not_false, if_pos rfl, op_ok] at h3
  obtain ⟨-, rfl⟩ := h3
  simp only [List.nil_append, Instr.runAll_append, hrun, PackedLeaf.seen_true]
  rcases PackedLeaf.fetchAll p.leaves s with e | ⟨xs, s'⟩
  · rfl
  · by_cases he : s'.isEmpty = true <;> simp [he]

/-- Data that shows woven contents is read to values that are the same as those the contents stand
for. -/
theorem readData_weave {g : Generated Unit} {ws : List Written} {xs : List Value} {s : Slice}
    (hp : Packing.ofTypes bits refs ts = .ok p)
    (hg : readData bits refs ts false frame d = .ok g) (hl : ws.map (·.leaf) = p.leaves)
    (hw : Written.Encodes ws xs) (hs : s.Valid) (hc : s.toCell = Written.weave ws .empty)
    (stk : Stack) :
    ∃ vs, Instr.exec g.code (.slice s :: stk) = .ok (vs.reverse ++ stk) ∧
      Value.sameAll vs (Ty.buildAll ts xs) = true := by
  obtain ⟨ys, s', hf, hcanon, hs', he⟩ := Written.fetchAll_weave (fun w h => (hw.reads w h).1) hs hc
  refine ⟨Ty.buildAll ts ys, Instr.exec_of_runAll (f := .next) ?_, ?_⟩
  · rw [readData_spec hp hg, ← hl, hf]
    simp [hs'.isEmpty_iff.2 he]
  · rw [Value.sameAll_iff, Ty.canonAll_buildAll, Ty.canonAll_buildAll, hcanon, hw.value]

/-! ### The round trip -/

/-- **What is written is read again.** Well-formed values of types that have a packing behind `bits`
bits and `refs` references are written to every builder that holds so much, and reading the data
behind its old contents gives the same values in order. -/
theorem read_written {vs : List Value} {b : Builder} {writer : Generated Position}
    {reader : Generated Unit} (hbits : bits ≤ maxBits) (hrefs : refs < maxRefs)
    (hd : Ty.DocumentedAll ts) (hp : Packing.ofTypes bits refs ts = .ok p)
    (hwrite : writeAll ts p.start false frame d = .ok writer)
    (hread : readData bits refs ts false frame' d' = .ok reader)
    (hvs : Ty.AdmitsAll ts vs) (hb : b.bits.length = bits) (hr : b.refs.length = refs)
    (below below' : Stack) :
    ∃ c s ws,
      Instr.exec (writer.code ++ [.op .endc]) (.builder b :: (vs ++ below)) =
        .ok (.cell c :: below) ∧
      (Slice.ofCell c).dropFront bits refs = .ok s ∧
      Instr.exec reader.code (.slice s :: below') = .ok (ws.reverse ++ below') ∧
      Value.sameAll ws vs = true := by
  obtain ⟨xs, rfl, hxs⟩ := hvs.build
  -- every leaf has a content
  obtain ⟨ws, hl, hw⟩ := Packing.exists_encodes hd hp hxs
  have hout := writeAll_weave hp hwrite hl hw (Packing.ofTypes_room hp hbits hrefs) hb hr below
  obtain ⟨c, hc⟩ : ∃ c, c = (b.add (Written.weave ws .empty)).toCell := ⟨_, rfl⟩
  have hcell : (Slice.ofCell c).toCell = b.toCell ++ Written.weave ws .empty := by
    rw [Slice.toCell_ofCell, hc]
    rfl
  have hvalid := Slice.valid_ofCell c
  -- and is read from where it was written
  obtain ⟨ys, s', hf, hcanon, hs', he⟩ := Written.fetchAll_weave (fun w h => (hw.reads w h).1)
    (hvalid.past hcell) (Slice.toCell_past hcell)
  refine ⟨c, (Slice.ofCell c).past b.toCell, Ty.buildAll ts ys, ?_, ?_, ?_, ?_⟩
  · refine Instr.exec_of_runAll (f := .next) ?_
    rw [Instr.runAll_append_of_ok hout, hc]
    simp
  · rw [← hb, ← hr]
    exact Slice.dropFront_of_shows hvalid hcell
  · refine Instr.exec_of_runAll (f := .next) ?_
    rw [readData_spec hp hread, ← hl, hf]
    simp [hs'.isEmpty_iff.2 he]
  · rw [Value.sameAll_iff, Ty.canonAll_buildAll, Ty.canonAll_buildAll, hcanon, hw.value]

/-- Values of the types `linkedTypes`; the member of the structure is an ordinal. -/
def linkedValues (ordinal : Int) : List Value :=
  [.cell .empty, .cell .empty, .cell .empty, .tuple [.cell .empty, .int ordinal], .null]

theorem admits_cell : Ty.Admits .cell (.cell .empty) :=
  ⟨⟨.ofCell ⟨[], [.empty]⟩, _, Slice.valid_ofCell _, rfl⟩, rfl⟩

theorem admits_item {ordinal : Int} (h : ordinal = 1 ∨ ordinal = 2) :
    Ty.Admits (.struct "item" [⟨"data", .cell⟩, ⟨"kind", .enumeration "Kind" 3⟩])
      (.tuple [.cell .empty, .int ordinal]) := by
  have hkind : Ty.Admits (.enumeration "Kind" 3) (.int ordinal) := by
    rcases h with rfl | rfl
    · exact ⟨⟨.ofCell ⟨.ofNat 8 1, []⟩, _, Slice.valid_ofCell _, rfl⟩, rfl⟩
    · exact ⟨⟨.ofCell ⟨.ofNat 8 2, []⟩, _, Slice.valid_ofCell _, rfl⟩, rfl⟩
  exact ⟨_, rfl, _, _, rfl, admits_cell, _, _, rfl, hkind, rfl⟩

theorem admits_linkedValues {ordinal : Int} (h : ordinal = 1 ∨ ordinal = 2) :
    Ty.AdmitsAll linkedTypes (linkedValues ordinal) :=
  .cons admits_cell (.cons admits_cell (.cons admits_cell (.cons (admits_item h)
    (.cons ⟨⟨.ofCell ⟨[false], []⟩, _, Slice.valid_ofCell _, rfl⟩, rfl⟩ .nil))))

theorem documented_linkedTypes : Ty.DocumentedAll linkedTypes := by
  simp [linkedTypes, Ty.DocumentedAll, Ty.Documented, Ty.DocumentedFields]

/-- Values in two cells, behind three bits of the first. -/
theorem read_written_linked :
    ∃ writer reader c s ws,
      writeAll linkedTypes linkedPacking.start false none 6 = .ok writer ∧
      readData 3 0 linkedTypes false none 1 = .ok reader ∧
      Instr.exec (writer.code ++ [.op .endc]) [.builder ⟨[true, false, true], []⟩, .cell .empty,
          .cell .empty, .cell .empty, .tuple [.cell .empty, .int 2], .null] = .ok [.cell c] ∧
      (Slice.ofCell c).dropFront 3 0 = .ok s ∧
      Instr.exec reader.code [.slice s] = .ok ws.reverse ∧
      Value.sameAll ws [.cell .empty, .cell .empty, .cell .empty, .tuple [.cell .empty, .int 2],
        .null] = true := by
  obtain ⟨writer, h1⟩ := exists_of_isOk
    (show (writeAll linkedTypes linkedPacking.start false none 6).isOk = true by decide +kernel)
  obtain ⟨reader, h2⟩ := exists_of_isOk
    (show (readData 3 0 linkedTypes false none 1).isOk = true by decide +kernel)
  obtain ⟨c, s, ws, h3, h4, h5, h6⟩ := read_written (b := ⟨[true, false, true], []⟩) (by decide)
    (by decide) documented_linkedTypes (rfl : Packing.ofTypes 3 0 linkedTypes = .ok linkedPacking)
    h1 h2 (admits_linkedValues (.inr rfl)) rfl rfl [] []
  exact ⟨writer, reader, c, s, ws, h1, h2, h3, h4, by simpa using h5, h6⟩

end Gen

end TypedCells
