import TypedCells.Proofs.Quiet
import TypedCells.Proofs.RoundTrip

/-!
# Stored values and their contents

A value that was read from cells within their limits can be written, and is read again from what
was written, whatever follows there (`Ty.load_store`). If values of each leaf have one content only,
data that was read to its end is the data that writing its values gives (`Gen.readData_exact`).
-/

namespace TypedCells

namespace Ty

/-! ### Writing what was read -/

/-- **Writing and reading are inverse.** Let the value be read from a cell that is within the limits
of cells together with those below. Then writing it to an empty builder succeeds, and from every
slice that shows what was written first, the same value is read, and the rest is left. -/
theorem load_store {t : Ty} {s s' : Slice} {v : Value} (ht : t.Proper) (hs : s.Valid)
    (hc : s.cell.WithinLimits) (h : t.load s = .ok (v, s')) :
    ∃ b, t.store v {} = .ok b ∧ ∀ (r : Slice) (rest : Cell), r.Valid → r.toCell = b.toCell ++ rest →
      ∃ w r', t.load r = .ok (w, r') ∧ w.same v = true ∧ r' = r.past b.toCell ∧
        r'.toCell = rest := by
  obtain ⟨d, e, hd, -, hr, -⟩ := exists_reads hs h
  have hlim : d.WithinLimits := by
    have hlim := Slice.withinLimits_toCell hc
    rw [hd] at hlim
    exact hlim.left
  obtain ⟨c, hc⟩ := Reads.rewrites t (.inl ht) (.inr hlim) hr
  have hroom : ({} : Builder).HasRoom c := by
    obtain ⟨hb, hr, -⟩ := (Cell.withinLimits_iff d).1 hlim
    exact ⟨by simpa using Nat.le_trans hc.bits_le hb, by simpa using Nat.le_trans hc.refs_le hr⟩
  have hcell : (Builder.add {} c).toCell = c := Cell.empty_append c
  have hput : Builder.Puts (t.store v) c := puts_of_canon hc.writes (load_valid t hs h) rfl
  refine ⟨_, hput.adds hroom, fun r rest hr hrest => ?_⟩
  rw [hcell] at hrest ⊢
  obtain ⟨⟨w, r'⟩, hl, hp, hv⟩ := hc.reads hr hrest
  obtain rfl : r' = r.past c := hp
  exact ⟨w, _, hl, (Value.same_iff w v).2 hv, rfl, Slice.toCell_past hrest⟩

/-- An optional with a payload in a cell of its own. -/
def boxedType : Ty :=
  .optional (.tuple [.varInteger 16 false, .cell, .cell, .cell, .mapping .bool .cell,
    .optional .cell])

/-- Such a payload, with an integer in more bytes than it needs and a bit behind the payload. -/
def boxedCell : Cell :=
  ⟨[true], [⟨.ofNat 4 2 ++ .ofNat 16 5 ++ [true, false, true], List.replicate 4 .empty⟩]⟩

/-- The value that is read there is written in fewer bits, and read again. -/
theorem load_store_boxed :
    boxedType.Proper ∧ boxedCell.WithinLimits ∧
      ∃ v s' b, boxedType.load (.ofCell boxedCell) = .ok (v, s') ∧ boxedType.store v {} = .ok b ∧
        ∀ (r : Slice) (rest : Cell), r.Valid → r.toCell = b.toCell ++ rest →
          ∃ w r', boxedType.load r = .ok (w, r') ∧ w.same v = true ∧ r' = r.past b.toCell ∧
            r'.toCell = rest := by
  have ht : boxedType.Proper :=
    ⟨trivial, ⟨4, rfl⟩, trivial, trivial, trivial, trivial, ⟨trivial, trivial⟩, trivial⟩
  have hempty : Cell.empty.WithinLimits := ⟨Nat.zero_le _, Nat.zero_le _, trivial⟩
  have hc : boxedCell.WithinLimits :=
    ⟨by decide, by decide, ⟨by decide, by decide, hempty, hempty, hempty, hempty, trivial⟩, trivial⟩
  obtain ⟨⟨v, s'⟩, hv⟩ := exists_of_isOk
    (show (boxedType.load (.ofCell boxedCell)).isOk = true by decide +kernel)
  obtain ⟨b, hb, hread⟩ := load_store ht (Slice.valid_ofCell _) hc hv
  exact ⟨ht, hc, v, s', b, hv, hb, hread⟩

end Ty

/-! ### Contents that are the only ones -/

/-- A value of a type without other contents has been read from what writing it gives. -/
theorem Ty.Reads.image {t : Ty} {c : Cell} {a : Value} (h : t.Reads c a) (he : t.Exact)
    (hc : t.Roomy c) : t.Image c a := by
  obtain ⟨c', hc'⟩ := Reads.rewrites t (.inl he.proper) hc h
  have himage := hc'.toImage
  rwa [hc'.exact he] at himage

/-- So a value has been read from one content only. -/
theorem Ty.Reads.inj {t : Ty} {c d : Cell} {a : Value} (hc : t.Reads c a) (hd : t.Reads d a)
    (he : t.Exact) (hlc : c.WithinLimits) (hld : d.WithinLimits) : c = d := by
  have room {c : Cell} (h : c.WithinLimits) : ({} : Builder).HasRoom c := by
    obtain ⟨hb, hr, -⟩ := (Cell.withinLimits_iff c).1 h
    exact ⟨by simpa using hb, by simpa using hr⟩
  have hcw := (hc.image he (.inr hlc)).writes.adds (room hlc)
  rw [(hd.image he (.inr hld)).writes.adds (room hld)] at hcw
  simpa [Builder.add, Cell.ext_iff, eq_comm] using hcw

namespace Written

theorem withinLimits_weave {ws : List Written} {e : Cell} (h : (weave ws e).WithinLimits) :
    ∀ w ∈ ws, w.content.WithinLimits := by
  induction ws with
  | nil => simp
  | cons w ws ih =>
    have hw : (w.content ++ weave ws e).WithinLimits := by
      rw [weave] at h
      split at h
      · exact h.linked
      · exact h
    exact List.forall_mem_cons.2 ⟨hw.left, ih hw.right⟩

/-- Contents of the same leaves for the same values are the same. -/
theorem eq_of_values {ws ws' : List Written} (hw : ∀ w ∈ ws, w.Reads ∧ w.content.WithinLimits)
    (hw' : ∀ w ∈ ws', w.Reads ∧ w.content.WithinLimits) (he : ∀ w ∈ ws, w.leaf.type.Exact)
    (hl : ws.map (·.leaf) = ws'.map (·.leaf)) (hv : ws.map (·.value) = ws'.map (·.value)) :
    ws = ws' := by
  induction ws generalizing ws' with
  | nil => exact (List.map_eq_nil_iff.1 hl.symm).symm
  | cons w ws ih =>
    obtain ⟨w', ws', rfl, (hlw : w'.leaf = w.leaf), hls⟩ := List.map_eq_cons_iff.1 hl.symm
    obtain ⟨(hvw : w.value = w'.value), hvs⟩ := List.cons.inj hv
    obtain ⟨⟨hr, hc⟩, hw⟩ := List.forall_mem_cons.1 hw
    obtain ⟨⟨hr', hc'⟩, hw'⟩ := List.forall_mem_cons.1 hw'
    obtain ⟨he, hes⟩ := List.forall_mem_cons.1 he
    have hreads : w.leaf.type.Reads w'.content w.value := by
      rw [hvw, ← hlw]
      exact hr'.reads
    have hcontent := hr.reads.inj hreads he hc hc'
    rw [ih hw hw' hes hls.symm hvs]
    cases w
    cases w'
    simp_all

end Written

namespace Gen

variable {frame : Option Frame} {d bits refs : Nat} {ts : List Ty} {p : Packing}
  {reader : Generated Unit}

/-- What the code that reads data to its end has read: contents of the leaves, and nothing else. -/
theorem readData_written {s : Slice} {vs : List Value} {below : Stack}
    (hp : Packing.ofTypes bits refs ts = .ok p)
    (hread : readData bits refs ts false frame d = .ok reader) (hs : s.Valid)
    (hrun : Instr.exec reader.code (.slice s :: below) = .ok (vs.reverse ++ below)) :
    ∃ xs ws, vs = Ty.buildAll ts xs ∧ xs.length = (Ty.allLeaves ts).length ∧ Value.ValidAll xs ∧
      ws.map (·.leaf) = p.leaves ∧ ws.map (·.value) = Value.canonAll xs ∧
      (∀ w ∈ ws, Written.Reads w) ∧ s.toCell = Written.weave ws .empty := by
  have hspec := readData_spec hp hread s below
  rcases hf : PackedLeaf.fetchAll p.leaves s with e | ⟨xs, s'⟩
  · rw [hf] at hspec
    cases (Instr.exec_of_runAll_error hspec).symm.trans hrun
  rw [hf] at hspec
  by_cases he : s'.isEmpty = true
  · simp only [ok_bind, he, Bool.not_true, Bool.false_eq_true, if_false, pure_eq_ok] at hspec
    have hvs := (Instr.exec_of_runAll hspec).symm.trans hrun
    obtain ⟨hx, hs'⟩ := PackedLeaf.fetchAll_valid hs hf
    obtain ⟨ws, hl, hv, hr, hc⟩ := PackedLeaf.fetchAll_written hs hf
    rw [hs'.isEmpty_iff.1 he] at hc
    refine ⟨xs, ws, ?_, ?_, hx, hl, hv, hr, hc⟩
    · simpa using (List.append_cancel_right (Except.ok.inj hvs)).symm
    · rw [PackedLeaf.length_fetchAll hf, ← Packing.ofTypes_types hp, List.length_map]
  · simp only [ok_bind, he] at hspec
    cases (Instr.exec_of_runAll_error hspec).symm.trans hrun

/-- **Data that is read to its end is what writing its values gives,** if values of the leaves have
one content only. So no other data has the same values. -/
theorem readData_exact {s : Slice} {vs : List Value} {below : Stack}
    (hp : Packing.ofTypes bits refs ts = .ok p)
    (hread : readData bits refs ts false frame d = .ok reader)
    (he : ∀ t ∈ Ty.allLeaves ts, t.Exact) (hs : s.Valid) (hc : s.cell.WithinLimits)
    (hrun : Instr.exec reader.code (.slice s :: below) = .ok (vs.reverse ++ below)) :
    (∀ (frame' : Option Frame) (d' : Nat) (writer : Generated Position) (below' : Stack),
      writeAll ts p.start false frame' d' = .ok writer →
      Instr.exec (writer.code ++ [.op .endc]) (.builder {} :: (vs ++ below')) =
        .ok (.cell s.toCell :: below')) ∧
    ∀ (r : Slice) (us : List Value), r.Valid → r.cell.WithinLimits →
      Instr.exec reader.code (.slice r :: below) = .ok (us.reverse ++ below) →
      Value.sameAll us vs = true → r.same s = true := by
  obtain ⟨xs, ws, rfl, hlen, hx, hl, hv, hw, hsc⟩ := readData_written hp hread hs hrun
  have hlim := Written.withinLimits_weave (hsc ▸ Slice.withinLimits_toCell hc)
  have hexact (w : Written) (hm : w ∈ ws) : w.leaf.type.Exact := by
    refine he _ ?_
    rw [← Packing.ofTypes_types hp, ← hl, List.map_map]
    exact List.mem_map_of_mem hm
  constructor
  · intro frame' d' writer below' hwrite
    have hencodes : Written.Encodes ws xs := by
      refine ⟨fun w hm => ?_, hx, hv.symm⟩
      have hi := (hw w hm).reads.image (hexact w hm) (.inr (hlim w hm))
      exact ⟨hw w hm, hi.writes, hi.bounds⟩
    have hfits : ({} : Builder).Fits (ws.map (·.leaf)) := by
      rw [hl]
      exact Packing.ofTypes_room_zero hp
    have hout : Instr.runAll writer.code (.builder {} :: (Ty.buildAll ts xs ++ below')) = _ :=
      writeAll_spec none hp hwrite hlen {} below'
    rw [← hl, Written.putAll_weave_none hencodes.stores hfits, ← hsc] at hout
    have hcell : (Builder.add {} s.toCell).toCell = s.toCell := Cell.empty_append _
    refine Instr.exec_of_runAll (f := .next) ?_
    rw [Instr.runAll_append_of_ok hout]
    simp [hcell]
  · intro r us hr hrc hrrun hsame
    obtain ⟨ys, ws', rfl, hlen', -, hl', hv', hw', hrs⟩ := readData_written hp hread hr hrrun
    have hlim' := Written.withinLimits_weave (hrs ▸ Slice.withinLimits_toCell hrc)
    rw [Value.sameAll_iff, Ty.canonAll_buildAll, Ty.canonAll_buildAll] at hsame
    have hcanon := Ty.buildAll_inj (by simpa using hlen') (by simpa using hlen) hsame
    obtain rfl := Written.eq_of_values (fun w h => ⟨hw w h, hlim w h⟩)
      (fun w h => ⟨hw' w h, hlim' w h⟩) hexact (hl.trans hl'.symm) (by rw [hv, hv', hcanon])
    rw [Slice.same_iff, hrs, hsc]

theorem exact_linkedTypes : ∀ t ∈ Ty.allLeaves linkedTypes, t.Exact := by
  have he : (Ty.optional (.mapping .bool .cell)).Exact := ⟨⟨by decide, by decide⟩, trivial⟩
  simp [linkedTypes, Ty.allLeaves, Ty.leaves, Ty.fieldLeaves, Ty.Exact, Ty.Each] at he ⊢
  exact he

/-- Data in two cells is what writing its values gives, and no other data has these values. -/
theorem readData_exact_linked :
    ∃ reader writer, readData 3 0 linkedTypes false none 1 = .ok reader ∧
      writeAll linkedTypes linkedPacking.start false none 6 = .ok writer ∧
      Instr.exec reader.code [.slice (linkedData 2)] = .ok (linkedValues 2).reverse ∧
      Instr.exec (writer.code ++ [.op .endc]) (.builder {} :: linkedValues 2) =
        .ok [.cell (linkedData 2).toCell] ∧
      ∀ (r : Slice) (us : List Value), r.Valid → r.cell.WithinLimits →
        Instr.exec reader.code [.slice r] = .ok us.reverse →
        Value.sameAll us (linkedValues 2) = true → r.same (linkedData 2) = true := by
  obtain ⟨reader, hread⟩ := exists_of_isOk
    (show (readData 3 0 linkedTypes false none 1).isOk = true by decide +kernel)
  obtain ⟨writer, hwrite⟩ := exists_of_isOk
    (show (writeAll linkedTypes linkedPacking.start false none 6).isOk = true by decide +kernel)
  have hempty : Cell.empty.WithinLimits := ⟨Nat.zero_le _, Nat.zero_le _, trivial⟩
  have hlim : (linkedData 2).cell.WithinLimits :=
    ⟨by decide, by decide, hempty, hempty, hempty, ⟨by decide, by decide, hempty, trivial⟩, trivial⟩
  have hp : Packing.ofTypes 3 0 linkedTypes = .ok linkedPacking := rfl
  have hrun : Instr.exec reader.code [.slice (linkedData 2)] =
      .ok ((linkedValues 2).reverse ++ []) :=
    Instr.exec_of_runAll ((readData_spec hp hread _ []).trans rfl)
  obtain ⟨hw, hinj⟩ := readData_exact hp hread exact_linkedTypes (linkedData_valid 2) hlim hrun
  have hwritten := hw none 6 writer [] hwrite
  rw [List.append_nil] at hwritten
  exact ⟨reader, writer, hread, hwrite, hrun, hwritten, fun r us hr hc hus =>
    hinj r us hr hc (by simpa using hus)⟩

end Gen

end TypedCells
