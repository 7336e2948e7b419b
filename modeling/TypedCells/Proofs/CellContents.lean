import TypedCells.Proofs.Admitted
import TypedCells.Proofs.Writer

/-!
# What the cells of written data hold

Written data is a chain of cells. Each holds the written forms of the leaves from one that opens a
cell up to the next, in order, and then the link to the cell after it (`PackedLeaf.spread`,
`Cell.linked`). The first cell also holds what the builder had, in front, and the last one the rest
of a slice, if there is one, behind.

* `Cell.chain?_weave`: following the links of woven contents gives these cells.
* `Gen.writeAll_cells`: what the code that writes a list of values makes, cell by cell.
-/

namespace TypedCells

/-! ### Linked cells -/

namespace Cell

/-- The content with a link to the first of some cells behind it. -/
def linkTo (c : Cell) : List Cell → Cell
  | [] => c
  | d :: _ => c ++ .link d

/-- Cells with the given contents, each with a link to the next one behind its own. -/
def linked : List Cell → List Cell
  | [] => []
  | c :: cs => c.linkTo (linked cs) :: linked cs

theorem chain?_eq_some {c : Cell} {n : Nat} {cs : List Cell} (h : c.chain? n = some cs) :
    ∃ cs', cs = c :: cs' := by
  cases n with
  | zero => exact ⟨[], (Option.some.inj h).symm⟩
  | succ n =>
    simp only [chain?, Option.bind_eq_bind, Option.bind_eq_some_iff] at h
    obtain ⟨d, -, cs', -, h⟩ := h
    exact ⟨cs', (Option.some.inj h).symm⟩

/-- A link behind a content is followed. -/
theorem chain?_link {c d : Cell} {n : Nat} {cs : List Cell} (h : d.chain? n = some (linked cs)) :
    (c ++ .link d).chain? (n + 1) = some (linked (c :: cs)) := by
  obtain ⟨ds, hd⟩ := chain?_eq_some h
  have hlast : (c ++ .link d).refs.getLast? = some d := by simp
  simp only [chain?, hlast, Option.bind_eq_bind, Option.bind_some, h]
  rw [linked, hd]
  rfl

end Cell

/-- The contents of the cells in which leaves with the given contents are, the current one of which
holds `c`. Behind the last leaf is `e`. -/
def PackedLeaf.spread (c : Cell) : List PackedLeaf → List Cell → (e : Cell) → List Cell
  | l :: ls, i :: is, e =>
    if l.opensCell then c :: spread i ls is e else spread (c ++ i) ls is e
  | _, _, e => [c ++ e]

theorem PackedLeaf.length_spread : ∀ {ls : List PackedLeaf} {is : List Cell} (c e : Cell),
    is.length = ls.length → (spread c ls is e).length = ls.countP (·.opensCell) + 1
  | [], [], _, _, _ => rfl
  | l :: ls, i :: is, c, e, h => by
    rw [spread]
    split
    · next ho =>
      rw [List.length_cons, length_spread i e (Nat.succ.inj h), List.countP_cons_of_pos ho]
    · next ho => rw [length_spread (c ++ i) e (Nat.succ.inj h), List.countP_cons_of_neg ho]

/-- **Woven contents are a chain of cells.** -/
theorem Cell.chain?_weave (ws : List Written) (c e : Cell) :
    (c ++ Written.weave ws e).chain? ((ws.map (·.leaf)).countP (·.opensCell)) =
      some (linked (PackedLeaf.spread c (ws.map (·.leaf)) (ws.map (·.content)) e)) := by
  induction ws generalizing c with
  | nil => rfl
  | cons w ws ih =>
    simp only [List.map_cons, Written.weave, PackedLeaf.spread]
    split
    · next ho =>
      rw [List.countP_cons_of_pos ho]
      exact chain?_link (ih w.content)
    · next ho =>
      rw [List.countP_cons_of_neg ho, ← append_assoc]
      exact ih (c ++ w.content)

/-- The builder that is filled last holds what the last cell does. -/
theorem Written.getLast?_spread (ws : List Written) (bs : List Builder) (b : Builder) :
    (PackedLeaf.spread b.toCell (ws.map (·.leaf)) (ws.map (·.content)) .empty).getLast? =
      some (grow ws (bs, b)).2.toCell := by
  induction ws generalizing bs b with
  | nil => simp [PackedLeaf.spread, grow]
  | cons w ws ih =>
    simp only [List.map_cons, PackedLeaf.spread, grow]
    split
    · have h := ih (b :: bs) (Builder.add {} w.content)
      have hc : (Builder.add {} w.content).toCell = w.content := Cell.empty_append w.content
      rw [hc] at h
      rw [List.getLast?_cons, h, Option.getD_some]
    · exact ih bs (b.add w.content)

/-! ### Written forms -/

/-- Reading the type can give the value, and writing the value succeeds. -/
def Ty.Storable (t : Ty) (v : Value) : Prop :=
  (∃ s s', s.Valid ∧ t.load s = .ok (v, s')) ∧ ∃ b, t.store v {} = .ok b

theorem Ty.Storable.image {t : Ty} {v : Value} (h : t.Storable v) (ho : t.Accepted) :
    v.Valid ∧ ∃ c, t.Image c v.canon := by
  obtain ⟨⟨s, s', hs, hl⟩, b, hb⟩ := h
  have hv := t.load_valid hs hl
  exact ⟨hv, t.exists_image (.inr ⟨{}, b, by rwa [t.store_canon hv]⟩) ho hs hl⟩

/-- Leaves with values that can be stored have contents that writing them appends. -/
theorem Written.exists_stores : ∀ {ls : List PackedLeaf} {xs : List Value},
    (∀ t ∈ ls.map (·.type), t.Accepted) →
    List.Forall₂ Ty.Storable (ls.map (·.type)) xs →
    ∃ ws : List Written, ws.map (·.leaf) = ls ∧ Stores ws xs
  | [], _, _, .nil => ⟨[], rfl, .nil⟩
  | l :: ls, x :: xs, ho, .cons hx hxs => by
    obtain ⟨ho, hos⟩ := List.forall_mem_cons.1 ho
    obtain ⟨hv, c, hc⟩ := hx.image ho
    obtain ⟨ws, rfl, hw⟩ := exists_stores hos hxs
    exact ⟨⟨l, c, x.canon⟩ :: ws, rfl, .cons ⟨hc.bounds, Ty.puts_of_canon hc.writes hv rfl⟩ hw⟩

/-- The leaves of a packing have contents for all values that can be stored. -/
theorem Packing.exists_stores {bits refs : Nat} {ts : List Ty} {p : Packing} {xs : List Value}
    (hp : Packing.ofTypes bits refs ts = .ok p)
    (hxs : List.Forall₂ Ty.Storable (Ty.allLeaves ts) xs) :
    ∃ ws : List Written, ws.map (·.leaf) = p.leaves ∧ Written.Stores ws xs := by
  have ht := Packing.ofTypes_types hp
  refine Written.exists_stores ?_ (ht ▸ hxs)
  rw [ht]
  exact Packing.ofTypes_accepted hp

/-- The contents are what writing the values to empty builders gives. -/
theorem Written.Stores.images {ws : List Written} {xs : List Value} (h : Stores ws xs)
    (hroom : ∀ w ∈ ws, Builder.HasRoom {} w.content) :
    List.zipWith (fun t x => t.store x {}) (ws.map (·.leaf.type)) xs =
      (ws.map (·.content)).map fun c => .ok (.ofCell c) := by
  induction h with
  | nil => rfl
  | cons hw _ ih =>
    obtain ⟨hroom, hrooms⟩ := List.forall_mem_cons.1 hroom
    rw [List.map_cons, List.map_cons, List.map_cons, List.zipWith_cons_cons, ih hrooms,
      hw.2.adds hroom]
    rfl

theorem Builder.ok_ofCell_injective :
    Function.Injective fun c => (Except.ok (ofCell c) : Except Trap Builder) := by
  intro c c' h
  cases c
  cases c'
  cases h
  rfl

/-- The content of a leaf of a packing fits an empty cell. -/
theorem Packing.Room.hasRoom : ∀ {ls : List PackedLeaf} {b r : Nat} {w : Written}, Room b r ls →
    w.leaf ∈ ls → w.Bounded → Builder.HasRoom {} w.content
  | l :: ls, b, r, w, h, hm, hw => by
    rw [Room] at h
    rcases List.mem_cons.1 hm with hl | hm
    · obtain ⟨hbits, hrefs⟩ := hw
      rw [hl] at hbits hrefs
      have hle : l.type.size.bits ≤ maxBits ∧ l.type.size.refs ≤ maxRefs := by
        split at h
        · exact h.2.2.le
        · have := h.le
          omega
      exact ⟨by simp only [List.length_nil]; omega, by simp only [List.length_nil]; omega⟩
    · split at h
      · exact h.2.2.hasRoom hm hw
      · exact h.hasRoom hm hw

/-- The contents of the leaves of a packing are what writing the values to empty builders gives. -/
theorem Packing.images {bits refs : Nat} {ts : List Ty} {p : Packing} {ws : List Written}
    {xs : List Value} (hp : Packing.ofTypes bits refs ts = .ok p) (hl : ws.map (·.leaf) = p.leaves)
    (hw : Written.Stores ws xs) :
    List.zipWith (fun t x => t.store x {}) (Ty.allLeaves ts) xs =
      (ws.map (·.content)).map fun c => .ok (.ofCell c) := by
  have htypes : ws.map (·.leaf.type) = Ty.allLeaves ts := by
    rw [← Packing.ofTypes_types hp, ← hl, List.map_map]
    rfl
  rw [← htypes]
  exact hw.images fun w hm => (Packing.ofTypes_room_zero hp).hasRoom
    (hl ▸ List.mem_map_of_mem hm) (hw.bounded w hm)

namespace Gen

variable {frame : Option Frame} {d bits refs : Nat} {ts : List Ty} {p : Packing}

/-- **What written data looks like, cell by cell.** Values that can be stored are written to every
builder that holds as much as the packing of their types starts behind. Cell by cell, the result
holds what writing the leaves one by one to empty builders gives: the first cell what the builder
had and then the leaves before the first that opens a cell, every further cell the leaves from the
one that opens it, and all but the last a link to the next as their last reference. The rest of a
slice goes to the end of the last cell, or there is a cell overflow if it does not fit there. -/
theorem writeAll_cells {xs : List Value} {b : Builder} {g : Generated Position} (tail : Option Slice)
    (hbits : bits ≤ maxBits) (hrefs : refs < maxRefs) (hp : Packing.ofTypes bits refs ts = .ok p)
    (hg : writeAll ts p.start tail.isSome frame d = .ok g)
    (hxs : List.Forall₂ Ty.Storable (Ty.allLeaves ts) xs) (htail : ∀ s ∈ tail, s.Valid)
    (hb : b.bits.length = bits) (hr : b.refs.length = refs) (below : Stack) :
    ∃ images last,
      List.zipWith (fun t x => t.store x {}) (Ty.allLeaves ts) xs =
        images.map (fun c => .ok (.ofCell c)) ∧
      (PackedLeaf.spread b.toCell p.leaves images .empty).getLast? = some last ∧
      (Builder.ofCell last).HasRoom .empty ∧
      (PackedLeaf.spread b.toCell p.leaves images (restContent tail)).length = p.newCells + 1 ∧
      ((Builder.ofCell last).HasRoom (restContent tail) → ∃ b',
        Instr.exec g.code
            (.builder b :: (Ty.buildAll ts xs ++ (tail.toList.map .slice ++ below))) =
          .ok (.builder b' :: below) ∧
        b'.toCell.chain? p.newCells =
          some (Cell.linked (PackedLeaf.spread b.toCell p.leaves images (restContent tail)))) ∧
      (¬ (Builder.ofCell last).HasRoom (restContent tail) →
        Instr.exec g.code
            (.builder b :: (Ty.buildAll ts xs ++ (tail.toList.map .slice ++ below))) =
          .error .cellOverflow) := by
  obtain ⟨ws, hl, hw⟩ := Packing.exists_stores hp hxs
  have hroom := Packing.ofTypes_room hp hbits hrefs
  have hfits : b.Fits (ws.map (·.leaf)) := by
    rwa [hl, Builder.Fits, hb, hr]
  have hrun := writeAll_spec tail hp hg hxs.length_eq.symm b below
  obtain ⟨hput, hover⟩ := Written.putAll_weave tail hw hfits htail
  have hnone := Written.hasRoom_grow hw.bounded hfits
  refine ⟨ws.map (·.content), (Written.grow ws ([], b)).2.toCell, Packing.images hp hl hw, ?_,
    hnone, ?_, ?_, ?_⟩
  · rw [← hl]
    exact Written.getLast?_spread ws [] b
  · rw [Packing.newCells, ← hl]
    exact PackedLeaf.length_spread _ _ (by simp)
  · intro h
    rw [← hl, hput h] at hrun
    refine ⟨_, Instr.exec_of_runAll (f := .next) hrun, ?_⟩
    rw [Packing.newCells, ← hl]
    exact Cell.chain?_weave ws b.toCell _
  · intro h
    rw [← hl, hover h] at hrun
    exact Instr.exec_of_runAll_error hrun

theorem storable_linkedValues : List.Forall₂ Ty.Storable (Ty.allLeaves linkedTypes)
    [.cell .empty, .cell .empty, .cell .empty, .cell .empty, .int 2, .null] := by
  have hcell : Ty.Storable .cell (.cell .empty) :=
    ⟨⟨.ofCell ⟨[], [.empty]⟩, _, Slice.valid_ofCell _, rfl⟩, ⟨[], [.empty]⟩, rfl⟩
  have hkind : Ty.Storable (.enumeration "Kind" 3) (.int 2) :=
    ⟨⟨.ofCell ⟨.ofNat 8 2, []⟩, _, Slice.valid_ofCell _, rfl⟩, ⟨.ofNat 8 2, []⟩, rfl⟩
  have hnull : Ty.Storable (.optional (.mapping .bool .cell)) .null :=
    ⟨⟨.ofCell ⟨[false], []⟩, _, Slice.valid_ofCell _, rfl⟩, ⟨[false], []⟩, rfl⟩
  exact .cons hcell (.cons hcell (.cons hcell (.cons hcell (.cons hkind (.cons hnull .nil)))))

/-- Values in two cells, behind three bits of the first, and the rest of a slice behind them. -/
theorem writeAll_cells_linked :
    ∃ writer b,
      writeAll linkedTypes linkedPacking.start true none 7 = .ok writer ∧
      Instr.exec writer.code [.builder ⟨[true, false, true], []⟩, .cell .empty, .cell .empty,
          .cell .empty, .tuple [.cell .empty, .int 2], .null, .slice (.ofCell ⟨[true], []⟩)] =
        .ok [.builder b] ∧
      b.toCell.chain? 1 = some (Cell.linked
        [⟨[true, false, true], [.empty, .empty, .empty]⟩,
          ⟨.ofNat 8 2 ++ [false, true], [.empty]⟩]) := by
  obtain ⟨writer, hg⟩ := exists_of_isOk
    (show (writeAll linkedTypes linkedPacking.start true none 7).isOk = true by decide +kernel)
  obtain ⟨images, last, himages, hlast, -, -, hfits, -⟩ := writeAll_cells
    (b := ⟨[true, false, true], []⟩) (some (.ofCell ⟨[true], []⟩)) (by decide) (by decide)
    (rfl : Packing.ofTypes 3 0 linkedTypes = .ok linkedPacking) hg storable_linkedValues
    (by simpa using Slice.valid_ofCell _) rfl rfl []
  -- the images are the written forms of the leaves
  obtain rfl : images = [.link .empty, .link .empty, .link .empty, .link .empty,
      .ofBits (.ofNat 8 2), .ofBits [false]] :=
    List.map_injective_iff.2 Builder.ok_ofCell_injective (himages.symm.trans rfl)
  obtain rfl := Option.some.inj hlast
  obtain ⟨b, hexec, hchain⟩ := hfits ⟨by decide, by decide⟩
  exact ⟨writer, b, hg, hexec, hchain⟩

end Gen

end TypedCells
