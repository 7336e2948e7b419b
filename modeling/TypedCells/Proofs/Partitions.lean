import TypedCells.Proofs.Chains

/-!
# Packings are the shortest partitions

A packing cuts the leaves of a list of types into the contents of cells (`Packing.cells`). Every
other way to cut them, in which the leaves of each cell fit it and a link fits in front of each
further cell (`Packing.FitCells`), takes at least as many cells. The packing is greedy: a leaf opens
a cell only if the current one has room neither for all that is left nor for the leaf and a link. So
the packing has never put fewer leaves into as many cells.

* `Packing.place_fewest`: no partition that starts as far into its first cell has fewer cells.
* `Packing.ofTypes_shortest`: which lists of types have a packing where words hold the sums, and
  that it is a shortest partition of their leaves.
* `Packing.ofTypes_wrapped`: where sums are cut, there are packings of leaves that no cell holds.
* `Packing.ofTypes_unlinked`: behind a full row of references, leaves that do not all fit the first
  cell are packed into further ones although the first has no reference left for a link.
-/

namespace TypedCells

/-! ### References of leaves -/

namespace Ty

/-- Every leaf but a tuple leaves a reference of an empty cell free, if words hold its sums. -/
theorem refs_size_lt {t : Ty} (h : t.IsLeaf) (ht : ∀ us, t ≠ .tuple us) (hs : t.sumsFit) :
    t.size.refs < maxRefs := by
  cases t with
  | struct => exact h.elim
  | «alias» => exact h.elim
  | tuple us => exact absurd rfl (ht us)
  | optional t =>
    by_cases hi : t.wordSize.StaysInline
    · rw [size_optional_inline hi]
      exact refs_wordSize_of_fit (t := t) hs ▸ hi.2
    · rw [size_optional_boxed hi]
      decide
  | _ => simp only [size, Size.exact, Size.upTo]; decide

end Ty

namespace Packing

/-! ### Partitions -/

/-- The contents of the cells in which the leaves are, the current one of which holds `c`. -/
def cellsFrom (c : List Ty) : List PackedLeaf → List (List Ty)
  | [] => [c]
  | l :: ls => if l.opensCell then c :: cellsFrom [l.type] ls else cellsFrom (c ++ [l.type]) ls

/-- The leaves cell by cell. -/
def cells (p : Packing) : List (List Ty) := cellsFrom [] p.leaves

/-- The leaves of each cell fit it, the first behind `bits` bits and `refs` references, and so does
a link in each cell but the last. -/
def FitCells (bits refs : Nat) : List (List Ty) → Prop
  | [] => False
  | [c] => bits + (Ty.totalSize c).bits ≤ maxBits ∧ refs + (Ty.totalSize c).refs ≤ maxRefs
  | c :: c' :: cs => (bits + (Ty.totalSize c).bits ≤ maxBits ∧
      refs + (Ty.totalSize c).refs < maxRefs) ∧ FitCells 0 0 (c' :: cs)

theorem flatten_cellsFrom : ∀ (c : List Ty) (ls : List PackedLeaf),
    (cellsFrom c ls).flatten = c ++ ls.map (·.type)
  | c, [] => by simp [cellsFrom]
  | c, l :: ls => by
    rw [cellsFrom]
    split <;> simp [flatten_cellsFrom]

theorem length_cellsFrom : ∀ (c : List Ty) (ls : List PackedLeaf),
    (cellsFrom c ls).length = ls.countP (·.opensCell) + 1
  | c, [] => rfl
  | c, l :: ls => by
    rw [cellsFrom]
    split
    · next ho => rw [List.length_cons, length_cellsFrom, List.countP_cons_of_pos ho]
    · next ho => rw [length_cellsFrom, List.countP_cons_of_neg ho]

theorem totalSize_concat (c : List Ty) (t : Ty) :
    (Ty.totalSize (c ++ [t])).bits = (Ty.totalSize c).bits + t.size.bits ∧
      (Ty.totalSize (c ++ [t])).refs = (Ty.totalSize c).refs + t.size.refs := by
  induction c with
  | nil => simp [Ty.totalSize]
  | cons u c ih => simp only [List.cons_append, Ty.totalSize, Size.bits_add, Size.refs_add]; omega

/-- Leaves for which there is room fit the cells in which they are. -/
theorem fitCells_cellsFrom : ∀ {ls : List PackedLeaf} {c : List Ty} {b r : Nat},
    Room (b + (Ty.totalSize c).bits) (r + (Ty.totalSize c).refs) ls → FitCells b r (cellsFrom c ls)
  | [], c, b, r, h => h
  | l :: ls, c, b, r, h => by
    rw [Room] at h
    rw [cellsFrom]
    split at h
    · next ho =>
      have hnext : FitCells 0 0 (cellsFrom [l.type] ls) :=
        fitCells_cellsFrom (by simpa [Ty.totalSize] using h.2.2)
      obtain ⟨c', cs, hc⟩ : ∃ c' cs, cellsFrom [l.type] ls = c' :: cs :=
        List.exists_cons_of_length_eq_add_one (length_cellsFrom _ _)
      rw [if_pos ho, hc]
      exact ⟨⟨h.1, h.2.1⟩, hc ▸ hnext⟩
    · next ho =>
      obtain ⟨hb, hr⟩ := totalSize_concat c l.type
      rw [if_neg ho]
      exact fitCells_cellsFrom (by rwa [hb, hr, ← Nat.add_assoc, ← Nat.add_assoc])

/-- In a partition, the first cell goes on behind its first leaf. -/
theorem FitCells.tail {t : Ty} {c : List Ty} {cs : List (List Ty)} {b r : Nat}
    (h : FitCells b r ((t :: c) :: cs)) :
    FitCells (b + t.size.bits) (r + t.size.refs) (c :: cs) := by
  cases cs with
  | nil =>
    simp only [FitCells, Ty.totalSize, Size.bits_add, Size.refs_add] at h ⊢
    omega
  | cons c' cs =>
    simp only [FitCells, Ty.totalSize, Size.bits_add, Size.refs_add] at h ⊢
    exact ⟨by omega, h.2⟩

/-- The first cell has room for all leaves or for its first one and a link. -/
theorem FitCells.head {t : Ty} {ts c : List Ty} {cs : List (List Ty)} {b r : Nat}
    (h : FitCells b r ((t :: c) :: cs)) (hc : c ++ cs.flatten = ts) :
    (b + (t.size.bits + (Ty.totalSize ts).bits) ≤ maxBits ∧
        r + (t.size.refs + (Ty.totalSize ts).refs) ≤ maxRefs) ∨
      (b + t.size.bits ≤ maxBits ∧ r + t.size.refs < maxRefs) := by
  cases cs with
  | nil =>
    simp only [List.flatten_nil, List.append_nil] at hc
    subst hc
    simpa [FitCells, Ty.totalSize] using Or.inl h
  | cons c' cs =>
    simp only [FitCells, Ty.totalSize, Size.bits_add, Size.refs_add] at h
    omega

/-! ### The shortest partition -/

/-- **No partition has fewer cells than the packing,** and one that starts further into its first
cell not even as many as the packing has behind its first. -/
theorem place_fewest {ts : List Ty} {ls : List PackedLeaf} {cells : List (List Ty)}
    {b r b' r' : Nat} (h : place b r ts = .ok ls) (hc : cells.flatten = ts)
    (hf : FitCells b' r' cells) :
    ls.countP (·.opensCell) ≤ cells.length ∧
      (b ≤ b' → r ≤ r' → ls.countP (·.opensCell) + 1 ≤ cells.length) := by
  induction ts generalizing ls cells b r b' r' with
  | nil =>
    obtain rfl := Except.ok.inj h
    cases cells with
    | nil => exact hf.elim
    | cons c cs => simp
  | cons t ts ih =>
    induction cells generalizing b' r' with
    | nil => exact hf.elim
    | cons c cs ihc =>
      cases c with
      | nil =>
        -- the partition leaves its first cell as it is
        cases cs with
        | nil => simp at hc
        | cons c' cs =>
          have hle := (ihc (by simpa using hc) hf.2).1
          rw [List.length_cons]
          exact ⟨by omega, fun _ _ => by omega⟩
      | cons u c =>
        obtain ⟨rfl, hrest⟩ := List.cons.inj (by simpa using hc)
        have hcs : (c :: cs).flatten = ts := hrest
        obtain ⟨ls', ⟨rfl, h, -⟩ | ⟨rfl, h, hn, -⟩⟩ := place_cons h
        · obtain ⟨hle, hlt⟩ := ih h hcs hf.tail
          rw [List.countP_cons_of_neg Bool.false_ne_true]
          exact ⟨hle, fun hb hr => hlt (by omega) (by omega)⟩
        · -- behind its first leaf, the partition is as far into a cell as the packing or further
          have hlt := (ih h hcs hf.tail).2 (Nat.le_add_left ..) (Nat.le_add_left ..)
          rw [List.countP_cons_of_pos rfl]
          refine ⟨hlt, fun hb hr => absurd (hf.head hrest) ?_⟩
          omega

/-! ### Packings -/

theorem place_bits : ∀ {ts : List Ty} {ls : List PackedLeaf} {b r : Nat},
    place b r ts = .ok ls → ∀ t ∈ ts, t.size.bits ≤ maxBits
  | [], _, _, _, _ => by simp
  | t :: ts, ls, b, r, h => by
    rw [List.forall_mem_cons]
    obtain ⟨ls', ⟨-, h, hc⟩ | ⟨-, h, -, hz, -⟩⟩ := place_cons h
    · exact ⟨by omega, place_bits h⟩
    · exact ⟨hz, place_bits h⟩

theorem exists_place : ∀ {ts : List Ty} (b r : Nat),
    (∀ t ∈ ts, t.size.bits ≤ maxBits ∧ t.size.refs < maxRefs) → ∃ ls, place b r ts = .ok ls
  | [], _, _, _ => ⟨[], rfl⟩
  | t :: ts, b, r, h => by
    obtain ⟨ht, hts⟩ := List.forall_mem_cons.1 h
    obtain ⟨ls, hls⟩ := exists_place (b + t.size.bits) (r + t.size.refs) hts
    obtain ⟨ls', hls'⟩ := exists_place t.size.bits t.size.refs hts
    simp only [place, hls, hls', if_pos ht]
    split
    · exact ⟨_, rfl⟩
    · split
      · exact ⟨_, rfl⟩
      · exact ⟨_, rfl⟩

/-- **Packing is sound, complete and optimal where words hold the sums.** Types without tuples among
their leaves have a packing behind fewer than the most references exactly if words hold the sums and
no leaf is oversized or contains an oversized payload. The cells of the packing are a partition of
the leaves, with a link in front of each cell that a leaf opens, and no partition has fewer cells.

A generator that stops at other sums packs no other types. One that cuts them does
(`ofTypes_wrapped`). -/
theorem ofTypes_shortest {o : Overflow} {bits refs : Nat} {ts : List Ty} (hb : bits ≤ maxBits)
    (hr : refs < maxRefs) (ht : ∀ us, Ty.tuple us ∉ Ty.allLeaves ts)
    (ho : o = .wraps → SumsFit bits refs (Ty.allLeaves ts)) :
    ((∃ p, ofTypesWith o bits refs ts = .ok p) ↔ SumsFit bits refs (Ty.allLeaves ts) ∧
        ∀ t ∈ Ty.allLeaves ts, t.oversized? = none ∧ t.size.bits ≤ maxBits) ∧
      ∀ p, ofTypesWith o bits refs ts = .ok p →
        p.cells.flatten = Ty.allLeaves ts ∧ FitCells bits refs p.cells ∧
        p.cells.length = p.newCells + 1 ∧ p.newCells = (p.leaves.map (·.opensCell)).count true ∧
        ∀ cells : List (List Ty), cells.flatten = Ty.allLeaves ts → FitCells bits refs cells →
          p.cells.length ≤ cells.length := by
  rw [ofTypesWith_eq ho]
  refine ⟨⟨?_, fun ⟨hfit, h⟩ => ?_⟩,
    fun p hp => ⟨?_, ?_, length_cellsFrom _ _, ?_, fun cells hc hf => ?_⟩⟩
  · rintro ⟨p, hp⟩
    exact ⟨(ofTypes_eq_ok.1 hp).1, fun t hmem =>
      ⟨(ofTypes_accepted hp t hmem).1, place_bits (ofTypes_place hp) t hmem⟩⟩
  · have hrefs : ∀ t ∈ Ty.allLeaves ts, t.size.refs < maxRefs := fun t hmem =>
      Ty.refs_size_lt (Ty.isLeaf_of_mem_allLeaves hmem) (fun us he => ht us (he ▸ hmem))
        (hfit.1 t hmem)
    obtain ⟨ls, hls⟩ := exists_place bits refs fun t hmem => ⟨(h t hmem).2, hrefs t hmem⟩
    exact ⟨⟨ls⟩, ofTypes_eq_ok.2
      ⟨hfit, Ty.oversizedAmong?_eq_none.2 fun t hmem => (h t hmem).1, hls⟩⟩
  · rw [Packing.cells, flatten_cellsFrom, List.nil_append, ofTypes_types hp]
  · exact fitCells_cellsFrom (ofTypes_room hp hb hr)
  · rw [newCells, List.count, List.countP_map]
    congr 1
    funext l
    simp
  · rw [Packing.cells, length_cellsFrom]
    exact (place_fewest (ofTypes_place hp) hc hf).2 (Nat.le_refl _) (Nat.le_refl _)

theorem tuple_notMem_linkedTypes (us : List Ty) : Ty.tuple us ∉ Ty.allLeaves linkedTypes := by
  simp [linkedTypes, Ty.allLeaves, Ty.leaves, Ty.fieldLeaves]

/-- Behind three bits, values of the types `linkedTypes` need two cells. -/
theorem ofTypes_shortest_linked :
    SumsFit 3 0 (Ty.allLeaves linkedTypes) ∧
    (∀ t ∈ Ty.allLeaves linkedTypes, t.oversized? = none ∧ t.size.bits ≤ maxBits) ∧
      FitCells 3 0 linkedPacking.cells ∧ linkedPacking.cells.length = 2 ∧
      ∀ cells : List (List Ty), cells.flatten = Ty.allLeaves linkedTypes → FitCells 3 0 cells →
        2 ≤ cells.length := by
  obtain ⟨hiff, hp⟩ := ofTypes_shortest (show 3 ≤ maxBits by decide) (show 0 < maxRefs by decide)
    tuple_notMem_linkedTypes (o := .wraps) fun _ => by decide
  obtain ⟨-, hfit, hlen, -, hmin⟩ := hp linkedPacking rfl
  have htwo : linkedPacking.cells.length = 2 := hlen
  obtain ⟨hsums, hall⟩ := hiff.1 ⟨linkedPacking, rfl⟩
  exact ⟨hsums, hall, hfit, htwo, fun cells hc hf => htwo ▸ hmin cells hc hf⟩

theorem allLeaves_wrappedTypes : Ty.allLeaves Ty.wrappedTypes = Ty.wrappedTypes :=
  Ty.allLeaves_of_forall fun t h => by
    obtain ⟨n, rfl⟩ := Ty.mem_wrappedTypes h
    trivial

/-- A generator that cuts sums packs the types of `Ty.wrappedTypes` into one cell. -/
theorem ofTypesWith_wrappedTypes :
    ofTypesWith .wraps 0 0 Ty.wrappedTypes = .ok ⟨Ty.wrappedTypes.map (⟨·, false⟩)⟩ := by
  have hplace : placeInWords 0 0 (LooseLeaf.ofTypes Ty.wrappedTypes) =
      .ok (Ty.wrappedTypes.map (⟨·, false⟩)) := by
    refine placeInWords_of_le ?_ ?_
    · rw [Ty.totalSize_wrappedTypes.1]
      decide
    · rw [Ty.totalSize_wrappedTypes.2]
      decide
  simp only [ofTypesWith, allLeaves_wrappedTypes, Ty.oversizedAmong?_wrappedTypes, hplace]
  rfl

/-- So leaves are packed that no cell holds. -/
theorem ofTypes_wrapped : ¬ ∀ (bits refs : Nat) (ts : List Ty), bits ≤ maxBits → refs < maxRefs →
    (∀ us, Ty.tuple us ∉ Ty.allLeaves ts) →
    ((∃ p, ofTypesWith .wraps bits refs ts = .ok p) ↔
      ∀ t ∈ Ty.allLeaves ts, t.oversized? = none ∧ t.size.bits ≤ maxBits) := fun h => by
  have hall := (h 0 0 Ty.wrappedTypes (by decide) (by decide) fun us hus => by
    obtain ⟨n, hn⟩ := Ty.mem_wrappedTypes (allLeaves_wrappedTypes ▸ hus)
    cases hn).1 ⟨_, ofTypesWith_wrappedTypes⟩
  have hlast := (hall (.integer 65535 false) (by
    rw [allLeaves_wrappedTypes]
    exact List.mem_cons_of_mem _ (List.mem_replicate.2 ⟨by decide, rfl⟩))).2
  exact absurd hlast (by decide)

/-! ### Behind a full row of references -/

/-- **When a packing has no room for a link.** Behind `bits` bits and `refs` references, each cell
of a packing has room for its leaves, and for a link if another cell follows, unless all references
of the first cell are taken and the leaves do not fit it as they are. Then no leaf goes into the
first cell, which has no reference for its link, and the leaves fit the cells behind. -/
theorem ofTypes_unlinked {bits refs : Nat} {ts : List Ty} {p : Packing} (hb : bits ≤ maxBits)
    (hr : refs ≤ maxRefs) (h : ofTypes bits refs ts = .ok p) :
    (FitCells bits refs p.cells ↔ refs < maxRefs ∨
        bits + (Ty.totalSize (Ty.allLeaves ts)).bits ≤ maxBits ∧
          refs + (Ty.totalSize (Ty.allLeaves ts)).refs ≤ maxRefs) ∧
      (¬ FitCells bits refs p.cells → ∃ cs, p.cells = [] :: cs ∧ FitCells 0 0 cs) := by
  have hplace := ofTypes_place h
  have hfit (hl : refs < maxRefs ∨ bits + (Ty.totalSize (Ty.allLeaves ts)).bits ≤ maxBits ∧
      refs + (Ty.totalSize (Ty.allLeaves ts)).refs ≤ maxRefs) : FitCells bits refs p.cells :=
    fitCells_cellsFrom (place_room hplace (Nat.le_refl _) (Nat.le_refl _) hb hr hl)
  -- otherwise the first leaf already opens a cell
  have hopen (hl : ¬ (refs < maxRefs ∨ bits + (Ty.totalSize (Ty.allLeaves ts)).bits ≤ maxBits ∧
      refs + (Ty.totalSize (Ty.allLeaves ts)).refs ≤ maxRefs)) :
      ∃ c cs, p.cells = [] :: c :: cs ∧ FitCells 0 0 (c :: cs) := by
    rcases hts : Ty.allLeaves ts with _ | ⟨t, us⟩
    · rw [hts] at hl
      exact absurd (.inr ⟨hb, hr⟩) hl
    rw [hts] at hplace hl
    simp only [Ty.totalSize, Size.bits_add, Size.refs_add] at hl
    obtain ⟨ls, ⟨-, -, hroom⟩ | ⟨hls, hplace, -, hz⟩⟩ := place_cons hplace
    · omega
    · have hroom : Room t.size.bits t.size.refs ls :=
        place_room hplace (Nat.le_refl _) (Nat.le_refl _) hz.1 (Nat.le_of_lt hz.2) (.inl hz.2)
      obtain ⟨c, cs, hc⟩ : ∃ c cs, cellsFrom [t] ls = c :: cs :=
        List.exists_cons_of_length_eq_add_one (length_cellsFrom _ _)
      refine ⟨c, cs, by rw [cells, hls, cellsFrom, if_pos rfl, hc], ?_⟩
      rw [← hc]
      exact fitCells_cellsFrom (by simpa [Ty.totalSize] using hroom)
  refine ⟨⟨fun hf => ?_, hfit⟩, fun hf => ?_⟩
  · by_contra hl
    obtain ⟨c, cs, hc, -⟩ := hopen hl
    rw [hc, FitCells] at hf
    exact hl (.inl (Nat.lt_of_le_of_lt (Nat.le_add_right ..) hf.1.2))
  · obtain ⟨c, cs, hc, hcs⟩ := hopen (mt hfit hf)
    exact ⟨c :: cs, hc, hcs⟩

/-- A cell behind four references is packed into a second cell, which nothing can link. -/
theorem ofTypes_unlinked_cell :
    ofTypes 0 4 [.cell] = .ok ⟨[⟨.cell, true⟩]⟩ ∧
      ¬ FitCells 0 4 (cells ⟨[⟨.cell, true⟩]⟩) ∧
      ∃ cs, cells ⟨[⟨.cell, true⟩]⟩ = [] :: cs ∧ FitCells 0 0 cs := by
  have hp : ofTypes 0 4 [.cell] = .ok ⟨[⟨.cell, true⟩]⟩ := rfl
  obtain ⟨hiff, hempty⟩ := ofTypes_unlinked (Nat.zero_le _) (Nat.le_refl _) hp
  have hfit := mt hiff.1 (by decide)
  exact ⟨hp, hfit, hempty hfit⟩

/-- So there are packings behind the bits and references of a cell without room for their links. -/
theorem ofTypes_overfull : ¬ ∀ (bits refs : Nat) (ts : List Ty) (p : Packing), bits ≤ maxBits →
    refs ≤ maxRefs → ofTypes bits refs ts = .ok p → FitCells bits refs p.cells := fun h =>
  absurd (h 0 4 [.cell] ⟨[⟨.cell, true⟩]⟩ (by decide) (by decide) rfl) (by
    simp [cells, cellsFrom, FitCells, Ty.totalSize, Ty.size, Size.exact, maxRefs])

end Packing

end TypedCells
