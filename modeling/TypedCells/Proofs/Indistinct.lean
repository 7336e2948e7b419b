import TypedCells.Proofs.Related
import TypedCells.Proofs.Supplied
import TypedCells.Proofs.WellFormed

/-!
# Slices that show the same

Two well-formed values are indistinct if they are the same to the machine: equal but for their
slices, which may be windows on other cells as long as they show the same (`Value.Indistinct`). No
operation of the machine looks past the window of a slice, so none tells indistinct values apart
(`Value.congruence_indistinct`).

* `Instr.runAll_indistinct`: a program does the same on two stacks that are the same to the machine.
-/

namespace TypedCells

/-- Computations that fail in the same way only, and succeed together. -/
theorem Follows.of_underflows {ρ ρ' : Type} {rel : ρ → ρ' → Prop} {x : Except Trap ρ}
    {y : Except Trap ρ'} (hx : Underflows x) (hy : Underflows y)
    (h : ∀ a, x = .ok a → ∃ b, y = .ok b ∧ rel a b) (h' : ∀ b, y = .ok b → ∃ a, x = .ok a) :
    Follows rel x y := by
  rcases x with e | a
  · obtain rfl := hx rfl
    rcases y with e | b
    · obtain rfl := hy rfl
      exact .fails _
    · obtain ⟨a, ha⟩ := h' b rfl
      cases ha
  · obtain ⟨b, rfl, hr⟩ := h a rfl
    exact .ok hr

namespace Slice

variable {s t : Slice} {n m : Nat}

/-! ### Reads and cuts of slices that show the same -/

/-- A local reader that fails in one way only does the same on slices that show the same. -/
theorem Local.follows {ρ β : Type} {rest : ρ → Slice} {view : ρ → β} {f : Slice → Except Trap ρ}
    (hf : Local rest view f) (hu : ∀ s, Underflows (f s)) (hs : s.Valid) (ht : t.Valid)
    (he : s.toCell = t.toCell) :
    Follows (fun x y => (rest x).toCell = (rest y).toCell ∧ view x = view y) (f s) (f t) := by
  refine .of_underflows (hu s) (hu t) (fun x hx => ?_) fun y hy => ?_
  · obtain ⟨c, d, hc, hr, htakes⟩ := hf hs hx
    have hc' := he.symm.trans hc
    obtain ⟨y, hy, hr', hv⟩ := htakes ht hc'
    exact ⟨y, hy, by rw [hr, hr', toCell_past hc, toCell_past hc'], hv.symm⟩
  · obtain ⟨c, d, hc, -, htakes⟩ := hf ht hy
    obtain ⟨x, hx, -⟩ := htakes hs (he.trans hc)
    exact ⟨x, hx⟩

theorem counts_eq (hs : s.Valid) (ht : t.Valid) (he : s.toCell = t.toCell) :
    s.bitCount = t.bitCount ∧ s.refCount = t.refCount := by
  rw [← hs.length_bits, ← hs.length_refs, ← ht.length_bits, ← ht.length_refs]
  exact ⟨congrArg (·.bits.length) he, congrArg (·.refs.length) he⟩

theorem toCell_advance (n m : Nat) (s : Slice) :
    (s.advance n m).toCell = ⟨s.toCell.bits.drop n, s.toCell.refs.drop m⟩ := by
  rw [toCell, bits_advance, refs_advance]
  rfl

/-- The front part of a slice shows the first bits and references. -/
theorem toCell_front (hn : n ≤ s.bitCount) (hm : m ≤ s.refCount) :
    ({ s with bitStop := s.bitStart + n, refStop := s.refStart + m } : Slice).toCell =
      ⟨s.toCell.bits.take n, s.toCell.refs.take m⟩ := by
  ext1
  · simp only [toCell, bits, bitCount, Nat.add_sub_cancel_left] at hn ⊢
    rw [List.take_take, Nat.min_eq_left hn]
  · simp only [toCell, refs, refCount, Nat.add_sub_cancel_left] at hm ⊢
    rw [List.take_take, Nat.min_eq_left hm]

theorem split_follows (hs : s.Valid) (ht : t.Valid) (he : s.toCell = t.toCell) (n m : Nat) :
    Follows (fun p q => p.1.toCell = q.1.toCell ∧ p.2.toCell = q.2.toCell)
      (s.split n m) (t.split n m) := by
  obtain ⟨hb, hr⟩ := counts_eq hs ht he
  refine .of_underflows (split_underflows ..) (split_underflows ..) (fun p hp => ?_) fun q hq => ?_
  · obtain ⟨hn, hm, rfl⟩ := split_eq_ok.1 hp
    have hn' : n ≤ t.bitCount := hb ▸ hn
    have hm' : m ≤ t.refCount := hr ▸ hm
    refine ⟨_, split_eq_ok.2 ⟨hn', hm', rfl⟩, ?_, ?_⟩
    · rw [toCell_front hn hm, toCell_front hn' hm', he]
    · rw [toCell_advance, toCell_advance, he]
  · obtain ⟨hn, hm, -⟩ := split_eq_ok.1 hq
    exact ⟨_, split_eq_ok.2 ⟨hb ▸ hn, hr ▸ hm, rfl⟩⟩

theorem keepBack_follows (hs : s.Valid) (ht : t.Valid) (he : s.toCell = t.toCell) (n m : Nat) :
    Follows (fun x y => x.toCell = y.toCell) (s.keepBack n m) (t.keepBack n m) := by
  obtain ⟨hb, hr⟩ := counts_eq hs ht he
  refine .of_underflows (keepBack_underflows ..) (keepBack_underflows ..) (fun x hx => ?_)
    fun y hy => ?_
  · obtain ⟨hn, hm, rfl⟩ := hs.keepBack_eq_ok.1 hx
    refine ⟨_, ht.keepBack_eq_ok.2 ⟨hb ▸ hn, hr ▸ hm, rfl⟩, ?_⟩
    rw [toCell_advance, toCell_advance, he, hb, hr]
  · obtain ⟨hn, hm, -⟩ := ht.keepBack_eq_ok.1 hy
    exact ⟨_, hs.keepBack_eq_ok.2 ⟨hb ▸ hn, hr ▸ hm, rfl⟩⟩

end Slice

namespace Value

/-! ### Indistinct values -/

mutual

theorem WellFormed.valid : ∀ {v : Value}, v.WellFormed → v.Valid
  | .null, _ => trivial
  | .int _, _ => trivial
  | .cell _, _ => trivial
  | .slice _, h => Slice.WellFormed.valid h
  | .builder _, _ => trivial
  | .tuple _, h => validAll_of_wellFormed ((eachAll_iff _).1 h)

theorem validAll_of_wellFormed : ∀ {vs : List Value}, (∀ v ∈ vs, v.WellFormed) → ValidAll vs
  | [], _ => trivial
  | v :: _, h =>
    ⟨(h v (List.mem_cons_self ..)).valid,
      validAll_of_wellFormed fun w hw => h w (List.mem_cons_of_mem _ hw)⟩

end

/-- Well-formed values that are the same to the machine. -/
structure Indistinct (v w : Value) : Prop where
  left : v.WellFormed
  right : w.WellFormed
  canon_eq : v.canon = w.canon

section Indistinct

variable {v w : Value} {vs ws : List Value} {b b' : Builder} {c d : Cell} {x y : Slice}

theorem indistinct_self : Indistinct v v ↔ v.WellFormed := ⟨fun h => h.left, fun h => ⟨h, h, rfl⟩⟩

theorem indistinct_cell : Indistinct (.cell c) (.cell d) ↔ c = d ∧ c.WithinLimits := by
  refine ⟨fun h => ⟨Value.cell.inj h.canon_eq, h.left⟩, ?_⟩
  rintro ⟨rfl, h⟩
  exact indistinct_self.2 h

theorem indistinct_builder :
    Indistinct (.builder b) (.builder b') ↔ b = b' ∧ b.toCell.WithinLimits := by
  refine ⟨fun h => ⟨Value.builder.inj h.canon_eq, h.left⟩, ?_⟩
  rintro ⟨rfl, h⟩
  exact indistinct_self.2 h

theorem indistinct_slice :
    Indistinct (.slice x) (.slice y) ↔ x.WellFormed ∧ y.WellFormed ∧ x.toCell = y.toCell := by
  refine ⟨fun h => ⟨h.left, h.right, ofCell_inj.1 (Value.slice.inj h.canon_eq)⟩, ?_⟩
  rintro ⟨hx, hy, he⟩
  exact ⟨hx, hy, congrArg (fun c => Value.slice (.ofCell c)) he⟩

/-- Lists of values that are the same to the machine are indistinct one by one. -/
theorem forall₂_indistinct : List.Forall₂ Indistinct vs ws ↔
    (∀ v ∈ vs, v.WellFormed) ∧ (∀ w ∈ ws, w.WellFormed) ∧ canonAll vs = canonAll ws := by
  induction vs generalizing ws with
  | nil =>
    cases ws with
    | nil => simp
    | cons w ws => simp [canonAll]
  | cons v vs ih =>
    cases ws with
    | nil => simp [canonAll]
    | cons w ws =>
      rw [List.forall₂_cons, ih, List.forall_mem_cons, List.forall_mem_cons, canonAll, canonAll,
        List.cons.injEq]
      constructor
      · rintro ⟨⟨hv, hw, he⟩, hvs, hws, hes⟩
        exact ⟨⟨hv, hvs⟩, ⟨hw, hws⟩, he, hes⟩
      · rintro ⟨⟨hv, hvs⟩, ⟨hw, hws⟩, he, hes⟩
        exact ⟨⟨hv, hw, he⟩, hvs, hws, hes⟩

theorem indistinct_tuple :
    Indistinct (.tuple vs) (.tuple ws) ↔ List.Forall₂ Indistinct vs ws := by
  rw [forall₂_indistinct]
  constructor
  · intro h
    exact ⟨(eachAll_iff vs).1 h.left, (eachAll_iff ws).1 h.right, Value.tuple.inj h.canon_eq⟩
  · rintro ⟨hvs, hws, he⟩
    exact ⟨(eachAll_iff vs).2 hvs, (eachAll_iff ws).2 hws, congrArg Value.tuple he⟩

/-- Indistinct values are of the same kind. -/
@[elab_as_elim]
theorem Indistinct.elim {motive : ∀ v w, Indistinct v w → Prop}
    (null : ∀ h, motive .null .null h) (int : ∀ k h, motive (.int k) (.int k) h)
    (cell : ∀ c d h, motive (.cell c) (.cell d) h)
    (slice : ∀ x y h, motive (.slice x) (.slice y) h)
    (builder : ∀ b b' h, motive (.builder b) (.builder b') h)
    (tuple : ∀ vs ws h, motive (.tuple vs) (.tuple ws) h) (h : Indistinct v w) :
    motive v w h := by
  have he := h.canon_eq
  cases v with
  | null =>
    cases w with
    | null => exact null h
    | _ => cases he
  | int k =>
    cases w with
    | int k' =>
      obtain rfl := Value.int.inj he
      exact int k h
    | _ => cases he
  | cell c =>
    cases w with
    | cell d => exact cell c d h
    | _ => cases he
  | slice x =>
    cases w with
    | slice y => exact slice x y h
    | _ => cases he
  | builder b =>
    cases w with
    | builder b' => exact builder b b' h
    | _ => cases he
  | tuple vs =>
    cases w with
    | tuple ws => exact tuple vs ws h
    | _ => cases he

end Indistinct

end Value

/-- A builder that is within the limits if there is one. -/
theorem Fits.follows {x : Except Trap Builder} (h : Fits x) :
    Follows (fun b b' => Value.Indistinct (.builder b) (.builder b')) x x :=
  .refl fun _ hb => Value.indistinct_builder.2 ⟨rfl, h hb⟩

namespace Ty

theorem load_follows (t : Ty) {x y : Slice} (h : Value.Indistinct (.slice x) (.slice y)) :
    Follows (Both Value.Indistinct fun x y => Value.Indistinct (.slice x) (.slice y))
      (t.load x) (t.load y) := by
  obtain ⟨hx, hy, he⟩ := Value.indistinct_slice.1 h
  have hf := (load_local t).follows (load_underflows t) hx.valid hy.valid he
  refine hf.results.mono fun ⟨v, x'⟩ ⟨w, y'⟩ ⟨⟨hr, hv⟩, hxl, hyl⟩ => ⟨⟨?_, ?_, hv⟩, ?_⟩
  · exact (load_derives t hxl).wellFormed hx
  · exact (load_derives t hyl).wellFormed hy
  · exact Value.indistinct_slice.2
      ⟨hx.derives (load_derives_rest hxl), hy.derives (load_derives_rest hyl), hr⟩

end Ty

/-- **No operation of the machine tells indistinct values apart,** and what it makes of them is
again well formed. -/
theorem Value.congruence_indistinct : Value.Congruence Value.Indistinct where
  int _ := Value.indistinct_self.2 trivial
  null := Value.indistinct_self.2 trivial
  newc := Value.indistinct_self.2 Builder.withinLimits_empty
  tuple := Value.indistinct_tuple.2
  toInt h := by
    cases h using Value.Indistinct.elim with
    | int k => exact .ok rfl
    | _ => exact .fails _
  toCell h := by
    cases h using Value.Indistinct.elim with
    | cell c d h => exact .ok h
    | _ => exact .fails _
  toSlice h := by
    cases h using Value.Indistinct.elim with
    | slice x y h => exact .ok h
    | _ => exact .fails _
  toBuilder h := by
    cases h using Value.Indistinct.elim with
    | builder b b' h => exact .ok h
    | _ => exact .fails _
  toTuple h := by
    cases h using Value.Indistinct.elim with
    | tuple vs ws h => exact .ok (Value.indistinct_tuple.1 h)
    | _ => exact .fails _
  endc h := by
    obtain ⟨rfl, hb⟩ := Value.indistinct_builder.1 h
    exact Value.indistinct_cell.2 ⟨rfl, hb⟩
  ctos h := by
    obtain ⟨rfl, hc⟩ := Value.indistinct_cell.1 h
    exact Value.indistinct_self.2 (Slice.wellFormed_ofCell hc)
  counts h := by
    obtain ⟨hx, hy, he⟩ := Value.indistinct_slice.1 h
    exact Slice.counts_eq hx.valid hy.valid he
  writeBits bs h := by
    obtain ⟨rfl, hb⟩ := Value.indistinct_builder.1 h
    exact (Builder.writeBits_fits hb bs).follows
  writeRef h h' := by
    obtain ⟨rfl, hb⟩ := Value.indistinct_builder.1 h
    obtain ⟨rfl, hc⟩ := Value.indistinct_cell.1 h'
    exact (Builder.writeRef_fits hb hc).follows
  writeSlice {b _ x y} h h' := by
    obtain ⟨rfl, hb⟩ := Value.indistinct_builder.1 h
    obtain ⟨hx, hy, he⟩ := Value.indistinct_slice.1 h'
    rw [← Builder.writeSlice_canon hy.valid b, ← he, Builder.writeSlice_canon hx.valid b]
    exact (Builder.writeSlice_fits hb hx).follows
  store t {b _ v w} h h' := by
    obtain ⟨rfl, hb⟩ := Value.indistinct_builder.1 h
    rw [← t.store_canon h'.right.valid b, ← h'.canon_eq, t.store_canon h'.left.valid b]
    exact (t.store_fits h'.left hb).follows
  readRef h := by
    obtain ⟨hx, hy, he⟩ := Value.indistinct_slice.1 h
    have hf := Slice.readRef_local.follows Slice.readRef_underflows hx.valid hy.valid he
    refine hf.results.mono fun ⟨c, x'⟩ ⟨d, y'⟩ ⟨⟨hr, hc⟩, hxr, hyr⟩ => ⟨?_, ?_⟩
    · have hmem := Slice.mem_refs_of_readRef hxr
      exact Value.indistinct_cell.2 ⟨hc, Slice.withinLimits_of_mem_refs hx.withinLimits hmem⟩
    · exact Value.indistinct_slice.2 ⟨hx.derives (Slice.readRef_moves hxr).derives,
        hy.derives (Slice.readRef_moves hyr).derives, hr⟩
  peekRef {x y} i h := by
    obtain ⟨hx, hy, he⟩ := Value.indistinct_slice.1 h
    have hrefs : x.refs = y.refs := congrArg Cell.refs he
    rw [Slice.peekRef, Slice.peekRef, ← hrefs]
    refine .refl fun c hc => Value.indistinct_cell.2 ⟨rfl, ?_⟩
    refine Slice.withinLimits_of_mem_refs hx.withinLimits (List.mem_of_getElem? (i := i) ?_)
    split at hc
    · next h => rw [h, Except.ok.inj hc]
    · cases hc
  split n m h := by
    obtain ⟨hx, hy, he⟩ := Value.indistinct_slice.1 h
    refine (Slice.split_follows hx.valid hy.valid he n m).results.mono
      fun ⟨f, r⟩ ⟨f', r'⟩ ⟨⟨hf, hr⟩, hxs, hys⟩ => ⟨?_, ?_⟩
    · exact Value.indistinct_slice.2
        ⟨hx.derives (.front .self hxs), hy.derives (.front .self hys), hf⟩
    · exact Value.indistinct_slice.2
        ⟨hx.derives (.rest .self hxs), hy.derives (.rest .self hys), hr⟩
  keepBack n m h := by
    obtain ⟨hx, hy, he⟩ := Value.indistinct_slice.1 h
    refine (Slice.keepBack_follows hx.valid hy.valid he n m).results.mono
      fun x' y' ⟨hk, hxk, hyk⟩ => ?_
    exact Value.indistinct_slice.2 ⟨hx.derives (.back .self hxk), hy.derives (.back .self hyk), hk⟩
  load t _ _ h := t.load_follows h

namespace Instr

/-- **A program does not tell equal stacks apart.** On two stacks of well-formed values that are the
same to the machine, whatever cells and positions their slices are windows on, it ends in the same
way and leaves stacks that are the same again, or it traps with the same trap. -/
theorem runAll_indistinct (code : List Instr) {s t : Stack} (hs : ∀ v ∈ s, v.WellFormed)
    (ht : ∀ v ∈ t, v.WellFormed) (he : Value.sameAll s t = true) :
    (∃ f s' t', runAll code s = .ok (f, s') ∧ runAll code t = .ok (f, t') ∧
      Value.sameAll s' t' = true) ∨
    ∃ trap, runAll code s = .error trap ∧ runAll code t = .error trap := by
  have h := Value.forall₂_indistinct.2 ⟨hs, ht, (Value.sameAll_iff s t).1 he⟩
  have h' := Value.forall₂_indistinct.2 ⟨ht, hs, ((Value.sameAll_iff s t).1 he).symm⟩
  have hf := runAll_follows Value.congruence_indistinct code (.of_forall₂ h)
  have hf' := runAll_follows Value.congruence_indistinct code (.of_forall₂ h')
  refine (hf.both hf').imp_left ?_
  rintro ⟨⟨f, s'⟩, ⟨f', t'⟩, hs', ht', hff, u, hu, hut⟩
  obtain rfl : f = f' := hff
  obtain rfl : t' = u := hut.trans (List.append_nil u)
  exact ⟨f, s', t', hs', ht', (Value.sameAll_iff s' t').2 (Value.forall₂_indistinct.1 hu).2.2⟩

/-- Takes a truth value off a slice and puts the rest into a cell. -/
def repack : List Instr := [.op (.load .bool), .op .newc, .op .stSlice, .op .endc]

/-- All of a cell with two bits, and the two bits in the middle of a cell with four. -/
theorem runAll_indistinct_repack :
    (∃ f s' t', runAll repack [.slice (.ofCell ⟨[true, false], []⟩)] = .ok (f, s') ∧
      runAll repack [.slice ⟨⟨[false, true, false, true], []⟩, 1, 3, 0, 0⟩] = .ok (f, t') ∧
      Value.sameAll s' t' = true) ∨
    ∃ trap, runAll repack [.slice (.ofCell ⟨[true, false], []⟩)] = .error trap ∧
      runAll repack [.slice ⟨⟨[false, true, false, true], []⟩, 1, 3, 0, 0⟩] = .error trap := by
  have h2 : (⟨[true, false], []⟩ : Cell).WithinLimits := ⟨by decide, by decide, trivial⟩
  have h4 : (⟨[false, true, false, true], []⟩ : Cell).WithinLimits :=
    ⟨by decide, by decide, trivial⟩
  refine runAll_indistinct repack (List.forall_mem_singleton.2 ?_) (List.forall_mem_singleton.2 ?_)
    rfl
  · exact Slice.wellFormed_ofCell h2
  · exact ⟨⟨by decide, by decide, by decide, by decide⟩, h4⟩

end Instr

end TypedCells
