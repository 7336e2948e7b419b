import TypedCells.Proofs.Locality

/-!
# Well-formed values

A slice is well formed if its window lies in its cell, and that cell and all cells below it are
within the limits. A value is well formed if its slices are, and its cells and builders are within
the limits (`Value.WellFormed`).

All that is read, cut or opened from a slice is a window on its cell or on a cell below
(`Slice.Derives`). So it is well formed when the slice is, and no position of it is out of its cell
(`Slice.InBounds`).

* `Ty.load_derives`: what a value that is read holds comes from the slice that it is read from.
* `Ty.store_fits`: writing a well-formed value keeps a builder within the limits.
-/

namespace TypedCells

namespace Slice

/-! ### What a slice can be made into -/

/-- The window lies in the cell, and the cell is within the limits with all cells below it. -/
structure WellFormed (s : Slice) : Prop where
  valid : s.Valid
  withinLimits : s.cell.WithinLimits

/-- What slices can be made from `s`: by reading, which moves the front, by cutting, and by opening
a reference that is shown. -/
inductive Derives (s : Slice) : Slice → Prop
  | self : Derives s s
  | front {n m : Nat} {x y r : Slice} (h : Derives s x) (hs : x.split n m = .ok (y, r)) :
    Derives s y
  | rest {n m : Nat} {x f y : Slice} (h : Derives s x) (hs : x.split n m = .ok (f, y)) :
    Derives s y
  | back {n m : Nat} {x y : Slice} (h : Derives s x) (hs : x.keepBack n m = .ok y) : Derives s y
  | opened {x : Slice} {c : Cell} (h : Derives s x) (hc : c ∈ x.refs) : Derives s (.ofCell c)

/-- No index is out of the cell, and no subtraction of positions goes below zero: neither in the
counts of what is shown, nor in a read or a cut of no more than that. -/
structure InBounds (s : Slice) : Prop extends s.Valid where
  length_bits : s.bits.length = s.bitCount
  length_refs : s.refs.length = s.refCount
  readBits : ∀ n ≤ s.bitCount, s.bitStart + n ≤ s.cell.bits.length
  readRef : s.refCount ≠ 0 → s.refStart < s.cell.refs.length
  keepBits : ∀ n ≤ s.bitCount, n ≤ s.bitStop
  keepRefs : ∀ m ≤ s.refCount, m ≤ s.refStop

variable {n m : Nat} {s t x y r : Slice} {c : Cell}

theorem wellFormed_ofCell (h : c.WithinLimits) : (ofCell c).WellFormed := ⟨valid_ofCell c, h⟩

theorem Valid.inBounds (h : s.Valid) : s.InBounds := by
  have hb := h.bits_le; have hr := h.refs_le
  have hb' := h.bits_stop; have hr' := h.refs_stop
  refine ⟨h, h.length_bits, h.length_refs, ?_, ?_, ?_, ?_⟩
  all_goals
    simp only [bitCount, refCount]
    omega

theorem Valid.of_split (h : s.Valid) (hs : s.split n m = .ok (x, r)) : x.Valid ∧ r.Valid := by
  obtain ⟨hn, hm, he⟩ := split_eq_ok.1 hs
  obtain ⟨rfl, rfl⟩ := Prod.mk.inj he
  have hb := h.inBounds.readBits n hn
  have hr := h.refs_le; have hr' := h.refs_stop
  rw [refCount] at hm
  exact ⟨⟨Nat.le_add_right _ _, hb, Nat.le_add_right _ _, by simp only; omega⟩, h.advance hn hm⟩

/-- The last part of what is shown is what is left when the slice is moved past the rest. -/
theorem Valid.keepBack_eq_ok (h : s.Valid) : s.keepBack n m = .ok x ↔
    n ≤ s.bitCount ∧ m ≤ s.refCount ∧ x = s.advance (s.bitCount - n) (s.refCount - m) := by
  have hb := h.bits_le; have hr := h.refs_le
  unfold keepBack
  split
  · next hc =>
    simp only [throw_eq_error, reduceCtorEq, false_iff]
    omega
  · next hc =>
    have he : s.advance (s.bitCount - n) (s.refCount - m) =
        { s with bitStart := s.bitStop - n, refStart := s.refStop - m } := by
      simp only [bitCount, refCount] at hc
      simp only [Slice.advance, bitCount, refCount, Slice.mk.injEq, true_and, and_true]
      omega
    rw [pure_eq_ok, Except.ok.injEq, he, eq_comm]
    exact ⟨fun h' => ⟨by omega, by omega, h'⟩, fun h' => h'.2.2⟩

theorem withinLimits_of_mem_refs (h : s.cell.WithinLimits) (hc : c ∈ s.refs) : c.WithinLimits :=
  ((Cell.withinLimits_iff _).1 h).2.2 c (List.mem_of_mem_drop (List.mem_of_mem_take hc))

/-- **All that is made from a well-formed slice is well formed.** -/
theorem WellFormed.derives (h : s.WellFormed) (hd : s.Derives t) : t.WellFormed := by
  induction hd with
  | self => exact h
  | front _ hs ih =>
    obtain ⟨hx, -⟩ := ih.valid.of_split hs
    obtain ⟨-, -, he⟩ := split_eq_ok.1 hs
    obtain ⟨rfl, -⟩ := Prod.mk.inj he
    exact ⟨hx, ih.withinLimits⟩
  | rest _ hs ih =>
    obtain ⟨-, hx⟩ := ih.valid.of_split hs
    obtain ⟨-, -, he⟩ := split_eq_ok.1 hs
    obtain ⟨-, rfl⟩ := Prod.mk.inj he
    exact ⟨hx, ih.withinLimits⟩
  | back _ hs ih =>
    obtain ⟨-, -, rfl⟩ := ih.valid.keepBack_eq_ok.1 hs
    exact ⟨ih.valid.advance (Nat.sub_le ..) (Nat.sub_le ..), ih.withinLimits⟩
  | opened _ hc ih => exact wellFormed_ofCell (withinLimits_of_mem_refs ih.withinLimits hc)

theorem Derives.trans (h : s.Derives t) (h' : t.Derives x) : s.Derives x := by
  induction h' with
  | self => exact h
  | front _ hs ih => exact ih.front hs
  | rest _ hs ih => exact ih.rest hs
  | back _ hs ih => exact ih.back hs
  | opened _ hc ih => exact ih.opened hc

/-! ### Reading -/

theorem Moves.derives (h : Moves n m s t) : s.Derives t :=
  .rest .self (split_eq_ok.2 ⟨h.bits_le, h.refs_le, Prod.ext rfl h.eq⟩)

theorem Moves.derives_upTo (h : Moves n 0 s t) : s.Derives (s.upTo t) := by
  refine .front (r := t) .self (split_eq_ok.2 ⟨h.bits_le, h.refs_le, Prod.ext ?_ h.eq⟩)
  rw [h.eq]
  rfl

theorem mem_refs_of_readRef (h : s.readRef = .ok (c, t)) : c ∈ s.refs := by
  obtain ⟨h0, hc, -⟩ := readRef_eq_ok.1 h
  refine List.mem_of_getElem? (i := 0) ?_
  rwa [getElem?_refs (Nat.pos_of_ne_zero h0), Nat.add_zero]

theorem derives_readRef (h : s.readRef = .ok (c, t)) : s.Derives (.ofCell c) :=
  .opened .self (mem_refs_of_readRef h)

end Slice

/-! ### Values -/

namespace Value

mutual

/-- What is in the value, in tuples too, has the property of its kind. -/
def Each (onCell : Cell → Prop) (onSlice : Slice → Prop) (onBuilder : Builder → Prop) :
    Value → Prop
  | .cell c => onCell c
  | .slice s => onSlice s
  | .builder b => onBuilder b
  | .tuple vs => EachAll onCell onSlice onBuilder vs
  | .null => True
  | .int _ => True

/-- What is in the values has the property of its kind. -/
def EachAll (onCell : Cell → Prop) (onSlice : Slice → Prop) (onBuilder : Builder → Prop) :
    List Value → Prop
  | [] => True
  | v :: vs => v.Each onCell onSlice onBuilder ∧ EachAll onCell onSlice onBuilder vs

end

section Each

variable {onCell onCell' : Cell → Prop} {onSlice onSlice' : Slice → Prop}
  {onBuilder onBuilder' : Builder → Prop}

theorem eachAll_iff : ∀ vs : List Value,
    EachAll onCell onSlice onBuilder vs ↔ ∀ v ∈ vs, v.Each onCell onSlice onBuilder
  | [] => by simp [EachAll]
  | v :: vs => by simp [EachAll, eachAll_iff vs]

mutual

theorem Each.mono (hc : ∀ c, onCell c → onCell' c) (hs : ∀ s, onSlice s → onSlice' s)
    (hb : ∀ b, onBuilder b → onBuilder' b) : ∀ {v : Value}, v.Each onCell onSlice onBuilder →
      v.Each onCell' onSlice' onBuilder'
  | .null, _ => trivial
  | .int _, _ => trivial
  | .cell c, h => hc c h
  | .slice s, h => hs s h
  | .builder b, h => hb b h
  | .tuple _, h => EachAll.mono hc hs hb h

theorem EachAll.mono (hc : ∀ c, onCell c → onCell' c) (hs : ∀ s, onSlice s → onSlice' s)
    (hb : ∀ b, onBuilder b → onBuilder' b) : ∀ {vs : List Value},
      EachAll onCell onSlice onBuilder vs → EachAll onCell' onSlice' onBuilder' vs
  | [], _ => trivial
  | _ :: _, h => ⟨Each.mono hc hs hb h.1, EachAll.mono hc hs hb h.2⟩

end

end Each

/-- The slices in the value are well formed, its cells and builders within the limits. -/
def WellFormed : Value → Prop :=
  Each Cell.WithinLimits Slice.WellFormed fun b => b.toCell.WithinLimits

/-- The slices in the value, and those that its cells open, come from the slice `s`. -/
def DerivesFrom (s : Slice) : Value → Prop :=
  Each (fun c => s.Derives (.ofCell c)) s.Derives fun _ => False

theorem DerivesFrom.trans {s t : Slice} {v : Value} (h : v.DerivesFrom t) (hs : s.Derives t) :
    v.DerivesFrom s :=
  Each.mono (fun _ => hs.trans) (fun _ => hs.trans) (fun _ => id) h

/-- What comes from a well-formed slice is well formed. -/
theorem DerivesFrom.wellFormed {s : Slice} {v : Value} (h : v.DerivesFrom s) (hs : s.WellFormed) :
    v.WellFormed :=
  Each.mono (fun _ hc => (hs.derives hc).withinLimits) (fun _ => hs.derives) (fun _ => False.elim) h

end Value

/-! ### Reading values -/

namespace Slice

variable {s s' : Slice} {v : Value}

theorem readIntegral_derives {w : Nat} {signed : Bool} (h : s.readIntegral w signed = .ok (v, s')) :
    v.DerivesFrom s := by
  obtain ⟨k, rfl⟩ := readIntegral_int h
  trivial

theorem readCell_derives (h : s.readCell = .ok (v, s')) : v.DerivesFrom s := by
  simp only [readCell, bind_eq_ok, pure_eq_ok, Except.ok.injEq, Prod.mk.injEq] at h
  obtain ⟨⟨c, r⟩, h, rfl, -⟩ := h
  exact derives_readRef h

theorem readDict_derives (h : s.readDict = .ok (v, s')) : v.DerivesFrom s := by
  simp only [readDict, bind_eq_ok] at h
  obtain ⟨⟨b, r⟩, hb, h⟩ := h
  cases b with
  | false =>
    obtain ⟨rfl, -⟩ := Prod.mk.inj (Except.ok.inj h)
    trivial
  | true =>
    obtain ⟨⟨c, r'⟩, hc, h⟩ := bind_eq_ok.1 h
    obtain ⟨rfl, -⟩ := Prod.mk.inj (Except.ok.inj h)
    exact (readBit_moves hb).derives.trans (derives_readRef hc)

theorem readAddress_derives (h : s.readAddress = .ok (v, s')) : v.DerivesFrom s := by
  obtain ⟨r, hr, h⟩ := bind_eq_ok.1 h
  obtain ⟨rfl, -⟩ := Prod.mk.inj (Except.ok.inj h)
  obtain ⟨n, -, hm⟩ := skipAddress_moves hr
  exact hm.derives_upTo

theorem readStdAddress_derives (h : s.readStdAddress = .ok (v, s')) : v.DerivesFrom s := by
  rw [readStdAddress_eq] at h
  obtain ⟨r, hr, h⟩ := bind_eq_ok.1 h
  obtain ⟨rfl, -⟩ := Prod.mk.inj (Except.ok.inj h)
  exact (skipStdAddress_moves hr).derives_upTo

end Slice

namespace Ty

theorem load_derives_rest {t : Ty} {s s' : Slice} {v : Value} (h : t.load s = .ok (v, s')) :
    s.Derives s' := by
  obtain ⟨n, m, hm, -⟩ := load_moves t h
  exact hm.derives

mutual

/-- **What a value that is read holds comes from the slice that it is read from.** -/
theorem load_derives : ∀ (t : Ty) {s s' : Slice} {v : Value}, t.load s = .ok (v, s') →
    v.DerivesFrom s
  | .integer _ _, _, _, _, h => Slice.readIntegral_derives h
  | .bool, _, _, _, h => Slice.readIntegral_derives h
  | .fixedBytes _, _, _, _, h => Slice.readIntegral_derives h
  | .function, _, _, _, h => Slice.readIntegral_derives h
  | .enumeration _ _, _, _, _, h => Slice.readIntegral_derives h
  | .address, _, _, _, h => Slice.readAddress_derives h
  | .addressStd, _, _, _, h => Slice.readStdAddress_derives h
  | .cell, _, _, _, h => Slice.readCell_derives h
  | .bytes, _, _, _, h => Slice.readCell_derives h
  | .string, _, _, _, h => Slice.readCell_derives h
  | .mapping _ _, _, _, _, h => Slice.readDict_derives h
  | .array _ _, s, s', v, h => by
    simp only [load, bind_eq_ok, pure_eq_ok, Except.ok.injEq, Prod.mk.injEq] at h
    obtain ⟨⟨n, r⟩, hn, ⟨d, r'⟩, hd, rfl, -⟩ := h
    have hdict := (Slice.readDict_derives hd).trans (Slice.readNat_moves hn).1.derives
    exact ⟨trivial, hdict, trivial⟩
  | .varInteger _ _, _, _, _, h => by
    simp only [load, Slice.readVarInt, bind_eq_ok] at h
    obtain ⟨_, -, h⟩ := h
    obtain ⟨k, rfl⟩ := Slice.readIntegral_int h
    trivial
  | .optional t, s, s', v, h => by
    have hpresent {w : Value} {r : Slice} (hb : ∃ b, s.readBit = .ok (b, r))
        (hw : w.DerivesFrom r) :
        (if t.mayBeNull then Value.tuple [w] else w).DerivesFrom s := by
      obtain ⟨b, hb⟩ := hb
      have h := hw.trans (Slice.readBit_moves hb).derives
      split
      · exact ⟨h, trivial⟩
      · exact h
    cases loadsOptional h with
    | missing _ => trivial
    | inline hb _ hw => exact hpresent ⟨_, hb⟩ (load_derives t hw)
    | boxed hb _ hbox hw =>
      -- the payload is alone in the cell behind a reference
      exact hpresent ⟨_, hb⟩ ((load_derives t hw).trans (Slice.derives_readRef hbox))
  | .struct _ fs, s, s', v, h => by
    obtain ⟨⟨vs, r⟩, hvs, h⟩ := bind_eq_ok.1 h
    obtain ⟨rfl, -⟩ := Prod.mk.inj (Except.ok.inj h)
    exact loadFields_derives fs hvs
  | .tuple ts, s, s', v, h => by
    obtain ⟨⟨vs, r⟩, hvs, h⟩ := bind_eq_ok.1 h
    obtain ⟨rfl, -⟩ := Prod.mk.inj (Except.ok.inj h)
    exact loadAll_derives ts hvs
  | .alias _ t, _, _, _, h => load_derives t h

theorem loadAll_derives : ∀ (ts : List Ty) {s s' : Slice} {vs : List Value},
    loadAll ts s = .ok (vs, s') → (Value.tuple vs).DerivesFrom s
  | [], s, s', vs, h => by
    obtain ⟨rfl, -⟩ := Prod.mk.inj (Except.ok.inj h)
    trivial
  | t :: ts, s, s', vs, h => by
    obtain ⟨⟨v, r⟩, hv, h⟩ := bind_eq_ok.1 h
    obtain ⟨⟨ws, r'⟩, hws, h⟩ := bind_eq_ok.1 h
    obtain ⟨rfl, -⟩ := Prod.mk.inj (Except.ok.inj h)
    exact ⟨load_derives t hv, (loadAll_derives ts hws).trans (load_derives_rest hv)⟩

theorem loadFields_derives : ∀ (fs : List (Field Ty)) {s s' : Slice} {vs : List Value},
    loadFields fs s = .ok (vs, s') → (Value.tuple vs).DerivesFrom s
  | [], s, s', vs, h => by
    obtain ⟨rfl, -⟩ := Prod.mk.inj (Except.ok.inj h)
    trivial
  | ⟨_, t⟩ :: fs, s, s', vs, h => by
    obtain ⟨⟨v, r⟩, hv, h⟩ := bind_eq_ok.1 h
    obtain ⟨⟨ws, r'⟩, hws, h⟩ := bind_eq_ok.1 h
    obtain ⟨rfl, -⟩ := Prod.mk.inj (Except.ok.inj h)
    exact ⟨load_derives t hv, (loadFields_derives fs hws).trans (load_derives_rest hv)⟩

end

end Ty

/-! ### Writing values -/

/-- If the computation gives a builder, that builder is within the limits. -/
def Fits (x : Except Trap Builder) : Prop := ∀ ⦃b⦄, x = .ok b → b.toCell.WithinLimits

namespace Fits

variable {ρ : Type} {x y : Except Trap Builder} {b : Builder}

theorem ok (h : b.toCell.WithinLimits) : Fits (.ok b) := fun _ hb => Except.ok.inj hb ▸ h

theorem error (e : Trap) : Fits (.error e) := nofun

theorem bind {x : Except Trap ρ} {f : ρ → Except Trap Builder}
    (hf : ∀ a, x = .ok a → Fits (f a)) : Fits (x >>= f) := by
  intro b hb
  obtain ⟨a, ha, hb⟩ := bind_eq_ok.1 hb
  exact hf a ha hb

theorem ite {c : Prop} [Decidable c] (hx : Fits x) (hy : Fits y) : Fits (if c then x else y) := by
  split
  · exact hx
  · exact hy

end Fits

namespace Value

variable {v : Value}

theorem WellFormed.toSlice {s : Slice} (h : v.WellFormed) (hs : v.toSlice = .ok s) :
    s.WellFormed := by
  cases v with
  | slice s' => exact Except.ok.inj hs ▸ h
  | _ => cases hs

theorem WellFormed.toCell {c : Cell} (h : v.WellFormed) (hc : v.toCell = .ok c) :
    c.WithinLimits := by
  cases v with
  | cell c' => exact Except.ok.inj hc ▸ h
  | _ => cases hc

theorem WellFormed.toTuple {vs : List Value} (h : v.WellFormed) (hvs : v.toTuple = .ok vs) :
    ∀ w ∈ vs, w.WellFormed := by
  cases v with
  | tuple vs' =>
    obtain rfl := Except.ok.inj hvs
    exact (eachAll_iff vs').1 h
  | _ => cases hvs

theorem WellFormed.unwrapSingleton {w : Value} (h : v.WellFormed)
    (hw : v.unwrapSingleton = .ok w) : w.WellFormed := by
  obtain ⟨vs, hvs, hw⟩ := bind_eq_ok.1 hw
  match vs with
  | [_] => exact h.toTuple hvs w (Except.ok.inj hw ▸ List.mem_singleton_self _)
  | [] | _ :: _ :: _ => cases hw

end Value

namespace Builder

variable {b : Builder}

theorem withinLimits_empty : ({} : Builder).toCell.WithinLimits :=
  ⟨Nat.zero_le _, Nat.zero_le _, trivial⟩

variable (hb : b.toCell.WithinLimits)

include hb

theorem writeBits_fits (bs : Bits) : Fits (b.writeBits bs) := by
  unfold writeBits
  split
  · exact .error _
  · next h =>
    have hlen : (b.bits ++ bs).length ≤ maxBits := by rw [List.length_append]; omega
    exact .ok ((Cell.withinLimits_iff _).2 ⟨hlen, ((Cell.withinLimits_iff _).1 hb).2⟩)

theorem withinLimits_append {cs : List Cell} (hcs : ∀ c ∈ cs, c.WithinLimits)
    (h : b.refs.length + cs.length ≤ maxRefs) :
    ({ b with refs := b.refs ++ cs } : Builder).toCell.WithinLimits := by
  obtain ⟨hbits, -, hrefs⟩ := (Cell.withinLimits_iff _).1 hb
  refine (Cell.withinLimits_iff _).2 ⟨hbits, by rwa [← List.length_append] at h, fun c hc => ?_⟩
  exact (List.mem_append.1 hc).elim (hrefs c) (hcs c)

theorem writeRef_fits {c : Cell} (hc : c.WithinLimits) : Fits (b.writeRef c) := by
  unfold writeRef
  split
  · exact .error _
  · next h => exact .ok (withinLimits_append hb (List.forall_mem_singleton.2 hc) (Nat.not_le.1 h))

theorem writeSlice_fits {s : Slice} (hs : s.WellFormed) : Fits (b.writeSlice s) := by
  unfold writeSlice
  split
  · exact .error _
  · next h =>
    refine .bind fun b' hb' => .ok ?_
    have hrefs : b'.refs = b.refs := by
      unfold writeBits at hb'
      split at hb'
      · cases hb'
      · rw [← Except.ok.inj hb']
    refine withinLimits_append (writeBits_fits hb _ hb') ?_ ?_
    · exact fun c => Slice.withinLimits_of_mem_refs hs.withinLimits
    · rw [hrefs, hs.valid.length_refs]
      exact Nat.not_lt.1 h

theorem writeNat_fits (width : Nat) (v : Int) : Fits (b.writeNat width v) :=
  .ite (.error _) (writeBits_fits hb _)

theorem writeInt_fits (width : Nat) (v : Int) : Fits (b.writeInt width v) :=
  .ite (.error _) (writeBits_fits hb _)

theorem writeIntegral_fits (width : Nat) (signed : Bool) (v : Value) :
    Fits (b.writeIntegral width signed v) :=
  .bind fun _ _ => .ite (writeInt_fits hb width _) (writeNat_fits hb width _)

theorem writeVarInt_fits (bytes : Nat) (signed : Bool) (v : Int) :
    Fits (b.writeVarInt bytes signed v) :=
  .ite (.error _) <| .bind fun _ h =>
    have hb := writeNat_fits hb _ _ h
    .ite (.ok hb) (.ite (writeInt_fits hb _ _) (writeNat_fits hb _ _))

theorem writeDict_fits {v : Value} (hv : v.WellFormed) : Fits (b.writeDict v) := by
  cases v with
  | null => exact writeBits_fits hb _
  | cell root => exact .bind fun _ h => writeRef_fits (writeBits_fits hb _ h) hv
  | _ => exact .error _

end Builder

namespace Ty

mutual

/-- **Writing a well-formed value keeps a builder within the limits.** -/
theorem store_fits : ∀ (t : Ty) {v : Value} {b : Builder}, v.WellFormed →
    b.toCell.WithinLimits → Fits (t.store v b)
  | .integer bits signed, v, _, _, hb => Builder.writeIntegral_fits hb bits signed v
  | .bool, v, _, _, hb => Builder.writeIntegral_fits hb 1 true v
  | .fixedBytes n, v, _, _, hb => Builder.writeIntegral_fits hb (n * 8) false v
  | .function, v, _, _, hb => Builder.writeIntegral_fits hb 32 false v
  | .enumeration _ n, v, _, _, hb => Builder.writeIntegral_fits hb (enumBits n) false v
  | .address, _, _, hv, hb => .bind fun _ h => Builder.writeSlice_fits hb (hv.toSlice h)
  | .addressStd, _, _, hv, hb => .bind fun _ h =>
    .ite (Builder.writeSlice_fits hb (hv.toSlice h)) (.error _)
  | .cell, _, _, hv, hb => .bind fun _ h => Builder.writeRef_fits hb (hv.toCell h)
  | .bytes, _, _, hv, hb => .bind fun _ h => Builder.writeRef_fits hb (hv.toCell h)
  | .string, _, _, hv, hb => .bind fun _ h => Builder.writeRef_fits hb (hv.toCell h)
  | .mapping _ _, _, _, hv, hb => Builder.writeDict_fits hb hv
  | .array _ _, v, b, hv, hb => by
    refine .bind fun vs hvs => ?_
    match vs with
    | [length, dict] =>
      have hd := hv.toTuple hvs dict (by simp)
      exact .bind fun _ _ => .bind fun _ h =>
        Builder.writeDict_fits (Builder.writeNat_fits hb 32 _ h) hd
    | [] | [_] | _ :: _ :: _ :: _ => exact .error _
  | .varInteger n signed, _, _, _, hb => .bind fun k _ => Builder.writeVarInt_fits hb n signed k
  | .optional t, v, b, hv, hb => by
    have hpayload {w : Value} (hw : w.WellFormed) : Fits (do
        let b ← b.writeBit true
        if t.wordSize.StaysInline then t.store w b else b.writeRef (← t.store w {}).toCell) :=
      .bind fun _ h => have hb := Builder.writeBits_fits hb _ h
        .ite (store_fits t hw hb) <| .bind fun _ h =>
          Builder.writeRef_fits hb (store_fits t hw Builder.withinLimits_empty h)
    cases v with
    | null => exact Builder.writeBits_fits hb _
    | _ =>
      simp only [store]
      split
      · exact .bind fun _ h => hpayload (hv.unwrapSingleton h)
      · exact hpayload hv
  | .struct _ fs, _, _, hv, hb => .bind fun vs h =>
    .ite (storeFields_fits fs (hv.toTuple h) hb) (.error _)
  | .tuple ts, _, _, hv, hb => .bind fun vs h =>
    .ite (storeAll_fits ts (hv.toTuple h) hb) (.error _)
  | .alias _ t, _, _, hv, hb => store_fits t hv hb

theorem storeAll_fits : ∀ (ts : List Ty) {vs : List Value} {b : Builder},
    (∀ v ∈ vs, v.WellFormed) → b.toCell.WithinLimits → Fits (storeAll ts vs b)
  | t :: ts, v :: vs, b, hvs, hb => by
    obtain ⟨hv, hvs⟩ := List.forall_mem_cons.1 hvs
    exact .bind fun _ h => storeAll_fits ts hvs (store_fits t hv hb h)
  | [], _, _, _, hb => .ok hb
  | _ :: _, [], _, _, hb => .ok hb

theorem storeFields_fits : ∀ (fs : List (Field Ty)) {vs : List Value} {b : Builder},
    (∀ v ∈ vs, v.WellFormed) → b.toCell.WithinLimits → Fits (storeFields fs vs b)
  | ⟨_, t⟩ :: fs, v :: vs, b, hvs, hb => by
    obtain ⟨hv, hvs⟩ := List.forall_mem_cons.1 hvs
    exact .bind fun _ h => storeFields_fits fs hvs (store_fits t hv hb h)
  | [], _, _, _, hb => .ok hb
  | _ :: _, [], _, _, hb => .ok hb

end

end Ty

end TypedCells
