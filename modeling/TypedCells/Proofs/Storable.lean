import TypedCells.Proofs.Images
import TypedCells.Proofs.VarIntegers

/-!
# Values that can be stored

The stack shows a value of a type in the form that is documented for it (`Ty.Shapes`): integers are
in the range of their width, an address is a slice of one address, a payload that may be null is
wrapped. Such a value has a content that is written wherever there is room for it, and the size of
the type bounds this content (`Ty.Shapes.putsWithin`). A payload in a cell of its own has room
there if it is not oversized, since it is then the first and only thing in its cell.

* `Ty.store_shaped`: if the type is not oversized anywhere, its size fits a cell and words hold the
  sums in it, every value of this form is stored, and in no more room than the size.
* `Ty.store_wrapped`: where a sum is cut, a value may have no room.
-/

namespace TypedCells

/-! ### The documented form of values -/

/-- An integer that `width` bits hold, of which there is one at least in two's complement. -/
def InWidth (width : Nat) (signed : Bool) (k : Int) : Prop :=
  if signed then 1 ≤ width ∧ Bits.SignedRange width k else 0 ≤ k ∧ k < twoPow width

instance (width : Nat) (k : Int) : Decidable (Bits.SignedRange width k) :=
  inferInstanceAs (Decidable (_ ∧ _))

instance (width : Nat) (signed : Bool) (k : Int) : Decidable (InWidth width signed k) :=
  inferInstanceAs (Decidable (ite ..))

/-- The slice shows one message address and nothing else. -/
def Slice.ShowsAddress (s : Slice) : Prop :=
  s.Valid ∧ ∃ rest, s.skipAddress = .ok rest ∧ rest.isEmpty = true

/-- The slice shows the bits of a standard address without anycast and nothing else. -/
def Slice.ShowsStdAddress (s : Slice) : Prop :=
  s.Valid ∧ s.bitCount = stdAddressBits ∧ s.refCount = 0 ∧ s.bits.take 3 = [true, false, false]

/-- The value is a dictionary: empty, or with a root. -/
def Value.IsDict (v : Value) : Prop := v = .null ∨ ∃ root, v = .cell root

/-- One address has no more bits than the longest, and no references. -/
theorem Slice.ShowsAddress.counts {s : Slice} (h : s.ShowsAddress) :
    s.bitCount ≤ addressBits ∧ s.refCount = 0 := by
  obtain ⟨-, rest, hskip, hempty⟩ := h
  obtain ⟨n, hn, hm⟩ := Slice.skipAddress_moves hskip
  rw [hm.eq] at hempty
  simp only [Slice.isEmpty, Slice.bitCount_advance, Slice.refCount_advance, Bool.and_eq_true,
    beq_iff_eq] at hempty
  omega

/-- A content within a size that fits a cell has room in an empty one. -/
theorem Size.Bounds.hasRoom {z : Size} {c : Cell} (h : z.Bounds c) (hz : z.FitsCell) :
    ({} : Builder).HasRoom c := by
  have hb : c.bits.length ≤ maxBits := Nat.le_trans h.1 hz.1
  have hr : c.refs.length ≤ maxRefs := Nat.le_trans h.2 hz.2
  exact ⟨by simpa using hb, by simpa using hr⟩

namespace Ty

mutual

/-- The value has the form that values of the type have on the stack. -/
def Shapes : Ty → Value → Prop
  | .integer bits signed, v => ∃ k, v = .int k ∧ InWidth bits signed k
  | .bool, v => ∃ k, v = .int k ∧ InWidth 1 true k
  | .fixedBytes n, v => ∃ k, v = .int k ∧ InWidth (n * 8) false k
  | .function, v => ∃ k, v = .int k ∧ InWidth 32 false k
  | .enumeration _ variants, v => ∃ k, v = .int k ∧ InWidth (enumBits variants) false k
  | .varInteger n signed, v => ∃ k, v = .int k ∧ 1 ≤ n ∧ FitsBytes signed (n - 1) k
  | .address, v => ∃ s, v = .slice s ∧ s.ShowsAddress
  | .addressStd, v => ∃ s, v = .slice s ∧ s.ShowsStdAddress
  | .cell, v => ∃ c, v = .cell c
  | .bytes, v => ∃ c, v = .cell c
  | .string, v => ∃ c, v = .cell c
  | .mapping _ _, v => v.IsDict
  | .array _ _, v => ∃ length dict, v = .tuple [.int length, dict] ∧ InWidth 32 false length ∧
      dict.IsDict
  | .optional t, v => v = .null ∨ ∃ w, v = t.present w ∧ t.Shapes w
  | .struct _ fs, v => ∃ vs, v = .tuple vs ∧ ShapesFields fs vs
  | .tuple ts, v => ∃ vs, v = .tuple vs ∧ ShapesAll ts vs
  | .alias _ t, v => t.Shapes v

/-- There are as many values as types, each of the form of its type. -/
def ShapesAll : List Ty → List Value → Prop
  | [], vs => vs = []
  | t :: ts, vs => ∃ w ws, vs = w :: ws ∧ t.Shapes w ∧ ShapesAll ts ws

/-- There are as many values as members of a structure, each of the form of its type. -/
def ShapesFields : List (Field Ty) → List Value → Prop
  | [], vs => vs = []
  | ⟨_, t⟩ :: fs, vs => ∃ w ws, vs = w :: ws ∧ t.Shapes w ∧ ShapesFields fs ws

end

theorem ShapesAll.nil : ShapesAll [] [] := rfl

theorem ShapesAll.cons {t : Ty} {ts : List Ty} {v : Value} {vs : List Value} (h : t.Shapes v)
    (h' : ShapesAll ts vs) : ShapesAll (t :: ts) (v :: vs) := ⟨v, vs, rfl, h, h'⟩

theorem shapesFields_iff : ∀ {fs : List (Field Ty)} {vs : List Value},
    ShapesFields fs vs ↔ ShapesAll (fs.map (·.type)) vs
  | [], _ => Iff.rfl
  | ⟨_, t⟩ :: fs, vs => by simp only [ShapesFields, List.map_cons, ShapesAll, shapesFields_iff]

theorem length_of_shapesAll : ∀ {ts : List Ty} {vs : List Value}, ShapesAll ts vs →
    vs.length = ts.length
  | [], _, h => by rw [show _ = [] from h]; rfl
  | _ :: ts, _, h => by
    obtain ⟨w, ws, rfl, -, hws⟩ := h
    rw [List.length_cons, List.length_cons, length_of_shapesAll hws]

/-- Only a type that says so has null among its values. -/
theorem Shapes.ne_null : ∀ {t : Ty} {v : Value}, t.Shapes v → t.mayBeNull = false → v ≠ .null
  | .integer .., _, ⟨_, rfl, _⟩, _ | .bool, _, ⟨_, rfl, _⟩, _ | .fixedBytes _, _, ⟨_, rfl, _⟩, _
  | .function, _, ⟨_, rfl, _⟩, _ | .enumeration .., _, ⟨_, rfl, _⟩, _
  | .varInteger .., _, ⟨_, rfl, _⟩, _ | .address, _, ⟨_, rfl, _⟩, _
  | .addressStd, _, ⟨_, rfl, _⟩, _ | .cell, _, ⟨_, rfl⟩, _ | .bytes, _, ⟨_, rfl⟩, _
  | .string, _, ⟨_, rfl⟩, _ | .array .., _, ⟨_, _, rfl, _⟩, _ | .struct .., _, ⟨_, rfl, _⟩, _
  | .tuple _, _, ⟨_, rfl, _⟩, _ => nofun
  | .alias _ t, _, h, hn => Shapes.ne_null (t := t) h hn

/-! ### What is written for a leaf -/

/-- Some content within the size is written wherever there is room for it. -/
def PutsWithin (z : Size) (w : Builder → Except Trap Builder) : Prop :=
  ∃ c, Builder.Puts w c ∧ z.Bounds c

theorem putsWithin_integral {width : Nat} {signed : Bool} {k : Int} (h : InWidth width signed k) :
    PutsWithin (.exact width 0) (Builder.writeIntegral width signed (.int k)) := by
  cases signed with
  | false =>
    obtain ⟨h0, hk⟩ : 0 ≤ k ∧ k < twoPow width := h
    obtain ⟨n, rfl⟩ := Int.eq_ofNat_of_zero_le h0
    refine ⟨.ofBits (.ofNat width n), Builder.writeNat_puts (by omega), ?_, Nat.le_refl 0⟩
    exact Nat.le_of_eq (Bits.length_ofNat width n)
  | true =>
    obtain ⟨hw, hk⟩ : 1 ≤ width ∧ Bits.SignedRange width k := h
    exact ⟨.ofBits (.ofInt width k), Builder.writeInt_puts hw hk,
      Nat.le_of_eq (Bits.length_ofInt width k), Nat.le_refl 0⟩

theorem putsWithin_ref (c : Cell) : PutsWithin (.exact 0 1) (Builder.writeRef c) :=
  ⟨.link c, Builder.writeRef_puts c, Nat.le_refl 0, Nat.le_refl 1⟩

theorem putsWithin_dict {v : Value} (h : v.IsDict) :
    PutsWithin (.upTo 1 1 false) (Builder.writeDict v) := by
  obtain rfl | ⟨root, rfl⟩ := h
  · exact ⟨.ofBits [false], Builder.writeBits_puts [false], Nat.le_refl 1, Nat.zero_le 1⟩
  · exact ⟨_, (Builder.writeBits_puts [true]).bind (Builder.writeRef_puts root), Nat.le_refl 1,
      Nat.le_refl 1⟩

theorem PutsWithin.bind {z z' : Size} {w w' : Builder → Except Trap Builder} (h : PutsWithin z w)
    (h' : PutsWithin z' w') : PutsWithin (z + z') fun b => w b >>= w' := by
  obtain ⟨c, hc, hz⟩ := h
  obtain ⟨c', hc', hz'⟩ := h'
  exact ⟨c ++ c', hc.bind hc', hz.add hz'⟩

theorem PutsWithin.congr {z : Size} {w w' : Builder → Except Trap Builder} (h : PutsWithin z w)
    (he : ∀ b, w' b = w b) : PutsWithin z w' := by
  rwa [funext he]

theorem putsWithin_nothing : PutsWithin 0 .ok := ⟨.empty, .ok, Nat.le_refl 0, Nat.le_refl 0⟩

theorem putsWithin_slice {s : Slice} {n : Nat} (hs : s.Valid) (hb : s.bitCount ≤ n)
    (hr : s.refCount = 0) : PutsWithin (.exact n 0) (Builder.writeSlice s) := by
  refine ⟨s.toCell, Builder.writeSlice_puts hs, ?_, ?_⟩
  · rwa [Slice.bits_toCell, hs.length_bits]
  · rw [Slice.refs_toCell, hs.length_refs, hr]
    exact Nat.le_refl 0

theorem store_tuple {ts : List Ty} {vs : List Value} (h : vs.length = ts.length) (b : Builder) :
    (Ty.tuple ts).store (.tuple vs) b = storeAll ts vs b := by
  simp [store, Value.toTuple, h]

mutual

/-- **A value of the documented form is written wherever there is room for it,** in no more room
than the size of its type, if the type is accepted. -/
theorem Shapes.putsWithin : ∀ (t : Ty) {v : Value}, t.Accepted → t.Shapes v →
    PutsWithin t.size (t.store v)
  | .integer .., _, _, ⟨_, rfl, h⟩ => putsWithin_integral h
  | .bool, _, _, ⟨_, rfl, h⟩ => putsWithin_integral h
  | .fixedBytes _, _, _, ⟨_, rfl, h⟩ => putsWithin_integral h
  | .function, _, _, ⟨_, rfl, h⟩ => putsWithin_integral h
  | .enumeration .., _, _, ⟨_, rfl, h⟩ => putsWithin_integral h
  | .cell, _, _, ⟨c, rfl⟩ => putsWithin_ref c
  | .bytes, _, _, ⟨c, rfl⟩ => putsWithin_ref c
  | .string, _, _, ⟨c, rfl⟩ => putsWithin_ref c
  | .mapping .., _, _, h => putsWithin_dict h
  | .array .., _, _, ⟨_, _, rfl, hn, hd⟩ =>
    (putsWithin_integral hn).bind (putsWithin_dict hd)
  | .varInteger n signed, _, _, ⟨k, rfl, hn, h⟩ => by
    obtain ⟨bs, hbs, -, hp⟩ := exists_store_varInteger_puts hn h
    have hk := (FitsBytes.iff_le h.signed_or).1 h
    refine ⟨_, hp, ?_, Nat.le_refl 0⟩
    simp only [Cell.bits_ofBits, List.length_append, Bits.length_ofNat, hbs, size, Size.upTo,
      predInWord_of_pos hn]
    omega
  | .address, _, _, ⟨s, rfl, h⟩ => putsWithin_slice h.1 h.counts.1 h.counts.2
  | .addressStd, _, _, ⟨s, rfl, hs, hb, hr, _⟩ => by
    refine PutsWithin.congr (putsWithin_slice hs (Nat.le_of_eq hb) hr) fun b => ?_
    simp [store, Value.toSlice, hb]
  | .optional t, v, ho, h => by
    obtain ⟨hfit, hot⟩ := ho.payload
    obtain rfl | ⟨w, rfl, hw⟩ := h
    · exact ⟨_, (image_missing t).writes, (image_missing t).bounds⟩
    obtain ⟨c, hc, hz⟩ := Shapes.putsWithin t hot hw
    by_cases hi : t.wordSize.StaysInline
    · exact ⟨_, puts_inline hc hi hw.ne_null, bounds_inline hz hi⟩
    · -- a payload that is not in place has an empty cell to itself
      have hroom : ({} : Builder).HasRoom c := hz.hasRoom (hfit.resolve_left hi)
      exact ⟨_, puts_boxed hc hi hroom hw.ne_null, bounds_boxed hi c⟩
  | .struct _ fs, _, ho, ⟨vs, rfl, h⟩ => by
    have hl : vs.length = fs.length := by
      rw [length_of_shapesAll (shapesFields_iff.1 h), List.length_map]
    exact (ShapesFields.putsWithin fs ((accepted_struct _ fs).1 ho) h).congr fun b => by
      simp [store, Value.toTuple, hl]
  | .tuple ts, _, ho, ⟨vs, rfl, h⟩ =>
    (ShapesAll.putsWithin ts ho h).congr (store_tuple (length_of_shapesAll h))
  | .alias _ t, _, ho, h => Shapes.putsWithin t ho h

theorem ShapesAll.putsWithin : ∀ (ts : List Ty) {vs : List Value}, (Ty.tuple ts).Accepted →
    ShapesAll ts vs → PutsWithin (totalSize ts) (storeAll ts vs)
  | [], _, _, h => by
    rw [show _ = [] from h]
    exact putsWithin_nothing
  | t :: ts, _, ho, ⟨w, ws, rfl, hw, hws⟩ => by
    exact (Shapes.putsWithin t ho.uncons.1 hw).bind (ShapesAll.putsWithin ts ho.uncons.2 hws)

theorem ShapesFields.putsWithin : ∀ (fs : List (Field Ty)) {vs : List Value},
    (Ty.tuple (fs.map (·.type))).Accepted → ShapesFields fs vs →
    PutsWithin (fieldsSize fs) (storeFields fs vs)
  | [], _, _, h => by
    rw [show _ = [] from h]
    exact putsWithin_nothing
  | ⟨_, t⟩ :: fs, _, ho, ⟨w, ws, rfl, hw, hws⟩ => by
    obtain ⟨ht, hfs⟩ := Accepted.uncons ho
    exact (Shapes.putsWithin t ht hw).bind (ShapesFields.putsWithin fs hfs hws)

end

/-! ### Storing -/

/-- **Values of an accepted type can be stored.** If no payload in the type is oversized, its size
fits a cell and words hold the sums in it, then a value of the documented form is stored into an
empty builder, in no more bits and references than the size has. -/
theorem store_shaped {t : Ty} {v : Value} (hs : t.sumsFit) (ho : t.oversized? = none)
    (hz : t.wordSize.FitsCell) (hv : t.Shapes v) :
    ∃ b, t.store v {} = .ok b ∧ b.bits.length ≤ t.wordSize.bits ∧
      b.refs.length ≤ t.wordSize.refs := by
  rw [Size.FitsCell, bits_wordSize_of_fit hs, refs_wordSize_of_fit hs] at hz
  rw [bits_wordSize_of_fit hs, refs_wordSize_of_fit hs]
  obtain ⟨c, hc, hbounds⟩ := Shapes.putsWithin t ⟨ho, hs⟩ hv
  refine ⟨_, hc.adds (hbounds.hasRoom hz), ?_, ?_⟩
  · simpa using hbounds.1
  · simpa using hbounds.2

/-- A type that fills a cell to the brim, with a payload that fills another. -/
def brimType : Ty :=
  .tuple [.optional (.tuple [.integer 1023 false, .cell, .cell, .cell, .cell]),
    .optional (.optional (.varInteger 32 true)), .addressStd, .integer 500 true, .cell, .cell,
    .cell]

/-- Its longest value, of integers at the ends of their ranges. -/
def brimValue : Value :=
  .tuple [.tuple [.int (twoPow 1023 - 1), .cell .empty, .cell .empty, .cell .empty, .cell .empty],
    .tuple [.int (-twoPow 247)],
    .slice (.ofCell (.ofBits ([true, false, false] ++ List.replicate 264 false))),
    .int (-twoPow 499), .cell .empty, .cell .empty, .cell .empty]

theorem shapes_brimValue : brimType.Shapes brimValue := by
  have hcell : Shapes .cell (.cell .empty) := ⟨_, rfl⟩
  have hlong : Shapes (.integer 1023 false) (.int (twoPow 1023 - 1)) := ⟨_, rfl, by decide +kernel⟩
  have hleast : Shapes (.integer 500 true) (.int (-twoPow 499)) := ⟨_, rfl, by decide +kernel⟩
  have hvar : Shapes (.varInteger 32 true) (.int (-twoPow 247)) :=
    ⟨_, rfl, by decide, by decide +kernel⟩
  have haddress : Shapes .addressStd
      (.slice (.ofCell (.ofBits ([true, false, false] ++ List.replicate 264 false)))) :=
    ⟨_, rfl, Slice.valid_ofCell _, by decide +kernel, rfl, by decide +kernel⟩
  have hpayload : Shapes (.tuple [.integer 1023 false, .cell, .cell, .cell, .cell])
      (.tuple [.int (twoPow 1023 - 1), .cell .empty, .cell .empty, .cell .empty, .cell .empty]) :=
    ⟨_, rfl, .cons hlong (.cons hcell (.cons hcell (.cons hcell (.cons hcell .nil))))⟩
  exact ⟨_, rfl, .cons (.inr ⟨_, rfl, hpayload⟩) (.cons (.inr ⟨_, rfl, .inr ⟨_, rfl, hvar⟩⟩)
    (.cons haddress (.cons hleast (.cons hcell (.cons hcell (.cons hcell .nil))))))⟩

theorem store_shaped_brim :
    brimType.sumsFit ∧ brimType.oversized? = none ∧ brimType.wordSize.FitsCell ∧
      brimType.Shapes brimValue ∧
      ∃ b, brimType.store brimValue {} = .ok b ∧ b.bits.length ≤ 1023 ∧ b.refs.length ≤ 4 := by
  have hs : brimType.sumsFit := by decide +kernel
  have ho : brimType.oversized? = none := by decide +kernel
  have hz : brimType.wordSize = .upTo 1023 4 false := by decide +kernel
  have hfit : brimType.wordSize.FitsCell := by rw [hz]; exact ⟨Nat.le_refl _, Nat.le_refl _⟩
  obtain ⟨b, hb, hbits, hrefs⟩ := store_shaped hs ho hfit shapes_brimValue
  rw [hz] at hbits hrefs
  exact ⟨hs, ho, hfit, shapes_brimValue, b, hb, hbits, hrefs⟩

/-! ### Sums that are cut -/

theorem shapesAll_zeros : ∀ {ts : List Ty}, (∀ t ∈ ts, ∃ n, t = .integer n false) →
    ShapesAll ts (ts.map fun _ => .int 0)
  | [], _ => .nil
  | t :: ts, h => by
    obtain ⟨ht, hts⟩ := List.forall_mem_cons.1 h
    obtain ⟨n, rfl⟩ := ht
    exact .cons ⟨0, rfl, Int.le_refl 0, Int.natCast_pos.2 (twoPow_pos n)⟩ (shapesAll_zeros hts)

/-- There is no room for a zero that is longer than a cell. -/
theorem store_long_zero {n : Nat} (hn : maxBits < n) (b : Builder) :
    (Ty.integer n false).store (.int 0) b = .error .cellOverflow := by
  have hpow : twoPow n ≠ 0 := Nat.ne_of_gt (twoPow_pos n)
  have hroom : maxBits < b.bits.length + n := Nat.lt_add_left _ hn
  simp [store, Builder.writeIntegral, Value.toInt, Builder.writeNat, hpow, Builder.writeBits, hroom]

/-- **Where sums are cut, a value of an accepted type may have no room.** Nothing is left of the
size of a tuple of `2 ^ 32` bits, so no payload in it is oversized and its size fits a cell, but a
cell has no room for its zeros. -/
theorem store_wrapped :
    (Ty.tuple wrappedTypes).oversized? = none ∧ (Ty.tuple wrappedTypes).wordSize.FitsCell ∧
      (Ty.tuple wrappedTypes).Shapes (.tuple (wrappedTypes.map fun _ => .int 0)) ∧
      (Ty.tuple wrappedTypes).store (.tuple (wrappedTypes.map fun _ => .int 0)) {} =
        .error .cellOverflow := by
  refine ⟨oversizedAmong?_wrappedTypes, ⟨?_, ?_⟩,
    ⟨_, rfl, shapesAll_zeros fun _ => mem_wrappedTypes⟩, ?_⟩
  · rw [bits_wordSize, size, totalSize_wrappedTypes.1]
    decide
  · rw [refs_wordSize, size, totalSize_wrappedTypes.2]
    decide
  · obtain ⟨b, hb⟩ : ∃ b, (Ty.integer 1 false).store (.int 0) {} = .ok b := ⟨_, rfl⟩
    rw [store_tuple (List.length_map _), wrappedTypes, List.map_cons, storeAll, hb,
      List.replicate_succ, List.map_cons, ok_bind, storeAll, store_long_zero (by decide)]
    rfl

end Ty

end TypedCells
