import TypedCells.Proofs.Writing

/-!
# How much reading takes and writing adds

`Ty.size` is a bound on the room of a value. Reading never takes more than it off a slice
(`Ty.load_extent`), whatever the slice holds. Writing a value of fixed size adds exactly the bits of
the size, and the references too unless a slice that is given as a standard address shows some
(`Ty.store_extent`): only the bits of such a slice are counted.
-/

namespace TypedCells

/-! ### Reading -/

namespace Ty

/-- **Reading stays within the size.** A value that is read takes no more references than its size
says, no more bits if the bytes of variable integers are a power of two, and exactly as many where
the size is fixed. All that reading fails with is an underflow. -/
theorem load_extent (t : Ty) (s : Slice) :
    (∀ v s', t.load s = .ok (v, s') → ∃ n m, s.Moves n m s' ∧ m ≤ t.size.refs ∧
      (t.PowerBytes → n ≤ t.size.bits) ∧
      (t.size.fixed = true → n = t.size.bits ∧ m = t.size.refs) ∧
      (t.size.fixedRefs = true → m = t.size.refs)) ∧
    ∀ e, t.load s = .error e → e = .cellUnderflow := by
  refine ⟨fun v s' h => ?_, fun e h => load_underflows t s h⟩
  obtain ⟨n, m, hm, ha, hb⟩ := load_moves t h
  exact ⟨n, m, hm, ha.refs_le, hb,
    fun hf => ⟨ha.bits_eq hf, ha.refs_eq (fixedRefs_of_fixed t hf)⟩, ha.refs_eq⟩

/-- A cell behind an integer of one byte that was written in two. -/
theorem load_extent_overlong :
    ∃ v s' n m, load (.tuple [.optional (.varInteger 16 false), .cell])
        (.ofCell ⟨true :: Bits.ofNat 4 2 ++ Bits.ofNat 16 5, [.empty]⟩) = .ok (v, s') ∧
      Slice.Moves n m (.ofCell ⟨true :: Bits.ofNat 4 2 ++ Bits.ofNat 16 5, [.empty]⟩) s' ∧
      n ≤ 125 ∧ m = 1 := by
  obtain ⟨⟨v, s'⟩, h⟩ := exists_of_isOk
    (show (load (.tuple [.optional (.varInteger 16 false), .cell])
      (.ofCell ⟨true :: Bits.ofNat 4 2 ++ Bits.ofNat 16 5, [.empty]⟩)).isOk = true by
        decide +kernel)
  obtain ⟨n, m, hm, -, hn, -, hr⟩ := (load_extent _ _).1 v s' h
  have hsize : (Ty.tuple [.optional (.varInteger 16 false), .cell]).size = .upTo 125 1 true := by
    decide +kernel
  rw [hsize] at hn hr
  exact ⟨v, s', n, m, h, hm, hn ⟨⟨trivial, 4, rfl⟩, trivial, trivial⟩, hr rfl⟩

end Ty

/-! ### Writing -/

namespace Builder

/-- The builder `b'` is `b` with `n` bits and `m` references more. -/
def Grows (n m : Nat) (b b' : Builder) : Prop :=
  ∃ c : Cell, b' = b.add c ∧ c.bits.length = n ∧ c.refs.length = m

variable {b b' b'' : Builder}

theorem Grows.refl (b : Builder) : Grows 0 0 b b := ⟨.empty, (add_empty b).symm, rfl, rfl⟩

theorem Grows.trans {n m n' m' : Nat} (h : Grows n m b b') (h' : Grows n' m' b' b'') :
    Grows (n + n') (m + m') b b'' := by
  obtain ⟨c, rfl, rfl, rfl⟩ := h
  obtain ⟨d, rfl, rfl, rfl⟩ := h'
  exact ⟨c ++ d, (add_append b c d).symm, by simp, by simp⟩

theorem writeBits_grows {bs : Bits} (h : b.writeBits bs = .ok b') : Grows bs.length 0 b b' := by
  unfold writeBits at h
  split at h
  · exact nomatch h
  · obtain rfl := Except.ok.inj h
    exact ⟨.ofBits bs, by simp [add], rfl, rfl⟩

theorem writeRef_grows {c : Cell} (h : b.writeRef c = .ok b') : Grows 0 1 b b' :=
  ⟨.link c, eq_add_of_writeRef h, rfl, rfl⟩

theorem writeSlice_grows {s : Slice} (hs : s.Valid) (h : b.writeSlice s = .ok b') :
    Grows s.bitCount s.refCount b b' := by
  unfold writeSlice at h
  split at h
  · exact nomatch h
  · simp only [bind_eq_ok, pure_eq_ok, Except.ok.injEq] at h
    obtain ⟨b1, h1, rfl⟩ := h
    obtain ⟨c, rfl, hb, hr⟩ := writeBits_grows h1
    refine ⟨⟨c.bits, c.refs ++ s.refs⟩, by simp [add], ?_, ?_⟩
    · rw [← hs.length_bits]
      exact hb
    · rw [List.length_append, hr, hs.length_refs, Nat.zero_add]

theorem writeIntegral_grows {width : Nat} {signed : Bool} {v : Value}
    (h : b.writeIntegral width signed v = .ok b') : Grows width 0 b b' := by
  obtain ⟨k, -, h⟩ := bind_eq_ok.1 h
  cases signed with
  | false =>
    simp only [Bool.false_eq_true, if_false, writeNat] at h
    split at h
    · cases h
    · exact Bits.length_ofNat width _ ▸ writeBits_grows h
  | true =>
    simp only [if_true, writeInt] at h
    split at h
    · cases h
    · exact Bits.length_ofInt width _ ▸ writeBits_grows h

end Builder

namespace Ty

mutual

/-- The references shown by the slices that are given as standard addresses. -/
def strayRefs : Ty → Value → Nat
  | .addressStd, .slice s => s.refCount
  | .struct _ fs, .tuple vs => strayFieldRefs fs vs
  | .tuple ts, .tuple vs => strayItemRefs ts vs
  | .alias _ t, v => t.strayRefs v
  | _, _ => 0

/-- The references shown by the slices that are given as standard addresses in a tuple. -/
def strayItemRefs : List Ty → List Value → Nat
  | t :: ts, v :: vs => t.strayRefs v + strayItemRefs ts vs
  | _, _ => 0

/-- The references shown by the slices that are given as standard addresses in a structure. -/
def strayFieldRefs : List (Field Ty) → List Value → Nat
  | ⟨_, t⟩ :: fs, v :: vs => t.strayRefs v + strayFieldRefs fs vs
  | _, _ => 0

end

mutual

/-- Only a slice that is given as a standard address can show a reference too many. -/
theorem strayRefs_eq_zero : ∀ (t : Ty) (v : Value), t.Each (· ≠ .addressStd) → t.strayRefs v = 0
  | .addressStd, _, h => absurd rfl h
  | .integer .., _, _ | .bool, _, _ | .address, _, _ | .cell, _, _ | .bytes, _, _ | .string, _, _
  | .fixedBytes _, _, _ | .function, _, _ | .enumeration .., _, _ | .varInteger .., _, _
  | .array .., _, _ | .mapping .., _, _ | .optional _, _, _ => rfl
  | .struct _ fs, v, h => by
    cases v with
    | tuple vs => exact strayFieldRefs_eq_zero fs vs h
    | _ => rfl
  | .tuple ts, v, h => by
    cases v with
    | tuple vs => exact strayItemRefs_eq_zero ts vs h
    | _ => rfl
  | .alias _ t, v, h => strayRefs_eq_zero t v h

theorem strayItemRefs_eq_zero : ∀ (ts : List Ty) (vs : List Value),
    EachItem (· ≠ .addressStd) ts → strayItemRefs ts vs = 0
  | t :: ts, v :: vs, h => by
    rw [strayItemRefs, strayRefs_eq_zero t v h.1, strayItemRefs_eq_zero ts vs h.2]
  | [], _, _ => by simp only [strayItemRefs]
  | _ :: _, [], _ => by simp only [strayItemRefs]

theorem strayFieldRefs_eq_zero : ∀ (fs : List (Field Ty)) (vs : List Value),
    EachField (· ≠ .addressStd) fs → strayFieldRefs fs vs = 0
  | ⟨_, t⟩ :: fs, v :: vs, h => by
    rw [strayFieldRefs, strayRefs_eq_zero t v h.1, strayFieldRefs_eq_zero fs vs h.2]
  | [], _, _ => by simp only [strayFieldRefs]
  | _ :: _, [], _ => by simp only [strayFieldRefs]

end

mutual

/-- Writing a value of fixed size adds the room of the size and the stray references. -/
theorem store_grows : ∀ (t : Ty) {v : Value} {b b' : Builder}, t.size.fixed = true → v.Valid →
    t.store v b = .ok b' → b.Grows t.size.bits (t.size.refs + t.strayRefs v) b'
  | .integer .., _, _, _, _, _, h => Builder.writeIntegral_grows h
  | .bool, _, _, _, _, _, h => Builder.writeIntegral_grows h
  | .fixedBytes _, _, _, _, _, _, h => Builder.writeIntegral_grows h
  | .function, _, _, _, _, _, h => Builder.writeIntegral_grows h
  | .enumeration .., _, _, _, _, _, h => Builder.writeIntegral_grows h
  | .address, _, _, _, hf, _, _ => nomatch hf
  | .mapping .., _, _, _, hf, _, _ => nomatch hf
  | .array .., _, _, _, hf, _, _ => nomatch hf
  | .varInteger .., _, _, _, hf, _, _ => nomatch hf
  | .addressStd, v, b, b', _, hv, h => by
    obtain ⟨s, hs, h⟩ := bind_eq_ok.1 h
    cases v with
    | slice s' =>
      obtain rfl := Except.ok.inj hs
      split at h
      · next hl =>
        rw [size, strayRefs, Size.exact, ← hl, Nat.zero_add]
        exact Builder.writeSlice_grows hv h
      · exact nomatch h
    | _ => exact nomatch hs
  | .cell, v, b, b', _, _, h => by
    obtain ⟨c, -, h⟩ := bind_eq_ok.1 h
    exact Builder.writeRef_grows h
  | .bytes, v, b, b', _, _, h => by
    obtain ⟨c, -, h⟩ := bind_eq_ok.1 h
    exact Builder.writeRef_grows h
  | .string, v, b, b', _, _, h => by
    obtain ⟨c, -, h⟩ := bind_eq_ok.1 h
    exact Builder.writeRef_grows h
  | .optional t, _, _, _, hf, _, _ => by
    rw [size, Size.optional] at hf
    split at hf <;> exact nomatch hf
  | .struct _ fs, v, b, b', hf, hv, h => by
    obtain ⟨vs, hvs, h⟩ := bind_eq_ok.1 h
    cases v with
    | tuple ws =>
      obtain rfl := Except.ok.inj hvs
      split at h
      · next hl => exact storeFields_grows fs hf hv hl h
      · exact nomatch h
    | _ => exact nomatch hvs
  | .tuple ts, v, b, b', hf, hv, h => by
    obtain ⟨vs, hvs, h⟩ := bind_eq_ok.1 h
    cases v with
    | tuple ws =>
      obtain rfl := Except.ok.inj hvs
      split at h
      · next hl => exact storeAll_grows ts hf hv hl h
      · exact nomatch h
    | _ => exact nomatch hvs
  | .alias _ t, _, _, _, hf, hv, h => store_grows t hf hv h

theorem storeAll_grows : ∀ (ts : List Ty) {vs : List Value} {b b' : Builder},
    (totalSize ts).fixed = true → Value.ValidAll vs → vs.length = ts.length →
    storeAll ts vs b = .ok b' →
    b.Grows (totalSize ts).bits ((totalSize ts).refs + strayItemRefs ts vs) b'
  | [], [], b, _, _, _, _, h => Except.ok.inj h ▸ .refl b
  | t :: ts, v :: vs, b, b', hf, hv, hl, h => by
    obtain ⟨hf1, hf2⟩ := (Bool.and_eq_true _ _).mp hf
    obtain ⟨b1, h1, h2⟩ := bind_eq_ok.1 h
    have hg := (store_grows t hf1 hv.1 h1).trans (storeAll_grows ts hf2 hv.2 (Nat.succ.inj hl) h2)
    rwa [Nat.add_add_add_comm] at hg

theorem storeFields_grows : ∀ (fs : List (Field Ty)) {vs : List Value} {b b' : Builder},
    (fieldsSize fs).fixed = true → Value.ValidAll vs → vs.length = fs.length →
    storeFields fs vs b = .ok b' →
    b.Grows (fieldsSize fs).bits ((fieldsSize fs).refs + strayFieldRefs fs vs) b'
  | [], [], b, _, _, _, _, h => Except.ok.inj h ▸ .refl b
  | ⟨_, t⟩ :: fs, v :: vs, b, b', hf, hv, hl, h => by
    obtain ⟨hf1, hf2⟩ := (Bool.and_eq_true _ _).mp hf
    obtain ⟨b1, h1, h2⟩ := bind_eq_ok.1 h
    have hg := (store_grows t hf1 hv.1 h1).trans
      (storeFields_grows fs hf2 hv.2 (Nat.succ.inj hl) h2)
    rwa [Nat.add_add_add_comm] at hg

end

/-- **Values of fixed size.** A value of a type of fixed size that can be written adds exactly the
bits of the size. It adds the references of the size and, beyond them, those that slices given as
standard addresses show. -/
theorem store_extent {t : Ty} {v : Value} {b b' : Builder} (hf : t.size.fixed = true)
    (hv : v.Valid) (h : t.store v b = .ok b') :
    ∃ c : Cell, b' = b.add c ∧ c.bits.length = t.size.bits ∧
      c.refs.length = t.size.refs + t.strayRefs v ∧
      (t.Each (· ≠ .addressStd) → c.refs.length = t.size.refs) := by
  obtain ⟨c, rfl, hb, hr⟩ := store_grows t hf hv h
  exact ⟨c, rfl, hb, hr, fun he => by rw [hr, strayRefs_eq_zero t v he, Nat.add_zero]⟩

/-- The bits of a standard address, with a reference beside them. -/
def addressWithRef : Slice := .ofCell ⟨List.replicate stdAddressBits true, [.empty]⟩

/-- An address that shows a reference, between a cell and an integer. -/
theorem store_extent_addressWithRef :
    ∃ b', store (.tuple [.cell, .addressStd, .integer 8 true])
        (.tuple [.cell .empty, .slice addressWithRef, .int (-1)]) ⟨[true], []⟩ = .ok b' ∧
      b'.bits.length = 1 + 275 ∧ b'.refs.length = 1 + 1 := by
  obtain ⟨b', h⟩ := exists_of_isOk (show (store (.tuple [.cell, .addressStd, .integer 8 true])
    (.tuple [.cell .empty, .slice addressWithRef, .int (-1)]) ⟨[true], []⟩).isOk = true by
      decide +kernel)
  have hv : (Value.tuple [.cell .empty, .slice addressWithRef, .int (-1)]).Valid :=
    ⟨trivial, Slice.valid_ofCell _, trivial, trivial⟩
  obtain ⟨c, rfl, hb, hr, -⟩ := store_extent rfl hv h
  refine ⟨_, h, ?_, ?_⟩
  · rw [Builder.bits_add, List.length_append, hb]
    rfl
  · rw [Builder.refs_add, List.length_append, hr]
    rfl

/-- The size of a standard address is fixed and without references, but one that shows a reference
is written with it. -/
theorem store_strayRef :
    Ty.addressStd.size = .exact 267 0 ∧
      ∃ b, Ty.addressStd.store (.slice addressWithRef) {} = .ok b ∧
        b.bits.length = 267 ∧ b.refs.length = 1 := by
  obtain ⟨b, h⟩ := exists_of_isOk
    (show (Ty.addressStd.store (.slice addressWithRef) {}).isOk = true by decide +kernel)
  have hv : (Value.slice addressWithRef).Valid := Slice.valid_ofCell _
  obtain ⟨c, rfl, hb, hr⟩ := store_grows .addressStd rfl hv h
  exact ⟨rfl, _, h, hb, hr⟩

end Ty

end TypedCells
