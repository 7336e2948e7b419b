import TypedCells.Proofs.Writing

/-!
# The shortest form of a variable integer

A variable integer of up to `n` bytes is stored exactly if it fits `n - 1` bytes: the byte count is
written first, and `n` itself is no count. What is written is the count, then the fewest bytes that
the integer fits (`Ty.store_varInteger`). A cell has room for each of them up to `n = 128`.
-/

namespace TypedCells

/-- The integer fits `n` whole bytes. Signed, one bit goes to the sign; no bytes hold only `0`. -/
def FitsBytes (signed : Bool) (n : Nat) (v : Int) : Prop :=
  if n = 0 then v = 0
  else if signed then -(twoPow (8 * n - 1) : Int) ≤ v ∧ v < twoPow (8 * n - 1)
  else 0 ≤ v ∧ v < twoPow (8 * n)

instance (signed : Bool) (n : Nat) (v : Int) : Decidable (FitsBytes signed n v) :=
  inferInstanceAs (Decidable (ite ..))

example : FitsBytes true 1 (-128) ∧ ¬ FitsBytes true 1 128 ∧ FitsBytes false 1 255 := by decide

theorem fitsBytes_iff {signed : Bool} {n : Nat} {v : Int} :
    FitsBytes signed n v ↔ ByteRange signed n v := by
  rw [FitsBytes, ByteRange, Bits.SignedRange]
  obtain _ | n := n
  · cases signed <;> simp <;> omega
  · have hs : 8 * (n + 1) - 1 = 8 * n + 7 := by omega
    have hp : twoPow (8 * (n + 1)) = 2 * twoPow (8 * n + 7) := twoPow_succ _
    cases signed
    · simp
    · simp only [Nat.add_one_ne_zero, if_false, if_true, hs, hp]
      omega

namespace FitsBytes

variable {signed : Bool} {n : Nat} {v : Int}

theorem signed_or (h : FitsBytes signed n v) : signed = true ∨ 0 ≤ v :=
  (fitsBytes_iff.1 h).signed_or

theorem iff_le (h : signed = true ∨ 0 ≤ v) : FitsBytes signed n v ↔ varByteLength v signed ≤ n := by
  rw [fitsBytes_iff, varByteLength_le_iff h]

/-- The byte length is the least number of bytes that the integer fits. -/
theorem least (h : FitsBytes signed n v) :
    FitsBytes signed (varByteLength v signed) v ∧
      ∀ j, FitsBytes signed j v → varByteLength v signed ≤ j :=
  ⟨(iff_le h.signed_or).2 (Nat.le_refl _), fun _ => (iff_le h.signed_or).1⟩

end FitsBytes

namespace Ty

variable {n : Nat} {signed : Bool} {v : Int}

theorem varLength_lt_twoPow {k : Nat} (hk : k ≤ n - 1) : k < twoPow (varLengthBits n) :=
  Nat.lt_of_le_of_lt (Nat.le_trans hk (sub_one_le_predInWord n))
    (bitLength_le_iff.1 (Nat.le_refl _))

/-- An integer that does not fit a byte less is out of range, be it negative or too long. -/
theorem store_varInteger_range (hn : 1 ≤ n) (h : ¬ FitsBytes signed (n - 1) v) (b : Builder) :
    (Ty.varInteger n signed).store (.int v) b = .error .rangeCheck := by
  have hc : (!signed) = true ∧ v < 0 ∨ varByteLength v signed ≥ n := by
    by_cases hs : signed = true ∨ 0 ≤ v
    · have hk := mt (FitsBytes.iff_le hs).2 h
      exact .inr (by omega)
    · rw [not_or] at hs
      exact .inl ⟨by simpa using hs.1, by omega⟩
  have hw : b.writeVarInt n signed v = .error .rangeCheck := if_pos hc
  rw [store, Value.toInt, pure_bind, hw]

theorem fitsBytes_of_store (hn : 1 ≤ n) {b b' : Builder}
    (h : (Ty.varInteger n signed).store (.int v) b = .ok b') : FitsBytes signed (n - 1) v :=
  Decidable.byContradiction fun hf => by
    rw [store_varInteger_range hn hf] at h
    exact nomatch h

/-- An integer that fits a byte less is put as its byte length and its bytes. -/
theorem exists_store_varInteger_puts (hn : 1 ≤ n) (h : FitsBytes signed (n - 1) v) :
    ∃ bs : Bits, bs.length = 8 * varByteLength v signed ∧ bs.toInteger signed = v ∧
      Builder.Puts ((Ty.varInteger n signed).store (.int v))
        (.ofBits (.ofNat (varLengthBits n) (varByteLength v signed) ++ bs)) := by
  have hk := (FitsBytes.iff_le h.signed_or).1 h
  obtain ⟨bs, hbs, hv⟩ := (fitsBytes_iff.1 h.least.1).exists_bits
  have hp := Builder.writeVarInt_puts h.signed_or (by omega) (varLength_lt_twoPow hk) hbs hv
  exact ⟨bs, hbs, hv, hp⟩

/-- The longest form of a variable integer of up to 128 bytes fills a cell. -/
theorem varLengthBits_add_le (hn : 1 ≤ n) (h : n ≤ 128) :
    varLengthBits n + 8 * (n - 1) ≤ maxBits := by
  have hl : varLengthBits n ≤ 7 := by
    have hp : twoPow 7 = 128 := rfl
    rw [varLengthBits, predInWord_of_pos hn, bitLength_le_iff]
    omega
  have hb : varLengthBits n + 8 * (n - 1) ≤ 1023 := by omega
  exact hb

/-- **The shortest form.** Into an empty builder, an integer of any size is stored exactly if it
fits `n - 1` bytes, and is out of range else; what is stored is the least number of bytes that it
fits, and then those bytes. -/
theorem store_varInteger (signed : Bool) (v : Int) {n : Nat} (hn : 1 ≤ n) :
    (n ≤ 128 → ((∃ b, (Ty.varInteger n signed).store (.int v) {} = .ok b) ↔
      FitsBytes signed (n - 1) v)) ∧
    (¬ FitsBytes signed (n - 1) v →
      (Ty.varInteger n signed).store (.int v) {} = .error .rangeCheck) ∧
    ∀ b, (Ty.varInteger n signed).store (.int v) {} = .ok b →
      ∃ (k : Nat) (length bytes : Bits), b = ⟨length ++ bytes, []⟩ ∧
        (FitsBytes signed k v ∧ ∀ j, FitsBytes signed j v → k ≤ j) ∧
        length.length = varLengthBits n ∧ length.toNat = k ∧
        bytes.length = 8 * k ∧ bytes.toInteger signed = v := by
  have hempty : ({} : Builder).HasRoom .empty := ⟨Nat.zero_le _, Nat.zero_le _⟩
  refine ⟨fun hn' => ⟨fun ⟨b, hb⟩ => fitsBytes_of_store hn hb, fun h => ?_⟩,
    fun h => store_varInteger_range hn h _, fun b hb => ?_⟩
  · obtain ⟨bs, hbs, -, hp⟩ := exists_store_varInteger_puts hn h
    have hk := (FitsBytes.iff_le h.signed_or).1 h
    have hfit := varLengthBits_add_le hn hn'
    refine ⟨_, hp.adds ⟨?_, Nat.zero_le _⟩⟩
    simp only [Cell.bits_ofBits, List.length_append, Bits.length_ofNat, hbs, List.length_nil]
    omega
  · have h := fitsBytes_of_store hn hb
    obtain ⟨bs, hbs, hv, hp⟩ := exists_store_varInteger_puts hn h
    obtain ⟨-, rfl⟩ := (hp.eq_ok hempty).1 hb
    have hk := (FitsBytes.iff_le h.signed_or).1 h
    exact ⟨_, _, bs, rfl, h.least, Bits.length_ofNat ..,
      Bits.toNat_ofNat_of_lt (varLength_lt_twoPow hk), hbs, hv⟩

/-- Around the sign bit: of sixteen bytes, fifteen hold `-twoPow 119` but not `twoPow 119`, and
`128` takes a byte more than `-128`. -/
theorem store_varInteger_signBit :
    1 ≤ 16 ∧ (∃ b, (Ty.varInteger 16 true).store (.int (-(twoPow 119))) {} = .ok b) ∧
      (Ty.varInteger 16 true).store (.int (twoPow 119)) {} = .error .rangeCheck ∧
      (∀ b, (Ty.varInteger 16 true).store (.int (-128)) {} = .ok b → b.bits.length = 4 + 8) ∧
      (∀ b, (Ty.varInteger 16 true).store (.int 128) {} = .ok b → b.bits.length = 4 + 16) := by
  have hl : varLengthBits 16 = 4 := by decide +kernel
  refine ⟨by decide,
    ((store_varInteger true (-(twoPow 119)) (by decide)).1 (by decide)).2 (by decide),
    (store_varInteger true (twoPow 119) (by decide)).2.1 (by decide), fun b hb => ?_,
    fun b hb => ?_⟩
  · obtain ⟨k, length, bytes, rfl, ⟨h1, h2⟩, h3, -, h4, -⟩ :=
      (store_varInteger true (-128) (by decide)).2.2 b hb
    have hle : k ≤ 1 := h2 1 (by decide)
    have hne : k ≠ 0 := by rintro rfl; exact absurd h1 (by decide)
    simp only [List.length_append, h3, h4, hl]
    omega
  · obtain ⟨k, length, bytes, rfl, ⟨h1, h2⟩, h3, -, h4, -⟩ :=
      (store_varInteger true 128 (by decide)).2.2 b hb
    have hle : k ≤ 2 := h2 2 (by decide)
    have hne : k ≠ 0 := by rintro rfl; exact absurd h1 (by decide)
    have hne' : k ≠ 1 := by rintro rfl; exact absurd h1 (by decide)
    simp only [List.length_append, h3, h4, hl]
    omega

end Ty

end TypedCells
