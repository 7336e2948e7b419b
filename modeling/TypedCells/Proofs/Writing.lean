import TypedCells.Proofs.Locality

/-!
# What writing a value appends

A writer puts a content if it appends it to every builder that has room for it, and else ends in a
cell overflow (`Builder.Puts`). The writes of integers put their bits (`Builder.writeIntegral_puts`,
`Builder.writeVarInt_puts`).
-/

namespace TypedCells

namespace Builder

theorem HasRoom.add {b : Builder} {c : Cell} (h : b.HasRoom c) : (b.add c).HasRoom .empty := by
  rw [← Cell.append_empty c] at h
  exact (HasRoom.append.1 h).2

/-- The writer appends the content to every builder that has room for it and refuses to do so where
there is none. -/
structure Puts (w : Builder → Except Trap Builder) (c : Cell) : Prop where
  adds : ∀ ⦃b : Builder⦄, b.HasRoom c → w b = .ok (b.add c)
  overflows : ∀ ⦃b : Builder⦄, b.HasRoom .empty → ¬ b.HasRoom c → w b = .error .cellOverflow

theorem Puts.eq_ok {w : Builder → Except Trap Builder} {c : Cell} (h : Puts w c) {b b' : Builder}
    (hb : b.HasRoom .empty) : w b = .ok b' ↔ b.HasRoom c ∧ b' = b.add c := by
  by_cases hc : b.HasRoom c
  · rw [h.adds hc, Except.ok.injEq, eq_comm]
    exact (and_iff_right hc).symm
  · rw [h.overflows hb hc]
    exact ⟨nofun, fun h' => absurd h'.1 hc⟩

theorem Puts.ok : Puts .ok .empty where
  adds b _ := by rw [add_empty]
  overflows _ hb h := absurd hb h

theorem Puts.bind {w w' : Builder → Except Trap Builder} {c c' : Cell} (h : Puts w c)
    (h' : Puts w' c') : Puts (fun b => w b >>= w') (c ++ c') where
  adds b hb := by
    obtain ⟨h1, h2⟩ := HasRoom.append.1 hb
    simp only [h.adds h1, ok_bind, h'.adds h2, add_append]
  overflows b hb hn := by
    by_cases h1 : b.HasRoom c
    · have h2 : ¬ (b.add c).HasRoom c' := fun h2 => hn (HasRoom.append.2 ⟨h1, h2⟩)
      simp only [h.adds h1, ok_bind, h'.overflows h1.add h2]
    · simp only [h.overflows hb h1, error_bind]

theorem writeBits_puts (bs : Bits) : Puts (writeBits bs) (.ofBits bs) where
  adds _ := writeBits_add
  overflows b hb h := by
    have h1 : ¬ b.bits.length + bs.length ≤ maxBits := fun h1 => h ⟨h1, hb.2⟩
    rw [writeBits, if_pos (by omega), throw_eq_error]

theorem writeRef_puts (c : Cell) : Puts (writeRef c) (.link c) where
  adds _ := writeRef_add
  overflows b hb h := by
    have h1 : ¬ b.refs.length + 1 ≤ maxRefs := fun h1 => h ⟨hb.1, h1⟩
    rw [writeRef, if_pos (by omega), throw_eq_error]

theorem writeSlice_puts {s : Slice} (hs : s.Valid) : Puts (writeSlice s) s.toCell where
  adds _ := writeSlice_add hs
  overflows b hb h := by
    rw [writeSlice]
    split
    · rfl
    · next hr =>
      have h2 : b.refs.length + s.refs.length ≤ maxRefs := by
        rw [hs.length_refs]
        omega
      have h1 : ¬ b.HasRoom (.ofBits s.bits) := fun h1 => h ⟨h1.1, h2⟩
      rw [(writeBits_puts s.bits).overflows hb h1, error_bind]

theorem writeNat_puts {w n : Nat} (h : n < twoPow w) :
    Puts (writeNat w n) (.ofBits (.ofNat w n)) := by
  have hw : writeNat w n = writeBits (.ofNat w n) := by
    funext b
    rw [writeNat, if_neg (by omega), Int.toNat_natCast]
  rw [hw]
  exact writeBits_puts _

theorem writeInt_puts {w : Nat} {v : Int} (hw : 1 ≤ w) (h : Bits.SignedRange w v) :
    Puts (writeInt w v) (.ofBits (.ofInt w v)) := by
  obtain ⟨k, rfl⟩ := Nat.exists_eq_add_of_le' hw
  rw [Bits.SignedRange, twoPow_succ] at h
  have hw : writeInt (k + 1) v = writeBits (.ofInt (k + 1) v) := by
    funext b
    rw [writeInt, if_neg (by rw [Nat.add_sub_cancel]; omega)]
  rw [hw]
  exact writeBits_puts _

end Builder

/-! ### Integers -/

/-- The integer with the given bits. -/
def Bits.toInteger (signed : Bool) (bs : Bits) : Int := if signed then bs.toInt else bs.toNat

theorem Bits.toInteger_range (signed : Bool) {bs : Bits} {n : Nat} (h : bs.length = 8 * n) :
    ByteRange signed n (bs.toInteger signed) := by
  unfold ByteRange toInteger
  rw [← h]
  cases signed with
  | false => exact ⟨by simp, by simpa using toNat_lt bs⟩
  | true => exact toInt_mem bs

theorem ByteRange.signed_or {signed : Bool} {n : Nat} {v : Int} (h : ByteRange signed n v) :
    signed = true ∨ 0 ≤ v := by
  cases signed with
  | false => exact .inr h.1
  | true => exact .inl rfl

theorem ByteRange.exists_bits {signed : Bool} {n : Nat} {v : Int} (h : ByteRange signed n v) :
    ∃ bs : Bits, bs.length = 8 * n ∧ bs.toInteger signed = v := by
  cases signed with
  | false =>
    obtain ⟨h1, h2⟩ := h
    refine ⟨.ofNat (8 * n) v.toNat, Bits.length_ofNat _ _, ?_⟩
    have h3 := Bits.toNat_ofNat_of_lt (w := 8 * n) (n := v.toNat) (by omega)
    simp only [Bits.toInteger, Bool.false_eq_true, if_false, h3]
    omega
  | true => exact ⟨.ofInt (8 * n) v, Bits.length_ofInt _ _, Bits.toInt_ofInt h⟩

theorem Builder.writeIntegral_puts (signed : Bool) (bs : Bits)
    (h : signed = true → 1 ≤ bs.length) :
    Puts (writeIntegral bs.length signed (.int (bs.toInteger signed))) (.ofBits bs) := by
  cases signed with
  | false =>
    have h1 := writeNat_puts (Bits.toNat_lt bs)
    rw [Bits.ofNat_toNat] at h1
    exact h1
  | true =>
    have h1 := writeInt_puts (h rfl) (Bits.toInt_mem bs)
    rw [Bits.ofInt_toInt] at h1
    exact h1

theorem Builder.writeVarInt_puts {n : Nat} {signed : Bool} {v : Int} {bs : Bits}
    (hs : signed = true ∨ 0 ≤ v) (hn : varByteLength v signed < n)
    (hl : varByteLength v signed < twoPow (varLengthBits n))
    (hb : bs.length = 8 * varByteLength v signed) (hv : bs.toInteger signed = v) :
    Puts (writeVarInt n signed v)
      (.ofBits (.ofNat (varLengthBits n) (varByteLength v signed)) ++ .ofBits bs) := by
  have hc : ¬ ((!signed) = true ∧ v < 0 ∨ varByteLength v signed ≥ n) := by
    rintro (⟨h3, h4⟩ | h3)
    · rcases hs with rfl | hs
      · simp at h3
      · omega
    · omega
  by_cases h0 : varByteLength v signed = 0
  · obtain rfl : bs = [] := List.length_eq_zero_iff.1 (by omega)
    have hw : writeVarInt n signed v =
        fun b => writeNat (varLengthBits n) (varByteLength v signed) b >>= .ok := by
      funext b
      simp only [writeVarInt, hc, if_false]
      simp only [h0, if_true]
      rfl
    rw [hw]
    exact (writeNat_puts hl).bind .ok
  · have hw : writeVarInt n signed v = fun b =>
        writeNat (varLengthBits n) (varByteLength v signed) b >>=
          writeIntegral bs.length signed (.int (bs.toInteger signed)) := by
      funext b
      simp only [writeVarInt, hc, if_false, hb, hv]
      simp only [h0, if_false]
      rfl
    rw [hw]
    exact (writeNat_puts hl).bind (writeIntegral_puts signed bs (by omega))

end TypedCells
