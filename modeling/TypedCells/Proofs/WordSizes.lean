import TypedCells.Ty.Size

/-!
# Sizes in words

A size that is counted in words is the size that is cut when all is counted (`Ty.bits_wordSize`,
`Ty.refs_wordSize`), and where words hold all sums it is the size itself (`Ty.bits_wordSize_of_fit`,
`Ty.refs_wordSize_of_fit`). In both ways of counting the payload of an optional goes to the same
place (`Ty.cut_staysInline`).

In an accepted type (`Ty.Accepted`) every payload of an optional has room in place or in a cell of
its own.
-/

namespace TypedCells

namespace Size

@[simp] theorem bits_cut (z : Size) : z.cut.bits = cutToWord z.bits := rfl

@[simp] theorem refs_cut (z : Size) : z.cut.refs = cutToWord z.refs := rfl

/-- Two sizes of which words keep the same lead to the same decision. -/
theorem staysInline_congr {z z' : Size} (hb : z'.bits = z.bits) (hr : z'.refs = z.refs) :
    z'.StaysInline ↔ z.StaysInline := by
  rw [StaysInline, StaysInline, hb, hr]

/-- The size of an optional in words comes from that of its payload in words. -/
theorem optional_of_cut {z z' : Size} (hb : z'.bits = cutToWord z.bits)
    (hr : z'.refs = cutToWord z.refs) :
    z'.optional.bits = cutToWord z.optional.bits ∧
      z'.optional.refs = cutToWord z.optional.refs := by
  have hi : z'.cut.StaysInline ↔ z.cut.StaysInline :=
    staysInline_congr (by simp [hb]) (by simp [hr])
  unfold optional
  by_cases h : z.cut.StaysInline
  · rw [if_pos h, if_pos (hi.2 h)]
    have hlt : 1 + cutToWord z.bits < wordLimit := by
      have := h.1
      simp only [bits_cut, maxBits, wordLimit] at this ⊢
      omega
    refine ⟨?_, hr⟩
    simp only [upTo, hb]
    rw [← cutToWord_add_cutToWord, cutToWord_of_lt hlt]
  · rw [if_neg h, if_neg (mt hi.1 h)]
    exact ⟨rfl, rfl⟩

/-- Sizes side by side may be cut before they are added. -/
theorem cut_add_of_cut {z z' y y' : Size} (hb : z'.bits = cutToWord z.bits)
    (hr : z'.refs = cutToWord z.refs) (hb' : y'.bits = cutToWord y.bits)
    (hr' : y'.refs = cutToWord y.refs) :
    (z' + y').cut.bits = cutToWord (z + y).bits ∧ (z' + y').cut.refs = cutToWord (z + y).refs := by
  simp only [bits_cut, refs_cut, bits_add, refs_add, hb, hr, hb', hr', cutToWord_add, and_self]

end Size

namespace Ty

mutual

/-- Words keep what is left of the size when it is cut. -/
theorem wordSize_eq : ∀ t : Ty, t.wordSize.bits = cutToWord t.size.bits ∧
    t.wordSize.refs = cutToWord t.size.refs
  | .integer .. | .bool | .address | .addressStd | .cell | .bytes | .string | .fixedBytes _
  | .function | .enumeration .. | .varInteger .. | .array .. | .mapping .. => ⟨rfl, rfl⟩
  | .optional t => Size.optional_of_cut (wordSize_eq t).1 (wordSize_eq t).2
  | .struct _ fs => fieldsWordSize_eq fs
  | .tuple ts => totalWordSize_eq ts
  | .alias _ t => wordSize_eq t

theorem totalWordSize_eq : ∀ ts : List Ty,
    (totalWordSize ts).bits = cutToWord (totalSize ts).bits ∧
      (totalWordSize ts).refs = cutToWord (totalSize ts).refs
  | [] => ⟨rfl, rfl⟩
  | t :: ts => Size.cut_add_of_cut (wordSize_eq t).1 (wordSize_eq t).2 (totalWordSize_eq ts).1
      (totalWordSize_eq ts).2

theorem fieldsWordSize_eq : ∀ fs : List (Field Ty),
    (fieldsWordSize fs).bits = cutToWord (fieldsSize fs).bits ∧
      (fieldsWordSize fs).refs = cutToWord (fieldsSize fs).refs
  | [] => ⟨rfl, rfl⟩
  | ⟨_, t⟩ :: fs => Size.cut_add_of_cut (wordSize_eq t).1 (wordSize_eq t).2 (fieldsWordSize_eq fs).1
      (fieldsWordSize_eq fs).2

end

theorem bits_wordSize (t : Ty) : t.wordSize.bits = cutToWord t.size.bits := (wordSize_eq t).1

theorem refs_wordSize (t : Ty) : t.wordSize.refs = cutToWord t.size.refs := (wordSize_eq t).2

/-- Where a payload goes can be decided on its size, cut in the end. -/
theorem cut_staysInline {t : Ty} : t.size.cut.StaysInline ↔ t.wordSize.StaysInline :=
  Size.staysInline_congr t.bits_wordSize.symm t.refs_wordSize.symm

theorem size_optional_inline {t : Ty} (h : t.wordSize.StaysInline) :
    (Ty.optional t).size = .upTo (1 + t.size.bits) t.size.refs (t.size.refs == 0) := by
  rw [size, Size.optional, if_pos (cut_staysInline.2 h)]

theorem size_optional_boxed {t : Ty} (h : ¬ t.wordSize.StaysInline) :
    (Ty.optional t).size = .upTo 1 1 false := by
  rw [size, Size.optional, if_neg (mt cut_staysInline.1 h)]

/-! ### Where words hold the sums -/

/-- A size on which all is decided in words is a word if its sums are. -/
theorem inWords_of_sumsFit : ∀ t : Ty, t.sumsFit → t.size.InWords
  | .integer .., h | .bool, h | .address, h | .addressStd, h | .cell, h | .bytes, h | .string, h
  | .fixedBytes _, h | .function, h | .enumeration .., h | .varInteger .., h | .array .., h
  | .mapping .., h => of_decide_eq_true h
  | .optional t, h => by
    by_cases hi : t.wordSize.StaysInline
    · have ht := inWords_of_sumsFit t h
      rw [size_optional_inline hi]
      have hb := hi.1
      rw [bits_wordSize, cutToWord_of_lt ht.1] at hb
      exact ⟨by simp only [Size.upTo, maxBits, wordLimit] at hb ⊢; omega, ht.2⟩
    · rw [size_optional_boxed hi]
      decide
  | .struct _ fs, h => of_decide_eq_true ((Bool.and_eq_true _ _).mp h).2
  | .tuple ts, h => of_decide_eq_true ((Bool.and_eq_true _ _).mp h).2
  | .alias _ t, h => inWords_of_sumsFit t h

theorem bits_wordSize_of_fit {t : Ty} (h : t.sumsFit) : t.wordSize.bits = t.size.bits := by
  rw [bits_wordSize, cutToWord_of_lt (inWords_of_sumsFit t h).1]

theorem refs_wordSize_of_fit {t : Ty} (h : t.sumsFit) : t.wordSize.refs = t.size.refs := by
  rw [refs_wordSize, cutToWord_of_lt (inWords_of_sumsFit t h).2]

/-! ### Sums that are cut -/

theorem totalSize_replicate (n : Nat) (t : Ty) :
    (totalSize (List.replicate n t)).bits = n * t.size.bits ∧
      (totalSize (List.replicate n t)).refs = n * t.size.refs := by
  induction n with
  | zero => simp [totalSize]
  | succ n ih =>
    rw [List.replicate_succ, totalSize, Size.bits_add, Size.refs_add, ih.1, ih.2, Nat.add_one_mul,
      Nat.add_one_mul, Nat.add_comm (n * _), Nat.add_comm (n * _)]
    exact ⟨rfl, rfl⟩

/-- Integers that take `2 ^ 32` bits together. -/
def wrappedTypes : List Ty := .integer 1 false :: .replicate 65537 (.integer 65535 false)

/-- Of all these bits, words keep none. -/
theorem totalSize_wrappedTypes : (totalSize wrappedTypes).bits = wordLimit ∧
    (totalSize wrappedTypes).refs = 0 := by
  obtain ⟨hb, hr⟩ := totalSize_replicate 65537 (.integer 65535 false)
  rw [wrappedTypes, totalSize, Size.bits_add, Size.refs_add, hb, hr]
  exact ⟨rfl, rfl⟩

theorem mem_wrappedTypes {t : Ty} (h : t ∈ wrappedTypes) : ∃ n, t = .integer n false := by
  rcases List.mem_cons.1 h with rfl | h
  · exact ⟨1, rfl⟩
  · exact ⟨65535, List.eq_of_mem_replicate h⟩

/-! ### Accepted types -/

theorem oversizedAmong?_cons {t : Ty} {ts : List Ty} :
    oversizedAmong? (t :: ts) = none ↔ t.oversized? = none ∧ oversizedAmong? ts = none := by
  rw [oversizedAmong?]
  cases t.oversized? <;> simp

theorem oversizedAmong?_eq_none {ts : List Ty} :
    oversizedAmong? ts = none ↔ ∀ t ∈ ts, t.oversized? = none := by
  induction ts with
  | nil => simp [oversizedAmong?]
  | cons t ts ih => rw [oversizedAmong?_cons, ih, List.forall_mem_cons]

theorem oversizedAmong?_wrappedTypes : oversizedAmong? wrappedTypes = none :=
  oversizedAmong?_eq_none.2 fun t h => by
    obtain ⟨n, rfl⟩ := mem_wrappedTypes h
    rfl

/-- No payload in the type is oversized, and words hold the sums on which that is decided. -/
def Accepted (t : Ty) : Prop := t.oversized? = none ∧ t.sumsFit

/-- The payload of an accepted type has room in place or in a cell of its own. -/
theorem Accepted.payload {t : Ty} (h : (Ty.optional t).Accepted) :
    (t.wordSize.StaysInline ∨ t.size.FitsCell) ∧ t.Accepted := by
  obtain ⟨ho, hs⟩ := h
  have hs : t.sumsFit := hs
  rw [oversized?] at ho
  split at ho
  · next hz =>
    refine ⟨hz.imp_right fun hf => ?_, ho, hs⟩
    rwa [Size.FitsCell, bits_wordSize_of_fit hs, refs_wordSize_of_fit hs] at hf
  · cases ho

theorem Accepted.uncons {t : Ty} {ts : List Ty} (h : (Ty.tuple (t :: ts)).Accepted) :
    t.Accepted ∧ (Ty.tuple ts).Accepted := by
  obtain ⟨ho, hs⟩ := h
  obtain ⟨ht, hts⟩ := oversizedAmong?_cons.1 ho
  obtain ⟨hfit, hwords⟩ := (Bool.and_eq_true _ _).mp hs
  obtain ⟨hst, hsts⟩ := (Bool.and_eq_true _ _).mp hfit
  have htail : (totalSize ts).InWords := by
    obtain ⟨hb, hr⟩ := of_decide_eq_true hwords
    exact ⟨Nat.lt_of_le_of_lt (Nat.le_add_left ..) hb, Nat.lt_of_le_of_lt (Nat.le_add_left ..) hr⟩
  exact ⟨⟨ht, hst⟩, hts, (Bool.and_eq_true _ _).mpr ⟨hsts, decide_eq_true htail⟩⟩

end Ty

end TypedCells
