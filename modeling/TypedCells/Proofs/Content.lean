import TypedCells.Cell.Builder

/-!
# Contents of slices and builders

What a slice shows and what a builder holds are contents, and a `Cell` is a content: some bits and
some references. Contents are put in a row by `++`, bits behind bits and references behind
references. A slice that shows `c ++ d` shows `d` once it has been moved past `c`
(`Slice.past`, `Slice.Valid.toCell_past`), and a builder with room for `c` takes `c` to its end
(`Builder.add`). The reads and writes of the machine are described by the content they take or add.
Cells as they occur hold no more than a cell can, nor do the cells below (`Cell.WithinLimits`).
-/

namespace TypedCells

/-! ### Results that may be errors -/

section Except

variable {ε α β : Type}

@[simp] theorem ok_bind (a : α) (f : α → Except ε β) : (Except.ok a >>= f) = f a := rfl

@[simp] theorem error_bind (e : ε) (f : α → Except ε β) : (Except.error e >>= f) = .error e := rfl

@[simp] theorem pure_eq_ok (a : α) : (pure a : Except ε α) = .ok a := rfl

@[simp] theorem throw_eq_error (e : ε) : (throw e : Except ε α) = .error e := rfl

theorem bind_eq_ok {x : Except ε α} {f : α → Except ε β} {b : β} :
    x >>= f = .ok b ↔ ∃ a, x = .ok a ∧ f a = .ok b := by
  cases x <;> simp

theorem exists_of_isOk {x : Except ε α} (h : x.isOk = true) : ∃ a, x = .ok a := by
  cases x with
  | ok a => exact ⟨a, rfl⟩
  | error e => exact nomatch h

theorem exists_of_not_isOk {x : Except ε α} (h : x.isOk = false) : ∃ e, x = .error e := by
  cases x with
  | ok a => exact nomatch h
  | error e => exact ⟨e, rfl⟩

theorem any_toOption {x : Except ε α} {a : α} (h : x = .ok a) (p : α → Bool) :
    x.toOption.any p = p a := by
  subst h
  rfl

/-- What a check of the result shows: there is one, and it passes. -/
theorem exists_of_any {x : Except ε α} {p : α → Bool} (h : x.toOption.any p = true) :
    ∃ a, x = .ok a ∧ p a = true := by
  cases x with
  | ok a => exact ⟨a, rfl, h⟩
  | error e => exact nomatch h

/-- The error that a computation ends in. -/
def error? : Except ε α → Option ε
  | .error e => some e
  | .ok _ => none

theorem error?_eq_some {x : Except ε α} {e : ε} (h : error? x = some e) : x = .error e := by
  cases x with
  | ok a => exact nomatch h
  | error e' => rw [Option.some.inj h]

end Except

namespace Cell

/-! ### Contents in a row -/

instance : Append Cell := ⟨fun c d => ⟨c.bits ++ d.bits, c.refs ++ d.refs⟩⟩

@[simp] theorem bits_append (c d : Cell) : (c ++ d).bits = c.bits ++ d.bits := rfl

@[simp] theorem refs_append (c d : Cell) : (c ++ d).refs = c.refs ++ d.refs := rfl

@[ext] theorem ext {c d : Cell} (hb : c.bits = d.bits) (hr : c.refs = d.refs) : c = d := by
  cases c; cases d; simp_all

@[simp] theorem bits_empty : empty.bits = [] := rfl

@[simp] theorem refs_empty : empty.refs = [] := rfl

@[simp] theorem empty_append (c : Cell) : empty ++ c = c := by ext1 <;> simp

@[simp] theorem append_empty (c : Cell) : c ++ empty = c := by ext1 <;> simp

theorem append_assoc (c d e : Cell) : c ++ d ++ e = c ++ (d ++ e) := by ext1 <;> simp

/-- The content that is a string of bits. -/
def ofBits (bs : Bits) : Cell := ⟨bs, []⟩

/-- The content that is a reference. -/
def link (c : Cell) : Cell := ⟨[], [c]⟩

@[simp] theorem bits_ofBits (bs : Bits) : (ofBits bs).bits = bs := rfl

@[simp] theorem refs_ofBits (bs : Bits) : (ofBits bs).refs = [] := rfl

@[simp] theorem bits_link (c : Cell) : (link c).bits = [] := rfl

@[simp] theorem refs_link (c : Cell) : (link c).refs = [c] := rfl

end Cell

namespace Slice

/-! ### Slices -/

/-- The window lies in the cell. -/
structure Valid (s : Slice) : Prop where
  bits_le : s.bitStart ≤ s.bitStop
  bits_stop : s.bitStop ≤ s.cell.bits.length
  refs_le : s.refStart ≤ s.refStop
  refs_stop : s.refStop ≤ s.cell.refs.length

theorem valid_ofCell (c : Cell) : (ofCell c).Valid :=
  ⟨Nat.zero_le _, Nat.le_refl _, Nat.zero_le _, Nat.le_refl _⟩

@[simp] theorem toCell_ofCell (c : Cell) : (ofCell c).toCell = c := by
  ext1 <;> simp [ofCell, toCell, bits, refs, bitCount, refCount]

@[simp] theorem bits_toCell (s : Slice) : s.toCell.bits = s.bits := rfl

@[simp] theorem refs_toCell (s : Slice) : s.toCell.refs = s.refs := rfl

theorem same_iff {s t : Slice} : s.same t = true ↔ s.toCell = t.toCell := by
  simp [same, Cell.ext_iff]

theorem Valid.length_bits {s : Slice} (h : s.Valid) : s.bits.length = s.bitCount := by
  have h1 := h.bits_le; have h2 := h.bits_stop
  simp [bits, bitCount]; omega

theorem Valid.length_refs {s : Slice} (h : s.Valid) : s.refs.length = s.refCount := by
  have h1 := h.refs_le; have h2 := h.refs_stop
  simp [refs, refCount]; omega

/-- The slice moved on by `n` bits and `m` references. -/
def advance (n m : Nat) (s : Slice) : Slice :=
  { s with bitStart := s.bitStart + n, refStart := s.refStart + m }

@[simp] theorem advance_zero (s : Slice) : s.advance 0 0 = s := rfl

theorem advance_advance (n m n' m' : Nat) (s : Slice) :
    (s.advance n m).advance n' m' = s.advance (n + n') (m + m') := by
  simp [advance, Nat.add_assoc]

@[simp] theorem bitCount_advance (n m : Nat) (s : Slice) :
    (s.advance n m).bitCount = s.bitCount - n := by
  simp only [advance, bitCount]; omega

@[simp] theorem refCount_advance (n m : Nat) (s : Slice) :
    (s.advance n m).refCount = s.refCount - m := by
  simp only [advance, refCount]; omega

theorem Valid.advance {s : Slice} {n m : Nat} (h : s.Valid) (hn : n ≤ s.bitCount)
    (hm : m ≤ s.refCount) : (s.advance n m).Valid := by
  have h1 := h.bits_le; have h2 := h.refs_le
  simp only [bitCount, refCount] at hn hm
  exact ⟨by simp only [Slice.advance]; omega, h.bits_stop, by simp only [Slice.advance]; omega,
    h.refs_stop⟩

theorem bits_advance (n m : Nat) (s : Slice) : (s.advance n m).bits = s.bits.drop n := by
  simp [bits, advance, bitCount, List.drop_take, Nat.sub_sub]

theorem refs_advance (n m : Nat) (s : Slice) : (s.advance n m).refs = s.refs.drop m := by
  simp [refs, advance, refCount, List.drop_take, Nat.sub_sub]

/-- The slice moved past the content `c`. -/
def past (c : Cell) (s : Slice) : Slice := s.advance c.bits.length c.refs.length

theorem past_append (c d : Cell) (s : Slice) : s.past (c ++ d) = (s.past c).past d := by
  simp [past, advance_advance]

section Shows

variable {s : Slice} {c d : Cell}

theorem Valid.count_le (hs : s.Valid) (h : s.toCell = c ++ d) :
    c.bits.length ≤ s.bitCount ∧ c.refs.length ≤ s.refCount := by
  have h1 := congrArg (List.length ·.bits) h
  have h2 := congrArg (List.length ·.refs) h
  simp [hs.length_bits, hs.length_refs] at h1 h2
  omega

theorem Valid.past (hs : s.Valid) (h : s.toCell = c ++ d) : (s.past c).Valid :=
  hs.advance (hs.count_le h).1 (hs.count_le h).2

theorem toCell_past (h : s.toCell = c ++ d) : (s.past c).toCell = d := by
  have h1 : s.bits = c.bits ++ d.bits := congrArg Cell.bits h
  have h2 : s.refs = c.refs ++ d.refs := congrArg Cell.refs h
  ext1
  · simp [Slice.past, bits_advance, h1]
  · simp [Slice.past, refs_advance, h2]

/-- A slice shows the content it is moved past, and then the rest. -/
theorem exists_past {n m : Nat} (hs : s.Valid) (hn : n ≤ s.bitCount) (hm : m ≤ s.refCount) :
    ∃ c : Cell, c.bits.length = n ∧ c.refs.length = m ∧ s.toCell = c ++ (s.advance n m).toCell ∧
      s.advance n m = s.past c := by
  have h1 : (s.bits.take n).length = n := by simp [hs.length_bits, hn]
  have h2 : (s.refs.take m).length = m := by simp [hs.length_refs, hm]
  refine ⟨⟨s.bits.take n, s.refs.take m⟩, h1, h2, ?_, ?_⟩
  · ext1 <;> simp [bits_advance, refs_advance]
  · simp only [Slice.past, h1, h2]

theorem Valid.isEmpty_iff (hs : s.Valid) : s.isEmpty = true ↔ s.toCell = .empty := by
  rw [Cell.ext_iff, bits_toCell, refs_toCell, Cell.bits_empty, Cell.refs_empty,
    ← List.length_eq_zero_iff, ← List.length_eq_zero_iff, hs.length_bits, hs.length_refs]
  simp [isEmpty]

end Shows

/-! ### Reading from the front -/

theorem readBits_eq_ok {n : Nat} {s s' : Slice} {bs : Bits} :
    s.readBits n = .ok (bs, s') ↔
      n ≤ s.bitCount ∧ bs = (s.cell.bits.drop s.bitStart).take n ∧ s' = s.advance n 0 := by
  unfold readBits
  split
  · simp; omega
  · simp [advance, eq_comm]; omega

theorem take_bits {n : Nat} {s : Slice} (h : n ≤ s.bitCount) :
    (s.cell.bits.drop s.bitStart).take n = s.bits.take n := by
  rw [bits, List.take_take, Nat.min_eq_left h]

/-- Reading as many bits as `bs` has takes `bs` off a slice that shows it first. -/
theorem readBits_of_shows {s : Slice} {bs : Bits} {d : Cell} (hs : s.Valid)
    (h : s.toCell = .ofBits bs ++ d) :
    s.readBits bs.length = .ok (bs, s.past (.ofBits bs)) := by
  have hn : bs.length ≤ s.bitCount := (hs.count_le h).1
  have hb : s.bits = bs ++ d.bits := congrArg Cell.bits h
  rw [readBits_eq_ok, take_bits hn, hb]
  simp [hn, past]

theorem readRef_eq_ok {s s' : Slice} {c : Cell} :
    s.readRef = .ok (c, s') ↔
      s.refCount ≠ 0 ∧ s.cell.refs[s.refStart]? = some c ∧ s' = s.advance 0 1 := by
  unfold readRef
  split
  · simp_all
  · rcases s.cell.refs[s.refStart]? with _ | c'
    · simp
    · simp_all [advance, eq_comm]

theorem getElem?_refs {s : Slice} {i : Nat} (h : i < s.refCount) :
    s.refs[i]? = s.cell.refs[s.refStart + i]? := by
  simp [refs, h]

theorem readRef_of_shows {s : Slice} {c d : Cell} (hs : s.Valid) (h : s.toCell = .link c ++ d) :
    s.readRef = .ok (c, s.past (.link c)) := by
  have hn : 1 ≤ s.refCount := (hs.count_le h).2
  have hr : s.refs = [c] ++ d.refs := congrArg Cell.refs h
  have hg := getElem?_refs (i := 0) hn
  rw [hr] at hg
  rw [readRef_eq_ok]
  exact ⟨by omega, by simpa using hg.symm, rfl⟩

/-! ### Cutting -/

theorem split_eq_ok {n m : Nat} {s : Slice} {r : Slice × Slice} :
    s.split n m = .ok r ↔ n ≤ s.bitCount ∧ m ≤ s.refCount ∧
      r = ({ s with bitStop := s.bitStart + n, refStop := s.refStart + m }, s.advance n m) := by
  unfold split
  split
  · next h =>
    simp only [throw_eq_error, reduceCtorEq, false_iff]
    omega
  · next h =>
    rw [pure_eq_ok, Except.ok.injEq, eq_comm]
    exact ⟨fun h' => ⟨by omega, by omega, h'⟩, fun h' => h'.2.2⟩

theorem dropFront_of_le {n m : Nat} {s : Slice} (hn : n ≤ s.bitCount) (hm : m ≤ s.refCount) :
    s.dropFront n m = .ok (s.advance n m) := by
  rw [dropFront, split_eq_ok.2 ⟨hn, hm, rfl⟩]
  rfl

theorem dropFront_of_shows {s : Slice} {c d : Cell} (hs : s.Valid) (h : s.toCell = c ++ d) :
    s.dropFront c.bits.length c.refs.length = .ok (s.past c) :=
  dropFront_of_le (hs.count_le h).1 (hs.count_le h).2

end Slice

namespace Builder

/-! ### Builders -/

/-- The content fits behind what the builder holds. -/
def HasRoom (b : Builder) (c : Cell) : Prop :=
  b.bits.length + c.bits.length ≤ maxBits ∧ b.refs.length + c.refs.length ≤ maxRefs

/-- The builder with a content at its end. -/
def add (b : Builder) (c : Cell) : Builder := ⟨b.bits ++ c.bits, b.refs ++ c.refs⟩

@[simp] theorem toCell_add (b : Builder) (c : Cell) : (b.add c).toCell = b.toCell ++ c := rfl

@[simp] theorem bits_add (b : Builder) (c : Cell) : (b.add c).bits = b.bits ++ c.bits := rfl

@[simp] theorem refs_add (b : Builder) (c : Cell) : (b.add c).refs = b.refs ++ c.refs := rfl

@[simp] theorem add_empty (b : Builder) : b.add .empty = b := by cases b; simp [add]

theorem add_append (b : Builder) (c d : Cell) : b.add (c ++ d) = (b.add c).add d := by
  simp [add]

theorem HasRoom.append {b : Builder} {c d : Cell} :
    b.HasRoom (c ++ d) ↔ b.HasRoom c ∧ (b.add c).HasRoom d := by
  simp only [HasRoom, Cell.bits_append, Cell.refs_append, bits_add, refs_add, List.length_append]
  omega

theorem writeBits_add {b : Builder} {bs : Bits} (h : b.HasRoom (.ofBits bs)) :
    b.writeBits bs = .ok (b.add (.ofBits bs)) := by
  have h1 : b.bits.length + bs.length ≤ maxBits := h.1
  rw [writeBits, if_neg (by omega)]
  simp [add]

theorem writeRef_add {b : Builder} {c : Cell} (h : b.HasRoom (.link c)) :
    b.writeRef c = .ok (b.add (.link c)) := by
  have h1 : b.refs.length + 1 ≤ maxRefs := h.2
  rw [writeRef, if_neg (by omega)]
  simp [add]

theorem eq_add_of_writeRef {b b' : Builder} {c : Cell} (h : b.writeRef c = .ok b') :
    b' = b.add (.link c) := by
  rw [writeRef] at h
  split at h
  · cases h
  · rw [← Except.ok.inj h]
    simp [add]

theorem writeSlice_add {b : Builder} {s : Slice} (hs : s.Valid) (h : b.HasRoom s.toCell) :
    b.writeSlice s = .ok (b.add s.toCell) := by
  have h1 : b.bits.length + s.bits.length ≤ maxBits := h.1
  have h2 : b.refs.length + s.refs.length ≤ maxRefs := h.2
  rw [hs.length_refs] at h2
  rw [writeSlice, if_neg (by omega), writeBits, if_neg (by omega)]
  simp [add]

end Builder

/-! ### Limits of cells -/

namespace Cell

mutual

/-- The cell and all cells below it hold no more than a cell can. -/
def WithinLimits : Cell → Prop
  | ⟨bits, refs⟩ => bits.length ≤ maxBits ∧ refs.length ≤ maxRefs ∧ AllWithinLimits refs

/-- The cells and all cells below them hold no more than a cell can. -/
def AllWithinLimits : List Cell → Prop
  | [] => True
  | c :: cs => c.WithinLimits ∧ AllWithinLimits cs

end

theorem allWithinLimits_iff : ∀ cs : List Cell, AllWithinLimits cs ↔ ∀ c ∈ cs, c.WithinLimits
  | [] => by simp [AllWithinLimits]
  | c :: cs => by simp [AllWithinLimits, allWithinLimits_iff cs]

theorem withinLimits_iff (c : Cell) : c.WithinLimits ↔
    c.bits.length ≤ maxBits ∧ c.refs.length ≤ maxRefs ∧ ∀ r ∈ c.refs, r.WithinLimits := by
  rw [← allWithinLimits_iff]
  cases c
  rfl

theorem WithinLimits.mono {c d : Cell} (h : d.WithinLimits) (hb : c.bits.length ≤ d.bits.length)
    (hr : c.refs.Sublist d.refs) : c.WithinLimits := by
  rw [withinLimits_iff] at h ⊢
  exact ⟨Nat.le_trans hb h.1, Nat.le_trans hr.length_le h.2.1, fun r hm => h.2.2 r (hr.subset hm)⟩

theorem WithinLimits.left {c d : Cell} (h : (c ++ d).WithinLimits) : c.WithinLimits :=
  h.mono (by simp) (List.sublist_append_left ..)

theorem WithinLimits.right {c d : Cell} (h : (c ++ d).WithinLimits) : d.WithinLimits :=
  h.mono (by simp) (List.sublist_append_right ..)

theorem WithinLimits.linked {c : Cell} (h : (link c).WithinLimits) : c.WithinLimits :=
  ((withinLimits_iff _).1 h).2.2 c (List.mem_singleton_self c)

end Cell

/-- What a slice shows of a cell is within the limits if the cell is. -/
theorem Slice.withinLimits_toCell {s : Slice} (h : s.cell.WithinLimits) :
    s.toCell.WithinLimits :=
  h.mono ((List.take_sublist ..).trans (List.drop_sublist ..)).length_le
    ((List.take_sublist ..).trans (List.drop_sublist ..))

end TypedCells
