import TypedCells.Gen.Packing
import TypedCells.Proofs.Content
import TypedCells.Proofs.WordSizes

/-!
# Packing in words

`Packing.place` counts room without a limit. Where words hold all sums, packing in words comes to
the same (`Packing.placeInWords_eq`), and so a packing that is made by a generator which stops at a
sum that no word holds is one that `place` makes (`Packing.ofTypes_eq_ok`).

Where a sum is cut and what is left of it fits the cell, no leaf opens a new one
(`Packing.placeInWords_of_le`).
-/

namespace TypedCells.Packing

/-- Places leaves in a cell that already holds `bits` bits and `refs` references, and in the cells
that continue it. Room is counted without a limit. -/
def place (bits refs : Nat) : List Ty → Except GenError (List PackedLeaf)
  | [] => return []
  | t :: ts =>
    let all := Ty.totalSize (t :: ts)
    if bits + all.bits ≤ maxBits ∧ refs + all.refs ≤ maxRefs then do
      return ⟨t, false⟩ :: (← place (bits + t.size.bits) (refs + t.size.refs) ts)
    else if bits + t.size.bits ≤ maxBits ∧ refs + t.size.refs < maxRefs then do
      return ⟨t, false⟩ :: (← place (bits + t.size.bits) (refs + t.size.refs) ts)
    else if t.size.bits ≤ maxBits ∧ t.size.refs < maxRefs then do
      return ⟨t, true⟩ :: (← place t.size.bits t.size.refs ts)
    else throw (.unsupported (.oversizedLeaf t))

theorem total_looseLeaves (ts : List Ty) :
    LooseLeaf.total (LooseLeaf.ofTypes ts) = Ty.totalWordSize ts := by
  induction ts with
  | nil => rfl
  | cons t ts ih => rw [LooseLeaf.ofTypes, LooseLeaf.total, Ty.totalWordSize, ih]

theorem SumsFit.mono {bits refs bits' refs' : Nat} {ts : List Ty} (h : SumsFit bits refs ts)
    (hb : bits' ≤ bits) (hr : refs' ≤ refs) : SumsFit bits' refs' ts := by
  obtain ⟨hs, hbits, hrefs⟩ := h
  exact ⟨hs, by omega, by omega⟩

theorem sumsFit_cons {bits refs : Nat} {t : Ty} {ts : List Ty} : SumsFit bits refs (t :: ts) ↔
    t.sumsFit ∧ SumsFit (bits + t.size.bits) (refs + t.size.refs) ts := by
  rw [SumsFit, SumsFit, List.forall_mem_cons, Ty.totalSize, Size.bits_add, Size.refs_add,
    Nat.add_assoc, Nat.add_assoc, and_assoc]

/-- **Where words hold the sums, packing in words is packing.** -/
theorem placeInWords_eq {bits refs : Nat} {ts : List Ty} (h : SumsFit bits refs ts) :
    placeInWords bits refs (LooseLeaf.ofTypes ts) = place bits refs ts := by
  induction ts generalizing bits refs with
  | nil => rfl
  | cons t ts ih =>
    obtain ⟨hs, hfit⟩ := sumsFit_cons.1 h
    obtain ⟨-, hb, hr⟩ := h
    have hbits : cutToWord (bits + t.size.bits) = bits + t.size.bits :=
      cutToWord_of_lt (Nat.lt_of_le_of_lt (Nat.le_add_right ..) hfit.2.1)
    have hrefs : cutToWord (refs + t.size.refs) = refs + t.size.refs :=
      cutToWord_of_lt (Nat.lt_of_le_of_lt (Nat.le_add_right ..) hfit.2.2)
    have hall : cutToWord (bits + (Ty.totalWordSize (t :: ts)).bits) =
        bits + (Ty.totalSize (t :: ts)).bits := by
      rw [(Ty.totalWordSize_eq _).1, cutToWord_add_cutToWord, cutToWord_of_lt hb]
    have hall' : cutToWord (refs + (Ty.totalWordSize (t :: ts)).refs) =
        refs + (Ty.totalSize (t :: ts)).refs := by
      rw [(Ty.totalWordSize_eq _).2, cutToWord_add_cutToWord, cutToWord_of_lt hr]
    have hrest : (t.wordSize + LooseLeaf.total (LooseLeaf.ofTypes ts)).cut =
        Ty.totalWordSize (t :: ts) := by
      rw [total_looseLeaves, Ty.totalWordSize]
    simp only [LooseLeaf.ofTypes, placeInWords, place, hrest, hall, hall',
      Ty.bits_wordSize_of_fit hs, Ty.refs_wordSize_of_fit hs, hbits, hrefs, ih hfit,
      ih (hfit.mono (Nat.le_add_left ..) (Nat.le_add_left ..))]

/-- **A sum that fits the cell once it is cut lets no leaf open a cell,** whatever was cut off. -/
theorem placeInWords_of_le {bits refs : Nat} {ts : List Ty}
    (hb : cutToWord (bits + (Ty.totalSize ts).bits) ≤ maxBits)
    (hr : cutToWord (refs + (Ty.totalSize ts).refs) ≤ maxRefs) :
    placeInWords bits refs (LooseLeaf.ofTypes ts) = .ok (ts.map (⟨·, false⟩)) := by
  induction ts generalizing bits refs with
  | nil => rfl
  | cons t ts ih =>
    have hrest : (t.wordSize + LooseLeaf.total (LooseLeaf.ofTypes ts)).cut =
        Ty.totalWordSize (t :: ts) := by
      rw [total_looseLeaves, Ty.totalWordSize]
    have hbits : cutToWord (cutToWord (bits + t.wordSize.bits) + (Ty.totalSize ts).bits) =
        cutToWord (bits + (Ty.totalSize (t :: ts)).bits) := by
      rw [Ty.bits_wordSize, cutToWord_add_cutToWord, cutToWord_cutToWord_add, Nat.add_assoc]
      rfl
    have hrefs : cutToWord (cutToWord (refs + t.wordSize.refs) + (Ty.totalSize ts).refs) =
        cutToWord (refs + (Ty.totalSize (t :: ts)).refs) := by
      rw [Ty.refs_wordSize, cutToWord_add_cutToWord, cutToWord_cutToWord_add, Nat.add_assoc]
      rfl
    have hfit : cutToWord (bits + (Ty.totalWordSize (t :: ts)).bits) ≤ maxBits ∧
        cutToWord (refs + (Ty.totalWordSize (t :: ts)).refs) ≤ maxRefs := by
      rw [(Ty.totalWordSize_eq _).1, (Ty.totalWordSize_eq _).2, cutToWord_add_cutToWord,
        cutToWord_add_cutToWord]
      exact ⟨hb, hr⟩
    simp only [LooseLeaf.ofTypes, placeInWords, hrest, if_pos hfit,
      ih (hbits ▸ hb) (hrefs ▸ hr), List.map_cons]
    rfl

/-! ### Packings -/

/-- Where words hold the sums, it does not matter what becomes of others. -/
theorem ofTypesWith_eq {o : Overflow} {bits refs : Nat} {ts : List Ty}
    (h : o = .wraps → SumsFit bits refs (Ty.allLeaves ts)) :
    ofTypesWith o bits refs ts = ofTypes bits refs ts := by
  cases o with
  | stops => rfl
  | wraps => rw [ofTypes, ofTypesWith, ofTypesWith, if_neg (by simp), if_neg fun hc => hc.2 (h rfl)]

theorem ofTypes_eq_ok {bits refs : Nat} {ts : List Ty} {p : Packing} :
    ofTypes bits refs ts = .ok p ↔
      SumsFit bits refs (Ty.allLeaves ts) ∧ Ty.oversizedAmong? (Ty.allLeaves ts) = none ∧
        place bits refs (Ty.allLeaves ts) = .ok p.leaves := by
  by_cases hfit : SumsFit bits refs (Ty.allLeaves ts)
  · simp only [ofTypes, ofTypesWith, hfit, not_true_eq_false, and_false, if_false, true_and,
      placeInWords_eq hfit]
    rcases Ty.oversizedAmong? (Ty.allLeaves ts) with _ | payload
    · simp only [bind_eq_ok, pure_eq_ok, Except.ok.injEq, true_and]
      constructor
      · rintro ⟨ls, h, rfl⟩
        exact h
      · intro h
        exact ⟨_, h, rfl⟩
    · simp
  · simp [ofTypes, ofTypesWith, hfit]

theorem ofTypes_place {bits refs : Nat} {ts : List Ty} {p : Packing}
    (h : ofTypes bits refs ts = .ok p) : place bits refs (Ty.allLeaves ts) = .ok p.leaves :=
  (ofTypes_eq_ok.1 h).2.2

/-- The leaves of a packing are accepted. -/
theorem ofTypes_accepted {bits refs : Nat} {ts : List Ty} {p : Packing}
    (h : ofTypes bits refs ts = .ok p) : ∀ t ∈ Ty.allLeaves ts, t.Accepted := fun t ht =>
  ⟨Ty.oversizedAmong?_eq_none.1 (ofTypes_eq_ok.1 h).2.1 t ht, (ofTypes_eq_ok.1 h).1.1 t ht⟩

end TypedCells.Packing
