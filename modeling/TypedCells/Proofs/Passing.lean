import Mathlib.Data.List.Forall2
import TypedCells.Patch.Unpack
import TypedCells.Proofs.Chains
import TypedCells.Proofs.Generators

/-!
# Passing over leaves of one cell

Leaves that lie in one cell show their contents side by side (`Written.row`). The fragments that a
patch cuts them into stand for the same contents (`Patch.exists_chunks`), so passing over fragments
ends where reading leaf by leaf ends. To get to the next cell, the code takes the reference behind
those of the leaves, or the last one; in data that can be read leaf by leaf these are the same.

* `Patch.passRun_turns`: passing over a run ends at the same slice as reading its leaves and, if the
  next leaf opens a cell, following the link.
-/

namespace TypedCells

/-! ### Leaves side by side -/

namespace Written

/-- Contents of leaves in a row in one cell. -/
def row : List Written → Cell
  | [] => .empty
  | w :: ws => w.content ++ row ws

@[simp] theorem row_singleton (w : Written) : row [w] = w.content := Cell.append_empty _

theorem row_append (ws ws' : List Written) : row (ws ++ ws') = row ws ++ row ws' := by
  induction ws with
  | nil => exact (Cell.empty_append _).symm
  | cons w ws ih => rw [List.cons_append, row, row, ih, Cell.append_assoc]

end Written

namespace PackedLeaf

/-- No leaf opens a cell. -/
def OneCell (ls : List PackedLeaf) : Prop := ∀ l ∈ ls, l.opensCell = false

theorem OneCell.cons {l : PackedLeaf} {ls : List PackedLeaf} (h : OneCell (l :: ls)) :
    l.opensCell = false ∧ OneCell ls :=
  ⟨h l (List.mem_cons_self ..), fun l hl => h l (List.mem_cons_of_mem _ hl)⟩

/-- Reading leaves that lie in one cell moves over their contents. -/
theorem fetchAll_row : ∀ {ls : List PackedLeaf} {s s' : Slice} {vs : List Value}, OneCell ls →
    s.Valid → fetchAll ls s = .ok (vs, s') →
    ∃ ws : List Written, ws.map (·.leaf) = ls ∧ ws.map (·.value) = Value.canonAll vs ∧
      (∀ w ∈ ws, w.Reads) ∧ s' = s.past (Written.row ws) ∧
      s.toCell = Written.row ws ++ s'.toCell
  | [], s, s', vs, _, _, h => by
    simp only [fetchAll, pure_eq_ok, Except.ok.injEq, Prod.mk.injEq] at h
    obtain ⟨rfl, rfl⟩ := h
    exact ⟨[], rfl, rfl, by simp, rfl, (Cell.empty_append _).symm⟩
  | l :: ls, s, s', vs, hc, hs, h => by
    obtain ⟨v, vs', r, h1, h2, rfl⟩ := fetchAll_cons_eq_ok h
    obtain ⟨c, q, hq, hsc, hr, hw⟩ := fetch_written hs h1
    rw [enter, if_neg (by simp [hc.cons.1])] at hq
    obtain rfl := Except.ok.inj hq
    obtain ⟨ws, hls, hvs, hws, hs', he⟩ := fetchAll_row hc.cons.2 (fetch_valid hs h1).2 h2
    refine ⟨⟨l, c, v.canon⟩ :: ws, by simp [hls], by simp [Value.canonAll, hvs],
      List.forall_mem_cons.2 ⟨hw, hws⟩, ?_, ?_⟩
    · rw [hs', hr, Written.row, Slice.past_append]
    · rw [Written.row, Cell.append_assoc, ← he, hsc]

end PackedLeaf

/-! ### The size of leaves side by side -/

/-- The room that contents in a row take is what the sizes of their types allow together. -/
theorem Written.row_allows : ∀ {ws : List Written}, (∀ w ∈ ws, w.Reads) →
    (Ty.totalSize (ws.map (·.leaf.type))).Allows (row ws).bits.length (row ws).refs.length
  | [], _ => .exact 0 0
  | w :: ws, hw => by
    simp only [row, List.map_cons, Ty.totalSize, Cell.bits_append, Cell.refs_append,
      List.length_append]
    exact (hw w (List.mem_cons_self ..)).reads.spans.1.add
      (row_allows fun w h => hw w (List.mem_cons_of_mem _ h))

namespace Patch

/-! ### Fragments -/

/-- A part of a row of leaves, with what is to be written in its place. -/
inductive Chunk where
  /-- Leaves of fixed size, which stay as they are. -/
  | raw (us : List Written)
  /-- A leaf of varying size, and a leaf in its place. -/
  | value (w w' : Written)

namespace Chunk

/-- The leaves of the chunk. -/
def olds : Chunk → List Written
  | .raw us => us
  | .value w _ => [w]

/-- What is to be written in their place. -/
def news : Chunk → List Written
  | .raw us => us
  | .value _ w' => [w']

/-- The fragment that stands for the chunk. -/
def fragment : Chunk → Fragment
  | .raw us => .raw (Written.row us).bits.length (Written.row us).refs.length
  | .value w _ => .value w.leaf.type

end Chunk

/-- **The fragments of leaves stand for the contents of the leaves.** Leaves of fixed size stay as
they are. -/
theorem exists_chunks {P : Written → Written → Prop}
    (hP : ∀ w w', P w w' → w.leaf.type.size.fixed = true → w.Reads ∧ w' = w) :
    ∀ {ls : List StoredLeaf} {ws ws' : List Written}, List.Forall₂ P ws ws' →
      ls.map (·.type) = ws.map (·.leaf.type) →
      ∃ ks : List Chunk, ks.map (·.fragment) = fragments ls ∧
        ks.flatMap (·.olds) = ws ∧ ks.flatMap (·.news) = ws' ∧
        (∀ us, Chunk.raw us ∈ ks → ∀ w ∈ us, w.leaf.type.size.fixed = true) ∧
        ∀ w w', Chunk.value w w' ∈ ks → P w w' ∧ w.leaf.type.size.fixed = false
  | [], [], [], _, _ => ⟨[], rfl, rfl, rfl, by simp, by simp⟩
  | l :: ls, w :: ws, w' :: ws', .cons h hs, hl => by
    simp only [List.map_cons, List.cons.injEq] at hl
    obtain ⟨ks, hf, rfl, rfl, hraw, hv⟩ := exists_chunks hP hs hl.2
    rw [fragments]
    simp only [hl.1, ← hf]
    by_cases hfix : w.leaf.type.size.fixed = true
    · obtain ⟨hr, rfl⟩ := hP w w' h hfix
      have ha := hr.reads.spans.1
      rw [if_pos hfix, ← ha.bits_eq hfix, ← ha.refs_eq (Ty.fixedRefs_of_fixed _ hfix),
        ← Written.row_singleton]
      match ks with
      | [] => exact ⟨[.raw [w']], rfl, rfl, rfl, by simpa using hfix, by simp⟩
      | .value u u' :: ks =>
        refine ⟨.raw [w'] :: .value u u' :: ks, rfl, rfl, rfl, fun us hm => ?_,
          fun v v' hm => hv v v' (by simpa using hm)⟩
        rcases List.mem_cons.1 hm with hm | hm
        · cases hm
          simpa using hfix
        · exact hraw us hm
      | .raw us :: ks =>
        refine ⟨.raw (w' :: us) :: ks, ?_, rfl, rfl, fun vs hm => ?_,
          fun v v' hm => hv v v' (by simpa using hm)⟩
        · simp [Chunk.fragment, Written.row]
        · rcases List.mem_cons.1 hm with hm | hm
          · cases hm
            exact List.forall_mem_cons.2 ⟨hfix, hraw us (List.mem_cons_self ..)⟩
          · exact hraw vs (List.mem_cons_of_mem _ hm)
    · rw [if_neg hfix]
      refine ⟨.value w w' :: ks, rfl, rfl, rfl, fun us hm => hraw us (by simpa using hm),
        fun v v' hm => ?_⟩
      rcases List.mem_cons.1 hm with hm | hm
      · cases hm
        exact ⟨h, by simpa using hfix⟩
      · exact hv v v' hm

/-- A raw fragment takes no more than its leaves together. -/
theorem fragments_le : ∀ {ls : List StoredLeaf} {bits refs : Nat},
    .raw bits refs ∈ fragments ls →
    bits ≤ (Ty.totalSize (ls.map (·.type))).bits ∧ refs ≤ (Ty.totalSize (ls.map (·.type))).refs
  | [], _, _, h => by simp [fragments] at h
  | l :: ls, bits, refs, h => by
    have ih {b r : Nat} (h : .raw b r ∈ fragments ls) := fragments_le h
    rw [fragments] at h
    simp only [List.map_cons, Ty.totalSize, Size.bits_add, Size.refs_add]
    split at h
    · split at h
      · next b r rest hf =>
        rw [hf] at ih
        rcases List.mem_cons.1 h with h | h
        · obtain ⟨rfl, rfl⟩ := Fragment.raw.inj h
          have := ih (List.mem_cons_self ..)
          omega
        · have := ih (List.mem_cons_of_mem _ h)
          omega
      · rcases List.mem_cons.1 h with h | h
        · obtain ⟨rfl, rfl⟩ := Fragment.raw.inj h
          omega
        · have := ih h
          omega
    · have := ih ((List.mem_cons.1 h).resolve_left (by simp))
      omega

theorem lt_twoPow {n : Nat} (h : n ≤ maxBits) : n < twoPow 64 :=
  Nat.lt_of_le_of_lt h (by decide)

theorem cutToWord_of_le {n : Nat} (h : n ≤ maxBits) : cutToWord n = n :=
  cutToWord_of_lt (Nat.lt_of_le_of_lt h (by decide))

/-- Fragments with counts that fit a cell. -/
def FitCell (fs : List Fragment) : Prop :=
  ∀ bits refs, .raw bits refs ∈ fs → bits ≤ maxBits ∧ refs ≤ maxRefs

theorem FitCell.tail {f : Fragment} {fs : List Fragment} (h : FitCell (f :: fs)) : FitCell fs :=
  fun _ _ hm => h _ _ (List.mem_cons_of_mem _ hm)

theorem FitCell.raw {bits refs : Nat} {fs : List Fragment} (h : FitCell (.raw bits refs :: fs)) :
    bits < twoPow 64 ∧ refs < twoPow 64 := by
  obtain ⟨h1, h2⟩ := h _ _ (List.mem_cons_self ..)
  exact ⟨lt_twoPow h1, lt_twoPow (Nat.le_trans h2 (by decide))⟩

theorem FitCell.cut {bits refs : Nat} {fs : List Fragment} (h : FitCell (.raw bits refs :: fs)) :
    cutToWord bits = bits ∧ cutToWord refs = refs := by
  obtain ⟨h1, h2⟩ := h _ _ (List.mem_cons_self ..)
  exact ⟨cutToWord_of_le h1, cutToWord_of_le (Nat.le_trans h2 (by decide))⟩

/-! ### Passing over fragments -/

/-- What is read for a value fragment leaves an entry on the stack. -/
theorem load_turns {w : Written} {s : Slice} {d : Cell} (hw : w.Reads) (hs : s.Valid)
    (h : s.toCell = w.content ++ d) (stk : Stack) :
    ∃ v, v.canon = w.value ∧ v.Valid ∧ (Gen.op (.load w.leaf.type)).Turns (.slice s :: stk)
      (.slice (s.past w.content) :: v :: stk) := by
  obtain ⟨⟨v, r⟩, hl, hr, hv⟩ := hw.reads hs h
  simp only at hr hv
  subst hr
  exact ⟨v, hv, Ty.load_valid _ hs hl, .op rfl (by simp [hl])⟩

theorem passFragments_turns : ∀ {ks : List Chunk} {s : Slice} {d : Cell} (stk : Stack),
    (∀ w w', Chunk.value w w' ∈ ks → w.Reads) → FitCell (ks.map (·.fragment)) → s.Valid →
    s.toCell = Written.row (ks.flatMap (·.olds)) ++ d →
    ∃ vs : List Value, vs.length = (ks.map (·.fragment)).countP isValue ∧
      (passFragments (ks.map (·.fragment))).Turns (.slice s :: stk)
        (.slice (s.past (Written.row (ks.flatMap (·.olds)))) :: (vs ++ stk))
  | [], s, d, stk, _, _, _, _ => ⟨[], rfl, .pure _ _⟩
  | .raw us :: ks, s, d, stk, hv, hf, hs, hd => by
    rw [List.flatMap_cons, Written.row_append, Cell.append_assoc, Chunk.olds] at hd
    obtain ⟨vs, hl, ht⟩ := passFragments_turns stk
      (fun w w' h => hv w w' (List.mem_cons_of_mem _ h)) hf.tail (hs.past hd) (Slice.toCell_past hd)
    refine ⟨vs, by rw [hl, List.map_cons, List.countP_cons_of_neg Bool.false_ne_true], ?_⟩
    rw [List.flatMap_cons, Written.row_append, Slice.past_append]
    refine Gen.Turns.trans (.op rfl rfl) fun _ => Gen.Turns.trans (.op rfl rfl) fun _ =>
      Gen.Turns.trans (.op rfl ?_) fun _ => ht
    obtain ⟨hb, hr⟩ := hf.raw
    rw [hf.cut.1, hf.cut.2, Op.run_skipFirst hb hr, Slice.dropFront_of_shows hs hd]
    rfl
  | .value w w' :: ks, s, d, stk, hv, hf, hs, hd => by
    rw [List.flatMap_cons, Written.row_append, Cell.append_assoc, Chunk.olds,
      Written.row_singleton] at hd
    obtain ⟨v, -, -, hl⟩ := load_turns (hv w w' (List.mem_cons_self ..)) hs hd stk
    obtain ⟨vs, hlen, ht⟩ := passFragments_turns (v :: stk)
      (fun w w' h => hv w w' (List.mem_cons_of_mem _ h)) hf.tail (hs.past hd) (Slice.toCell_past hd)
    refine ⟨vs ++ [v], ?_, ?_⟩
    · rw [List.length_append, hlen, List.map_cons, List.countP_cons_of_pos rfl]
      rfl
    · rw [List.flatMap_cons, Written.row_append, Slice.past_append, List.append_assoc, Chunk.olds,
        Written.row_singleton]
      exact hl.trans fun _ => ht

/-! ### Passing over runs -/

variable {ls : List StoredLeaf} {s s' s'' : Slice} {xs : List Value}

/-- Leaves that lie in one cell together and fit it. -/
structure InCell (ls : List StoredLeaf) : Prop where
  oneCell : ∀ l ∈ ls.tail, l.opensCell = false
  fits : (Ty.totalSize (ls.map (·.type))).bits ≤ maxBits ∧
    (Ty.totalSize (ls.map (·.type))).refs ≤ maxRefs

/-- The row of leaves as seen from the cell that the first one opens. -/
def enteredRow (ls : List StoredLeaf) : List PackedLeaf :=
  PackedLeaf.entered (ls.map (·.toPackedLeaf))

theorem enteredRow_types (ls : List StoredLeaf) :
    (enteredRow ls).map (·.type) = ls.map (·.type) := by
  cases ls with
  | nil => rfl
  | cons l ls => simp [enteredRow, PackedLeaf.entered]

theorem InCell.enteredRow (h : InCell ls) : PackedLeaf.OneCell (enteredRow ls) := by
  cases ls with
  | nil => intro l hl; simp [Patch.enteredRow, PackedLeaf.entered] at hl
  | cons l ls =>
    intro l' hl'
    simp only [Patch.enteredRow, List.map_cons, PackedLeaf.entered, List.mem_cons] at hl'
    rcases hl' with rfl | hl'
    · rfl
    · obtain ⟨m, hm, rfl⟩ := List.mem_map.1 hl'
      exact h.oneCell m hm

theorem InCell.fitCell (h : InCell ls) : FitCell (fragments ls) := fun _ _ hm => by
  have := fragments_le hm
  have := h.fits
  omega

/-- Fragments of leaves that are read stand for what they show. -/
theorem passLeaves_turns (hc : InCell ls) (hs : s.Valid)
    (h : PackedLeaf.fetchAll (enteredRow ls) s = .ok (xs, s')) (stk : Stack) :
    (passLeaves ls).Turns (.slice s :: stk) (.slice s' :: stk) := by
  obtain ⟨ws, hl, -, hw, rfl, hd⟩ := PackedLeaf.fetchAll_row hc.enteredRow hs h
  have ht : ls.map (·.type) = ws.map (·.leaf.type) := by
    rw [← enteredRow_types, ← hl, List.map_map]
    rfl
  obtain ⟨ks, hf, hk, -, -, hv⟩ := exists_chunks (P := fun w w' => w ∈ ws ∧ w' = w)
    (fun w w' h _ => ⟨hw w h.1, h.2⟩) (List.forall₂_same.2 fun w h => ⟨h, rfl⟩) ht
  have hfit := hc.fitCell
  rw [← hf] at hfit
  rw [← hk] at hd ⊢
  obtain ⟨vs, hlen, hp⟩ := passFragments_turns stk (fun w w' h => hw w (hv w w' h).1.1) hfit hs hd
  rw [hf] at hp hlen
  exact hp.trans fun _ => Gen.Turns.dropUnder [.slice _] vs rfl hlen

/-! ### Entering the next cell -/

theorem enterLink_turns {c : Cell} {r : Slice} (h : s.readRef = .ok (c, r)) (stk : Stack) :
    enterLink.Turns (.slice s :: stk) (.slice (.ofCell c) :: stk) :=
  Gen.Turns.trans (t := .slice (.ofCell c) :: .slice r :: stk) (.op rfl (by simp [h])) fun _ =>
    Gen.Turns.dropUnder [.slice (.ofCell c)] [.slice r] rfl rfl

theorem follow_eq_ok (h : s.follow = .ok s') :
    ∃ c, s.refCount = 1 ∧ s.cell.refs[s.refStart]? = some c ∧ s.bitCount = 0 ∧ s' = .ofCell c := by
  simp only [Slice.follow, bind_eq_ok] at h
  obtain ⟨⟨c, r⟩, h1, h2⟩ := h
  obtain ⟨h3, h4, rfl⟩ := Slice.readRef_eq_ok.1 h1
  split at h2
  · next he =>
    simp only [Slice.isEmpty, Slice.bitCount_advance, Slice.refCount_advance, Bool.and_eq_true,
      beq_iff_eq] at he
    exact ⟨c, by omega, h4, by omega, (Except.ok.inj h2).symm⟩
  · simp at h2

theorem enterLink_follow (h : s.follow = .ok s') (stk : Stack) :
    enterLink.Turns (.slice s :: stk) (.slice s' :: stk) := by
  obtain ⟨c, h1, h2, -, rfl⟩ := follow_eq_ok h
  exact enterLink_turns (Slice.readRef_eq_ok.2 ⟨by omega, h2, rfl⟩) stk

/-- Takes the reference with index `i`, which is followed from further on in the slice. -/
theorem peekLink_turns {n m : Nat} (h : (s.advance n m).follow = .ok s') (stk : Stack) :
    (do Gen.op (.peekRef m); Gen.op .ctos : Gen Unit).Turns (.slice s :: stk)
      (.slice s' :: stk) := by
  obtain ⟨c, h1, h2, -, rfl⟩ := follow_eq_ok h
  rw [Slice.refCount_advance] at h1
  have hp : s.peekRef m = .ok c := by
    rw [Slice.peekRef, Slice.getElem?_refs (by omega)]
    simp only [Slice.advance] at h2
    rw [h2]
    rfl
  refine Gen.Turns.trans (t := .cell c :: stk) (.op rfl (by simp [hp])) fun _ => .op rfl rfl

/-- **Passing over the leaves left in a cell ends in the cell that the link behind them leads
to.** -/
theorem passToLink_turns (hc : InCell ls) (hs : s.Valid)
    (h : PackedLeaf.fetchAll (enteredRow ls) s = .ok (xs, s')) (hf : s'.follow = .ok s'')
    (stk : Stack) : (passToLink ls).Turns (.slice s :: stk) (.slice s'' :: stk) := by
  have hpass := passLeaves_turns hc hs h stk
  obtain ⟨ws, hl, -, hw, rfl, hd⟩ := PackedLeaf.fetchAll_row hc.enteredRow hs h
  have ht : ls.map (·.type) = ws.map (·.leaf.type) := by
    rw [← enteredRow_types, ← hl, List.map_map]
    rfl
  unfold passToLink
  split
  · next refs hr =>
    -- the references of the leaves are counted by their types
    simp only [fixedRefs?] at hr
    split at hr
    · next hfix =>
      rw [ht] at hr hfix
      have hcut := cutToWord_of_le (Nat.le_trans (ht ▸ hc.fits.2) (by decide))
      rw [← Option.some.inj hr, hcut, ← (Written.row_allows hw).refs_eq hfix]
      exact peekLink_turns hf stk
    · simp at hr
  · split
    · exact hpass.trans fun _ => peekLink_turns (n := 0) (by rwa [Slice.advance_zero]) stk
    · -- what is left behind the leaves is the last reference alone
      obtain ⟨c, h1, h2, -, rfl⟩ := follow_eq_ok hf
      simp only [Slice.past, Slice.advance, Slice.refCount] at h1 h2
      have hle := hs.refs_le
      obtain ⟨r, hr⟩ : ∃ r : Slice,
          r = { s with bitStart := s.bitStop, refStart := s.refStop - 1 } := ⟨_, rfl⟩
      have hcut : s.keepBack 0 1 = .ok r := by
        rw [Slice.keepBack, if_neg (by simp only [Slice.refCount]; omega), hr]
        rfl
      have hlink : r.readRef = .ok (c, r.advance 0 1) := by
        subst hr
        refine Slice.readRef_eq_ok.2 ⟨by simp only [Slice.refCount]; omega, ?_, rfl⟩
        rw [← h2]
        congr 1
        simp only
        omega
      refine Gen.Turns.trans (.op rfl rfl) fun _ => Gen.Turns.trans (.op rfl rfl) fun _ =>
        Gen.Turns.trans (t := .slice r :: stk) (.op rfl ?_) fun _ => enterLink_turns hlink stk
      have hrun := Op.run_cutLast (s := stk) (n := 0) (m := 1) (lt_twoPow (by decide))
        (lt_twoPow (by decide)) s
      rw [hcut] at hrun
      exact hrun

/-- Goes to the next cell, if that is where the next leaf is. -/
def stepTo (opens : Bool) (s : Slice) : Except Trap Slice := if opens then s.follow else return s

/-- **Passing over a run ends where reading its leaves one by one and stepping to the next leaf
ends.** -/
theorem passRun_turns {opens : Bool} (hc : InCell ls) (hs : s.Valid)
    (h : PackedLeaf.fetchAll (enteredRow ls) s = .ok (xs, s')) (hf : stepTo opens s' = .ok s'')
    (stk : Stack) : (passRun ls opens).Turns (.slice s :: stk) (.slice s'' :: stk) := by
  cases opens with
  | true => exact passToLink_turns hc hs h hf stk
  | false =>
    obtain rfl := Except.ok.inj hf
    exact passLeaves_turns hc hs h stk

end Patch

end TypedCells
