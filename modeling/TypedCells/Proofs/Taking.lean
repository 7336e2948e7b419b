import TypedCells.Proofs.Held
import TypedCells.Proofs.Unpack

/-!
# Taking leaves off a slice

The leaves that a patch does not pick are taken off a slice piece by piece. A piece behind which a
cell ends is taken as one slice, any other fragment by fragment; in both cases the stack then holds
what can be written back (`Patch.Copied`).

* `Patch.takeFragments_turns`: fragments are taken off one by one.
* `Patch.takeCell_runs`: the leaves left in a cell are taken off with one cut, and the next cell is
  entered.
-/

namespace TypedCells

/-! ### Contents from the first cell on -/

namespace Written

/-- The leaves as seen from the cell that the first one opens. -/
def entered : List Written → List Written
  | [] => []
  | w :: ws => { w with leaf := { w.leaf with opensCell := false } } :: ws

theorem entered_leaf (ws : List Written) :
    (entered ws).map (·.leaf) = PackedLeaf.entered (ws.map (·.leaf)) := by
  cases ws <;> rfl

theorem entered_reads {ws : List Written} (h : ∀ w ∈ ws, w.Reads) : ∀ w ∈ entered ws, w.Reads := by
  cases ws with
  | nil => exact h
  | cons v ws =>
    intro w hw
    rcases List.mem_cons.1 hw with rfl | hw
    · have hv := h v (List.mem_cons_self ..)
      exact ⟨hv.reads, hv.inRange⟩
    · exact h w (List.mem_cons_of_mem _ hw)

theorem weave_entered_append {ws : List Written} (h : ws ≠ []) (ws' : List Written) (e : Cell) :
    weave (entered (ws ++ ws')) e = weave (entered ws) (weave ws' e) := by
  cases ws with
  | nil => exact absurd rfl h
  | cons w ws => simp only [entered, List.cons_append, weave, weave_append]

/-- The first of the leaves opens a cell. -/
def opens (ws : List Written) : Bool := ws.head?.any (·.leaf.opensCell)

theorem weave_of_opens {ws : List Written} (h : opens ws = true) (e : Cell) :
    weave ws e = .link (weave (entered ws) e) := by
  cases ws with
  | nil => simp [opens] at h
  | cons w ws =>
    have hw : w.leaf.opensCell = true := h
    simp only [entered, weave, hw, if_true, Bool.false_eq_true, if_false]

theorem weave_of_not_opens {ws : List Written} (h : opens ws = false) (e : Cell) :
    weave ws e = weave (entered ws) e := by
  cases ws with
  | nil => rfl
  | cons w ws =>
    have hw : w.leaf.opensCell = false := h
    simp only [entered, weave, hw, Bool.false_eq_true, if_false]

theorem weave_row {ws : List Written} (h : ∀ w ∈ ws, w.leaf.opensCell = false) (e : Cell) :
    weave ws e = row ws ++ e := by
  induction ws with
  | nil => exact (Cell.empty_append e).symm
  | cons w ws ih =>
    rw [weave, if_neg (by simp [h w (List.mem_cons_self ..)]),
      ih fun w hw => h w (List.mem_cons_of_mem _ hw), row, Cell.append_assoc]

theorem weave_entered_row {ws : List Written} (h : ∀ w ∈ ws.tail, w.leaf.opensCell = false)
    (e : Cell) : weave (entered ws) e = row ws ++ e := by
  cases ws with
  | nil => exact (Cell.empty_append e).symm
  | cons w ws =>
    simp only [entered, weave, Bool.false_eq_true, if_false]
    rw [List.tail_cons] at h
    rw [weave_row h, row, Cell.append_assoc]

end Written

namespace Patch

variable {s s' : Slice} {e : Cell} {ws : List Written}

/-- Stepping to the next leaf of woven contents. -/
theorem stepTo_weave (hs : s.Valid) (h : s.toCell = Written.weave ws e) :
    ∃ r, stepTo (Written.opens ws) s = .ok r ∧ r.Valid ∧
      r.toCell = Written.weave (Written.entered ws) e := by
  rcases ho : Written.opens ws with _ | _
  · exact ⟨s, rfl, hs, by rw [h, Written.weave_of_not_opens ho]⟩
  · rw [Written.weave_of_opens ho] at h
    have hl : s.toCell = .link (Written.weave (Written.entered ws) e) ++ .empty := by simpa using h
    refine ⟨.ofCell _, ?_, Slice.valid_ofCell (Written.weave (Written.entered ws) e),
      Slice.toCell_ofCell _⟩
    have hemp := (hs.past hl).isEmpty_iff.2 (Slice.toCell_past hl)
    simp [stepTo, Slice.follow, Slice.readRef_of_shows hs hl, hemp]

/-- Reading leaves that have been entered. -/
theorem fetchAll_entered {ls : List StoredLeaf} (hl : ws.map (·.leaf) = rowOf ls)
    (hw : ∀ w ∈ ws, w.Reads) (hs : s.Valid)
    (h : s.toCell = Written.weave (Written.entered ws) e) :
    ∃ xs s', PackedLeaf.fetchAll (enteredRow ls) s = .ok (xs, s') ∧ s'.Valid ∧ s'.toCell = e := by
  obtain ⟨xs, s', hf, -, hv, he⟩ := Written.fetchAll_weave (Written.entered_reads hw) hs h
  rw [Written.entered_leaf, hl] at hf
  exact ⟨xs, s', hf, hv, he⟩

/-! ### Cutting a slice -/

theorem split_of_shows {c d : Cell} (hs : s.Valid) (h : s.toCell = c ++ d) :
    ∃ x, s.split c.bits.length c.refs.length = .ok (x, s.past c) ∧ x.Valid ∧ x.toCell = c := by
  obtain ⟨hb, hr⟩ := hs.count_le h
  obtain ⟨h1, h2⟩ := Cell.ext_iff.1 h
  refine ⟨_, Slice.split_eq_ok.2 ⟨hb, hr, rfl⟩, ?_, ?_⟩
  · have := hs.bits_le
    have := hs.bits_stop
    have := hs.refs_le
    have := hs.refs_stop
    simp only [Slice.bitCount, Slice.refCount] at hb hr
    exact ⟨Nat.le_add_right _ _, by simp only; omega, Nat.le_add_right _ _, by simp only; omega⟩
  · simp only [Slice.bits_toCell, Slice.refs_toCell, Cell.bits_append, Cell.refs_append] at h1 h2
    ext1
    · simp only [Slice.toCell, Slice.bits, Slice.bitCount, Nat.add_sub_cancel_left]
      rw [Slice.take_bits hb, h1, List.take_left]
    · have ht := congrArg (List.take c.refs.length) h2
      rw [List.take_left, Slice.refs, List.take_take, Nat.min_eq_left hr] at ht
      simp only [Slice.toCell, Slice.refs, Slice.refCount, Nat.add_sub_cancel_left]
      exact ht

/-! ### Taking fragments -/

/-- A leaf as it is written again after it has been taken off as part of a fragment. -/
structure Retaken (safe : Prop) (w w' : Written) : Prop where
  stored : Stored w
  fixed : w.leaf.type.size.fixed = true → w' = w
  varying : w.leaf.type.size.fixed = false → Recoded safe w w'

/-- Each leaf that has been read is written again as some leaf. -/
theorem exists_retaken {safe : Prop} : ∀ {ws : List Written}, (∀ w ∈ ws, Stored w) →
    (safe → ∀ w ∈ ws, w.leaf.type.Documented) → ∃ ws', List.Forall₂ (Retaken safe) ws ws'
  | [], _, _ => ⟨[], .nil⟩
  | w :: ws, h, hdoc => by
    obtain ⟨hw, h⟩ := List.forall_mem_cons.1 h
    obtain ⟨ws', hws⟩ := exists_retaken h fun hs => (List.forall_mem_cons.1 (hdoc hs)).2
    by_cases hi : w.Image
    · exact ⟨w :: ws', .cons ⟨hw, fun _ => rfl, fun _ =>
        ⟨hw.reads, rfl, rfl, fun _ => rfl, fun _ => hi⟩⟩ hws⟩
    by_cases hf : w.leaf.type.size.fixed = true
    · exact ⟨w :: ws', .cons ⟨hw, fun _ => rfl, fun hn => by simp [hf] at hn⟩ hws⟩
    · -- what is read is a value with a content that writing it gives
      have hs := Slice.valid_ofCell w.content
      obtain ⟨⟨v, s⟩, hl, -, hv⟩ := hw.reads.reads hs
        (show _ = w.content ++ .empty by rw [Slice.toCell_ofCell, Cell.append_empty])
      simp only at hv
      have hrange := hw.reads.inRange
      rw [← hv, Ty.inRange_canon] at hrange
      obtain ⟨w', hleaf, hr, himage, hv'⟩ :=
        Written.exists_imageIf ⟨⟨_, _, hs, hl⟩, hrange⟩ hw.accepted
          fun hs => (List.forall_mem_cons.1 (hdoc hs)).1
      exact ⟨w' :: ws', .cons ⟨hw, fun h => absurd h hf, fun _ =>
        ⟨hr, hleaf, hv'.symm.trans hv, fun h => absurd h hi, himage⟩⟩ hws⟩

theorem takeFragments_turns {safe : Prop} : ∀ {ks : List Chunk} {s : Slice} {d : Cell}
    (stk : Stack), (∀ us, Chunk.raw us ∈ ks → ∀ w ∈ us, w.leaf.type.size.fixed = true) →
    (∀ w w', Chunk.value w w' ∈ ks → Retaken safe w w' ∧ w.leaf.type.size.fixed = false) →
    FitCell (ks.map (·.fragment)) →
    s.Valid → s.toCell = Written.row (ks.flatMap (·.olds)) ++ d →
    ∃ es : List Value,
      Copied safe (ks.map (·.fragment)) es (ks.flatMap (·.olds)) (ks.flatMap (·.news)) ∧
      (takeFragments (ks.map (·.fragment))).Turns (.slice s :: stk)
        (.slice (s.past (Written.row (ks.flatMap (·.olds)))) :: (es.reverse ++ stk))
  | [], s, d, stk, _, _, _, _, _ => ⟨[], .nil, .pure _ _⟩
  | .raw us :: ks, s, d, stk, hraw, hv, hf, hs, hd => by
    rw [List.flatMap_cons, Written.row_append, Cell.append_assoc, Chunk.olds] at hd
    obtain ⟨x, hsplit, hx, hxc⟩ := split_of_shows hs hd
    obtain ⟨es, hc, ht⟩ := takeFragments_turns (.slice x :: stk)
      (fun us h => hraw us (List.mem_cons_of_mem _ h))
      (fun w w' h => hv w w' (List.mem_cons_of_mem _ h)) hf.tail (hs.past hd) (Slice.toCell_past hd)
    refine ⟨.slice x :: es, .raw x hx hxc (hraw us (List.mem_cons_self ..)) hc, ?_⟩
    rw [List.flatMap_cons, Written.row_append, Slice.past_append, List.reverse_cons,
      List.append_assoc]
    refine Gen.Turns.trans (.op rfl rfl) fun _ => Gen.Turns.trans (.op rfl rfl) fun _ =>
      Gen.Turns.trans (.op rfl ?_) fun _ => ht
    obtain ⟨hb, hr⟩ := hf.raw
    rw [hf.cut.1, hf.cut.2, Op.run_split hb hr, hsplit]
    rfl
  | .value w w' :: ks, s, d, stk, hraw, hv, hf, hs, hd => by
    rw [List.flatMap_cons, Written.row_append, Cell.append_assoc, Chunk.olds,
      Written.row_singleton] at hd
    obtain ⟨hw, hfix⟩ := hv w w' (List.mem_cons_self ..)
    obtain ⟨v, hcanon, hvalid, hl⟩ := load_turns hw.stored.reads hs hd stk
    obtain ⟨es, hc, ht⟩ := takeFragments_turns (v :: stk)
      (fun us h => hraw us (List.mem_cons_of_mem _ h))
      (fun w w' h => hv w w' (List.mem_cons_of_mem _ h)) hf.tail (hs.past hd) (Slice.toCell_past hd)
    refine ⟨v :: es, .value v hvalid hcanon hfix (hw.varying hfix) hc, ?_⟩
    rw [List.flatMap_cons, Written.row_append, Slice.past_append, List.reverse_cons,
      List.append_assoc, Chunk.olds, Written.row_singleton]
    exact hl.trans fun _ => ht

/-! ### Taking the rest of a cell -/

theorem row_le {ws : List Written} (hw : ∀ w ∈ ws, w.Bounded) :
    (Written.row ws).bits.length ≤ (Ty.totalSize (ws.map (·.leaf.type))).bits := by
  induction ws with
  | nil => exact Nat.le_refl 0
  | cons w ws ih =>
    obtain ⟨⟨h1, -⟩, hw⟩ := List.forall_mem_cons.1 hw
    have h2 := ih hw
    simp only [Written.row, List.map_cons, Ty.totalSize, Size.bits_add, Cell.bits_append,
      List.length_append]
    omega

theorem types_of_row {ls : List StoredLeaf} (h : ws.map (·.leaf) = rowOf ls) :
    ls.map (·.type) = ws.map (·.leaf.type) := by
  have ht := congrArg (List.map (·.type)) h
  rw [rowOf, List.map_map, List.map_map] at ht
  exact ht.symm

/-- Without references of leaves in front, the link is taken off before the bits. -/
theorem ldRefRest_turns {c d : Cell} (hs : s.Valid) (h : s.toCell = c ++ .link d)
    (hc : c.refs = []) (stk : Stack) :
    ∃ x : Slice, x.Valid ∧ x.toCell = c ∧
      (Gen.op .ldRefRest).Turns (.slice s :: stk) (.slice (.ofCell d) :: .slice x :: stk) := by
  have hswap : s.toCell = .link d ++ c := by
    rw [h]
    ext1 <;> simp [hc]
  have hread := Slice.readRef_of_shows hs hswap
  exact ⟨_, hs.past hswap, Slice.toCell_past hswap, .op rfl (by simp [hread])⟩

/-- All of a slice but its last reference is taken off if it is not too long to be counted. -/
theorem cutLink_runs {safe : Prop} {c d : Cell} {n : Nat} (hs : s.Valid)
    (h : s.toCell = c ++ .link d) (hbits : safe → c.bits.length < twoPow 64)
    (hrefs : c.refs.length < twoPow 64) (stk : Stack) :
    (do Gen.push 0; Gen.op .bitRefs; Gen.op .dec; Gen.op .split; enterLink : Gen Unit).RunsIf safe n
      (.slice s :: stk) fun _ t =>
        ∃ x : Slice, x.Valid ∧ x.toCell = c ∧ t = .slice (.ofCell d) :: .slice x :: stk := by
  obtain ⟨x, hsplit, hx, hxc⟩ := split_of_shows hs h
  have hlink : (s.past c).toCell = .link d ++ .empty := by
    rw [Slice.toCell_past h, Cell.append_empty]
  have hread := Slice.readRef_of_shows (hs.past h) hlink
  obtain ⟨hb, hr⟩ := Cell.ext_iff.1 h
  replace hb : s.bitCount = c.bits.length := by
    rw [← hs.length_bits, ← Slice.bits_toCell, hb]
    simp
  replace hr : s.refCount = c.refs.length + 1 := by
    rw [← hs.length_refs, ← Slice.refs_toCell, hr]
    simp
  have hdec : Op.run .dec (.int s.refCount :: .int s.bitCount :: .slice s :: stk) =
      .ok (.int c.refs.length :: .int c.bits.length :: .slice s :: stk) := by
    rw [hb, hr]
    simp [Op.run]
  have hcut (m : Nat) : (Gen.op .split).RunsIf safe m
      (.int c.refs.length :: .int c.bits.length :: .slice s :: stk)
      fun _ t => t = .slice (s.past c) :: .slice x :: stk := by
    refine .op rfl fun hrun => ⟨_, ?_, rfl⟩
    have hlt : c.bits.length < twoPow 64 :=
      hrun.elim hbits fun hrun => hrun.elim fun _ h => (Op.lt_of_run_split h).1
    rw [Op.run_split hlt hrefs, hsplit]
    rfl
  exact (Gen.Turns.push (v := .slice s) rfl).bindIf fun _ _ _ =>
    Gen.Turns.bindIf (.op rfl (Op.run_bitRefs s)) fun _ _ _ =>
    Gen.Turns.bindIf (.op rfl hdec) fun _ m _ => (hcut m).bind fun _ t d' ht _ => by
      subst ht
      exact (enterLink_turns hread _ d').runsIf.mono fun _ t ht => ⟨x, hx, hxc, ht⟩

/-- The leaves left in a cell are taken off as a slice. If there may be more bits than a cell has,
then the code may trap. -/
theorem takeCell_runs {safe : Prop} {ls : List StoredLeaf} {d : Cell} (hc : InCell ls)
    (hold : Olds ls ws) (hdoc : safe → DocumentedRow ls) (hs : s.Valid)
    (h : s.toCell = Written.row ws ++ .link d) (stk : Stack) (n : Nat) :
    (takeCell ls).RunsIf safe n (.slice s :: stk) fun _ t =>
      ∃ x : Slice, x.Valid ∧ x.toCell = Written.row ws ∧
        t = .slice (.ofCell d) :: .slice x :: stk := by
  have ht := types_of_row hold.leaf
  have hallows := Written.row_allows hold.reads
  obtain ⟨hbits, hrefs⟩ := hc.fits
  rw [ht] at hbits hrefs
  unfold takeCell
  split
  · next hr =>
    -- the link is the only reference
    simp only [fixedRefs?] at hr
    split at hr
    · next hfix =>
      rw [ht] at hr hfix
      have hnone := hallows.refs_eq hfix
      rw [← cutToWord_of_le (Nat.le_trans hrefs (by decide)), Option.some.inj hr] at hnone
      obtain ⟨x, hx, hxc, hop⟩ := ldRefRest_turns hs h (List.length_eq_zero_iff.1 hnone) stk
      exact (hop n).runsIf.mono fun _ t ht => ⟨x, hx, hxc, ht⟩
    · simp at hr
  · refine cutLink_runs hs h (fun hsafe => ?_) ?_ stk
    · exact lt_twoPow (Nat.le_trans (row_le ((hdoc hsafe).bounded hold.leaf hold.reads)) hbits)
    · exact lt_twoPow (Nat.le_trans (Nat.le_trans hallows.refs_le hrefs) (by decide))

end Patch

end TypedCells
