import TypedCells.Proofs.Bodies
import TypedCells.Proofs.CellContents

/-!
# Room for a body in its message

The choice where a body goes counts the bits that the message may hold, the ids and the arguments,
but not the bit in front that tells where the body is, and it is not made at all where there are no
arguments. So a body can be one bit too long for the message it is put into in place, and without
arguments any number of bits (`Gen.appendBody_overflows`).
-/

namespace TypedCells

namespace Packing

/-- A packing opens no cell just where all leaves fit the first one, or where there are none. -/
theorem place_closed_iff : ∀ {ts : List Ty} {ls : List PackedLeaf} {b r : Nat},
    place b r ts = .ok ls → (ls.countP (·.opensCell) = 0 ↔ ts = [] ∨
      b + (Ty.totalSize ts).bits ≤ maxBits ∧ r + (Ty.totalSize ts).refs ≤ maxRefs)
  | [], ls, b, r, h => by
    obtain rfl := Except.ok.inj h
    simp
  | t :: ts, ls, b, r, h => by
    simp only [reduceCtorEq, false_or, Ty.totalSize, Size.bits_add, Size.refs_add]
    obtain ⟨ls', ⟨rfl, h, hc⟩ | ⟨rfl, -, hn, -⟩⟩ := place_cons h
    · rw [List.countP_cons_of_neg Bool.false_ne_true, place_closed_iff h]
      rcases ts with _ | ⟨u, us⟩
      · simp only [Ty.totalSize, Size.bits_zero, Size.refs_zero, true_or, true_iff] at hc ⊢
        omega
      · simp only [reduceCtorEq, false_or]
        omega
    · rw [List.countP_cons_of_pos rfl]
      omega

theorem newCells_eq_zero {bits refs : Nat} {ts : List Ty} {p : Packing}
    (h : ofTypes bits refs ts = .ok p) : p.newCells = 0 ↔ Ty.allLeaves ts = [] ∨
      bits + (Ty.totalSize (Ty.allLeaves ts)).bits ≤ maxBits ∧
        refs + (Ty.totalSize (Ty.allLeaves ts)).refs ≤ maxRefs :=
  place_closed_iff (ofTypes_place h)

end Packing

theorem Written.bits_weave {ws : List Written} (hc : ∀ w ∈ ws, w.leaf.opensCell = false) :
    (weave ws .empty).bits = (ws.map (·.content)).flatMap (·.bits) := by
  induction ws with
  | nil => rfl
  | cons w ws ih =>
    obtain ⟨ho, hc⟩ := List.forall_mem_cons.1 hc
    rw [weave, if_neg (by simp [ho]), Cell.bits_append, ih hc, List.map_cons, List.flatMap_cons]

/-- A message without references has room for a body unless the body is in place and too long. -/
theorem Builder.hasRoom_message {b : Builder} {inline : Bool} {c : Cell}
    (hb : b.bits.length < maxBits) (hr : b.refs = []) (hc : c.refs.length ≤ maxRefs) :
    ¬ b.HasRoom (messageContent inline c) ↔
      inline = true ∧ maxBits < b.bits.length + 1 + c.bits.length := by
  cases inline with
  | true =>
    simp only [messageContent, HasRoom, hr, Cell.bits_append, Cell.refs_append, if_true,
      Cell.bits_ofBits, Cell.refs_ofBits, List.length_append, List.length_cons, List.length_nil,
      true_and]
    omega
  | false =>
    simp only [messageContent, HasRoom, hr, Cell.bits_append, Cell.refs_append, Bool.false_eq_true,
      if_false, Cell.bits_ofBits, Cell.refs_ofBits, Cell.bits_link, Cell.refs_link,
      List.length_append, List.length_cons, List.length_nil, false_and, iff_false, not_not]
    exact ⟨hb, by decide⟩

namespace Gen

variable {α : Type} {ts : List Ty} {a : α} {word : UInt32} {answerId : Option UInt32}
  {frame : Option Frame} {d used : Nat} {reversed : Bool}

/-- A body goes into the message: there are no arguments, or the largest ones fit behind `used` bits
and the ids. -/
def InPlace (used : Nat) (answers : Bool) (ts : List Ty) : Prop :=
  Ty.allLeaves ts = [] ∨
    used + Headers.internalOffset answers + (Ty.totalSize (Ty.allLeaves ts)).bits ≤ maxBits ∧
      (Ty.totalSize (Ty.allLeaves ts)).refs ≤ maxRefs

/-- **When appending a body overflows the message.** Let the message hold at most `used` bits and no
reference. There is a cell overflow if the body goes into the message and is longer than what is
left behind the bit that says so. In all other cases the message gets the body. -/
theorem appendBody_overflows {g : Generated α} {xs : List Value} {b : Builder}
    (hg : appendBody ts a (.known word) answerId used reversed frame d = .ok g)
    (hxs : List.Forall₂ Ty.Storable (Ty.allLeaves ts) xs) (hused : used < maxBits)
    (hb : b.bits.length ≤ used) (hr : b.refs = []) (below : Stack) :
    ∃ images : List Cell,
      List.zipWith (fun t x => t.store x {}) (Ty.allLeaves ts) xs =
        images.map (fun c => .ok (.ofCell c)) ∧
      (InPlace used answerId.isSome ts ∧
          maxBits < b.bits.length + 1 +
            (Headers.internalOffset answerId.isSome + (images.flatMap (·.bits)).length) →
        Instr.exec g.code (.builder b :: (onStack reversed (Ty.buildAll ts xs) ++ below)) =
          .error .cellOverflow) ∧
      (¬ (InPlace used answerId.isSome ts ∧
          maxBits < b.bits.length + 1 +
            (Headers.internalOffset answerId.isSome + (images.flatMap (·.bits)).length)) →
        ∃ b', Instr.exec g.code
            (.builder b :: (onStack reversed (Ty.buildAll ts xs) ++ below)) =
          .ok (.builder b' :: below)) := by
  obtain ⟨p, q, hp, hq, hpq, -⟩ := appendBody_ok hg
  obtain ⟨ws, hl, hw⟩ := Packing.exists_stores hq hxs
  have hroom := Packing.body_room hq
  rw [← hl] at hroom
  obtain ⟨hadds, hover⟩ := Packing.putMessage_puts (toNat_lt_twoPow word) hq hpq hl hw
  have hid : (IdSource.known word : IdSource (α → Gen α)).Gives a d (ts.length + 1) below
    word.toNat := rfl
  have hrun := appendBody_ends hp hq hpq hid hxs.length_eq.symm b reversed hg
  have hbody := Written.hasRoom_body word.toNat hw.bounded hroom
  have hcond : ¬ b.HasRoom (messageContent (p.newCells = 0)
      (idsContent word.toNat answerId ++ Written.weave ws .empty)) ↔ _ :=
    Builder.hasRoom_message (by omega) hr (by simpa using hbody.2)
  have hempty := Builder.hasRoom_empty (show b.bits.length ≤ maxBits by omega) hr
  have hplace : InPlace used answerId.isSome ts ↔ p.newCells = 0 := by
    rw [InPlace, Packing.newCells_eq_zero hp, Nat.zero_add]
  have hfull : (InPlace used answerId.isSome ts ∧ maxBits < b.bits.length + 1 +
      (Headers.internalOffset answerId.isSome +
        ((ws.map (·.content)).flatMap (·.bits)).length)) ↔
      ¬ b.HasRoom (messageContent (p.newCells = 0)
        (idsContent word.toNat answerId ++ Written.weave ws .empty)) := by
    rw [hcond, hplace, decide_eq_true_iff]
    refine and_congr_right fun hc => ?_
    rw [Cell.bits_append, List.length_append, bits_idsContent,
      Written.bits_weave (Packing.closed_of_newCells (hpq hc ▸ hc) hl)]
  refine ⟨ws.map (·.content), Packing.images hq hl hw, fun h => ?_, fun h => ?_⟩
  · rw [hover hempty (hfull.1 h)] at hrun
    exact Instr.exec_of_runAll_error hrun
  · rw [hadds (not_not.1 (mt hfull.2 h))] at hrun
    exact ⟨_, Instr.exec_of_runAll (f := .next) hrun⟩

/-- A body that takes all bits that were counted is one bit too long. -/
theorem appendBody_overflows_uint :
    ∃ g, appendBody [.integer 32 false] () (.known 7) none 959 false none 2 = .ok g ∧
      Instr.exec g.code [.builder ⟨List.replicate 959 false, []⟩, .int 5] =
        .error .cellOverflow := by
  obtain ⟨g, hg⟩ := exists_of_isOk (show
    (appendBody [.integer 32 false] () (.known 7) none 959 false none 2).isOk = true by
      decide +kernel)
  have hfive : List.Forall₂ Ty.Storable (Ty.allLeaves [.integer 32 false]) [.int 5] :=
    .cons ⟨⟨.ofCell ⟨.ofNat 32 5, []⟩, _, Slice.valid_ofCell _, rfl⟩, ⟨.ofNat 32 5, []⟩, rfl⟩ .nil
  obtain ⟨images, himages, hover, -⟩ := appendBody_overflows
    (b := ⟨List.replicate 959 false, []⟩) hg hfive (by decide) (Nat.le_of_eq List.length_replicate)
    rfl []
  obtain rfl : images = [.ofBits (.ofNat 32 5)] :=
    List.map_injective_iff.2 Builder.ok_ofCell_injective (himages.symm.trans rfl)
  exact ⟨g, hg, hover ⟨.inr ⟨by decide, by decide⟩, by decide +kernel⟩⟩

set_option maxRecDepth 10000 in
/-- Without arguments nothing is counted. -/
theorem appendBody_nil_overflow :
    ∃ g, appendBody [] () (.known 7) none 1022 false none 1 = .ok g ∧
      Instr.exec g.code [.builder ⟨List.replicate 1022 false, []⟩] = .error .cellOverflow :=
  ⟨_, rfl, rfl⟩

end Gen

end TypedCells
