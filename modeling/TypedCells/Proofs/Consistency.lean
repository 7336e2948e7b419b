import TypedCells.Proofs.Followed
import TypedCells.Proofs.Neutral
import TypedCells.Proofs.Partitions
import TypedCells.Proofs.Update

/-!
# Generators that pass their own checks

Each generator goes through types, the leaves of a packing and the height of the stack side by side
and checks over and over that they agree. None of these checks can fail: at every height that has
what a generator takes, it gives code, or a number is too large for an operand.

* `Gen.only_operands_fail`: this holds of writing, reading and reading quietly, and of patches.
-/

namespace TypedCells

namespace Patch

/-- Pieces end clean if each picked variable ends in a leaf. -/
theorem endsClean_of_forall : ∀ {ps : List (List StoredLeaf)},
    (∀ p ∈ ps, ∀ v, ownerOf p = some v → v.type.endsInLeaf = true) → EndsClean ps
  | [], _ => trivial
  | p :: _, h => ⟨fun v hv => .inl (h p (List.mem_cons_self ..) v hv),
      endsClean_of_forall fun q hq => h q (List.mem_cons_of_mem _ hq)⟩

section Covers

variable {bits refs start : Nat} {types : List Ty} {marks : List Bool} {p : Patch} {k : Packing}
  {vars : List (Ty × Bool)} {rest : List StoredLeaf} (hc : p.Covers start types marks k vars rest)

include hc

/-- Nothing is left behind by variables in which every structure has a member. -/
theorem Covers.endsClean (hpop : ∀ t, (t, true) ∈ types.zip marks → t.Populated) :
    EndsClean (pieces p.visited) := by
  refine endsClean_of_forall fun q hq v hv => (hpop v.type (hc.marked ?_)).endsInLeaf
  rw [pickedVariables_eq]
  exact List.mem_filterMap.2 ⟨q, hq, hv⟩

theorem Covers.noTuple (hk : Packing.ofTypes bits refs types = .ok k)
    (hn : Gen.NoTuple (Ty.allLeaves types)) : Gen.NoTuple (p.visited.map (·.type)) := by
  intro ts hm
  obtain ⟨l, hl, ht⟩ := List.mem_map.1 hm
  refine hn ts (ht ▸ hc.mem_leaves hk (l := l.toPackedLeaf) ?_)
  exact List.mem_map_of_mem (List.mem_append_left _ hl)

end Covers

end Patch

namespace Gen

open Patch

/-- **Only operands can fail.** Take types without tuples to be read or written member by member,
and their packing. On a stack that has the values, the rest of a slice if there is one, and a
builder, writing gives code and leaves the builder alone in their place. On a stack that has a
slice, reading leaves the values under it, and reading quietly an entry. All three pass the whole
packing. So do patches as far as they go, with their code made along the packing or without it:
reading leaves one entry for each picked variable in the place of the slice, and updating leaves a
slice again, if every structure in a picked variable has a member and the code for a new value
leaves one entry. What can fail instead is a number too large for an operand. -/
theorem only_operands_fail {bits refs d : Nat} {ts : List Ty} {k : Packing} (frame : Option Frame)
    (hn : NoTuple (Ty.allLeaves ts)) (hk : Packing.ofTypes bits refs ts = .ok k) :
    (∀ tail, ts.length + tail.toNat + 1 ≤ d →
      (writeAll ts k.start tail).Yields frame d fun pos e =>
        pos = k.finish ∧ e = d - (ts.length + tail.toNat)) ∧
    (1 ≤ d →
      ((readAll ts k.start).Yields frame d fun pos e => pos = k.finish ∧ e = d + ts.length) ∧
      ((readAllQuiet ts k.start).Yields frame d fun pos e => pos = k.finish ∧ e = d + 1) ∧
      ∀ {start : Nat} {marks : List Bool} {p : Patch}, ofMarks bits refs start ts marks = .ok p →
        p.unpack.Moves frame d (d - 1 + p.picked) ∧
        p.unpackAlong bits refs start ts = (do p.unpack; return p.finish k) ∧
        ∀ {α : Type} {new : Nat → α → Gen α} (a : α),
          (∀ t, (t, true) ∈ ts.zip marks → t.Populated) → Provides new frame d →
          (p.update new a).Moves frame d d ∧
          p.updateAlong bits refs start ts new a =
            (do let b ← p.update new a; return (b, p.finish k))) := by
  have hpass := Packing.passAll_finish hk
  refine ⟨fun tail hd => writeAll_yields hn hpass hd, fun hd => ⟨readAll_yields hn hpass hd,
    readAllQuiet_yields hn hpass hd, fun hp => ?_⟩⟩
  obtain ⟨k', vars, rest, hk', -, hc⟩ := ofMarks_covers hp
  obtain rfl := Except.ok.inj (hk.symm.trans hk')
  refine ⟨unpack_moves hc.isPiece (hc.noTuple hk hn) (picked_eq_length hp) hd,
    hc.unpackAlong_eq hk, fun a hpop hnew => ⟨?_, hc.updateAlong_eq hk _ a⟩⟩
  exact update_yields hc.isPiece (hc.endsClean hpop) hnew a hd

/-- Values of the types `linkedTypes` are written, read, read quietly and updated with null. -/
theorem only_operands_fail_linked : ∃ (write read quiet : Generated Position) (p : Patch)
    (unpack update : Generated Unit),
      writeAll linkedTypes linkedPacking.start true none 7 = .ok write ∧
      write.value = linkedPacking.finish ∧ write.depth = 1 ∧
      readAll linkedTypes linkedPacking.start none 1 = .ok read ∧
      read.value = linkedPacking.finish ∧ read.depth = 6 ∧
      readAllQuiet linkedTypes linkedPacking.start none 1 = .ok quiet ∧
      quiet.value = linkedPacking.finish ∧ quiet.depth = 2 ∧
      ofMarks 0 0 1 linkedTypes linkedMarks = .ok p ∧
      p.unpack none 1 = .ok unpack ∧ unpack.depth = p.picked ∧
      p.update (fun _ _ => op .pushNull) () none 1 = .ok update ∧ update.depth = 1 := by
  have hnull : Provides (fun _ (_ : Unit) => op .pushNull) none 1 := fun _ _ _ _ =>
    .op (Nat.zero_le _) rfl
  obtain ⟨hwrite, -⟩ := only_operands_fail (d := 7) none Packing.tuple_notMem_linkedTypes
    (show Packing.ofTypes 0 0 linkedTypes = .ok linkedPacking from rfl)
  obtain ⟨-, h⟩ := only_operands_fail (d := 1) none Packing.tuple_notMem_linkedTypes
    (show Packing.ofTypes 0 0 linkedTypes = .ok linkedPacking from rfl)
  obtain ⟨hread, hquiet, hpatch⟩ := h (Nat.le_refl 1)
  obtain ⟨p, hp, -⟩ := exists_linkedPatch
  obtain ⟨hunpack, -, hupdate⟩ := hpatch hp
  obtain ⟨w, hw⟩ := exists_of_isOk (show
    (writeAll linkedTypes linkedPacking.start true none 7).isOk = true by decide +kernel)
  obtain ⟨r, hr⟩ := exists_of_isOk (show
    (readAll linkedTypes linkedPacking.start none 1).isOk = true by decide +kernel)
  obtain ⟨q, hq⟩ := exists_of_isOk (show
    (readAllQuiet linkedTypes linkedPacking.start none 1).isOk = true by decide +kernel)
  have hrun : ((ofMarks 0 0 1 linkedTypes linkedMarks).toOption.all fun p =>
      (p.unpack none 1).isOk && (p.update (fun _ _ => op .pushNull) () none 1).isOk) = true := by
    decide +kernel
  rw [hp, Except.toOption, Option.all_some, Bool.and_eq_true] at hrun
  obtain ⟨u, hu⟩ := exists_of_isOk hrun.1
  obtain ⟨v, hv⟩ := exists_of_isOk hrun.2
  obtain ⟨hw1, hw2⟩ := (hwrite true (by decide)).gives hw
  obtain ⟨hr1, hr2⟩ := hread.gives hr
  obtain ⟨hq1, hq2⟩ := hquiet.gives hq
  refine ⟨w, r, q, p, u, v, hw, hw1, hw2, hr, hr1, hr2, hq, hq1, hq2, hp, hu, ?_, hv, ?_⟩
  · rw [hunpack.gives hu, Nat.sub_self, Nat.zero_add]
  · exact (hupdate () linkedTypes_populated hnull).1.gives hv

end Gen

end TypedCells
