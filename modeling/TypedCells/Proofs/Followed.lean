import TypedCells.Proofs.Emission

/-!
# Patches along their packing

The leaves of a patch say themselves where a cell opens, so its code is made without the packing.
Here a position in the packing is taken along. It starts at the range of the patch, every part of
the data has to be what comes next there, and the number of a reference that is looked up has to be
an operand. These checks never fail: the code is that of the patch, and the position ends behind
the last leaf that is visited.

* `Patch.unpackAlong_eq`: reading the picked variables.
* `Patch.updateAlong_eq`: updating them.
-/

namespace TypedCells

namespace Gen

theorem ofExcept_eq_pure {α : Type} {x : Except GenError α} {a : α} (h : x = .ok a) :
    ofExcept x = pure a := by
  rw [h]
  rfl

/-- **The code that reads a value depends on the row of its leaves only.** -/
theorem read_position (t : Ty) : ∀ {p p' q q' : Position} {ls : List PackedLeaf} (follow : Bool),
    p.passAll t.leaves = .ok (ls, p') → q.passAll t.leaves = .ok (ls, q') →
    read t p follow = (do let _ ← read t q follow; return p') := by
  refine Ty.leafInduction
    (P := fun t => ∀ {p p' q q' : Position} {ls : List PackedLeaf} (follow : Bool),
      p.passAll t.leaves = .ok (ls, p') → q.passAll t.leaves = .ok (ls, q') →
      read t p follow = (do let _ ← read t q follow; return p'))
    (Q := fun fs => ∀ {p p' q q' : Position} {ls : List PackedLeaf} (follow : Bool),
      p.passAll (Ty.fieldLeaves fs) = .ok (ls, p') →
      q.passAll (Ty.fieldLeaves fs) = .ok (ls, q') →
      readFields fs p follow = (do let _ ← readFields fs q follow; return p'))
    (fun t hl p p' q q' ls follow hp hq => ?leaf)
    (fun x fs ih p p' q q' ls follow hp hq => ?struct)
    (fun x t ih p p' q q' ls follow hp hq => ih follow hp hq)
    (fun {p p' q q' ls} _ hp _ => ?nil)
    (fun x t fs iht ihfs p p' q q' ls follow hp hq => ?cons) t
  case leaf =>
    rw [Ty.leaves_leaf hl] at hp hq
    obtain ⟨opens, hs, rfl⟩ := Position.passAll_singleton hp
    obtain ⟨opens', hs', ho⟩ := Position.passAll_singleton hq
    obtain rfl : opens = opens' := by simpa using ho
    have hread : readLeaf t p follow = (do let _ ← readLeaf t q follow; return p') := by
      simp only [readLeaf, ofExcept_eq_pure hs, ofExcept_eq_pure hs', pure_bind]
      split <;> simp only [bind_bind, pure_bind]
    cases t with
    | tuple ts => rfl
    | struct | «alias» => exact hl.elim
    | _ => exact hread
  case struct =>
    rw [read, read, ih follow hp hq]
    simp only [bind_bind, pure_bind]
  case nil =>
    obtain ⟨-, rfl⟩ := Prod.mk.inj (Except.ok.inj hp)
    rfl
  case cons =>
    rw [Ty.fieldLeaves] at hp hq
    obtain ⟨r, h1, h2⟩ := Position.passAll_split hp
    obtain ⟨r', h1', h2'⟩ := Position.passAll_split hq
    rw [readFields, readFields, iht follow h1 h1', iht follow h1' h1']
    simp only [bind_bind, pure_bind, ihfs true h2 h2']

end Gen

namespace Patch

open Gen

variable {α : Type} {k : Packing} {i : Nat} {ls rest : List StoredLeaf}

/-! ### Taking a position along -/

/-- Passes leaves at a position, where they have to come next. -/
def passed (ls : List StoredLeaf) (pos : Position) : Gen Position := do
  let (_, pos) ← ofExcept (pos.passAll (ls.map (·.type)))
  return pos

/-- Checks the number of the reference behind those of the leaves, if it does not depend on the
values. -/
def linkOperand (ls : List StoredLeaf) : Gen Unit :=
  match fixedRefs? ls with
  | some refs => operand refs
  | none => pure ()

/-- `passRun` with the position. -/
def passRunAlong (run : List StoredLeaf) (nextOpens : Bool) (pos : Position) : Gen Position := do
  if nextOpens then linkOperand run
  passRun run nextOpens
  passed run pos

/-- `passRuns` with the position. -/
def passRunsAlong (lastOpens : Bool) : List (List StoredLeaf) → Position → Gen Position
  | [], pos => pure pos
  | run :: rest, pos => do
    let pos ← passRunAlong run (if rest.isEmpty then lastOpens else true) pos
    passRunsAlong lastOpens rest pos

/-- `unpackPieces` with the position, at which the picked variables are read. -/
def unpackPiecesAlong : List (List StoredLeaf) → Position → Gen Position
  | [], pos => pure pos
  | piece :: rest, pos => do
    match piece.head?.bind (·.owner) with
    | some v => do
      let pos ← read v.type pos false
      if opensNext rest then enterLink
      unpackPiecesAlong rest pos
    | none => do
      let pos ← passRunAlong piece (opensNext rest) pos
      unpackPiecesAlong rest pos

/-- The position at the start of the range. -/
def rangeStart (bits refs start : Nat) (types : List Ty) : Gen Position := do
  let packing ← ofExcept (Packing.ofTypes bits refs types)
  let (_, pos) ← ofExcept (packing.start.passAll (Ty.allLeaves (types.take start)))
  return pos

/-- The position behind the last leaf that is visited. -/
def finish (p : Patch) (k : Packing) : Position := .packed ⟨k, p.start + p.visited.length⟩

/-- `unpack` with the position. -/
def unpackAlong (bits refs start : Nat) (types : List Ty) (p : Patch) : Gen Position := do
  let entry ← depth
  require 1 "unpacked_data"
  let pos ← rangeStart bits refs start types
  enterFirst p
  let pos ← unpackPiecesAlong (pieces p.visited) pos
  drop 1
  ensureDepth (entry - 1 + p.picked) "unpacked_data"
  return pos

/-- `replaceStretch` with the position. -/
def replaceStretchAlong (new : Nat → α → Gen α) (leaves : List StoredLeaf) (nextOpens : Bool)
    (a : α) (pos : Position) : Gen (α × Position) := do
  let vs := pickedVariables leaves
  match leaves, vs, nextOpens with
  | [leaf], [v], false => do
    let pos ← passed [leaf] pos
    op (.load leaf.type)
    let a ← provide new v a
    pop 2
    return (a, pos)
  | _, _, _ => do
    let pos ← passRunsAlong nextOpens (runs leaves) pos
    let a ← provideEach new vs a
    blkSwap 1 vs.length
    return (a, pos)

/-- `gatherStretches` with the position. -/
def gatherStretchesAlong (new : Nat → α → Gen α) :
    List (List StoredLeaf) → α → Position → Gen ((List Held × α) × Position)
  | [], a, pos => pure (([], a), pos)
  | leaves :: rest, a, pos => do
    let nextOpens := opensNext rest
    if leaves.head?.any (·.picked) then
      let (a, pos) ← replaceStretchAlong new leaves nextOpens a pos
      let ((held, a), pos) ← gatherStretchesAlong new rest a pos
      return (((pickedVariables leaves).map (.value ·.type) ++ held, a), pos)
    else
      takeStretch leaves nextOpens
      let pos ← passed leaves pos
      let ((held, a), pos) ← gatherStretchesAlong new rest a pos
      return ((heldOf leaves nextOpens ++ held, a), pos)

/-- `gather` with the position. -/
def gatherAlong (p : Patch) (new : Nat → α → Gen α) (a : α) (pos : Position) :
    Gen ((List Held × α) × Position) := do
  let entry ← depth
  enterFirst p
  let ((held, a), pos) ← gatherStretchesAlong new (stretches p.visited) a pos
  ensureDepth (entry + held.length) "repack fragments"
  reverse (held.length + 1) 0
  return ((held, a), pos)

/-- Writes what has been gathered: `s xₙ … x₁ → s'`. -/
def putBack (p : Patch) (entry : Nat) (held : List Held) (a : α) : Gen α := do
  op .newc
  let r ← writePieces entry (pieces p.visited) { held }
  op .stSlice
  linkBuilders r.builders
  op .endc
  op .ctos
  if r.held.length > 0 then fail (.internal (.heldLeft r.held.length))
  ensureDepth entry "pack_data"
  return a

/-- `update` with the position. -/
def updateAlong (bits refs start : Nat) (types : List Ty) (p : Patch) (new : Nat → α → Gen α)
    (a : α) : Gen (α × Position) := do
  let entry ← depth
  require 1 "pack_data"
  let pos ← rangeStart bits refs start types
  let ((held, a), pos) ← gatherAlong p new a pos
  let a ← putBack p entry held a
  return (a, pos)

/-! ### The checks do not fail -/

/-- Leaves that come next are followed by those behind them. -/
theorem row_drop (h : k.leaves.drop i = rowOf (ls ++ rest)) :
    k.leaves.drop (i + ls.length) = rowOf rest := by
  rw [← List.drop_drop, h, rowOf_append, rowOf, List.drop_left' (List.length_map _)]

theorem passed_eq (h : k.leaves.drop i = rowOf (ls ++ rest)) :
    passed ls (.packed ⟨k, i⟩) = pure (.packed ⟨k, i + ls.length⟩) := by
  rw [passed, ofExcept_eq_pure (passAll_rowOf h), Gen.pure_bind]

/-- Leaves of a cell take no more references than a cell has. -/
theorem linkOperand_eq (h : InCell ls) : linkOperand ls = pure () := by
  have hrefs : (Ty.totalSize (ls.map (·.type))).refs ≤ maxRefs := h.fits.2
  have hmax : maxRefs = 4 := rfl
  unfold linkOperand fixedRefs?
  split
  · next refs hr =>
    simp only [Option.ite_none_right_eq_some, Option.some.injEq] at hr
    obtain ⟨-, rfl⟩ := hr
    have hcut := cutToWord_le (Ty.totalSize (ls.map (·.type))).refs
    exact if_neg (by omega)
  · rfl

/-- Leaves that come next and have no cell opened between them lie in one cell. -/
theorem inCell_next (hk : Packing.Room 0 0 k.leaves) (hc : ∀ l ∈ ls.tail, l.opensCell = false)
    (h : k.leaves.drop i = rowOf (ls ++ rest)) : InCell ls := by
  rw [← List.take_append_drop i k.leaves, h] at hk
  exact inCell_of_room hc hk.drop

variable (hk : Packing.Room 0 0 k.leaves)

include hk

theorem passRunAlong_eq (nextOpens : Bool) (hc : ∀ l ∈ ls.tail, l.opensCell = false)
    (h : k.leaves.drop i = rowOf (ls ++ rest)) :
    passRunAlong ls nextOpens (.packed ⟨k, i⟩) =
      (do passRun ls nextOpens; return .packed ⟨k, i + ls.length⟩) := by
  rw [passRunAlong, passed_eq h, linkOperand_eq (inCell_next hk hc h)]
  cases nextOpens <;> simp only [if_true, Gen.pure_bind, Bool.false_eq_true, if_false]

theorem passRunsAlong_eq (lastOpens : Bool) : ∀ {rs : List (List StoredLeaf)} {i : Nat},
    (∀ r ∈ rs, ∀ l ∈ r.tail, l.opensCell = false) →
    k.leaves.drop i = rowOf (rs.flatten ++ rest) →
    passRunsAlong lastOpens rs (.packed ⟨k, i⟩) =
      (do passRuns lastOpens rs; return .packed ⟨k, i + rs.flatten.length⟩)
  | [], _, _, _ => rfl
  | r :: rs, i, hc, h => by
    rw [List.flatten_cons, List.append_assoc] at h
    have ih := passRunsAlong_eq lastOpens (fun q hq => hc q (List.mem_cons_of_mem _ hq))
      (row_drop h)
    rw [passRunsAlong, passRuns, passRunAlong_eq hk _ (hc r (List.mem_cons_self ..)) h]
    simp only [bind_bind, Gen.pure_bind, ih, List.flatten_cons, List.length_append, Nat.add_assoc]

/-- The picked variables of pieces are read at the position. -/
theorem unpackPiecesAlong_eq : ∀ {ps : List (List StoredLeaf)} {i : Nat}, (∀ p ∈ ps, IsPiece p) →
    k.leaves.drop i = rowOf (ps.flatten ++ rest) →
    unpackPiecesAlong ps (.packed ⟨k, i⟩) =
      (do unpackPieces ps; return .packed ⟨k, i + ps.flatten.length⟩)
  | [], _, _, _ => rfl
  | p :: ps, i, hps, h => by
    obtain ⟨hp, hps'⟩ := List.forall_mem_cons.1 hps
    rw [List.flatten_cons, List.append_assoc] at h
    have ih := unpackPiecesAlong_eq hps' (row_drop h)
    rw [unpackPiecesAlong, unpackPieces, List.flatten_cons, List.length_append, ← Nat.add_assoc]
    cases hp with
    | picked v hne ho ht =>
      have hown : p.head?.bind (·.owner) = some v := ownerOf_eq hne ho
      have hnext := passAll_rowOf h
      have hrow := passAll_row p
      rw [ht] at hnext hrow
      simp only [hown]
      rw [read_position v.type false hnext hrow]
      split <;> simp only [bind_bind, Gen.pure_bind, ih] <;> rfl
    | unpicked hne ho hc =>
      have hown : p.head?.bind (·.owner) = none := ownerOf_eq hne ho
      simp only [hown, passRunAlong_eq hk _ hc h, bind_bind, Gen.pure_bind, ih]

theorem replaceStretchAlong_eq {new : Nat → α → Gen α} (nextOpens : Bool) (a : α)
    (hpick : ∀ l ∈ ls, l.picked = true) (h : k.leaves.drop i = rowOf (ls ++ rest)) :
    replaceStretchAlong new ls nextOpens a (.packed ⟨k, i⟩) = (do
      let a ← replaceStretch new ls nextOpens a
      return (a, .packed ⟨k, i + ls.length⟩)) := by
  by_cases hone : ls.length = 1 ∧ (pickedVariables ls).length = 1 ∧ nextOpens = false
  · obtain ⟨h1, h2, rfl⟩ := hone
    obtain ⟨l, rfl⟩ := List.length_eq_one_iff.1 h1
    obtain ⟨v, hv⟩ := List.length_eq_one_iff.1 h2
    unfold replaceStretchAlong
    rw [replaceStretch_leaf hv, hv]
    simp only [passed_eq h, bind_bind, Gen.pure_bind]
  · have hflat : (runs ls).flatten = ls := List.flatten_splitBy ..
    have hruns := passRunsAlong_eq hk nextOpens (runs_picked hpick).oneCell (by rwa [hflat])
    rw [hflat] at hruns
    rw [replaceStretch_apart hone]
    unfold replaceStretchAlong
    generalize pickedVariables ls = vs at hone ⊢
    simp only
    split
    · exact absurd ⟨rfl, rfl, rfl⟩ hone
    · simp only [hruns, bind_bind, Gen.pure_bind]

theorem gatherStretchesAlong_eq (new : Nat → α → Gen α) : ∀ {sts : List (List StoredLeaf)}
    {i : Nat} (a : α), (∀ st ∈ sts, IsStretch st) → k.leaves.drop i = rowOf (sts.flatten ++ rest) →
    gatherStretchesAlong new sts a (.packed ⟨k, i⟩) = (do
      let r ← gatherStretches new sts a
      return (r, .packed ⟨k, i + sts.flatten.length⟩))
  | [], _, _, _, _ => rfl
  | st :: sts, i, a, hst, h => by
    obtain ⟨hst1, hsts⟩ := List.forall_mem_cons.1 hst
    rw [List.flatten_cons, List.append_assoc] at h
    have ih (a : α) := gatherStretchesAlong_eq new a hsts (row_drop h)
    rw [gatherStretchesAlong, List.flatten_cons, List.length_append, ← Nat.add_assoc]
    rcases hst1.uniform with hpick | ⟨hunpick, -⟩
    · have hany := any_head_picked hst1.ne_nil hpick
      rw [gatherStretches_picked hany]
      simp only [if_pos hany, replaceStretchAlong_eq hk _ _ hpick h, ih, bind_bind,
        Gen.pure_bind]
    · have hany : ¬ st.head?.any (·.picked) = true := by
        simp [any_head_picked hst1.ne_nil hunpick]
      rw [gatherStretches_unpicked hany]
      simp only [if_neg hany, passed_eq h, ih, bind_bind, Gen.pure_bind]

theorem gatherAlong_eq {p : Patch} (new : Nat → α → Gen α) (a : α)
    (hps : ∀ q ∈ pieces p.visited, IsPiece q) (h : k.leaves.drop i = rowOf (p.visited ++ rest)) :
    gatherAlong p new a (.packed ⟨k, i⟩) = (do
      let r ← gather p new a
      return (r, .packed ⟨k, i + p.visited.length⟩)) := by
  obtain ⟨hflat, -, hst⟩ := stretches_spec hps
  have hgather := gatherStretchesAlong_eq hk new a hst (by rwa [hflat])
  rw [hflat] at hgather
  simp only [gatherAlong, gather, hgather, bind_bind, Gen.pure_bind]

omit hk

theorem update_eq (p : Patch) (new : Nat → α → Gen α) (a : α) : p.update new a = (do
    let entry ← depth
    require 1 "pack_data"
    let (held, a) ← gather p new a
    putBack p entry held a) := rfl

section Covers

variable {bits refs start : Nat} {types : List Ty} {marks : List Bool} {p : Patch}
  {vars : List (Ty × Bool)}

theorem Covers.rangeStart_eq (hc : p.Covers start types marks k vars rest)
    (hk : Packing.ofTypes bits refs types = .ok k) :
    rangeStart bits refs start types = pure (.packed ⟨k, p.start⟩) := by
  have hn : Ty.allLeaves types =
      Ty.allLeaves (types.take start) ++ Ty.allLeaves (types.drop start) := by
    rw [← Ty.allLeaves_append, List.take_append_drop]
  have htypes : (k.leaves.take p.start).map (·.type) = Ty.allLeaves (types.take start) := by
    rw [List.map_take, Packing.ofTypes_types hk, hn, List.take_left' hc.start_eq.symm]
  have hlength : (k.leaves.take p.start).length = p.start := by
    rw [← List.length_map (·.type), htypes, hc.start_eq]
  have hrow : k.leaves.drop 0 = k.leaves.take p.start ++ k.leaves.drop p.start :=
    (List.take_append_drop ..).symm
  have hpass := Position.passAll_next hrow
  rw [htypes, hlength, Nat.zero_add] at hpass
  rw [rangeStart, ofExcept_eq_pure hk, Gen.pure_bind, Packing.start, ofExcept_eq_pure hpass,
    Gen.pure_bind]

/-- **Reading the picked variables along the packing** gives the same code, and the position comes
behind the last leaf that is visited. -/
theorem Covers.unpackAlong_eq (hc : p.Covers start types marks k vars rest)
    (hk : Packing.ofTypes bits refs types = .ok k) :
    p.unpackAlong bits refs start types = (do p.unpack; return p.finish k) := by
  have hflat : (pieces p.visited).flatten = p.visited := List.flatten_splitBy ..
  have hrow : k.leaves.drop p.start = rowOf ((pieces p.visited).flatten ++ rest) := by
    rw [hflat, hc.row]
  have hpieces := unpackPiecesAlong_eq (Packing.ofTypes_room_zero hk) hc.isPiece hrow
  rw [hflat] at hpieces
  simp only [unpackAlong, unpack, finish, hc.rangeStart_eq hk, hpieces, bind_bind,
    Gen.pure_bind]

/-- **Updating them along the packing** does so as well. -/
theorem Covers.updateAlong_eq (hc : p.Covers start types marks k vars rest)
    (hk : Packing.ofTypes bits refs types = .ok k) (new : Nat → α → Gen α) (a : α) :
    p.updateAlong bits refs start types new a = (do
      let a ← p.update new a
      return (a, p.finish k)) := by
  have hgather := gatherAlong_eq (Packing.ofTypes_room_zero hk) new a hc.isPiece hc.row.symm
  simp only [updateAlong, update_eq, finish, hc.rangeStart_eq hk, hgather, bind_bind,
    Gen.pure_bind]

end Covers

end Patch

end TypedCells
