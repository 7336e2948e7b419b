import Mathlib.Data.List.SplitBy
import Mathlib.Data.List.TakeWhile
import TypedCells.Patch.Basic
import TypedCells.Proofs.Chains

/-!
# The leaves that a patch visits

The leaves of a patch are laid out variable by variable (`Patch.Laid`). The cut into pieces leaves
the leaves of a picked variable together and keeps them from others (`Patch.IsPiece`,
`Patch.Laid.pieces`), so the owners of the pieces are the picked variables in order.

* `Patch.ofMarks_covers`: what a patch visits, and what it leaves at the end.
-/

namespace TypedCells

/-- The cut of a list by the cut of its tail. -/
theorem splitBy_cons {α : Type} (r : α → α → Bool) (a : α) (l : List α) :
    List.splitBy r (a :: l) =
      match List.splitBy r l with
      | [] => [[a]]
      | p :: ps => if p.head?.all (r a) then (a :: p) :: ps else [a] :: p :: ps := by
  rcases hps : List.splitBy r l with _ | ⟨p, ps⟩
  · rw [List.splitBy_eq_nil] at hps
    subst hps
    rfl
  · obtain ⟨rfl, hn, hc, hb⟩ := List.splitBy_eq_iff.1 hps
    rcases p with _ | ⟨b, p⟩
    · simp at hn
    · by_cases h : r a b = true
      · simp only [List.head?_cons, Option.all_some, h, if_true]
        refine List.splitBy_eq_iff.2 ⟨rfl, by simpa using hn, fun m hm => ?_, ?_⟩
        · rcases List.mem_cons.1 hm with rfl | hm
          · exact List.isChain_cons_cons.2 ⟨h, hc _ (List.mem_cons_self ..)⟩
          · exact hc m (List.mem_cons_of_mem _ hm)
        · rw [List.isChain_cons] at hb ⊢
          exact ⟨fun q hq => by simpa using hb.1 q hq, hb.2⟩
      · simp only [List.head?_cons, Option.all_some, h]
        have hsplit := List.splitBy_append_cons (r := r) (l := [a]) (a := b) (p ++ ps.flatten)
          (by simpa using h)
        exact hsplit.trans (congrArg ([[a]] ++ ·) hps)

namespace Patch

/-- The row of leaves in a patch. -/
def rowOf (ls : List StoredLeaf) : List PackedLeaf := ls.map (·.toPackedLeaf)

theorem rowOf_append (ls ls' : List StoredLeaf) : rowOf (ls ++ ls') = rowOf ls ++ rowOf ls' :=
  List.map_append

/-! ### Picked leaves -/

theorem picked_of_owner {ls : List StoredLeaf} {o : Option Variable} (ho : ∀ l ∈ ls, l.owner = o) :
    ∀ l ∈ ls, l.picked = o.isSome := fun l hl => congrArg Option.isSome (ho l hl)

theorem owner_of_unpicked {ls : List StoredLeaf} (h : ∀ l ∈ ls, l.picked = false) :
    ∀ l ∈ ls, l.owner = none := fun l hl =>
  Option.isNone_iff_eq_none.1 (Option.isSome_eq_false_iff.1 (h l hl))

theorem any_head_picked {ls : List StoredLeaf} {mark : Bool} (hne : ls ≠ [])
    (h : ∀ l ∈ ls, l.picked = mark) : ls.head?.any (·.picked) = mark := by
  rw [List.head?_eq_some_head hne]
  exact h _ (List.head_mem hne)

/-! ### Variables side by side -/

/-- The leaves are those of the variables in order, the first of which has the given index; the
leaves of marked variables are owned by them. -/
def Laid : (index : Nat) → List (Ty × Bool) → List StoredLeaf → Prop
  | _, [], ls => ls = []
  | i, (t, mark) :: vars, ls =>
    ∃ block rest, ls = block ++ rest ∧ block.map (·.type) = t.leaves ∧
      (∀ l ∈ block, l.owner = if mark then some ⟨i, t⟩ else none) ∧ Laid (i + 1) vars rest

/-- The marked variables. -/
def markedVariables : (index : Nat) → List (Ty × Bool) → List Variable
  | _, [] => []
  | i, (t, mark) :: vars =>
    if mark then ⟨i, t⟩ :: markedVariables (i + 1) vars else markedVariables (i + 1) vars

theorem Laid.types : ∀ {i : Nat} {vars : List (Ty × Bool)} {ls : List StoredLeaf},
    Laid i vars ls → ls.map (·.type) = Ty.allLeaves (vars.map (·.1))
  | _, [], _, h => by
    obtain rfl := h
    rfl
  | i, (t, mark) :: vars, ls, h => by
    obtain ⟨block, rest, rfl, hb, -, hr⟩ := h
    rw [List.map_append, hb, hr.types]
    rfl

theorem Laid.append : ∀ {i : Nat} {vars vars' : List (Ty × Bool)} {ls : List StoredLeaf},
    Laid i (vars ++ vars') ls →
    ∃ ks ks', ls = ks ++ ks' ∧ Laid i vars ks ∧ Laid (i + vars.length) vars' ks'
  | i, [], vars', ls, h => ⟨[], ls, rfl, rfl, h⟩
  | i, (t, mark) :: vars, vars', ls, h => by
    obtain ⟨block, rest, rfl, hb, ho, hr⟩ := h
    obtain ⟨ks, ks', rfl, h1, h2⟩ := hr.append
    refine ⟨block ++ ks, ks', (List.append_assoc ..).symm, ⟨block, ks, rfl, hb, ho, h1⟩, ?_⟩
    rw [List.length_cons, ← Nat.add_assoc, Nat.add_right_comm]
    exact h2

/-- The owner of a leaf is one of the variables. -/
theorem Laid.owned : ∀ {i : Nat} {vars : List (Ty × Bool)} {ls : List StoredLeaf},
    Laid i vars ls → ∀ l ∈ ls, ∀ v, l.owner = some v →
      i ≤ v.index ∧ (vars.map (·.1))[v.index - i]? = some v.type
  | _, [], _, h, l, hl, _, _ => by
    obtain rfl := h
    cases hl
  | i, (t, mark) :: vars, ls, h, l, hl, v, hv => by
    obtain ⟨block, rest, rfl, -, ho, hr⟩ := h
    rcases List.mem_append.1 hl with hl | hl
    · rw [ho l hl] at hv
      split at hv
      · obtain rfl := Option.some.inj hv
        simp
      · cases hv
    · obtain ⟨hi, ht⟩ := hr.owned l hl v hv
      refine ⟨by omega, ?_⟩
      rw [show v.index - i = v.index - (i + 1) + 1 by omega]
      exact ht

theorem Laid.unpicked : ∀ {i : Nat} {vars : List (Ty × Bool)} {ls : List StoredLeaf},
    Laid i vars ls → (∀ x ∈ vars, x.2 = false) → ∀ l ∈ ls, l.picked = false
  | _, [], _, h, _, l, hl => by
    obtain rfl := h
    simp at hl
  | i, (t, mark) :: vars, ls, h, hv, l, hl => by
    obtain ⟨block, rest, rfl, -, ho, hr⟩ := h
    obtain rfl : mark = false := hv (t, mark) (List.mem_cons_self ..)
    rcases List.mem_append.1 hl with hl | hl
    · exact picked_of_owner ho l hl
    · exact hr.unpicked (fun x hx => hv x (List.mem_cons_of_mem _ hx)) l hl

theorem Laid.unmarked : ∀ {i : Nat} {vars : List (Ty × Bool)} {ls : List StoredLeaf},
    Laid i vars ls → (∀ x ∈ vars, x.2 = true → x.1.leaves ≠ []) →
    (∀ l ∈ ls, l.picked = false) → ∀ x ∈ vars, x.2 = false
  | _, [], _, _, _, _, x, hx => by simp at hx
  | i, (t, mark) :: vars, ls, h, hne, hu, x, hx => by
    obtain ⟨block, rest, rfl, hb, ho, hr⟩ := h
    rcases List.mem_cons.1 hx with rfl | hx
    · cases mark with
      | false => rfl
      | true =>
        have hbne : block ≠ [] := by
          rintro rfl
          exact hne (t, true) (List.mem_cons_self ..) rfl hb.symm
        obtain ⟨l, hl⟩ := List.exists_mem_of_ne_nil block hbne
        exact (picked_of_owner ho l hl).symm.trans (hu l (List.mem_append_left _ hl))
    · exact hr.unmarked (fun x hx => hne x (List.mem_cons_of_mem _ hx))
        (fun l hl => hu l (List.mem_append_right _ hl)) x hx

theorem Laid.exists_picked {i : Nat} {vars : List (Ty × Bool)} {ls : List StoredLeaf}
    (h : Laid i vars ls) (hne : ∀ x ∈ vars, x.2 = true → x.1.leaves ≠ [])
    (hm : ∃ x ∈ vars, x.2 = true) : ∃ l ∈ ls, l.picked = true := by
  obtain ⟨x, hx, hm⟩ := hm
  by_contra hno
  have hu : ∀ l ∈ ls, l.picked = false := fun l hl => by simpa using fun h => hno ⟨l, hl, h⟩
  cases hm.symm.trans (h.unmarked hne hu x hx)

/-! ### Which leaves are picked -/

/-- Which of the leaves are picked. -/
def marksOf (ls : List StoredLeaf) : List Bool := ls.map (·.picked)

@[simp] theorem length_marksOf (ls : List StoredLeaf) : (marksOf ls).length = ls.length :=
  List.length_map _

@[simp] theorem marksOf_append (ls ls' : List StoredLeaf) :
    marksOf (ls ++ ls') = marksOf ls ++ marksOf ls' := List.map_append

theorem marksOf_picked {ls : List StoredLeaf} (h : ∀ l ∈ ls, l.picked = true) :
    ∀ m ∈ marksOf ls, m = true := by simpa [marksOf] using h

theorem marksOf_unpicked {ls : List StoredLeaf} (h : ∀ l ∈ ls, l.picked = false) :
    ∀ m ∈ marksOf ls, m = false := by simpa [marksOf] using h

/-- For the leaves of variables, whether their variable is marked. -/
def leafMarks (types : List Ty) (marks : List Bool) : List Bool :=
  (types.zip marks).flatMap fun (t, mark) => t.leaves.map fun _ => mark

theorem Laid.leafMarks : ∀ {i : Nat} {vars : List (Ty × Bool)} {ls : List StoredLeaf},
    Laid i vars ls → marksOf ls = leafMarks (vars.map (·.1)) (vars.map (·.2))
  | _, [], _, h => by
    obtain rfl := h
    rfl
  | i, (t, mark) :: vars, ls, h => by
    obtain ⟨block, rest, rfl, hb, ho, hr⟩ := h
    have hblock : marksOf block = t.leaves.map fun _ => mark := by
      rw [← hb, List.map_map]
      refine List.map_congr_left fun l hl => ?_
      rw [picked_of_owner ho l hl]
      cases mark <;> rfl
    rw [marksOf_append, hr.leafMarks, hblock]
    rfl

/-! ### Pieces -/

/-- Leaves that are treated together: all those of a picked variable, or leaves of one cell that are
not picked. -/
inductive IsPiece : List StoredLeaf → Prop where
  | picked {ls : List StoredLeaf} (v : Variable) (hne : ls ≠ []) (ho : ∀ l ∈ ls, l.owner = some v)
      (ht : ls.map (·.type) = v.type.leaves) : IsPiece ls
  | unpicked {ls : List StoredLeaf} (hne : ls ≠ []) (ho : ∀ l ∈ ls, l.owner = none)
      (hc : ∀ l ∈ ls.tail, l.opensCell = false) : IsPiece ls

theorem IsPiece.ne_nil {ls : List StoredLeaf} (h : IsPiece ls) : ls ≠ [] := by
  cases h <;> assumption

/-- A piece that is picked is all leaves of a variable. -/
theorem IsPiece.exists_owner {ls : List StoredLeaf} (h : IsPiece ls)
    (hp : ∀ l ∈ ls, l.picked = true) :
    ∃ v : Variable, ls ≠ [] ∧ (∀ l ∈ ls, l.owner = some v) ∧ ls.map (·.type) = v.type.leaves := by
  cases h with
  | picked v hne ho ht => exact ⟨v, hne, ho, ht⟩
  | unpicked hne ho _ =>
    obtain ⟨l, hl⟩ := List.exists_mem_of_ne_nil ls hne
    cases (hp l hl).symm.trans (picked_of_owner ho l hl)

/-- Induction on pieces that are all picked: each has all leaves of its owner. -/
theorem pickedInduction {P : List (List StoredLeaf) → Prop} (nil : P [])
    (cons : ∀ {p : List StoredLeaf} {ps : List (List StoredLeaf)} {v : Variable}, p ≠ [] →
      (∀ l ∈ p, l.owner = some v) → p.map (·.type) = v.type.leaves → P ps → P (p :: ps)) :
    ∀ {ps : List (List StoredLeaf)}, (∀ p ∈ ps, IsPiece p) →
      (∀ l ∈ ps.flatten, l.picked = true) → P ps
  | [], _, _ => nil
  | p :: ps, hps, hpick => by
    obtain ⟨hp, hps⟩ := List.forall_mem_cons.1 hps
    obtain ⟨hpickp, hpick⟩ := List.forall_mem_append.1 hpick
    obtain ⟨v, hne, ho, ht⟩ := hp.exists_owner hpickp
    exact cons hne ho ht (pickedInduction nil cons hps hpick)

/-- The owner of the first leaf. -/
def ownerOf (ls : List StoredLeaf) : Option Variable := ls.head?.bind (·.owner)

theorem ownerOf_eq {ls : List StoredLeaf} {o : Option Variable} (hne : ls ≠ [])
    (h : ∀ l ∈ ls, l.owner = o) : ownerOf ls = o := by
  cases ls with
  | nil => exact absurd rfl hne
  | cons l ls => exact h l (List.mem_cons_self ..)

theorem pickedVariables_eq (ls : List StoredLeaf) :
    pickedVariables ls = (pieces ls).filterMap ownerOf := rfl

/-- A leaf that is not picked joins the piece behind it or is one of its own. -/
theorem pieces_cons_unpicked {l : StoredLeaf} {ls : List StoredLeaf} (hl : l.owner = none)
    (h : ∀ p ∈ pieces ls, IsPiece p) :
    (∀ p ∈ pieces (l :: ls), IsPiece p) ∧ pickedVariables (l :: ls) = pickedVariables ls := by
  have hone : IsPiece [l] := .unpicked nofun (by simpa using hl) (by simp)
  rw [pickedVariables_eq, pickedVariables_eq]
  simp only [pieces, splitBy_cons] at h ⊢
  rcases hps : List.splitBy _ ls with _ | ⟨p, ps⟩
  · exact ⟨by simpa using hone, by simp [ownerOf, hl]⟩
  rw [hps] at h
  have hp := h p (List.mem_cons_self ..)
  rcases p with _ | ⟨k, p⟩
  · exact absurd rfl hp.ne_nil
  simp only [List.head?_cons, Option.all_some, Bool.and_eq_true, beq_iff_eq, Bool.or_eq_true,
    Bool.not_eq_true']
  split
  · next hr =>
    have hk : k.owner = none := by rw [← hr.1, hl]
    have hopen : k.opensCell = false := hr.2.resolve_left (by simp [StoredLeaf.picked, hl])
    refine ⟨fun q hq => ?_, by simp [ownerOf, hl, hk]⟩
    rcases List.mem_cons.1 hq with rfl | hq
    · cases hp with
      | picked v _ ho _ => simp [hk] at ho
      | unpicked _ ho hc =>
        refine .unpicked nofun ?_ ?_
        · intro m hm
          rcases List.mem_cons.1 hm with rfl | hm
          · exact hl
          · exact ho m hm
        · intro m hm
          rcases List.mem_cons.1 hm with rfl | hm
          · exact hopen
          · exact hc m hm
    · exact h q (List.mem_cons_of_mem _ hq)
  · refine ⟨fun q hq => ?_, by simp [ownerOf, hl]⟩
    rcases List.mem_cons.1 hq with rfl | hq
    · exact hone
    · exact h q hq

/-- The leaves of a picked variable are a piece of their own in front of leaves of others. -/
theorem pieces_block {block rest : List StoredLeaf} {v : Variable} (hne : block ≠ [])
    (ho : ∀ l ∈ block, l.owner = some v) (hr : ∀ l ∈ rest, l.owner ≠ some v) :
    pieces (block ++ rest) = block :: pieces rest := by
  have hb : pieces block = [block] := by
    refine List.splitBy_of_isChain hne
      (List.pairwise_of_forall_mem_list fun x hx y hy => ?_).isChain
    simp [StoredLeaf.picked, ho x hx, ho y hy]
  rw [pieces, List.splitBy_append]
  · exact congrArg (· ++ pieces rest) hb
  · intro x hx y hy
    have h1 := ho x (List.mem_of_getLast? hx)
    have h2 := hr y (List.mem_of_head? hy)
    simp [h1, Ne.symm h2]

/-- **The cut into pieces keeps the picked variables apart,** and they own the pieces in order. -/
theorem Laid.pieces : ∀ {i : Nat} {vars : List (Ty × Bool)} {ls : List StoredLeaf},
    Laid i vars ls → (∀ x ∈ vars, x.2 = true → x.1.leaves ≠ []) →
    (∀ p ∈ pieces ls, IsPiece p) ∧ pickedVariables ls = markedVariables i vars
  | _, [], _, h, _ => by
    obtain rfl := h
    exact ⟨by simp [Patch.pieces], rfl⟩
  | i, (t, mark) :: vars, ls, h, hne => by
    obtain ⟨block, rest, rfl, hb, ho, hr⟩ := h
    have ih := hr.pieces fun x hx => hne x (List.mem_cons_of_mem _ hx)
    rw [markedVariables]
    cases mark with
    | true =>
      have hbne : block ≠ [] := by
        rintro rfl
        exact hne (t, true) (List.mem_cons_self ..) rfl hb.symm
      have hothers : ∀ l ∈ rest, l.owner ≠ some ⟨i, t⟩ := fun l hl hv => by
        have hle : i + 1 ≤ i := (hr.owned l hl _ hv).1
        omega
      have hp := pieces_block hbne ho hothers
      have hown : ownerOf block = some ⟨i, t⟩ := ownerOf_eq hbne ho
      rw [pickedVariables_eq, hp, List.filterMap_cons, hown, if_pos rfl]
      refine ⟨fun p h => ?_, congrArg _ ih.2⟩
      rcases List.mem_cons.1 h with rfl | h
      · exact .picked ⟨i, t⟩ hbne ho hb
      · exact ih.1 p h
    | false =>
      clear hb
      rw [if_neg Bool.false_ne_true, ← ih.2]
      induction block with
      | nil => exact ⟨ih.1, rfl⟩
      | cons l block ihb =>
        have ihb := ihb fun l hl => ho l (List.mem_cons_of_mem _ hl)
        have hc := pieces_cons_unpicked (ho l (List.mem_cons_self ..)) ihb.1
        exact ⟨hc.1, hc.2.trans ihb.2⟩

/-! ### The end that is not visited -/

theorem dropUnpicked_append_of_picked {ls ls' : List StoredLeaf}
    (h : ∃ l ∈ ls', l.picked = true) : dropUnpicked (ls ++ ls') = ls ++ dropUnpicked ls' := by
  have hne : (ls'.reverse.dropWhile (!·.picked)).isEmpty = false := by
    obtain ⟨l, hl, hp⟩ := h
    rw [List.isEmpty_eq_false_iff]
    intro he
    have := List.dropWhile_eq_nil_iff.1 he l (List.mem_reverse.2 hl)
    simp [hp] at this
  rw [dropUnpicked, dropUnpicked, List.reverse_append, List.dropWhile_append, hne,
    if_neg Bool.false_ne_true, List.reverse_append, List.reverse_reverse]

theorem dropUnpicked_append_of_unpicked {ls ls' : List StoredLeaf}
    (h : ∀ l ∈ ls', l.picked = false) : dropUnpicked (ls ++ ls') = dropUnpicked ls := by
  have he : ls'.reverse.dropWhile (!·.picked) = [] :=
    List.dropWhile_eq_nil_iff.2 fun l hl => by simp [h l (List.mem_reverse.1 hl)]
  rw [dropUnpicked, dropUnpicked, List.reverse_append, List.dropWhile_append, he]
  rfl

theorem dropUnpicked_of_picked {ls : List StoredLeaf} (h : ∀ l ∈ ls, l.picked = true) :
    dropUnpicked ls = ls := by
  rcases hr : ls.reverse with _ | ⟨l, ls'⟩
  · simp [dropUnpicked, List.reverse_eq_nil_iff.1 hr]
  · have hl := h l (List.mem_reverse.1 (by rw [hr]; exact List.mem_cons_self ..))
    rw [dropUnpicked, hr, List.dropWhile_cons_of_neg (by simp [hl]), ← hr, List.reverse_reverse]

/-- What is left of the leaves of variables ends with the last marked one. -/
theorem Laid.dropUnpicked : ∀ {i : Nat} {vars : List (Ty × Bool)} {ls : List StoredLeaf},
    Laid i vars ls → (∀ x ∈ vars, x.2 = true → x.1.leaves ≠ []) →
    ∃ vars₁ vars₂ rest, vars = vars₁ ++ vars₂ ∧ (∀ x ∈ vars₂, x.2 = false) ∧
      ls = dropUnpicked ls ++ rest ∧ Laid i vars₁ (dropUnpicked ls) ∧
      Laid (i + vars₁.length) vars₂ rest
  | i, [], _, h, _ => by
    obtain rfl := h
    exact ⟨[], [], [], rfl, by simp, rfl, rfl, rfl⟩
  | i, (t, mark) :: vars, ls, h, hne => by
    obtain ⟨block, rest, rfl, hb, ho, hr⟩ := h
    by_cases hp : ∃ l ∈ rest, l.picked = true
    · obtain ⟨vars₁, vars₂, rest', rfl, h2, hrest, h3, h4⟩ :=
        hr.dropUnpicked fun x hx => hne x (List.mem_cons_of_mem _ hx)
      rw [dropUnpicked_append_of_picked hp]
      refine ⟨(t, mark) :: vars₁, vars₂, rest', rfl, h2, ?_, ⟨block, _, rfl, hb, ho, h3⟩, ?_⟩
      · rw [List.append_assoc, ← hrest]
      · rw [List.length_cons, ← Nat.add_assoc, Nat.add_right_comm]
        exact h4
    · have hu : ∀ l ∈ rest, l.picked = false := fun l hl => by
        simpa using fun h => hp ⟨l, hl, h⟩
      have hvars := hr.unmarked (fun x hx => hne x (List.mem_cons_of_mem _ hx)) hu
      rw [dropUnpicked_append_of_unpicked hu]
      cases mark with
      | true =>
        rw [dropUnpicked_of_picked (picked_of_owner ho)]
        exact ⟨[(t, true)], vars, rest, rfl, hvars, rfl, ⟨block, [], by simp, hb, ho, rfl⟩, hr⟩
      | false =>
        have he : Patch.dropUnpicked ([] ++ block) = [] :=
          dropUnpicked_append_of_unpicked (picked_of_owner ho)
        rw [List.nil_append] at he
        refine ⟨[], (t, false) :: vars, block ++ rest, rfl, fun x hx => ?_, ?_, ?_, block, rest,
          rfl, hb, ho, hr⟩
        · rcases List.mem_cons.1 hx with rfl | hx
          · rfl
          · exact hvars x hx
        · rw [he]
          rfl
        · rw [he]
          rfl

/-! ### The patch of marked variables -/

theorem owners_cons {start i : Nat} {t : Ty} {mark : Bool} {vars : List (Ty × Bool)}
    {os : List (Option Variable)} (h : owners start i ((t, mark) :: vars) = .ok os) :
    ¬ (mark = true ∧ i < start) ∧ ¬ (mark = true ∧ t.leaves = []) ∧
      ∃ os', owners start (i + 1) vars = .ok os' ∧
        os = t.leaves.map (fun _ => if mark then some ⟨i, t⟩ else none) ++ os' := by
  simp only [owners, throw_eq_error, List.isEmpty_iff] at h
  split at h
  · simp at h
  · next h1 =>
    split at h
    · simp at h
    · next h2 =>
      simp only [bind_eq_ok, pure_eq_ok, Except.ok.injEq] at h
      obtain ⟨os', h3, rfl⟩ := h
      exact ⟨h1, h2, os', h3, rfl⟩

theorem owners_laid : ∀ {start i : Nat} {vars : List (Ty × Bool)} {os : List (Option Variable)}
    {ls : List PackedLeaf}, owners start i vars = .ok os →
    ls.map (·.type) = Ty.allLeaves (vars.map (·.1)) →
    Laid i vars (List.zipWith (fun l owner => { l with owner }) ls os) ∧
      (List.zipWith (fun l owner => { l with owner : StoredLeaf }) ls os).map (·.toPackedLeaf) = ls
  | start, i, [], os, ls, h, ht => by
    obtain rfl := Except.ok.inj h
    obtain rfl := List.map_eq_nil_iff.1 ht
    exact ⟨rfl, rfl⟩
  | start, i, (t, mark) :: vars, os, ls, h, ht => by
    obtain ⟨-, -, os', h', rfl⟩ := owners_cons h
    obtain ⟨ks, ks', rfl, hk, hk'⟩ := List.map_eq_append_iff.1 ht
    obtain ⟨hl, hrow⟩ := owners_laid h' hk'
    have hks : ks.length = t.leaves.length := by rw [← hk, List.length_map]
    rw [List.zipWith_append (by simp [hks])]
    have hblock : List.zipWith (fun l owner => { l with owner : StoredLeaf }) ks
        (t.leaves.map fun _ => if mark then some ⟨i, t⟩ else none) =
        ks.map fun l => { l with owner := if mark then some ⟨i, t⟩ else none } := by
      rw [← hk, List.map_map, List.zipWith_map_right, List.zipWith_self]
      rfl
    rw [hblock]
    refine ⟨⟨_, _, rfl, ?_, ?_, hl⟩, ?_⟩
    · rw [List.map_map, ← hk]
      rfl
    · intro l hl
      obtain ⟨k, -, rfl⟩ := List.mem_map.1 hl
      rfl
    · rw [List.map_append, hrow, List.map_map]
      exact congrArg (· ++ ks') (List.map_id ks)

/-- A marked variable has leaves and is in the range. -/
theorem owners_marked : ∀ {start i : Nat} {vars : List (Ty × Bool)} {os : List (Option Variable)},
    owners start i vars = .ok os → (∀ x ∈ vars, x.2 = true → x.1.leaves ≠ []) ∧
      ∀ x ∈ vars.take (start - i), x.2 = false
  | start, i, [], os, _ => ⟨by simp, by simp⟩
  | start, i, (t, mark) :: vars, os, h => by
    obtain ⟨h1, h2, os', h', -⟩ := owners_cons h
    obtain ⟨ih1, ih2⟩ := owners_marked h'
    constructor
    · intro x hx hm
      rcases List.mem_cons.1 hx with rfl | hx
      · exact fun he => h2 ⟨hm, he⟩
      · exact ih1 x hx hm
    · intro x hx
      rcases Nat.lt_or_ge i start with hi | hi
      · rw [show start - i = start - (i + 1) + 1 by omega, List.take_succ_cons] at hx
        rcases List.mem_cons.1 hx with rfl | hx
        · simpa using fun hm => h1 ⟨hm, hi⟩
        · exact ih2 x hx
      · rw [show start - i = 0 by omega] at hx
        simp at hx

/-- What a patch visits of data in a packing: the leaves of the variables of its range up to the
last marked one. The leaves `rest` are behind them. -/
structure Covers (p : Patch) (start : Nat) (types : List Ty) (marks : List Bool) (k : Packing)
    (vars : List (Ty × Bool)) (rest : List StoredLeaf) : Prop where
  start_eq : p.start = (Ty.allLeaves (types.take start)).length
  before : ∀ m ∈ marks.take start, m = false
  vars_eq : vars = (types.zip marks).drop start
  types_eq : vars.map (·.1) = types.drop start
  marks_eq : vars.map (·.2) = marks.drop start
  laid : Laid start vars (p.visited ++ rest)
  unpicked : ∀ l ∈ rest, l.picked = false
  row : rowOf (p.visited ++ rest) = k.leaves.drop p.start
  isPiece : ∀ q ∈ pieces p.visited, IsPiece q
  picked : pickedVariables p.visited = markedVariables start vars

theorem markedVariables_append : ∀ {i : Nat} {vars vars' : List (Ty × Bool)},
    (∀ x ∈ vars', x.2 = false) → markedVariables i (vars ++ vars') = markedVariables i vars
  | i, [], vars', h => by
    induction vars' generalizing i with
    | nil => rfl
    | cons x vars' ih =>
      obtain ⟨t, mark⟩ := x
      obtain rfl : mark = false := h (t, mark) (List.mem_cons_self ..)
      exact ih (i + 1) fun x hx => h x (List.mem_cons_of_mem _ hx)
  | i, (t, mark) :: vars, vars', h => by
    rw [List.cons_append, markedVariables, markedVariables, markedVariables_append h]

theorem marked_of_mem : ∀ {i : Nat} {vars : List (Ty × Bool)} {v : Variable},
    v ∈ markedVariables i vars → (v.type, true) ∈ vars
  | _, [], _, h => nomatch h
  | i, (t, mark) :: vars, v, h => by
    rw [markedVariables] at h
    cases mark with
    | true =>
      rcases List.mem_cons.1 h with rfl | h
      · exact List.mem_cons_self ..
      · exact List.mem_cons_of_mem _ (marked_of_mem h)
    | false => exact List.mem_cons_of_mem _ (marked_of_mem h)

theorem Covers.marked {start : Nat} {types : List Ty} {marks : List Bool} {p : Patch}
    {k : Packing} {vars : List (Ty × Bool)} {rest : List StoredLeaf}
    (hc : p.Covers start types marks k vars rest) {v : Variable}
    (hv : v ∈ pickedVariables p.visited) : (v.type, true) ∈ types.zip marks := by
  rw [hc.picked] at hv
  have := marked_of_mem hv
  rw [hc.vars_eq] at this
  exact List.mem_of_mem_drop this

theorem Covers.room {bits refs start : Nat} {types : List Ty} {marks : List Bool} {p : Patch}
    {k : Packing} {vars : List (Ty × Bool)} {rest : List StoredLeaf}
    (hc : p.Covers start types marks k vars rest) (hk : Packing.ofTypes bits refs types = .ok k) :
    Packing.Room 0 0 (rowOf (p.visited ++ rest)) := by
  have h := Packing.ofTypes_room_zero hk
  rw [← List.take_append_drop p.start k.leaves] at h
  rw [hc.row]
  exact h.drop

theorem ofMarks_eq_ok {bits refs start : Nat} {types : List Ty} {marks : List Bool} {p : Patch}
    (h : ofMarks bits refs start types marks = .ok p) :
    marks.length = types.length ∧ start < types.length ∧ true ∈ marks ∧
      ∃ os k, owners start 0 (types.zip marks) = .ok os ∧ Packing.ofTypes bits refs types = .ok k ∧
        p.leaves = dropUnpicked (List.zipWith (fun l owner => { l with owner }) k.leaves os) ∧
        p.start = (Ty.allLeaves (types.take start)).length := by
  simp only [ofMarks, ofMarksWith, throw_eq_error] at h
  split at h
  · simp at h
  next hlen =>
  split at h
  · simp at h
  next hstart =>
  simp only [bind_eq_ok] at h
  obtain ⟨os, hos, h⟩ := h
  split at h
  · simp at h
  next hmark =>
  simp only [bind_eq_ok, pure_eq_ok, Except.ok.injEq] at h
  obtain ⟨k, hk, rfl⟩ := h
  refine ⟨by omega, by omega, ?_, os, k, hos, hk, rfl, rfl⟩
  by_contra hno
  refine hmark (List.all_eq_true.2 fun m hm => ?_)
  cases m with
  | false => rfl
  | true => exact absurd hm hno

/-- **A patch covers the variables that it is made of.** -/
theorem ofMarks_covers {bits refs start : Nat} {types : List Ty} {marks : List Bool} {p : Patch}
    (h : ofMarks bits refs start types marks = .ok p) :
    ∃ k vars rest, Packing.ofTypes bits refs types = .ok k ∧ marks.length = types.length ∧
      p.Covers start types marks k vars rest := by
  obtain ⟨hlen, hstart, hmark, os, k, hos, hk, hleaves, hpstart⟩ := ofMarks_eq_ok h
  have hfst : (types.zip marks).map (·.1) = types := List.map_fst_zip (by omega)
  have hsnd : (types.zip marks).map (·.2) = marks := List.map_snd_zip (by omega)
  obtain ⟨hne, hbefore⟩ := owners_marked hos
  obtain ⟨hlaid, hrow⟩ := owners_laid hos
    (show k.leaves.map (·.type) = _ by rw [hfst, Packing.ofTypes_types hk])
  rw [← List.take_append_drop start (types.zip marks)] at hlaid
  obtain ⟨ks, ks', hfull, hks, hks'⟩ := hlaid.append
  rw [hfull] at hleaves hrow
  have hindex : 0 + ((types.zip marks).take start).length = start := by
    rw [List.length_take, List.length_zip]
    omega
  rw [hindex] at hks'
  have hdrop : ∀ x ∈ (types.zip marks).drop start, x.2 = true → x.1.leaves ≠ [] :=
    fun x hx => hne x (List.mem_of_mem_drop hx)
  -- a variable is marked, and not before the range
  have hmarked : ∃ x ∈ (types.zip marks).drop start, x.2 = true := by
    rw [← hsnd] at hmark
    obtain ⟨x, hx, hm⟩ := List.mem_map.1 hmark
    rw [← List.take_append_drop start (types.zip marks)] at hx
    refine ⟨x, (List.mem_append.1 hx).resolve_left fun hx => ?_, hm⟩
    cases hm.symm.trans (hbefore x hx)
  have hlength : p.start = ks.length := by
    have ht := congrArg List.length hks.types
    rw [List.map_take, hfst, List.length_map] at ht
    exact hpstart.trans ht.symm
  have hvisited : p.visited = Patch.dropUnpicked ks' := by
    rw [visited, hleaves, hlength, dropUnpicked_append_of_picked (hks'.exists_picked hdrop hmarked),
      List.drop_left]
  obtain ⟨vars₁, vars₂, rest, hvars, hv₂, hrest, h₁, h₂⟩ := hks'.dropUnpicked hdrop
  obtain ⟨hpieces, hown⟩ := h₁.pieces fun x hx =>
    hdrop x (by rw [hvars]; exact List.mem_append_left _ hx)
  refine ⟨k, (types.zip marks).drop start, rest, hk, hlen, hpstart, ?_, rfl, ?_, ?_, ?_,
    h₂.unpicked hv₂, ?_, ?_, ?_⟩
  · intro m hm
    rw [← hsnd, ← List.map_take] at hm
    obtain ⟨x, hx, rfl⟩ := List.mem_map.1 hm
    exact hbefore x hx
  · rw [List.map_drop, hfst]
  · rw [List.map_drop, hsnd]
  · rw [hvisited, ← hrest]
    exact hks'
  · rw [hvisited, ← hrest, ← hrow, hlength, List.map_append, List.drop_left' (List.length_map _)]
    rfl
  · rwa [hvisited]
  · rw [hvisited, hown, hvars, markedVariables_append hv₂]

end Patch

end TypedCells
