import TypedCells.Proofs.Pairs
import TypedCells.Proofs.Rewrite
import TypedCells.Proofs.Thinned

/-!
# Updating under owners of other types

When the types of the picked variables are replaced by others with the same leaves, a patch takes
the same data apart and writes the same leaves. On the stack, the values are others for the same
leaves (`Patch.Alike`).

* `Patch.update_pairs`: the code of the two patches does the same on every slice, if it is given
  values with the same leaves.
-/

namespace TypedCells

namespace Patch

/-! ### What the stack holds -/

theorem IsPiece.of_owner {p : List StoredLeaf} {v : Variable} (hp : IsPiece p)
    (ho : ownerOf p = some v) : (∀ l ∈ p, l.picked = true) ∧ p.map (·.type) = v.type.leaves := by
  cases hp with
  | picked w hne hw ht =>
    obtain rfl := Option.some.inj ((ownerOf_eq hne hw).symm.trans ho)
    exact ⟨picked_of_owner hw, ht⟩
  | unpicked hne hw _ => cases (ownerOf_eq hne hw).symm.trans ho

theorem IsPiece.of_no_owner {p : List StoredLeaf} (hp : IsPiece p) (ho : ownerOf p = none) :
    ∀ l ∈ p, l.picked = false := by
  cases hp with
  | picked w hne hw ht => cases (ownerOf_eq hne hw).symm.trans ho
  | unpicked hne hw _ => exact picked_of_owner hw

/-- What the stack holds of pieces. -/
def heldFor : List (List StoredLeaf) → List Held
  | [] => []
  | p :: ps =>
    (match ownerOf p with
      | some v => [.value v.type]
      | none => heldOf p (opensNext ps)) ++ heldFor ps

theorem heldFor_picked {p : List StoredLeaf} {v : Variable} (h : ownerOf p = some v)
    (ps : List (List StoredLeaf)) : heldFor (p :: ps) = .value v.type :: heldFor ps := by
  rw [heldFor, h]
  rfl

theorem heldFor_unpicked {p : List StoredLeaf} (h : ownerOf p = none)
    (ps : List (List StoredLeaf)) : heldFor (p :: ps) = heldOf p (opensNext ps) ++ heldFor ps := by
  rw [heldFor, h]

/-- What is held of picked pieces in front of others. -/
theorem heldFor_append {ps : List (List StoredLeaf)} (qs : List (List StoredLeaf))
    (hps : ∀ p ∈ ps, IsPiece p) (hpick : ∀ l ∈ ps.flatten, l.picked = true) :
    heldFor (ps ++ qs) = (ps.filterMap ownerOf).map (.value ·.type) ++ heldFor qs := by
  refine pickedInduction (P := fun ps => heldFor (ps ++ qs) =
    (ps.filterMap ownerOf).map (.value ·.type) ++ heldFor qs) rfl (fun hne ho _ ih => ?_) hps hpick
  rw [List.cons_append, heldFor_picked (ownerOf_eq hne ho), ih, List.filterMap_cons,
    ownerOf_eq hne ho]
  rfl

theorem opensNext_stretches {sts : List (List StoredLeaf)} (h : ∀ st ∈ sts, IsStretch st) :
    opensNext (sts.flatMap pieces) = opensNext sts := by
  rw [opensNext_flatMap h, opensNext_eq fun st hst => (h st hst).ne_nil]

section

variable {α : Type} {new : Nat → α → Gen α} {st : List StoredLeaf}

/-- Takes a stretch that is not picked off a slice. -/
def takeStretch (st : List StoredLeaf) (nextOpens : Bool) : Gen Unit :=
  if nextOpens then takeCell st else takeFragments (fragments st)

theorem gatherStretches_picked (h : st.head?.any (·.picked) = true) (sts : List (List StoredLeaf))
    (a : α) : gatherStretches new (st :: sts) a = (do
      let a ← replaceStretch new st (opensNext sts) a
      let r ← gatherStretches new sts a
      return ((pickedVariables st).map (.value ·.type) ++ r.1, r.2)) := by
  rw [gatherStretches, if_pos h]

theorem gatherStretches_unpicked (h : ¬ st.head?.any (·.picked) = true)
    (sts : List (List StoredLeaf)) (a : α) : gatherStretches new (st :: sts) a = (do
      takeStretch st (opensNext sts)
      let r ← gatherStretches new sts a
      return (heldOf st (opensNext sts) ++ r.1, r.2)) := by
  rw [gatherStretches, if_neg h, takeStretch]
  split <;> rfl

end

/-- Gathering says what the stack holds. -/
theorem gatherStretches_held {α : Type} {new : Nat → α → Gen α} {frame : Option Frame} :
    ∀ {sts : List (List StoredLeaf)} {a : α} {d : Nat} {g : Generated (List Held × α)},
      (∀ st ∈ sts, IsStretch st) → gatherStretches new sts a frame d = .ok g →
      g.value.1 = heldFor (sts.flatMap pieces)
  | [], _, _, g, _, hg => by
    obtain rfl := Gen.pure_ok.1 hg
    rfl
  | st :: sts, a, d, g, hst, hg => by
    have hst1 := hst st (List.mem_cons_self ..)
    have hsts : ∀ st ∈ sts, IsStretch st := fun st hst' => hst st (List.mem_cons_of_mem _ hst')
    have hflat : (pieces st).flatten = st := List.flatten_splitBy ..
    rw [List.flatMap_cons]
    rcases hst1.uniform with hpick | ⟨hunpick, hc⟩
    · rw [gatherStretches_picked (any_head_picked hst1.ne_nil hpick)] at hg
      obtain ⟨_, _, -, h, he⟩ := Gen.bind_ok.1 hg
      obtain ⟨r, _, hr, h', he'⟩ := Gen.bind_ok.1 h
      obtain rfl := Gen.pure_ok.1 h'
      rw [he, he', heldFor_append _ hst1.isPiece (by rwa [hflat]), ← gatherStretches_held hsts hr]
      rfl
    · rw [gatherStretches_unpicked (by simp [any_head_picked hst1.ne_nil hunpick])] at hg
      obtain ⟨_, _, -, h, he⟩ := Gen.bind_ok.1 hg
      obtain ⟨r, _, hr, h', he'⟩ := Gen.bind_ok.1 h
      obtain rfl := Gen.pure_ok.1 h'
      rw [he, he', pieces_unpicked hst1.ne_nil hunpick hc, List.singleton_append,
        heldFor_unpicked (ownerOf_eq hst1.ne_nil (owner_of_unpicked hunpick)),
        opensNext_stretches hsts, ← gatherStretches_held hsts hr]

/-- The entries that are held of pieces, and those that are held when the owners have other types
with the same leaves. -/
inductive Alike (types : List Ty) : List (List StoredLeaf) → (es es' : List Value) → Prop where
  | nil : Alike types [] [] []
  | picked {p : List StoredLeaf} {ps : List (List StoredLeaf)} {v : Variable}
      {xs es es' : List Value} (ho : ownerOf p = some v)
      (ht : (v.retype types).type.leaves = v.type.leaves) (hx : xs.length = v.type.leaves.length)
      (h : Alike types ps es es') :
      Alike types (p :: ps) (v.type.build xs :: es) ((v.retype types).type.build xs :: es')
  | unpicked {p : List StoredLeaf} {ps : List (List StoredLeaf)} {zs es es' : List Value}
      (ho : ownerOf p = none) (hz : zs.length = (heldOf p (opensNext ps)).length)
      (h : Alike types ps es es') : Alike types (p :: ps) (zs ++ es) (zs ++ es')

section Alike

variable {types : List Ty} {ps : List (List StoredLeaf)} {es es' : List Value}

theorem Alike.length_eq (h : Alike types ps es es') :
    es.length = (heldFor ps).length ∧ es'.length = es.length := by
  induction h with
  | nil => exact ⟨rfl, rfl⟩
  | picked ho _ _ _ ih => rw [heldFor_picked ho]; simp [ih]
  | unpicked ho hz _ ih => rw [heldFor_unpicked ho]; simp [ih, hz]

/-- Values of picked variables in front of what is held. -/
theorem Alike.append {qs : List (List StoredLeaf)} {xs : List Value} (h : Alike types qs es es')
    (hps : ∀ p ∈ ps, IsPiece p) (hpick : ∀ l ∈ ps.flatten, l.picked = true) :
    (∀ v ∈ ps.filterMap ownerOf, (v.retype types).type.leaves = v.type.leaves) →
    xs.length = ps.flatten.length →
    Alike types (ps ++ qs) (Ty.buildAll ((ps.filterMap ownerOf).map (·.type)) xs ++ es)
      (Ty.buildAll ((ps.filterMap ownerOf).map (·.retype types |>.type)) xs ++ es') := by
  refine pickedInduction (P := fun ps => ∀ {xs : List Value},
    (∀ v ∈ ps.filterMap ownerOf, (v.retype types).type.leaves = v.type.leaves) →
    xs.length = ps.flatten.length →
    Alike types (ps ++ qs) (Ty.buildAll ((ps.filterMap ownerOf).map (·.type)) xs ++ es)
      (Ty.buildAll ((ps.filterMap ownerOf).map (·.retype types |>.type)) xs ++ es'))
    (fun _ _ => h) (fun {p ps v} hne ho hleaves ih xs ht hx => ?_) hps hpick
  rw [List.filterMap_cons, ownerOf_eq hne ho] at ht ⊢
  rw [List.flatten_cons, List.length_append] at hx
  obtain ⟨ys, zs, rfl, hy, hz⟩ := Ty.exists_append_of_length hx
  have hyt : ys.length = v.type.leaves.length := by rw [hy, ← hleaves, List.length_map]
  obtain ⟨htv, ht⟩ := List.forall_mem_cons.1 ht
  simp only [List.map_cons]
  rw [Ty.buildAll_append hyt, Ty.buildAll_append (by rw [htv, hyt])]
  exact .picked (ownerOf_eq hne ho) htv hyt (ih ht hz)

end Alike

/-! ### The same code -/

section Retype

variable (types : List Ty)

theorem passRun_retype (ls : List StoredLeaf) (nextOpens : Bool) :
    passRun (retype types ls) nextOpens = passRun ls nextOpens := by
  have hleaves (ls : List StoredLeaf) : passLeaves (retype types ls) = passLeaves ls := by
    rw [passLeaves, passLeaves, fragments_retype]
  have hlink : passToLink (retype types ls) = passToLink ls := by
    unfold passToLink
    rw [fixedRefs?_retype, hleaves]
    rcases ls with _ | ⟨l, _ | ⟨l', ls⟩⟩ <;> rfl
  rw [passRun, passRun, hleaves, hlink]

theorem passRuns_retype (last : Bool) : ∀ rs : List (List StoredLeaf),
    passRuns last (rs.map (retype types)) = passRuns last rs
  | [] => rfl
  | r :: rs => by
    rw [List.map_cons, passRuns, passRuns, passRun_retype, passRuns_retype last rs,
      List.isEmpty_map]

theorem takeStretch_retype (ls : List StoredLeaf) (nextOpens : Bool) :
    takeStretch (retype types ls) nextOpens = takeStretch ls nextOpens := by
  rw [takeStretch, takeStretch, takeCell, takeCell, fixedRefs?_retype, fragments_retype]

theorem writeLeaves_retype (entry : Nat) : ∀ (ls : List StoredLeaf) (r : Progress),
    writeLeaves entry (retype types ls) r = writeLeaves entry ls r
  | [], _ => rfl
  | l :: ls, r => by
    have ih := writeLeaves_retype entry ls
    rw [retype] at ih ⊢
    simp only [List.map_cons, writeLeaves, ih]
    rfl

theorem writePieces_retype (entry : Nat) : ∀ (ps : List (List StoredLeaf)) (r : Progress),
    writePieces entry (ps.map (retype types)) r = writePieces entry ps r
  | [], _ => rfl
  | p :: ps, r => by
    simp only [List.map_cons, writePieces, any_picked_retype, openBuilderFor, opensCell_retype,
      opensNext_retype, fragments_retype, writeLeaves_retype, writePieces_retype entry ps]

end Retype

/-! ### Gathering -/

section Gather

variable {α α' : Type} {new : Nat → α → Gen α} {new' : Nat → α' → Gen α'} {types types' : List Ty}
  {below acc acc' : Stack} {entry d d' : Nat} {a : α} {a' : α'} {st : List StoredLeaf}
  {nextOpens : Bool} {is : List Nat} {zs zs' ys ys' : List Value}

theorem replaceStretch_leaf {l : StoredLeaf} {v : Variable} (h : pickedVariables [l] = [v])
    (a : α) : replaceStretch new [l] false a = (do
      Gen.op (.load l.type)
      let a ← provide new v a
      Gen.pop 2
      return a) := by
  unfold replaceStretch
  rw [h]

theorem replaceStretch_apart
    (h : ¬ (st.length = 1 ∧ (pickedVariables st).length = 1 ∧ nextOpens = false)) (a : α) :
    replaceStretch new st nextOpens a = (do
      passRuns nextOpens (runs st)
      let a ← provideEach new (pickedVariables st) a
      Gen.blkSwap 1 (pickedVariables st).length
      return a) := by
  unfold replaceStretch
  generalize pickedVariables st = vs at h ⊢
  simp only
  split
  · exact absurd ⟨rfl, rfl, rfl⟩ h
  · rfl

/-- What stands on the two stacks after a stretch has been replaced. -/
def Replaced (new : Nat → α → Gen α) (new' : Nat → α' → Gen α') (entry : Nat) (below : Stack)
    (is : List Nat) (ys ys' : List Value) (t t' : Stack) (b : α) (u : Stack) (b' : α')
    (u' : Stack) : Prop :=
  ∃ q : Slice, u = .slice q :: t ∧ u' = .slice q :: t' ∧ Supplies new entry below is ys b ∧
    Supplies new' entry below is ys' b'

theorem replaceRuns_pairs (rs : List (List StoredLeaf)) {vs vs' : List Variable}
    (hi : vs'.map (·.index) = vs.map (·.index)) (hz : zs.length = vs.length)
    (hz' : zs'.length = vs'.length)
    (hsup : Supplies new entry below (vs.map (·.index) ++ is) (zs ++ ys) a)
    (hsup' : Supplies new' entry below (vs.map (·.index) ++ is) (zs' ++ ys') a')
    (hd : d = entry + acc.length) (hd' : d' = entry + acc'.length) (s : Slice) :
    (do
      passRuns nextOpens rs
      let a ← provideEach new vs a
      Gen.blkSwap 1 vs.length
      return a : Gen α).Pairs (do
      passRuns nextOpens rs
      let a ← provideEach new' vs' a'
      Gen.blkSwap 1 vs'.length
      return a : Gen α') d d' (.slice s :: (acc ++ below)) (.slice s :: (acc' ++ below))
      (Replaced new new' entry below is ys ys' (zs.reverse ++ (acc ++ below))
        (zs'.reverse ++ (acc' ++ below))) := by
  refine ((passRuns_cuts nextOpens rs).pairs s _ _).bind fun _ t _ t' e e' ht he he' => ?_
  obtain ⟨q, xs, hx, rfl, rfl⟩ := ht
  obtain rfl := List.length_eq_zero_iff.1 hx
  rw [List.nil_append] at he he' ⊢
  rw [← hi] at hsup'
  have hrun := provideEach_runs (d := e) (.slice q :: acc) hz hsup (by
    simp only [List.length_cons] at he ⊢
    omega)
  have hrun' := provideEach_runs (d := e') (.slice q :: acc') hz' hsup' (by
    simp only [List.length_cons] at he' ⊢
    omega)
  refine (hrun.pairs hrun').bind fun b t b' t' e2 e2' ht _ _ => ?_
  obtain ⟨⟨rfl, hs⟩, rfl, hs'⟩ := ht
  have hswap (zs : List Value) (n : Nat) (acc : Stack) (h : zs.length = n) :=
    Gen.Turns.blkSwap zs.reverse [.slice q] (s := acc ++ below) (i := 1)
      (List.length_reverse.trans h) rfl
  simp only [List.append_assoc, List.cons_append, List.nil_append] at hswap
  exact (hswap zs _ acc hz).bind_pairs (hswap zs' _ acc' hz') fun _ _ _ _ _ _ =>
    .pure ⟨q, rfl, rfl, hs, hs'⟩

theorem replaceLeaf_pairs (t : Ty) {v v' : Variable} {z z' : Value} (hi : v'.index = v.index)
    (hsup : Supplies new entry below (v.index :: is) (z :: ys) a)
    (hsup' : Supplies new' entry below (v.index :: is) (z' :: ys') a')
    (hd : d = entry + acc.length) (hd' : d' = entry + acc'.length) (s : Slice) :
    (do
      Gen.op (.load t)
      let a ← provide new v a
      Gen.pop 2
      return a : Gen α).Pairs (do
      Gen.op (.load t)
      let a ← provide new' v' a'
      Gen.pop 2
      return a : Gen α') d d' (.slice s :: (acc ++ below)) (.slice s :: (acc' ++ below))
      (Replaced new new' entry below is ys ys' (z :: (acc ++ below)) (z' :: (acc' ++ below))) := by
  refine ((Gen.Cuts.load t).pairs s _ _).bind fun _ u _ u' e e' hu he he' => ?_
  obtain ⟨q, xs, hx, rfl, rfl⟩ := hu
  obtain ⟨x, rfl⟩ := List.length_eq_one_iff.1 hx
  rw [← hi] at hsup'
  have hd1 : e + 1 = entry + (.slice q :: x :: acc : Stack).length := by
    simp only [List.length_cons, List.length_append, List.length_nil] at he ⊢
    omega
  have hd1' : e' + 1 = entry + (.slice q :: x :: acc' : Stack).length := by
    simp only [List.length_cons, List.length_append, List.length_nil] at he' ⊢
    omega
  refine ((provide_runs hsup hd1).pairs (provide_runs hsup' hd1')).bind
    fun b u b' u' e2 e2' hu _ _ => ?_
  obtain ⟨⟨rfl, hs⟩, rfl, hs'⟩ := hu
  have hpop (z : Value) (acc : Stack) : (Gen.pop 2).Turns (z :: .slice q :: x :: (acc ++ below))
      (.slice q :: z :: (acc ++ below)) :=
    (Gen.Turns.operand 2 _).trans fun _ => .op rfl (Op.run_pop_two ..)
  exact (hpop z acc).bind_pairs (hpop z' acc') fun _ _ _ _ _ _ => .pure ⟨q, rfl, rfl, hs, hs'⟩

/-- The two sides replace a stretch alike. -/
theorem replaceStretch_pairs (nextOpens : Bool) (howned : Owned types st)
    (hz : zs.length = (pickedVariables st).length) (hz' : zs'.length = (pickedVariables st).length)
    (hsup : Supplies new entry below ((pickedVariables st).map (·.index) ++ is) (zs ++ ys) a)
    (hsup' : Supplies new' entry below ((pickedVariables st).map (·.index) ++ is) (zs' ++ ys') a')
    (hd : d = entry + acc.length) (hd' : d' = entry + acc'.length) (s : Slice) :
    (replaceStretch new st nextOpens a).Pairs
      (replaceStretch new' (retype types' st) nextOpens a') d d' (.slice s :: (acc ++ below))
      (.slice s :: (acc' ++ below)) (Replaced new new' entry below is ys ys'
        (zs.reverse ++ (acc ++ below)) (zs'.reverse ++ (acc' ++ below))) := by
  have hvs : pickedVariables (retype types' st) = (pickedVariables st).map (·.retype types') :=
    pickedVariables_retype howned
  by_cases h : st.length = 1 ∧ (pickedVariables st).length = 1 ∧ nextOpens = false
  · obtain ⟨h1, h2, rfl⟩ := h
    obtain ⟨l, rfl⟩ := List.length_eq_one_iff.1 h1
    obtain ⟨v, hv⟩ := List.length_eq_one_iff.1 h2
    rw [hv] at hvs hz hz' hsup hsup'
    obtain ⟨z, rfl⟩ := List.length_eq_one_iff.1 hz
    obtain ⟨z', rfl⟩ := List.length_eq_one_iff.1 hz'
    rw [replaceStretch_leaf hv, show retype types' [l] = [l.retype types'] from rfl,
      replaceStretch_leaf hvs]
    exact replaceLeaf_pairs _ rfl hsup hsup' hd hd' s
  · have h' : ¬ ((retype types' st).length = 1 ∧
        (pickedVariables (retype types' st)).length = 1 ∧ nextOpens = false) := by
      rwa [hvs, retype, List.length_map, List.length_map]
    rw [replaceStretch_apart h, replaceStretch_apart h', runs_retype, passRuns_retype, hvs]
    exact replaceRuns_pairs _ (by rw [List.map_map]; rfl) hz (by rwa [List.length_map]) hsup hsup'
      hd hd' s

theorem allLeaves_retype {vs : List Variable}
    (h : ∀ v ∈ vs, (v.retype types).type.leaves = v.type.leaves) :
    Ty.allLeaves (vs.map (·.retype types |>.type)) = Ty.allLeaves (vs.map (·.type)) := by
  rw [Ty.allLeaves, Ty.allLeaves, List.flatMap_map, List.flatMap_map]
  exact List.flatMap_congr h

theorem length_heldOf (ls : List StoredLeaf) (nextOpens : Bool) :
    (heldOf ls nextOpens).length = if nextOpens then 1 else (fragments ls).length := by
  cases nextOpens <;> simp [heldOf]

theorem takeStretch_cuts (st : List StoredLeaf) (nextOpens : Bool) :
    Gen.Cuts (takeStretch st nextOpens) (heldOf st nextOpens).length := by
  rw [length_heldOf]
  cases nextOpens with
  | true => exact takeCell_cuts st
  | false => exact takeFragments_cuts _

/-- What the two stacks hold of stretches, over the same slice. -/
def GatheredAlike (types' : List Ty) (sts : List (List StoredLeaf)) (s s' t t' : Stack) : Prop :=
  ∃ (q : Slice) (es es' : List Value), t = .slice q :: (es.reverse ++ s) ∧
    t' = .slice q :: (es'.reverse ++ s') ∧ Alike types' (sts.flatMap pieces) es es'

/-- **The two sides gather alike.** -/
theorem gatherStretches_pairs : ∀ {sts : List (List StoredLeaf)} {s : Slice} {a : α} {a' : α'}
    {d d' : Nat} {ys : List Value} (acc acc' : Stack), (∀ st ∈ sts, IsStretch st) →
    Owned types sts.flatten →
    (∀ v ∈ (sts.flatMap pieces).filterMap ownerOf,
      (v.retype types').type.leaves = v.type.leaves) →
    ys.length = (sts.flatten.filter (·.picked)).length →
    Supplies new entry below (((sts.flatMap pieces).filterMap ownerOf).map (·.index))
      (Ty.buildAll (((sts.flatMap pieces).filterMap ownerOf).map (·.type)) ys) a →
    Supplies new' entry below (((sts.flatMap pieces).filterMap ownerOf).map (·.index))
      (Ty.buildAll (((sts.flatMap pieces).filterMap ownerOf).map (·.retype types' |>.type)) ys) a' →
    d = entry + acc.length → d' = entry + acc'.length →
    (gatherStretches new sts a).Pairs (gatherStretches new' (sts.map (retype types')) a') d d'
      (.slice s :: (acc ++ below)) (.slice s :: (acc' ++ below)) fun _ t _ t' =>
        GatheredAlike types' sts (acc ++ below) (acc' ++ below) t t'
  | [], s, a, a', d, d', ys, acc, acc', _, _, _, _, _, _, _, _ =>
    .pure ⟨s, [], [], rfl, rfl, .nil⟩
  | st :: sts, s, a, a', d, d', ys, acc, acc', hst, howned, ht, hy, hsup, hsup', hd, hd' => by
    have hst1 := hst st (List.mem_cons_self ..)
    have hsts : ∀ st ∈ sts, IsStretch st := fun st hst' => hst st (List.mem_cons_of_mem _ hst')
    have hflat : (pieces st).flatten = st := List.flatten_splitBy ..
    have howned1 : Owned types st := fun l hl => howned l (by simp [hl])
    have howned2 : Owned types sts.flatten := fun l hl => howned l (by
      rw [List.flatten_cons]
      exact List.mem_append_right _ hl)
    rw [List.flatMap_cons, List.filterMap_append] at ht hsup hsup'
    rw [List.map_append, List.map_append] at hsup hsup'
    rw [List.flatten_cons, List.filter_append, List.length_append] at hy
    have ht2 := fun v hv => ht v (List.mem_append_right _ hv)
    rw [List.map_cons]
    rcases hst1.uniform with hpick | ⟨hunpick, hc⟩
    · have hpick' : ∀ l ∈ (pieces st).flatten, l.picked = true := by rwa [hflat]
      have htypes := picked_types hst1.isPiece hpick'
      rw [List.filter_eq_self.2 hpick] at hy
      obtain ⟨xs, ys, rfl, hx, hy⟩ := Ty.exists_append_of_length hy
      have hx1 : xs.length =
          (Ty.allLeaves (((pieces st).filterMap ownerOf).map (·.type))).length := by
        rw [htypes, hflat, List.length_map, hx]
      have hx2 : xs.length = (Ty.allLeaves
          (((pieces st).filterMap ownerOf).map (·.retype types' |>.type))).length := by
        rw [allLeaves_retype fun v hv => ht v (List.mem_append_left _ hv), hx1]
      rw [Ty.buildAll_append_all hx1] at hsup
      rw [Ty.buildAll_append_all hx2] at hsup'
      have hhead := any_head_picked hst1.ne_nil hpick
      rw [gatherStretches_picked hhead, gatherStretches_picked (by rwa [any_picked_retype]),
        opensNext_retype]
      refine (replaceStretch_pairs (opensNext sts) howned1 (by simp [pickedVariables_eq])
        (by simp [pickedVariables_eq]) hsup hsup' hd hd' s).bind
        fun b t b' t' e e' ht he he' => ?_
      obtain ⟨q, rfl, rfl, hs, hs'⟩ := ht
      simp only [← List.append_assoc] at he he' ⊢
      refine (gatherStretches_pairs _ _ hsts howned2 ht2 hy hs hs' ?_ ?_).bind
        fun r t r' t' _ _ hg _ _ => .pure ?_
      · simp only [List.length_append, List.length_cons, List.length_reverse] at he ⊢
        omega
      · simp only [List.length_append, List.length_cons, List.length_reverse] at he' ⊢
        omega
      obtain ⟨q, es, es', rfl, rfl, halike⟩ := hg
      refine ⟨q, _, _, ?_, ?_, halike.append hst1.isPiece hpick' (fun v hv => ht v
        (List.mem_append_left _ hv)) (by rw [hflat, hx])⟩ <;> simp
    · have hown : ownerOf st = none := ownerOf_eq hst1.ne_nil (owner_of_unpicked hunpick)
      have hpieces := pieces_unpicked hst1.ne_nil hunpick hc
      rw [hpieces, List.filterMap_cons, hown] at hsup hsup'
      rw [List.filter_eq_nil_iff.2 (by simpa using hunpick), List.length_nil, Nat.zero_add] at hy
      have hhead : ¬ st.head?.any (·.picked) = true := by
        simp [any_head_picked hst1.ne_nil hunpick]
      rw [gatherStretches_unpicked hhead, gatherStretches_unpicked (by rwa [any_picked_retype]),
        opensNext_retype, takeStretch_retype, heldOf_retype]
      refine ((takeStretch_cuts st (opensNext sts)).pairs s _ _).bind
        fun _ t _ t' e e' ht he he' => ?_
      obtain ⟨q, xs, hx, rfl, rfl⟩ := ht
      simp only [← List.append_assoc] at he he' ⊢
      refine (gatherStretches_pairs _ _ hsts howned2 ht2 hy hsup hsup' ?_ ?_).bind
        fun r t r' t' _ _ hg _ _ => .pure ?_
      · simp only [List.length_append, List.length_cons] at he ⊢
        omega
      · simp only [List.length_append, List.length_cons] at he' ⊢
        omega
      obtain ⟨q, es, es', rfl, rfl, halike⟩ := hg
      refine ⟨q, xs.reverse ++ es, xs.reverse ++ es', by simp, by simp, ?_⟩
      rw [List.flatMap_cons, hpieces, List.singleton_append]
      refine .unpicked hown ?_ halike
      rw [opensNext_stretches hsts, List.length_reverse, hx]

end Gather

/-! ### Writing -/

/-- Writes what is held of a piece that is not picked. -/
def copyPiece (p : List StoredLeaf) (nextOpens : Bool) (held : List Held) : Gen (List Held) :=
  if nextOpens then copyRaw held else copyFragments (fragments p) held

theorem writePieces_picked {p : List StoredLeaf} {v : Variable} (hp : IsPiece p)
    (ho : ownerOf p = some v) (entry : Nat) (ps : List (List StoredLeaf)) (r : Progress) :
    writePieces entry (p :: ps) r = (do
      let r ← writeLeaves entry p r
      writePieces entry ps r) := by
  rw [writePieces, if_pos (any_head_picked hp.ne_nil (hp.of_owner ho).1)]

theorem writePieces_unpicked {p : List StoredLeaf} (hp : IsPiece p) (ho : ownerOf p = none)
    (entry : Nat) (ps : List (List StoredLeaf)) (r : Progress) :
    writePieces entry (p :: ps) r = (do
      let r ← openBuilderFor entry p r
      let held ← copyPiece p (opensNext ps) r.held
      writePieces entry ps { r with held }) := by
  rw [writePieces, if_neg (by simp [any_head_picked hp.ne_nil (hp.of_no_owner ho)])]
  refine congrArg (openBuilderFor entry p r >>= ·) (funext fun r => ?_)
  unfold copyPiece
  simp only [Gen.pure_bind]
  split <;> rfl

section Write

variable {types : List Ty} {entry d d' : Nat} {b : Builder} {stk stk' : Stack}

/-- An instruction that writes a value to the builder does the same on both stacks. -/
theorem put_pairs {o : Op} {v : Value} {m : Except Trap Builder} (hq : o.isQuiet = false)
    (h : ∀ stk, o.run (.builder b :: v :: stk) = do return .builder (← m) :: stk) :
    (Gen.op o).Pairs (Gen.op o) d d' (.builder b :: v :: stk) (.builder b :: v :: stk')
      fun _ t _ t' => ∃ b', t = .builder b' :: stk ∧ t' = .builder b' :: stk' := by
  rcases m with e | b'
  · exact fun _ _ _ _ hg hg' => .inl ⟨e, Gen.Ends.op_error (h stk) hg,
      Gen.Ends.op_error (h stk') hg'⟩
  · exact ((Gen.Turns.op hq (h stk) d).pairs (Gen.Turns.op hq (h stk') d')).mono
      fun _ _ _ _ ht => ⟨b', ht⟩

/-- The same is written to the builder on both stacks, and what is held under it is left. -/
def Copies (held held' : List Held) (stk stk' : Stack) (r : List Held) (t : Stack)
    (r' : List Held) (t' : Stack) : Prop :=
  r = held ∧ r' = held' ∧ ∃ b, t = .builder b :: stk ∧ t' = .builder b :: stk'

theorem copyRaw_pairs (held held' : List Held) (v : Value) :
    (copyRaw (.raw :: held)).Pairs (copyRaw (.raw :: held')) d d' (.builder b :: v :: stk)
      (.builder b :: v :: stk') (Copies held held' stk stk') :=
  (put_pairs (m := v.toSlice >>= b.writeSlice) rfl fun stk => by cases v <;> rfl).bind
    fun _ _ _ _ _ _ ht _ _ => .pure ⟨rfl, rfl, ht⟩

theorem copyValue_pairs (t : Ty) (held held' : List Held) (v : Value) :
    (copyValue t (.value t :: held)).Pairs (copyValue t (.value t :: held')) d d'
      (.builder b :: v :: stk) (.builder b :: v :: stk') (Copies held held' stk stk') := by
  rw [copyValue, copyValue, if_pos rfl, if_pos rfl]
  exact (put_pairs (m := t.store v b) rfl fun stk => rfl).bind
    fun _ _ _ _ _ _ ht _ _ => .pure ⟨rfl, rfl, ht⟩

theorem copyFragments_pairs (held held' : List Held) : ∀ {fs : List Fragment} {zs : List Value}
    {b : Builder} {d d' : Nat}, zs.length = fs.length →
    (copyFragments fs (fs.map heldAs ++ held)).Pairs (copyFragments fs (fs.map heldAs ++ held')) d
      d' (.builder b :: (zs ++ stk)) (.builder b :: (zs ++ stk')) (Copies held held' stk stk')
  | [], [], _, _, _, _ => .pure ⟨rfl, rfl, _, rfl, rfl⟩
  | .raw _ _ :: fs, z :: zs, b, d, d', hz =>
    (copyRaw_pairs _ _ z).bind fun _ _ _ _ _ _ ht _ _ => by
      obtain ⟨rfl, rfl, b', rfl, rfl⟩ := ht
      exact copyFragments_pairs held held' (Nat.succ.inj hz)
  | .value t :: fs, z :: zs, b, d, d', hz =>
    (copyValue_pairs t _ _ z).bind fun _ _ _ _ _ _ ht _ _ => by
      obtain ⟨rfl, rfl, b', rfl, rfl⟩ := ht
      exact copyFragments_pairs held held' (Nat.succ.inj hz)

theorem copyPiece_pairs (held held' : List Held) {p : List StoredLeaf} {nextOpens : Bool}
    {zs : List Value} (hz : zs.length = (heldOf p nextOpens).length) :
    (copyPiece p nextOpens (heldOf p nextOpens ++ held)).Pairs
      (copyPiece p nextOpens (heldOf p nextOpens ++ held')) d d' (.builder b :: (zs ++ stk))
      (.builder b :: (zs ++ stk')) (Copies held held' stk stk') := by
  cases nextOpens with
  | true =>
    obtain ⟨z, rfl⟩ := List.length_eq_one_iff.1 hz
    exact copyRaw_pairs held held' z
  | false =>
    rw [heldOf_parts] at hz ⊢
    exact copyFragments_pairs held held' (by rw [hz, List.length_map])

/-- A value without leaves is not taken for what is held of a piece. -/
theorem copyPiece_fails {p : List StoredLeaf} (hne : p ≠ []) (hl : ∀ l ∈ p, l.type.IsLeaf)
    {u : Ty} (hu : u.leaves = []) (nextOpens : Bool) (held : List Held) :
    (copyPiece p nextOpens (.value u :: held)).Fails := by
  cases nextOpens with
  | true => exact .fail _
  | false =>
    obtain ⟨l, ls, rfl⟩ := List.exists_cons_of_ne_nil hne
    exact copyFragments_fails (hl l (List.mem_cons_self ..)) hu

/-- What has been written is the same on both sides; what is held is left under values without
leaves. -/
def WroteAlike (held held' : List Held) (es es' : List Value) (s : Slice) (below : Stack)
    (r : Progress) (t : Stack) (r' : Progress) (t' : Stack) : Prop :=
  ∃ (q : List Builder × Builder) (us us' : List Ty), Ty.allLeaves us = [] ∧ Ty.allLeaves us' = [] ∧
    r = ⟨us.map .value ++ held, q.1.length + 1⟩ ∧ r' = ⟨us'.map .value ++ held', q.1.length + 1⟩ ∧
    t = workStack (Ty.buildAll us [] ++ es) s q below ∧
    t' = workStack (Ty.buildAll us' [] ++ es') s q below

variable {s : Slice} {below : Stack} {es es' : List Value}

/-- **New values with the same leaves are written alike.** -/
theorem writeLeaves_pairs (held held' : List Held) : ∀ {ls : List StoredLeaf} {us us' : List Ty}
    {ys : List Value} {q : List Builder × Builder} {d d' : Nat},
    Ty.allLeaves us = ls.map (·.type) → Ty.allLeaves us' = ls.map (·.type) →
    ys.length = ls.length →
    d + 1 + below.length = entry + (workStack (Ty.buildAll us ys ++ es) s q below).length →
    d' + 1 + below.length = entry + (workStack (Ty.buildAll us' ys ++ es') s q below).length →
    (writeLeaves entry ls ⟨us.map .value ++ held, q.1.length + 1⟩).Pairs
      (writeLeaves entry ls ⟨us'.map .value ++ held', q.1.length + 1⟩) d d'
      (workStack (Ty.buildAll us ys ++ es) s q below)
      (workStack (Ty.buildAll us' ys ++ es') s q below) (WroteAlike held held' es es' s below)
  | [], us, us', [], q, d, d', hu, hu', _, _, _ => .pure ⟨q, us, us', hu, hu', rfl, rfl, rfl, rfl⟩
  | l :: ls, us, us', y :: ys, q, d, d', hu, hu', hy, hd, hd' => by
    have hx : ys.length = (ls.map (·.type)).length := by
      rw [List.length_map]
      exact Nat.succ.inj hy
    have hopen := (openBuilderFor_runs (us.map .value ++ held) [l] hd).pairs
      (openBuilderFor_runs (us'.map .value ++ held') [l] hd')
    refine hopen.bind fun r t r' t' d1 d1' ht hd1 hd1' => ?_
    obtain ⟨⟨rfl, rfl⟩, rfl, rfl⟩ := ht
    generalize opened (opensCell [l]) q = q' at hd1 hd1' ⊢
    rw [workStack_append (q := q')] at hd1 hd1' ⊢
    rw [workStack_append (q := q')]
    have hexpose := (expose_runs (t := l.type) held y hu hx q'.2
      (es ++ .slice s :: (Gen.stacked q'.1 ++ below)) d1).pairs
      (expose_runs (t := l.type) held' y hu' hx q'.2
        (es' ++ .slice s :: (Gen.stacked q'.1 ++ below)) d1')
    refine hexpose.bind fun r t r' t' d2 d2' ht hd2 hd2' => ?_
    obtain ⟨⟨ts, rfl, hts, rfl⟩, ts', rfl, hts', rfl⟩ := ht
    refine (put_pairs (m := l.type.store y q'.2) rfl fun stk => rfl).bind
      fun _ t _ t' d3 d3' ht hd3 hd3' => ?_
    obtain ⟨b, rfl, rfl⟩ := ht
    have hd4 : d3 + 1 + below.length =
        entry + (workStack (Ty.buildAll ts ys ++ es) s (q'.1, b) below).length := by
      rw [workStack_append]
      simp only [List.length_cons] at hd1 hd2 hd3 ⊢
      omega
    have hd4' : d3' + 1 + below.length =
        entry + (workStack (Ty.buildAll ts' ys ++ es') s (q'.1, b) below).length := by
      rw [workStack_append]
      simp only [List.length_cons] at hd1' hd2' hd3' ⊢
      omega
    have ih := writeLeaves_pairs held held' hts hts' (Nat.succ.inj hy) hd4 hd4'
    rw [workStack_append, workStack_append] at ih
    exact ih

theorem heldFor_retype_picked {p : List StoredLeaf} {v : Variable} (h : ownerOf p = some v)
    (ps : List (List StoredLeaf)) : heldFor ((p :: ps).map (retype types)) =
      .value (v.retype types).type :: heldFor (ps.map (retype types)) := by
  rw [List.map_cons, heldFor_picked (by rw [ownerOf_retype, h]; rfl)]

theorem heldFor_retype_unpicked {p : List StoredLeaf} (h : ownerOf p = none)
    (ps : List (List StoredLeaf)) : heldFor ((p :: ps).map (retype types)) =
      heldOf p (opensNext ps) ++ heldFor (ps.map (retype types)) := by
  rw [List.map_cons, heldFor_unpicked (by rw [ownerOf_retype, h]; rfl), heldOf_retype,
    opensNext_retype]

theorem length_heldFor_retype (types : List Ty) : ∀ ps : List (List StoredLeaf),
    (heldFor (ps.map (retype types))).length = (heldFor ps).length
  | [] => rfl
  | p :: ps => by
    have ih := length_heldFor_retype types ps
    rcases ho : ownerOf p with _ | v
    · rw [heldFor_retype_unpicked ho, heldFor_unpicked ho, List.length_append, List.length_append,
        ih]
    · rw [heldFor_retype_picked ho, heldFor_picked ho, List.length_cons, List.length_cons, ih]

/-- Values without leaves and a new value, as held and as built. -/
theorem leftover_concat {us : List Ty} {t : Ty} {xs : List Value} (held : List Held)
    (es : List Value) (hu : Ty.allLeaves us = []) (hx : xs.length = t.leaves.length) :
    us.map Held.value ++ .value t :: held = (us ++ [t]).map .value ++ held ∧
      Ty.buildAll us [] ++ t.build xs :: es = Ty.buildAll (us ++ [t]) xs ++ es ∧
      Ty.allLeaves (us ++ [t]) = t.leaves := by
  refine ⟨by simp, ?_, ?_⟩
  · rw [Ty.buildAll_concat hu hx, List.append_assoc]
    rfl
  · rw [Ty.allLeaves_append, hu, Ty.allLeaves, List.flatMap_singleton, List.nil_append]

/-- **What is held alike is written alike.** -/
theorem writePieces_pairs {ps : List (List StoredLeaf)} (h : Alike types ps es es') :
    (∀ p ∈ ps, IsPiece p) → (∀ l ∈ ps.flatten, l.type.IsLeaf) →
    ∀ {us us' : List Ty} {q : List Builder × Builder} {d d' : Nat}, Ty.allLeaves us = [] →
      Ty.allLeaves us' = [] →
      d + 1 + below.length = entry + (workStack (Ty.buildAll us [] ++ es) s q below).length →
      d' + 1 + below.length = entry + (workStack (Ty.buildAll us' [] ++ es') s q below).length →
      (writePieces entry ps ⟨us.map .value ++ heldFor ps, q.1.length + 1⟩).Pairs
        (writePieces entry ps ⟨us'.map .value ++ heldFor (ps.map (retype types)), q.1.length + 1⟩)
        d d' (workStack (Ty.buildAll us [] ++ es) s q below)
        (workStack (Ty.buildAll us' [] ++ es') s q below) (WroteAlike [] [] [] [] s below) := by
  induction h with
  | nil => exact fun _ _ us us' q d d' hu hu' _ _ => .pure ⟨q, us, us', hu, hu', rfl, rfl, rfl, rfl⟩
  | @picked p ps v xs es es' ho ht hx h ih =>
    intro hps hleaf us us' q d d' hu hu' hd hd'
    obtain ⟨hp, hps'⟩ := List.forall_mem_cons.1 hps
    obtain ⟨-, hleaf'⟩ := List.forall_mem_append.1 hleaf
    obtain ⟨-, htypes⟩ := hp.of_owner ho
    obtain ⟨h1, h2, h3⟩ := leftover_concat (heldFor ps) es hu hx
    obtain ⟨h1', h2', h3'⟩ := leftover_concat (heldFor (ps.map (retype types))) es' hu'
      (show xs.length = (v.retype types).type.leaves.length by rw [ht, hx])
    have hlen : xs.length = p.length := by rw [hx, ← htypes, List.length_map]
    rw [heldFor_picked ho, heldFor_retype_picked ho, h1, h1', h2, h2',
      writePieces_picked hp ho, writePieces_picked hp ho]
    rw [h2] at hd
    rw [h2'] at hd'
    refine (writeLeaves_pairs (heldFor ps) (heldFor (ps.map (retype types)))
      (h3.trans htypes.symm) (h3'.trans (ht.trans htypes.symm)) hlen hd hd').bind
      fun r t r' t' e e' hw he he' => ?_
    obtain ⟨q, us, us', hu, hu', rfl, rfl, rfl, rfl⟩ := hw
    exact ih hps' hleaf' hu hu' (by omega) (by omega)
  | @unpicked p ps zs es es' ho hz h ih =>
    intro hps hleaf us us' q d d' hu hu' hd hd'
    obtain ⟨hp, hps'⟩ := List.forall_mem_cons.1 hps
    obtain ⟨hleafp, hleaf'⟩ := List.forall_mem_append.1 hleaf
    rw [writePieces_unpicked hp ho, writePieces_unpicked hp ho]
    have hopen := (openBuilderFor_runs (us.map .value ++ heldFor (p :: ps)) p hd).pairs
      (openBuilderFor_runs (us'.map .value ++ heldFor ((p :: ps).map (retype types))) p hd')
    refine hopen.bind fun r t r' t' d1 d1' ht hd1 hd1' => ?_
    obtain ⟨⟨rfl, rfl⟩, rfl, rfl⟩ := ht
    generalize opened (opensCell p) q = q' at hd1 hd1' ⊢
    have hfails {us : List Ty} (hu : Ty.allLeaves us = []) (hne : us ≠ []) (held : List Held) :
        (copyPiece p (opensNext ps) (us.map .value ++ held)).Fails := by
      obtain ⟨u, us, rfl⟩ := List.exists_cons_of_ne_nil hne
      exact copyPiece_fails hp.ne_nil hleafp
        (List.append_eq_nil_iff.1 hu).1 _ _
    by_cases hne : us = []
    · by_cases hne' : us' = []
      · subst hne hne'
        rw [heldFor_unpicked ho, heldFor_retype_unpicked ho]
        change d1 + _ = _ + (workStack (zs ++ es) s q' below).length at hd1
        change d1' + _ = _ + (workStack (zs ++ es') s q' below).length at hd1'
        change Gen.Pairs _ _ d1 d1' (workStack (zs ++ es) s q' below)
          (workStack (zs ++ es') s q' below) _
        rw [workStack_append, workStack_append]
        refine (copyPiece_pairs _ _ hz).bind fun r t r' t' d2 d2' ht hd2 hd2' => ?_
        obtain ⟨rfl, rfl, b, rfl, rfl⟩ := ht
        refine @ih hps' hleaf' [] [] (q'.1, b) d2 d2' rfl rfl ?_ ?_
        · simp only [workStack, Ty.buildAll, List.nil_append, List.append_assoc,
            List.length_cons] at hd hd1 hd2 ⊢
          omega
        · simp only [workStack, Ty.buildAll, List.nil_append, List.append_assoc,
            List.length_cons] at hd' hd1' hd2' ⊢
          omega
      · exact (hfails hu' hne' _).bind.pairs_right
    · exact (hfails hu hne _).bind.pairs_left

end Write

/-! ### The two patches -/

section Update

variable {α α' : Type} {new : Nat → α → Gen α} {new' : Nat → α' → Gen α'} {types types' : List Ty}
  {p p' : Patch} {a : α} {a' : α'} {ys : List Value} {below : Stack}

/-- Two patches that visit the same leaves, the second under owners of types with the same
leaves. -/
structure Retyped (types types' : List Ty) (p p' : Patch) : Prop where
  visited : p'.visited = retype types' p.visited
  owned : Owned types p.visited
  isPiece : ∀ q ∈ pieces p.visited, IsPiece q
  isPiece' : ∀ q ∈ pieces p'.visited, IsPiece q
  leaves : ∀ v ∈ pickedVariables p.visited, (v.retype types').type.leaves = v.type.leaves
  isLeaf : ∀ l ∈ p.visited, l.type.IsLeaf

theorem Retyped.pieces (h : Retyped types types' p p') :
    pieces p'.visited = (pieces p.visited).map (retype types') := by
  rw [h.visited, pieces_retype h.owned]

theorem enterFirst_cuts (p : Patch) : Gen.Cuts p.enterFirst 0 := by
  unfold enterFirst
  split
  · exact enterLink_cuts
  · exact .pure

/-- **The two patches gather alike.** -/
theorem gather_pairs (h : Retyped types types' p p')
    (hy : ys.length = (p.visited.filter (·.picked)).length) {d : Nat}
    (hsup : Supplies new d below ((pickedVariables p.visited).map (·.index))
      (Ty.buildAll ((pickedVariables p.visited).map (·.type)) ys) a)
    (hsup' : Supplies new' d below ((pickedVariables p.visited).map (·.index))
      (Ty.buildAll ((pickedVariables p.visited).map (·.retype types' |>.type)) ys) a')
    (s : Slice) :
    (gather p new a).Pairs (gather p' new' a') d d (.slice s :: below) (.slice s :: below)
      fun r t r' t' => ∃ (q : Slice) (es es' : List Value),
        r.1 = heldFor (pieces p.visited) ∧ r'.1 = heldFor ((pieces p.visited).map (retype types')) ∧
        t = es ++ .slice q :: below ∧ t' = es' ++ .slice q :: below ∧
        Alike types' (pieces p.visited) es es' := by
  obtain ⟨hflat, hpieces, hst⟩ := stretches_spec h.isPiece
  obtain ⟨-, hpieces', hst'⟩ := stretches_spec h.isPiece'
  have hheld {d : Nat} {frame : Option Frame} {g} (hg : gatherStretches new (stretches p.visited) a
      frame d = .ok g) := gatherStretches_held hst hg
  have hheld' {d : Nat} {frame : Option Frame} {g} (hg : gatherStretches new'
      (stretches p'.visited) a' frame d = .ok g) := gatherStretches_held hst' hg
  rw [← hpieces] at hheld
  rw [← hpieces', h.pieces, h.visited, stretches_retype] at hheld'
  have hfirst : p'.enterFirst = p.enterFirst := by
    rw [enterFirst, enterFirst, h.visited, opensCell_retype]
  refine .depth_bind ?_
  rw [hfirst, h.visited, stretches_retype]
  refine ((enterFirst_cuts p).pairs s below below).bind fun _ t _ t' e e' ht he he' => ?_
  obtain ⟨q, xs, hx, rfl, rfl⟩ := ht
  obtain rfl := List.length_eq_zero_iff.1 hx
  rw [List.nil_append] at he he' ⊢
  have hleaves := h.leaves
  rw [pickedVariables_eq, hpieces] at hleaves hsup hsup'
  rw [← hflat] at hy
  have hd : e = d + ([] : Stack).length := by simpa using he
  have hd' : e' = d + ([] : Stack).length := by simpa using he'
  refine ((gatherStretches_pairs [] [] hst (by rw [hflat]; exact h.owned) hleaves hy hsup hsup' hd
    hd').values (fun r => r.1 = heldFor (pieces p.visited))
    (fun r => r.1 = heldFor ((pieces p.visited).map (retype types')))
    (fun _ _ _ hg => hheld hg) (fun _ _ _ hg => hheld' hg)).bind
    fun r t r' t' e2 e2' ht _ _ => ?_
  obtain ⟨hr, hr', q, es, es', rfl, rfl, halike⟩ := ht
  rw [← hpieces] at halike
  obtain ⟨hl, hl'⟩ := halike.length_eq
  have hreverse {es : List Value} (n : Nat) (hn : es.length = n) :
      (Gen.reverse (n + 1) 0).Turns (.slice q :: (es.reverse ++ below))
        (es ++ .slice q :: below) := by
    have h := Gen.Turns.reverse [] (.slice q :: es.reverse) (s := below) (j := 0)
      (n := n + 1) rfl (by simp [hn])
    simpa using h
  refine (Gen.Turns.ensureDepth _ _ _).bind_pairs (Gen.Turns.ensureDepth _ _ _)
    fun _ _ _ _ _ _ => ?_
  refine (hreverse r.1.length (by rw [hl, hr])).bind_pairs
    (hreverse r'.1.length (by rw [hl', hl, hr', length_heldFor_retype])) fun _ _ _ _ _ _ => .pure ?_
  exact ⟨q, es, es', hr, hr', rfl, rfl, halike⟩

/-- The same code on the same stack. -/
theorem linkBuilders_pairs : ∀ (n : Nat) (s : Stack) {d d' : Nat},
    (Gen.linkBuilders n).Pairs (Gen.linkBuilders n) d d' s s fun _ t _ t' => t = t'
  | 0, _, _, _ | 1, _, _, _ => .pure rfl
  | n + 2, s, _, _ => (Gen.Pairs.op rfl s).bind_same fun _ _ t _ _ => linkBuilders_pairs (n + 1) t

/-- What both sides do when the pieces have been written. Nothing may be left over. -/
theorem seal_pairs {s : Slice} {r r' : Progress} {t t' : Stack} {d d' : Nat}
    (h : WroteAlike [] [] [] [] s below r t r' t') (entry : Nat) :
    (do
      Gen.op .stSlice
      Gen.linkBuilders r.builders
      Gen.op .endc
      Gen.op .ctos
      if r.held.length > 0 then Gen.fail (.internal (.heldLeft r.held.length))
      Gen.ensureDepth entry "pack_data"
      return a : Gen α).Pairs (do
      Gen.op .stSlice
      Gen.linkBuilders r'.builders
      Gen.op .endc
      Gen.op .ctos
      if r'.held.length > 0 then Gen.fail (.internal (.heldLeft r'.held.length))
      Gen.ensureDepth entry "pack_data"
      return a' : Gen α') d d' t t' fun _ u _ u' => u = u' := by
  obtain ⟨q, us, us', -, -, rfl, rfl, rfl, rfl⟩ := h
  rcases us with _ | ⟨u, us⟩
  · rcases us' with _ | ⟨u', us'⟩
    · refine (Gen.Pairs.op rfl _).bind_same fun _ _ t _ _ => ?_
      refine (linkBuilders_pairs _ t).bind_same fun _ _ t _ _ => ?_
      refine (Gen.Pairs.op rfl t).bind_same fun _ _ t _ _ => ?_
      refine (Gen.Pairs.op rfl t).bind_same fun _ _ t _ _ => ?_
      change (do Gen.ensureDepth entry "pack_data"; return a : Gen α).Pairs
        (do Gen.ensureDepth entry "pack_data"; return a' : Gen α') _ _ t t _
      exact (Gen.Turns.ensureDepth _ _ t).bind_pairs (Gen.Turns.ensureDepth _ _ t)
        fun _ _ _ _ _ _ => .pure rfl
    · exact Gen.Fails.pairs_right <| .of_bind fun _ => .of_bind fun _ => .of_bind fun _ =>
        .of_bind fun _ => (Gen.Fails.fail _).bind
  · exact Gen.Fails.pairs_left <| .of_bind fun _ => .of_bind fun _ => .of_bind fun _ =>
      .of_bind fun _ => (Gen.Fails.fail _).bind

/-- **Updates with the same leaves do the same.** If the types of the picked variables are replaced
by others with the same leaves, and the new values have the same leaves, then on every slice the
code leaves the same or traps alike. -/
theorem update_pairs (h : Retyped types types' p p')
    (hy : ys.length = (p.visited.filter (·.picked)).length) {d : Nat}
    (hsup : Supplies new d below ((pickedVariables p.visited).map (·.index))
      (Ty.buildAll ((pickedVariables p.visited).map (·.type)) ys) a)
    (hsup' : Supplies new' d below ((pickedVariables p.visited).map (·.index))
      (Ty.buildAll ((pickedVariables p.visited).map (·.retype types' |>.type)) ys) a')
    (s : Slice) :
    (update p new a).Pairs (update p' new' a') d d (.slice s :: below) (.slice s :: below)
      fun _ t _ t' => t = t' := by
  refine .depth_bind ((Gen.Turns.require _ _ _).bind_pairs (Gen.Turns.require _ _ _)
    fun _ _ e e' he he' => ?_)
  obtain rfl : e = d := by omega
  obtain rfl : e' = e := by omega
  refine (gather_pairs h hy hsup hsup' s).bind fun r t r' t' d1 d1' ht hd1 hd1' => ?_
  obtain ⟨q, es, es', hr, hr', rfl, rfl, halike⟩ := ht
  refine (Gen.Turns.op rfl Op.run_newc).bind_pairs (Gen.Turns.op rfl Op.run_newc)
    fun _ _ d2 d2' hd2 hd2' => ?_
  have hleaf : ∀ l ∈ (pieces p.visited).flatten, l.type.IsLeaf := by
    rw [show (pieces p.visited).flatten = p.visited from List.flatten_splitBy ..]
    exact h.isLeaf
  have hd3 : d2 + 1 + below.length =
      e' + (workStack (Ty.buildAll [] [] ++ es) q ([], {}) below).length := by
    simp only [workStack, Gen.stacked, Ty.buildAll, List.nil_append, List.length_cons,
      List.length_append, List.map_nil] at hd1 hd2 ⊢
    omega
  have hd3' : d2' + 1 + below.length =
      e' + (workStack (Ty.buildAll [] [] ++ es') q ([], {}) below).length := by
    simp only [workStack, Gen.stacked, Ty.buildAll, List.nil_append, List.length_cons,
      List.length_append, List.map_nil] at hd1' hd2' ⊢
    omega
  have hnil : Ty.allLeaves [] = [] := rfl
  have hwrite := writePieces_pairs halike h.isPiece hleaf hnil hnil hd3 hd3'
  rw [← hr, ← hr'] at hwrite
  rw [h.pieces, writePieces_retype]
  exact hwrite.bind fun r t r' t' _ _ ht _ _ => seal_pairs ht e'

end Update

end Patch

end TypedCells
