import TypedCells.Proofs.Taking

/-!
# Taking data apart

To update data, a patch takes the visited leaves off a slice. What is not picked is held on the
stack as slices and values that can be written back (`Patch.Copied`); in the place of what is picked
are the new values. The stack then holds the pieces of the visited leaves in order (`Patch.Holds`),
with the contents that the updated data has.

* `Patch.gather_runs`: the code of `Patch.gather` does this on all data that can be read.
-/

namespace TypedCells

namespace Patch

variable {s s' : Slice} {e : Cell} {ws : List Written}

/-! ### Runs of picked leaves -/

theorem isChain_of_tail {α : Type} {R : α → α → Prop} {l : List α}
    (h : ∀ x ∈ l, ∀ y ∈ l.tail, R x y) : l.IsChain R :=
  List.IsChain.imp_of_mem_tail_imp (R := fun _ _ => True) (fun x y hx hy _ => h x hx y hy)
    (List.pairwise_of_forall fun _ _ => trivial).isChain

/-- Runs of picked leaves: each lies in one cell, and each but the first opens it. -/
structure AreRuns (rs : List (List StoredLeaf)) : Prop where
  ne_nil : ∀ r ∈ rs, r ≠ []
  oneCell : ∀ r ∈ rs, ∀ l ∈ r.tail, l.opensCell = false
  opens : ∀ r ∈ rs.tail, opensCell r = true

theorem AreRuns.tail {r : List StoredLeaf} {rs : List (List StoredLeaf)} (h : AreRuns (r :: rs)) :
    AreRuns rs :=
  ⟨fun q hq => h.ne_nil q (List.mem_cons_of_mem _ hq),
    fun q hq => h.oneCell q (List.mem_cons_of_mem _ hq),
    fun q hq => h.opens q (List.mem_of_mem_tail hq)⟩

theorem runs_picked : ∀ {ls : List StoredLeaf}, (∀ l ∈ ls, l.picked = true) → AreRuns (runs ls)
  | [], _ => ⟨by simp [runs], by simp [runs], by simp [runs]⟩
  | l :: ls, h => by
    have ih := runs_picked fun l hl => h l (List.mem_cons_of_mem _ hl)
    have hflat : (runs ls).flatten = ls := List.flatten_splitBy ..
    have hl := h l (List.mem_cons_self ..)
    simp only [runs, splitBy_cons] at ih ⊢
    rcases hrs : List.splitBy _ ls with _ | ⟨r, rs⟩
    · exact ⟨by simp, by simp, by simp⟩
    rw [hrs] at ih
    rw [runs, hrs] at hflat
    rcases r with _ | ⟨k, r⟩
    · exact absurd rfl (ih.ne_nil [] (List.mem_cons_self ..))
    have hk : k.picked = true := h k (List.mem_cons_of_mem _ (by simp [← hflat]))
    simp only [List.head?_cons, Option.all_some, hl, hk, beq_self_eq_true, Bool.and_true,
      Bool.not_eq_true']
    split
    · next hopen =>
      refine ⟨fun q hq => ?_, fun q hq => ?_, ih.opens⟩
      · rcases List.mem_cons.1 hq with rfl | hq
        · nofun
        · exact ih.ne_nil q (List.mem_cons_of_mem _ hq)
      · rcases List.mem_cons.1 hq with rfl | hq
        · intro m hm
          rcases List.mem_cons.1 hm with rfl | hm
          · exact hopen
          · exact ih.oneCell _ (List.mem_cons_self ..) m hm
        · exact ih.oneCell q (List.mem_cons_of_mem _ hq)
    · next hopen =>
      refine ⟨fun q hq => ?_, fun q hq => ?_, fun q hq => ?_⟩
      · rcases List.mem_cons.1 hq with rfl | hq
        · nofun
        · exact ih.ne_nil q hq
      · rcases List.mem_cons.1 hq with rfl | hq
        · simp
        · exact ih.oneCell q hq
      · rcases List.mem_cons.1 hq with rfl | hq
        · simpa [opensCell] using hopen
        · exact ih.opens q hq

theorem passRuns_turns {last : Bool} : ∀ {rs : List (List StoredLeaf)} {ls : List StoredLeaf}
    {s s' s'' : Slice} {xs : List Value} (stk : Stack), rs ≠ [] → AreRuns rs →
    Packing.Room 0 0 (rowOf (rs.flatten ++ ls)) → s.Valid →
    PackedLeaf.fetchAll (enteredRow rs.flatten) s = .ok (xs, s') → stepTo last s' = .ok s'' →
    (passRuns last rs).Turns (.slice s :: stk) (.slice s'' :: stk)
  | [], _, _, _, _, _, _, hne, _, _, _, _, _ => absurd rfl hne
  | [r], ls, s, s', s'', xs, stk, _, hrs, hroom, hs, h, hf => by
    rw [List.flatten_singleton] at h hroom
    have hc := inCell_of_room (hrs.oneCell r (List.mem_cons_self ..)) hroom
    exact (passRun_turns hc hs h hf stk).trans fun _ => .pure _ _
  | r :: r' :: rs, ls, s, s', s'', xs, stk, _, hrs, hroom, hs, h, hf => by
    rw [List.flatten_cons] at h hroom
    rw [List.append_assoc] at hroom
    have hc := inCell_of_room (hrs.oneCell r (List.mem_cons_self ..)) hroom
    rw [enteredRow_append (hrs.ne_nil r (List.mem_cons_self ..))] at h
    obtain ⟨ys, zs, q, h1, h2, rfl⟩ := PackedLeaf.fetchAll_append_eq_ok h
    obtain ⟨q', hq, h3⟩ := fetchAll_rowOf h2
    have hopen : opensCell (r' :: rs).flatten = true := by
      rw [← opensNext_eq hrs.tail.ne_nil]
      exact hrs.opens r' (List.mem_cons_self ..)
    rw [hopen] at hq
    have hqv := stepTo_valid (PackedLeaf.fetchAll_valid hs h1).2 hq
    have hroom' : Packing.Room 0 0 (rowOf ((r' :: rs).flatten ++ ls)) := by
      rw [rowOf_append] at hroom
      exact hroom.drop
    exact (passRun_turns hc hs h1 hq stk).trans fun _ =>
      passRuns_turns stk (List.cons_ne_nil _ _) hrs.tail hroom' hqv h3 hf

/-! ### Stretches -/

/-- Leaves that are taken off a slice together: picked ones, or a piece that is not picked. -/
structure IsStretch (ls : List StoredLeaf) : Prop where
  ne_nil : ls ≠ []
  isPiece : ∀ p ∈ pieces ls, IsPiece p
  uniform : (∀ l ∈ ls, l.picked = true) ∨
    (∀ l ∈ ls, l.picked = false) ∧ ∀ l ∈ ls.tail, l.opensCell = false

/-- Whether a leaf is in the same stretch as the one before. -/
def sameStretch (l l' : StoredLeaf) : Bool := l.picked == l'.picked && (l.picked || !l'.opensCell)

/-- The pieces of the stretches are the pieces of all leaves. -/
theorem pieces_flatten : ∀ {sts : List (List StoredLeaf)}, [] ∉ sts →
    sts.IsChain (fun a b => ∃ ha hb, sameStretch (a.getLast ha) (b.head hb) = false) →
    pieces sts.flatten = sts.flatMap pieces
  | [], _, _ => rfl
  | st :: sts, hn, hb => by
    have hn' : [] ∉ sts := fun h => hn (List.mem_cons_of_mem _ h)
    rw [List.isChain_cons] at hb
    rw [List.flatten_cons, List.flatMap_cons, ← pieces_flatten hn' hb.2]
    refine List.splitBy_append fun x hx y hy => ?_
    rcases sts with _ | ⟨st', sts⟩
    · simp at hy
    rcases st' with _ | ⟨z, st'⟩
    · simp at hn'
    obtain rfl : z = y := by simpa using hy
    obtain ⟨ha, _, h⟩ := hb.1 _ rfl
    rw [List.getLast?_eq_getLast_of_ne_nil ha] at hx
    obtain rfl := Option.mem_some.1 hx
    rw [sameStretch, Bool.and_eq_false_iff] at h
    rw [Bool.and_eq_false_iff]
    refine h.imp (fun hne => ?_) id
    rw [beq_eq_false_iff_ne] at hne ⊢
    exact fun ho => hne (congrArg Option.isSome ho)

theorem uniform_of_isChain : ∀ {st : List StoredLeaf},
    st.IsChain (fun l l' => sameStretch l l' = true) →
    (∀ l ∈ st, l.picked = true) ∨
      (∀ l ∈ st, l.picked = false) ∧ ∀ l ∈ st.tail, l.opensCell = false
  | [], _ => .inl (by simp)
  | [l], _ => by
    rcases hl : l.picked with _ | _
    · exact .inr ⟨by simpa using hl, by simp⟩
    · exact .inl (by simpa using hl)
  | l :: k :: st, h => by
    rw [List.isChain_cons_cons, sameStretch, Bool.and_eq_true, beq_iff_eq, Bool.or_eq_true,
      Bool.not_eq_true'] at h
    obtain ⟨⟨hlk, ho⟩, h⟩ := h
    rcases uniform_of_isChain h with hp | ⟨hp, hc⟩
    · refine .inl fun m hm => ?_
      rcases List.mem_cons.1 hm with rfl | hm
      · rw [hlk]
        exact hp k (List.mem_cons_self ..)
      · exact hp m hm
    · have hk := hp k (List.mem_cons_self ..)
      refine .inr ⟨fun m hm => ?_, fun m hm => ?_⟩
      · rcases List.mem_cons.1 hm with rfl | hm
        · rw [hlk, hk]
        · exact hp m hm
      · rcases List.mem_cons.1 hm with rfl | hm
        · exact ho.resolve_left (by simp [hlk, hk])
        · exact hc m hm

/-- **The stretches of leaves that are cut into pieces are uniform,** and their pieces are those of
the leaves. -/
theorem stretches_spec {ls : List StoredLeaf} (h : ∀ p ∈ pieces ls, IsPiece p) :
    (stretches ls).flatten = ls ∧ pieces ls = (stretches ls).flatMap pieces ∧
      ∀ st ∈ stretches ls, IsStretch st := by
  have hflat : (stretches ls).flatten = ls := List.flatten_splitBy ..
  have hn : [] ∉ stretches ls := List.nil_notMem_splitBy _ _
  have hp := pieces_flatten hn (List.isChain_getLast_head_splitBy sameStretch ls)
  rw [hflat] at hp
  refine ⟨hflat, hp, fun st hst => ⟨fun h => hn (h ▸ hst), fun p hp' => h p ?_,
    uniform_of_isChain (List.isChain_of_mem_splitBy hst)⟩⟩
  rw [hp]
  exact List.mem_flatMap.2 ⟨st, hst, hp'⟩

/-- The next piece starts where the next stretch does. -/
theorem opensNext_flatMap {sts : List (List StoredLeaf)} (h : ∀ st ∈ sts, IsStretch st) :
    opensNext (sts.flatMap pieces) = opensCell sts.flatten := by
  have hflat : (sts.flatMap pieces).flatten = sts.flatten := by
    induction sts with
    | nil => rfl
    | cons st sts ih =>
      rw [List.flatMap_cons, List.flatten_append,
        ih fun st hst => h st (List.mem_cons_of_mem _ hst), List.flatten_cons]
      exact congrArg (· ++ sts.flatten) (List.flatten_splitBy ..)
  rw [← hflat]
  refine opensNext_eq fun p hp => ?_
  obtain ⟨st, hst, hp⟩ := List.mem_flatMap.1 hp
  exact ((h st hst).isPiece p hp).ne_nil

/-- A stretch that is not picked is a piece. -/
theorem pieces_unpicked {st : List StoredLeaf} (hne : st ≠ []) (ho : ∀ l ∈ st, l.picked = false)
    (hc : ∀ l ∈ st.tail, l.opensCell = false) : pieces st = [st] := by
  refine List.splitBy_of_isChain hne (isChain_of_tail fun x hx y hy => ?_)
  have h1 := owner_of_unpicked ho x hx
  have h2 := owner_of_unpicked ho y (List.mem_of_mem_tail hy)
  simp [h1, h2, hc y hy]

/-! ### The new values -/

variable {α : Type} {new : Nat → α → Gen α}

/-- The code for the new values of variables, given by their indices, leaves these values on the
stack in turn, when it runs on entries above `below`, where the slice was `entry` entries high. It
takes nothing off the stack, and the code for a value may depend on what the code before gave. -/
def Supplies (new : Nat → α → Gen α) (entry : Nat) (below : Stack) :
    List Nat → List Value → α → Prop
  | i :: is, x :: xs, a => ∀ (d : Nat) (top : Stack), d + 1 = entry + top.length →
    (new i a).Runs d (top ++ below) fun a' t =>
      t = x :: (top ++ below) ∧ Supplies new entry below is xs a'
  | _, _, _ => True

theorem provide_runs {entry d : Nat} {below top : Stack} {v : Variable} {is : List Nat} {x : Value}
    {xs : List Value} {a : α} (h : Supplies new entry below (v.index :: is) (x :: xs) a)
    (hd : d + 1 = entry + top.length) :
    (provide new v a).Runs d (top ++ below) fun a' t =>
      t = x :: (top ++ below) ∧ Supplies new entry below is xs a' :=
  Gen.Runs.depth_bind <| (h d top hd).bind fun _ t _ ht _ =>
    (Gen.Turns.ensureDepth _ _ t).bind fun _ _ _ => .pure ht

/-- The code for the new values of several variables. -/
theorem provideEach_runs {entry : Nat} {below : Stack} : ∀ {vs : List Variable} {xs : List Value}
    {is : List Nat} {ys : List Value} {a : α} {d : Nat} (top : Stack), xs.length = vs.length →
    Supplies new entry below (vs.map (·.index) ++ is) (xs ++ ys) a →
    d + 1 = entry + top.length →
    (provideEach new vs a).Runs d (top ++ below) fun a' t =>
      t = xs.reverse ++ (top ++ below) ∧ Supplies new entry below is ys a'
  | [], [], _, _, _, _, _, _, h, _ => .pure ⟨rfl, h⟩
  | v :: vs, x :: xs, is, ys, a, d, top, hl, h, hd =>
    (provide_runs h hd).bind fun a' t d' ht hd' => by
      obtain ⟨rfl, hs⟩ := ht
      have hd'' : d' + 1 = entry + (x :: top).length := by
        simp only [List.length_append, List.length_cons] at hd' ⊢
        omega
      refine (provideEach_runs (x :: top) (Nat.succ.inj hl) hs hd'').mono fun a' t ht => ?_
      rw [List.reverse_cons, List.append_assoc]
      exact ht

/-! ### Replacing a stretch -/

section Replace

variable {entry d : Nat} {below acc : Stack} {st rest : List StoredLeaf} {nextOpens : Bool} {a : α}
  {s' s'' : Slice} {xs zs ys : List Value} {is : List Nat}

/-- The runs of a picked stretch are passed over, and the new values go under the slice. -/
theorem replaceRuns_runs (hne : st ≠ []) (hpick : ∀ l ∈ st, l.picked = true)
    (hroom : Packing.Room 0 0 (rowOf (st ++ rest))) (hs : s.Valid)
    (hf : PackedLeaf.fetchAll (enteredRow st) s = .ok (xs, s'))
    (hstep : stepTo nextOpens s' = .ok s'') (hz : zs.length = (pickedVariables st).length)
    (hsup : Supplies new entry below ((pickedVariables st).map (·.index) ++ is) (zs ++ ys) a)
    (hd : d = entry + acc.length) :
    (do
      passRuns nextOpens (runs st)
      let a ← provideEach new (pickedVariables st) a
      Gen.blkSwap 1 (pickedVariables st).length
      return a : Gen α).Runs d (.slice s :: (acc ++ below)) fun a' t =>
        t = .slice s'' :: (zs.reverse ++ (acc ++ below)) ∧ Supplies new entry below is ys a' := by
  have hflat : (runs st).flatten = st := List.flatten_splitBy ..
  have hruns : runs st ≠ [] := fun h => hne (by rw [← hflat, h]; rfl)
  refine (passRuns_turns (acc ++ below) hruns (runs_picked hpick) (by rwa [hflat]) hs
    (by rwa [hflat]) hstep).bind fun _ d' hd' => ?_
  refine (provideEach_runs (.slice s'' :: acc) hz hsup ?_).bind fun a' t d'' ht _ => ?_
  · simp only [List.length_cons, List.length_append] at hd' ⊢
    omega
  · obtain ⟨rfl, hs'⟩ := ht
    have hswap := Gen.Turns.blkSwap zs.reverse [.slice s''] (s := acc ++ below) (i := 1)
      (List.length_reverse.trans hz) rfl
    simp only [List.append_assoc, List.cons_append, List.nil_append] at hswap
    exact hswap.bind fun _ _ _ => .pure ⟨rfl, hs'⟩

/-- A picked leaf on its own is read, and the new value takes the place of what was read. -/
theorem replaceLeaf_runs {l : StoredLeaf} {v : Variable} {x z : Value}
    (hload : l.type.load s = .ok (x, s'))
    (hsup : Supplies new entry below (v.index :: is) (z :: ys) a) (hd : d = entry + acc.length) :
    (do
      Gen.op (.load l.type)
      let a ← provide new v a
      Gen.pop 2
      return a : Gen α).Runs d (.slice s :: (acc ++ below)) fun a' t =>
        t = .slice s' :: z :: (acc ++ below) ∧ Supplies new entry below is ys a' := by
  refine Gen.Turns.bind (t := .slice s' :: x :: (acc ++ below)) (.op rfl (by simp [hload]))
    fun _ d' hd' => ?_
  have hd'' : d' + 1 = entry + (.slice s' :: x :: acc : Stack).length := by
    simp only [List.length_cons, List.length_append] at hd' ⊢
    omega
  refine (provide_runs hsup hd'').bind fun a' t _ ht _ => ?_
  obtain ⟨rfl, hs'⟩ := ht
  have hpop : (Gen.pop 2).Turns (z :: .slice s' :: x :: (acc ++ below))
      (.slice s' :: z :: (acc ++ below)) :=
    (Gen.Turns.operand 2 _).trans fun _ => .op rfl (Op.run_pop_two ..)
  exact hpop.bind fun _ _ _ => .pure ⟨rfl, hs'⟩

/-- The new values of a picked stretch take the place of its leaves. -/
theorem replaceStretch_runs (hne : st ≠ []) (hpick : ∀ l ∈ st, l.picked = true)
    (hroom : Packing.Room 0 0 (rowOf (st ++ rest))) (hs : s.Valid)
    (hf : PackedLeaf.fetchAll (enteredRow st) s = .ok (xs, s'))
    (hstep : stepTo nextOpens s' = .ok s'') (hz : zs.length = (pickedVariables st).length)
    (hsup : Supplies new entry below ((pickedVariables st).map (·.index) ++ is) (zs ++ ys) a)
    (hd : d = entry + acc.length) :
    (replaceStretch new st nextOpens a).Runs d (.slice s :: (acc ++ below)) fun a' t =>
      t = .slice s'' :: (zs.reverse ++ (acc ++ below)) ∧ Supplies new entry below is ys a' := by
  have hgeneral := replaceRuns_runs hne hpick hroom hs hf hstep hz hsup hd
  unfold replaceStretch
  generalize pickedVariables st = vs at hz hsup hgeneral ⊢
  simp only
  split
  · next leaf v =>
    obtain ⟨z, rfl⟩ := List.length_eq_one_iff.1 hz
    obtain rfl := Except.ok.inj hstep
    simp only [enteredRow, List.map_cons, List.map_nil, PackedLeaf.entered] at hf
    obtain ⟨x, _, r, hfetch, hnil, rfl⟩ := PackedLeaf.fetchAll_cons_eq_ok hf
    obtain ⟨-, rfl⟩ := Prod.mk.inj (Except.ok.inj hnil)
    obtain ⟨q, hq, hload, -⟩ := PackedLeaf.fetch_eq_ok hfetch
    obtain rfl := Except.ok.inj hq
    exact replaceLeaf_runs hload hsup hd
  · exact hgeneral

end Replace

/-! ### Gathering -/

variable {safe : Prop}

/-- The stretches have been taken off a slice that showed the contents `ws` and then `e`, and the
new contents `ns` have taken the place of the picked ones: the stack `t` is the rest of the slice
over what is held of the pieces, the first lowest, over `stk`. -/
def Gathered (safe : Prop) (sts : List (List StoredLeaf)) (ns ws : List Written) (e : Cell)
    (held : List Held) (stk t : Stack) : Prop :=
  ∃ s ws' es, t = .slice s :: (es.reverse ++ stk) ∧ s.Valid ∧ s.toCell = e ∧
    Holds safe (sts.flatMap pieces) ns ws ws' held es

/-- A stretch in front of the pieces `ps` has been taken off a slice that showed the contents `us`
and then `c`, and the new contents `ms` have taken the place of the picked ones: the stack `t` is
the rest of the slice over what is held of the stretch, over `stk`. -/
def Turned (safe : Prop) (st : List StoredLeaf) (ps : List (List StoredLeaf))
    (ms us : List Written) (c : Cell) (held : List Held) (stk t : Stack) : Prop :=
  ∃ s vs zs, t = .slice s :: (zs.reverse ++ stk) ∧ s.Valid ∧ s.toCell = c ∧
    ∀ ⦃ns ws ws' : List Written⦄ ⦃held' : List Held⦄ ⦃es : List Value⦄,
      Holds safe ps ns ws ws' held' es →
      Holds safe (pieces st ++ ps) (ms ++ ns) (us ++ ws) (vs ++ ws') (held ++ held') (zs ++ es)

/-- A stretch in front of those that are gathered above it. -/
theorem Gathered.cons {st : List StoredLeaf} {sts : List (List StoredLeaf)}
    {ms ns us ws vs : List Written} {held held' : List Held} {zs : List Value} {stk t : Stack}
    (h : Gathered safe sts ns ws e held' (zs.reverse ++ stk) t)
    (hholds : ∀ ⦃ns ws ws' : List Written⦄ ⦃held' : List Held⦄ ⦃es : List Value⦄,
      Holds safe (sts.flatMap pieces) ns ws ws' held' es →
        Holds safe (pieces st ++ sts.flatMap pieces) (ms ++ ns) (us ++ ws) (vs ++ ws')
          (held ++ held') (zs ++ es)) :
    Gathered safe (st :: sts) (ms ++ ns) (us ++ ws) e (held ++ held') stk t := by
  obtain ⟨s, ws', es, rfl, hs, he, h⟩ := h
  refine ⟨s, vs ++ ws', zs ++ es, by simp, hs, he, ?_⟩
  rw [List.flatMap_cons]
  exact hholds h

theorem opens_eq {ls : List StoredLeaf} (h : ws.map (·.leaf) = rowOf ls) :
    Written.opens ws = opensCell ls := by
  cases ls with
  | nil =>
    obtain rfl := List.map_eq_nil_iff.1 h
    rfl
  | cons l ls =>
    obtain ⟨w, ws, rfl⟩ : ∃ w ws', ws = w :: ws' := by
      cases ws with
      | nil => simp [rowOf] at h
      | cons w ws => exact ⟨w, ws, rfl⟩
    simp only [rowOf, List.map_cons, List.cons.injEq] at h
    simp [Written.opens, opensCell, h.1]

theorem oneCell_of_leaf {ls : List StoredLeaf} (h : ws.map (·.leaf) = rowOf ls)
    (hc : ∀ l ∈ ls.tail, l.opensCell = false) : ∀ w ∈ ws.tail, w.leaf.opensCell = false := by
  intro w hw
  have hmem := List.mem_map_of_mem (f := (·.leaf)) hw
  rw [List.map_tail, h, rowOf, ← List.map_tail] at hmem
  obtain ⟨l, hl, he⟩ := List.mem_map.1 hmem
  rw [← he]
  exact hc l hl

/-- The variables that picked pieces are part of have the types of their leaves. -/
theorem picked_types {ps : List (List StoredLeaf)} (hps : ∀ p ∈ ps, IsPiece p)
    (hpick : ∀ l ∈ ps.flatten, l.picked = true) :
    Ty.allLeaves ((ps.filterMap ownerOf).map (·.type)) = ps.flatten.map (·.type) := by
  refine pickedInduction (P := fun ps =>
    Ty.allLeaves ((ps.filterMap ownerOf).map (·.type)) = ps.flatten.map (·.type)) rfl
    (fun {p ps v} hne ho ht ih => ?_) hps hpick
  rw [List.filterMap_cons, ownerOf_eq hne ho, List.map_cons, Ty.allLeaves, List.flatMap_cons,
    List.flatten_cons, List.map_append, ht]
  exact congrArg (v.type.leaves ++ ·) ih

section Stretch

variable {st ls : List StoredLeaf} {ps : List (List StoredLeaf)} {us us' : List Written}

/-- A stretch that is not picked is taken off, and the slice then is at the next leaf. -/
theorem takeStretch_runs (hne : st ≠ []) (hunpick : ∀ l ∈ st, l.picked = false)
    (hc : ∀ l ∈ st.tail, l.opensCell = false) (hroom : Packing.Room 0 0 (rowOf (st ++ ls)))
    (hps : opensNext ps = opensCell ls) (hold : Olds st us) (hdoc : safe → DocumentedRow st)
    (hl : us'.map (·.leaf) = rowOf ls) (hs : s.Valid)
    (h : s.toCell = Written.weave (Written.entered us) (Written.weave us' e)) (stk : Stack)
    (d : Nat) :
    (if opensCell ls then takeCell st else takeFragments (fragments st)).RunsIf safe d
      (.slice s :: stk) fun _ t => Turned safe st ps [] us
        (Written.weave (Written.entered us') e) (heldOf st (opensCell ls)) stk t := by
  have hin := inCell_of_room hc hroom
  have ho := owner_of_unpicked hunpick
  have hopens := opens_eq hl
  rw [Written.weave_entered_row (oneCell_of_leaf hold.leaf hc)] at h
  cases hopen : opensCell ls with
  | true =>
    rw [hopen] at hopens hps
    rw [Written.weave_of_opens hopens] at h
    refine (takeCell_runs hin hold hdoc hs h stk d).mono fun _ t ht => ?_
    obtain ⟨x, hx, hxc, rfl⟩ := ht
    refine ⟨_, us, [.slice x], rfl, Slice.valid_ofCell _, Slice.toCell_ofCell _,
      fun ns ws ws' held es hh => ?_⟩
    rw [pieces_unpicked hne hunpick hc]
    exact .whole hne ho hc hps hold hx hxc hh
  | false =>
    rw [hopen] at hopens hps
    rw [Written.weave_of_not_opens hopens] at h
    obtain ⟨vs, hvs⟩ := exists_retaken hold.stored fun hs =>
      (hdoc hs).written hold.leaf
    obtain ⟨ks, hf, rfl, rfl, hraw, hv⟩ := exists_chunks
      (fun w w' hw hfix => ⟨hw.stored.reads, hw.fixed hfix⟩) hvs (types_of_row hold.leaf)
    have hfit := hin.fitCell
    rw [← hf] at hfit
    obtain ⟨es, hcopy, ht⟩ := takeFragments_turns stk hraw hv hfit hs h
    rw [hf] at hcopy ht
    refine (ht d).runsIf.mono fun _ t ht => ?_
    subst ht
    refine ⟨_, ks.flatMap (·.news), es, rfl, hs.past h, Slice.toCell_past h,
      fun ns ws ws' held zs hh => ?_⟩
    rw [pieces_unpicked hne hunpick hc, heldOf_parts]
    exact .parts hne ho hc hps hold hcopy hh

/-- The new values of a picked stretch take the place of its leaves, and the slice then is at the
next leaf. -/
theorem replaceStretch_turned (ps : List (List StoredLeaf)) {entry d : Nat} {below acc : Stack}
    {vs : List Variable} {ms : List Written} {xs ys : List Value} {a : α} (hst : IsStretch st)
    (hpick : ∀ l ∈ st, l.picked = true) (hroom : Packing.Room 0 0 (rowOf (st ++ ls)))
    (hold : Olds st us) (hl : us'.map (·.leaf) = rowOf ls) (hnew : News safe st ms xs)
    (hs : s.Valid) (h : s.toCell = Written.weave (Written.entered us) (Written.weave us' e))
    (hsup : Supplies new entry below (((pieces st).filterMap ownerOf ++ vs).map (·.index))
      (Ty.buildAll (((pieces st).filterMap ownerOf ++ vs).map (·.type)) (xs ++ ys)) a)
    (hd : d = entry + acc.length) :
    (replaceStretch new st (opensCell ls) a).Runs d (.slice s :: (acc ++ below)) fun a' t =>
      Turned safe st ps ms us (Written.weave (Written.entered us') e)
        ((pickedVariables st).map (.value ·.type)) (acc ++ below) t ∧
      Supplies new entry below (vs.map (·.index)) (Ty.buildAll (vs.map (·.type)) ys) a' := by
  have hflat : (pieces st).flatten = st := List.flatten_splitBy ..
  have hpick' : ∀ l ∈ (pieces st).flatten, l.picked = true := by rwa [hflat]
  have hlen := congrArg List.length (picked_types hst.isPiece hpick')
  rw [hflat, List.length_map, ← hnew.length_eq.2] at hlen
  rw [List.map_append, List.map_append, Ty.buildAll_append_all hlen.symm,
    ← pickedVariables_eq] at hsup
  obtain ⟨_, r, hf, hr, hre⟩ := fetchAll_entered hold.leaf hold.reads hs h
  obtain ⟨q, hq, hqv, hqe⟩ := stepTo_weave hr hre
  rw [opens_eq hl] at hq
  refine (replaceStretch_runs hst.ne_nil hpick hroom hs hf hq (by simp) hsup hd).mono
    fun a' t ht => ?_
  obtain ⟨rfl, hsup'⟩ := ht
  refine ⟨⟨q, ms, _, rfl, hqv, hqe, fun _ _ _ _ _ hh => ?_⟩, hsup'⟩
  rw [← hflat] at hnew hold
  rw [pickedVariables_eq]
  exact hh.news hst.isPiece hpick' hold hnew

end Stretch

/-- **Gathering leaves the pieces on the stack.** The code takes apart all data that can be read,
and the new values take the place of the picked leaves. -/
theorem gatherStretches_runs {entry : Nat} {below : Stack} : ∀ {sts : List (List StoredLeaf)}
    {s : Slice} {ws ns : List Written} {ys : List Value} {a : α} {d : Nat} (acc : Stack),
    (∀ st ∈ sts, IsStretch st) → Packing.Room 0 0 (rowOf sts.flatten) → Olds sts.flatten ws →
    (safe → DocumentedRow sts.flatten) →
    News safe (sts.flatten.filter (·.picked)) ns ys → s.Valid →
    s.toCell = Written.weave (Written.entered ws) e →
    Supplies new entry below (((sts.flatMap pieces).filterMap ownerOf).map (·.index))
      (Ty.buildAll (((sts.flatMap pieces).filterMap ownerOf).map (·.type)) ys) a →
    d = entry + acc.length →
    (gatherStretches new sts a).RunsIf safe d (.slice s :: (acc ++ below)) fun r t =>
      Gathered safe sts ns ws e r.1 (acc ++ below) t
  | [], s, ws, ns, ys, a, d, acc, _, _, hold, _, hnew, hs, h, _, _ => by
    obtain rfl := List.length_eq_zero_iff.1 hold.length_eq
    obtain rfl := List.length_eq_zero_iff.1 hnew.length_eq.1
    exact .pure ⟨s, [], [], rfl, hs, h, .nil⟩
  | st :: sts, s, ws, ns, ys, a, d, acc, hst, hroom, hold, hdoc, hnew, hs, h, hsup, hd => by
    have hst1 := hst st (List.mem_cons_self ..)
    have hsts : ∀ st ∈ sts, IsStretch st := fun st hst' => hst st (List.mem_cons_of_mem _ hst')
    have hnext := opensNext_eq fun st hst' => (hsts st hst').ne_nil
    rw [List.flatten_cons] at hold hdoc hnew hroom
    rw [List.flatMap_cons, List.filterMap_append] at hsup
    have hdoc' (hs : safe) := (documentedRow_append.1 (hdoc hs)).2
    obtain ⟨us, us', rfl, hold1, hold2⟩ := hold.append
    have hroom' : Packing.Room 0 0 (rowOf sts.flatten) := by
      rw [rowOf_append] at hroom
      exact hroom.drop
    have hus : us ≠ [] := fun hnil => hst1.ne_nil (List.length_eq_zero_iff.1
      (by rw [← hold1.length_eq, hnil]; rfl))
    rw [Written.weave_entered_append hus] at h
    rw [List.filter_append] at hnew
    have hrest {ms ns : List Written} {ys : List Value} {held : List Held} {a : α} {t : Stack}
        {d' : Nat} (ht : Turned safe st (sts.flatMap pieces) ms us
          (Written.weave (Written.entered us') e) held (acc ++ below) t)
        (hnew : News safe (sts.flatten.filter (·.picked)) ns ys)
        (hsup : Supplies new entry below (((sts.flatMap pieces).filterMap ownerOf).map (·.index))
          (Ty.buildAll (((sts.flatMap pieces).filterMap ownerOf).map (·.type)) ys) a)
        (hd' : d' + (.slice s :: (acc ++ below)).length = d + t.length) :
        (gatherStretches new sts a >>= fun r => pure (held ++ r.1, r.2)).RunsIf safe d' t fun r t =>
          Gathered safe (st :: sts) (ms ++ ns) (us ++ us') e r.1 (acc ++ below) t := by
      obtain ⟨q, vs, zs, rfl, hqv, hqe, hholds⟩ := ht
      rw [← List.append_assoc] at hd' ⊢
      refine (gatherStretches_runs (zs.reverse ++ acc) hsts hroom' hold2 hdoc' hnew hqv hqe hsup
        ?_).bind fun x t _ ht _ => .pure ?_
      · simp only [List.length_append, List.length_cons] at hd' ⊢
        omega
      · rw [List.append_assoc] at ht
        exact ht.cons hholds
    rw [gatherStretches, hnext]
    rcases hst1.uniform with hpick | ⟨hunpick, hc⟩
    · rw [List.filter_eq_self.2 hpick] at hnew
      obtain ⟨ms, ms', xs, xs', rfl, rfl, hnew1, hnew2⟩ := hnew.append
      rw [if_pos (any_head_picked hst1.ne_nil hpick)]
      have hturn := replaceStretch_turned (sts.flatMap pieces) hst1 hpick hroom hold1 hold2.leaf
        hnew1 hs h hsup hd
      exact hturn.runsIf.bind fun a' t d' ht hd' => hrest ht.1 hnew2 ht.2 hd'
    · rw [pieces_unpicked hst1.ne_nil hunpick hc, List.filterMap_cons,
        ownerOf_eq hst1.ne_nil (owner_of_unpicked hunpick)] at hsup
      rw [List.filter_eq_nil_iff.2 (by simpa using hunpick), List.nil_append] at hnew
      rw [if_neg (by simp [any_head_picked hst1.ne_nil hunpick])]
      have hturn := takeStretch_runs hst1.ne_nil hunpick hc hroom (opensNext_flatMap hsts) hold1
        (fun hs => (documentedRow_append.1 (hdoc hs)).1) hold2.leaf hs h (acc ++ below) d
      exact hturn.ite_bind fun _ t d' ht hd' => hrest ht hnew hsup hd'

/-- **All visited leaves are taken off the slice,** and the stack holds their pieces over it. -/
theorem gather_runs {p : Patch} {ns : List Written} {ys : List Value} {a : α} {d : Nat}
    {below : Stack} (hps : ∀ q ∈ pieces p.visited, IsPiece q)
    (hroom : Packing.Room 0 0 (rowOf p.visited)) (hold : Olds p.visited ws)
    (hdoc : safe → DocumentedRow p.visited)
    (hnew : News safe (p.visited.filter (·.picked)) ns ys) (hs : s.Valid)
    (h : s.toCell = Written.weave ws e)
    (hsup : Supplies new d below ((pickedVariables p.visited).map (·.index))
      (Ty.buildAll ((pickedVariables p.visited).map (·.type)) ys) a) :
    (gather p new a).RunsIf safe d (.slice s :: below) fun r t =>
      ∃ s' ws' es, t = es ++ .slice s' :: below ∧ s'.Valid ∧ s'.toCell = e ∧
        Holds safe (pieces p.visited) ns ws ws' r.1 es := by
  obtain ⟨hflat, hpieces, hst⟩ := stretches_spec hps
  rw [pickedVariables_eq, hpieces] at hsup
  rw [← hflat] at hroom hold hdoc hnew
  obtain ⟨r, hr, hrv, hrc⟩ := stepTo_weave hs h
  rw [opens_eq hold.leaf, hflat] at hr
  refine Gen.RunsIf.depth_bind ?_
  refine (enterFirst_turns hr below).bindIf fun _ d2 hd2 => ?_
  refine (gatherStretches_runs [] hst hroom hold hdoc hnew hrv hrc hsup ?_).bind
    fun x t d3 ht hd3 => ?_
  · simp only [List.length_cons, List.length_nil] at hd2 ⊢
    omega
  · obtain ⟨s', ws', es, rfl, hs', he, hholds⟩ := ht
    rw [← hpieces] at hholds
    have hreverse : (Gen.reverse (x.1.length + 1) 0).Turns (.slice s' :: (es.reverse ++ below))
        (es ++ .slice s' :: below) := by
      have h := Gen.Turns.reverse [] (.slice s' :: es.reverse) (s := below) (j := 0)
        (n := x.1.length + 1) rfl (by simp [hholds.length_eq])
      simpa using h
    exact (Gen.Turns.ensureDepth _ _ _).bindIf fun _ _ _ => hreverse.bindIf fun _ _ _ =>
      .pure ⟨s', ws', es, rfl, hs', he, hholds⟩

end Patch

end TypedCells
