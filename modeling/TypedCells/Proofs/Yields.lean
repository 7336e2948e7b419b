import TypedCells.Patch.Unpack
import TypedCells.Proofs.Decoders
import TypedCells.Proofs.Pieces

/-!
# Generators that give code

A generator checks what it is asked for and, over and over, its own work. Where all of this is in
order, one check is left that can fail: an instruction cannot take every number as an operand. So a
generator gives code, at a height that goes with the result, or it says that a number is too large
(`Gen.Yields`).

* `Gen.read_yields`: reading a value whose leaves are the next ones at a position.
* `Patch.unpack_moves`: reading the picked variables of a patch.
-/

namespace TypedCells

namespace Gen

variable {α β : Type} {frame : Option Frame} {d d' i j m n : Nat}

/-- At the height `d` the generator gives code, with a result and a height that go together, unless
a number is too large for an operand. -/
def Yields (x : Gen α) (frame : Option Frame) (d : Nat) (post : α → Nat → Prop) : Prop :=
  (∃ g, x frame d = .ok g ∧ post g.value g.depth) ∨
    ∃ n, 255 < n ∧ x frame d = .error (.internal (.operandOutOfRange n))

variable {x : Gen α} {f : α → Gen β} {a : α} {e : GenError} {post : β → Nat → Prop}

theorem bind_error (h : x frame d = .error e) : (x >>= f) frame d = .error e := by
  change (x frame d >>= fun r => f r.value frame r.depth >>= fun r' =>
    Except.ok (Generated.mk r'.value (r.code ++ r'.code) r'.depth)) = _
  rw [h]
  rfl

theorem bind_ok_error {r : Generated α} (h : x frame d = .ok r)
    (h' : f r.value frame r.depth = .error e) : (x >>= f) frame d = .error e := by
  change (x frame d >>= fun r => f r.value frame r.depth >>= fun r' =>
    Except.ok (Generated.mk r'.value (r.code ++ r'.code) r'.depth)) = _
  rw [h, ok_bind, h']
  rfl

theorem Yields.bind {mid : α → Nat → Prop} (hx : x.Yields frame d mid)
    (hf : ∀ a e, mid a e → (f a).Yields frame e post) : (x >>= f).Yields frame d post := by
  rcases hx with ⟨r, hr, hm⟩ | ⟨n, hn, hr⟩
  · rcases hf _ _ hm with ⟨q, hq, hp⟩ | ⟨n, hn, hq⟩
    · exact .inl ⟨_, bind_ok.2 ⟨r, q, hr, hq, rfl⟩, hp⟩
    · exact .inr ⟨n, hn, bind_ok_error hr hq⟩
  · exact .inr ⟨n, hn, bind_error hr⟩

theorem Yields.mono {mid post : α → Nat → Prop} (hx : x.Yields frame d mid)
    (h : ∀ a e, mid a e → post a e) : x.Yields frame d post :=
  hx.imp_left fun ⟨g, hg, hm⟩ => ⟨g, hg, h _ _ hm⟩

/-- If the generator gives code at the height `d`, then the result and the height go together. -/
def Gives (x : Gen α) (frame : Option Frame) (d : Nat) (post : α → Nat → Prop) : Prop :=
  ∀ ⦃g⦄, x frame d = .ok g → post g.value g.depth

theorem Yields.gives {post : α → Nat → Prop} (hx : x.Yields frame d post) :
    x.Gives frame d post := by
  intro g hg
  rcases hx with ⟨g', hg', hp⟩ | ⟨_, _, he⟩
  · obtain rfl := Except.ok.inj (hg.symm.trans hg')
    exact hp
  · cases hg.symm.trans he

theorem Fails.gives {post : α → Nat → Prop} (hx : x.Fails) : x.Gives frame d post :=
  fun _ hg => absurd hg (hx (g := _))

theorem Gives.bind {mid : α → Nat → Prop} (hx : x.Gives frame d mid)
    (hf : ∀ a e, mid a e → (f a).Gives frame e post) : (x >>= f).Gives frame d post := by
  intro g hg
  obtain ⟨r, q, hr, hq, rfl⟩ := bind_ok.1 hg
  change post q.value q.depth
  exact hf _ _ (hx hr) hq

/-- What is known of every result. -/
theorem Yields.and {mid p : α → Nat → Prop} (hx : x.Yields frame d mid)
    (h : x.Gives frame d p) : x.Yields frame d fun a e => p a e ∧ mid a e :=
  hx.imp_left fun ⟨g, hg, hm⟩ => ⟨g, hg, h hg, hm⟩

/-- The generator changes the height from `d` to `d'`. -/
def Moves (x : Gen α) (frame : Option Frame) (d d' : Nat) : Prop :=
  x.Yields frame d fun _ e => e = d'

theorem Moves.bind (hx : x.Moves frame d d') (hf : ∀ a, (f a).Yields frame d' post) :
    (x >>= f).Yields frame d post :=
  Yields.bind hx fun a e h => by
    subst h
    exact hf a

theorem Moves.trans {f : α → Gen β} (hx : x.Moves frame d d') (hf : ∀ a, (f a).Moves frame d' n) :
    (x >>= f).Moves frame d n := hx.bind hf

theorem Makes.yields (h : x.Makes d a d') : x.Yields frame d fun b e => b = a ∧ e = d' := by
  obtain ⟨code, hc⟩ := h frame
  exact .inl ⟨_, hc, rfl, rfl⟩

theorem Makes.moves (h : x.Makes d a d') : x.Moves frame d d' := h.yields.mono fun _ _ h => h.2

theorem Yields.pure {b : β} (h : post b d) : (Pure.pure b : Gen β).Yields frame d post :=
  .inl ⟨_, rfl, h⟩

theorem Moves.pure (b : β) : (Pure.pure b : Gen β).Moves frame d d := Yields.pure rfl

theorem Yields.depth_bind {f : Nat → Gen β} (h : (f d).Yields frame d post) :
    (Gen.depth >>= f).Yields frame d post :=
  Yields.bind (Makes.depth d).yields fun _ _ h' => by
    obtain ⟨rfl, rfl⟩ := h'
    exact h

/-! ### Moving entries -/

theorem Moves.op {o : Op} (h : o.effect.pops ≤ d) (hd : d - o.effect.pops + o.effect.pushes = d') :
    (op o).Moves frame d d' := (Makes.op h hd).moves

theorem Moves.operand (n : Nat) : (operand n).Moves frame d d := by
  by_cases h : n > 255
  · exact .inr ⟨n, h, by rw [Gen.operand, if_pos h]; rfl⟩
  · rw [Gen.operand, if_neg h]
    exact .pure ()

theorem Moves.require {context : String} (h : n ≤ d) : (require n context).Moves frame d d :=
  (Makes.require h).moves

theorem Moves.ensureDepth (context : String) (h : d = n) :
    (ensureDepth n context).Moves frame d d := by
  subst h
  exact (Makes.ensureDepth context d).moves

theorem Moves.push (h : i < d) : (push i).Moves frame d (d + 1) :=
  (Moves.operand i).trans fun _ => .op h (by simp only [Op.effect]; omega)

theorem Moves.pop (h : i < d) : (pop i).Moves frame d (d - 1) := by
  unfold Gen.pop
  split
  · exact .op (by simp only [Op.effect]; omega) rfl
  · exact (Moves.operand i).trans fun _ => .op h (by simp only [Op.effect]; omega)

theorem Moves.xchg (h : i < d) : (xchg i).Moves frame d d := by
  unfold Gen.xchg
  split
  · exact .pure ()
  · exact (Moves.operand i).trans fun _ => .op h (by simp only [Op.effect]; omega)

theorem Moves.blkSwap (h : i + j ≤ d) : (blkSwap i j).Moves frame d d := by
  unfold Gen.blkSwap
  split
  · exact .pure ()
  · exact (Moves.operand i).trans fun _ => (Moves.operand j).trans fun _ =>
      .op h (by simp only [Op.effect]; omega)

theorem Moves.reverse (h : n + j ≤ d) : (reverse n j).Moves frame d d := by
  unfold Gen.reverse
  split
  · exact .pure ()
  · exact (Moves.operand n).trans fun _ => (Moves.operand j).trans fun _ =>
      .op h (by simp only [Op.effect]; omega)

theorem Moves.drop : ∀ {n d : Nat}, n ≤ d → (drop n).Moves frame d (d - n)
  | 0, _, _ => .pure ()
  | n + 1, d, h => by
    have hop : (Gen.op .drop).Moves frame d (d - 1) := .op (by simp only [Op.effect]; omega) rfl
    refine hop.trans fun _ => ?_
    rw [show d - (n + 1) = d - 1 - n by omega]
    exact Moves.drop (by omega)

theorem Moves.dropUnder (h : n + m ≤ d) : (dropUnder n m).Moves frame d (d - n) := by
  unfold Gen.dropUnder
  split
  · next hn =>
    subst hn
    exact .pure ()
  · split
    · exact .drop (by omega)
    · exact (Moves.operand n).trans fun _ => (Moves.operand m).trans fun _ =>
        .op h (by simp only [Op.effect]; omega)

theorem Moves.tuple (h : n ≤ d) : (tuple n).Moves frame d (d - n + 1) :=
  (Moves.operand n).trans fun _ => .op h rfl

theorem Moves.untuple (h : 1 ≤ d) : (untuple n).Moves frame d (d - 1 + n) :=
  (Moves.operand n).trans fun _ => .op h rfl

/-! ### Reading values -/

/-- None of the leaves is a tuple that would have to be read or written member by member. -/
def NoTuple (ls : List Ty) : Prop := ∀ ts, Ty.tuple ts ∉ ls

theorem NoTuple.left {ls ls' : List Ty} (h : NoTuple (ls ++ ls')) : NoTuple ls :=
  fun ts hm => h ts (List.mem_append_left _ hm)

theorem NoTuple.right {ls ls' : List Ty} (h : NoTuple (ls ++ ls')) : NoTuple ls' :=
  fun ts hm => h ts (List.mem_append_right _ hm)

theorem closeStruct_moves (h : 1 ≤ d) : (closeStruct n).Moves frame (d + n) (d + 1) := by
  refine (Moves.blkSwap (by omega)).trans fun _ =>
    (Moves.tuple (Nat.le_add_left n d)).trans fun _ => ?_
  rw [Nat.add_sub_cancel]
  exact .xchg (by omega)

section Pass

variable {P : Ty → Position → Position → Prop} {Q : List (Field Ty) → Position → Position → Prop}

/-- Induction on a type whose leaves are the next ones, with the positions in front of them and
behind them. -/
theorem passInduction
    (leaf : ∀ {t : Ty} {pos pos' : Position} {opens : Bool}, t.IsLeaf → (∀ ts, t ≠ .tuple ts) →
      pos.skip t = .ok (opens, pos') → P t pos pos')
    (struct : ∀ (x : String) {fs : List (Field Ty)} {pos pos' : Position}, Q fs pos pos' →
      P (.struct x fs) pos pos')
    (named : ∀ (x : String) {t : Ty} {pos pos' : Position}, P t pos pos' → P (.alias x t) pos pos')
    (nil : ∀ pos : Position, Q [] pos pos)
    (cons : ∀ (x : String) {t : Ty} {fs : List (Field Ty)} {pos q pos' : Position}, P t pos q →
      Q fs q pos' → Q (⟨x, t⟩ :: fs) pos pos') (t : Ty) :
    ∀ {pos pos' : Position} {ls : List PackedLeaf}, NoTuple t.leaves →
      pos.passAll t.leaves = .ok (ls, pos') → P t pos pos' := by
  refine Ty.leafInduction
    (P := fun t => ∀ {pos pos' : Position} {ls : List PackedLeaf}, NoTuple t.leaves →
      pos.passAll t.leaves = .ok (ls, pos') → P t pos pos')
    (Q := fun fs => ∀ {pos pos' : Position} {ls : List PackedLeaf}, NoTuple (Ty.fieldLeaves fs) →
      pos.passAll (Ty.fieldLeaves fs) = .ok (ls, pos') → Q fs pos pos')
    (fun t hl pos pos' ls hn h => ?leaf) (fun x fs ih pos pos' ls hn h => struct x (ih hn h))
    (fun x t ih pos pos' ls hn h => named x (ih hn h)) (fun {pos pos' ls} _ h => ?nil)
    (fun x t fs iht ihfs pos pos' ls hn h => ?cons) t
  case leaf =>
    rw [Ty.leaves_leaf hl] at hn h
    obtain ⟨opens, hs, -⟩ := Position.passAll_singleton h
    refine leaf hl (fun ts ht => hn ts ?_) hs
    rw [ht]
    exact List.mem_cons_self ..
  case nil =>
    obtain ⟨-, rfl⟩ := Prod.mk.inj (Except.ok.inj h)
    exact nil pos
  case cons =>
    rw [Ty.fieldLeaves] at hn h
    obtain ⟨ks, ks', q, h1, h2⟩ := Position.passAll_append_eq_ok h
    exact cons x (iht hn.left h1) (ihfs hn.right h2)

end Pass

/-- **A value is read where its leaves are the next ones.** -/
theorem read_yields (t : Ty) {pos pos' : Position} {ls : List PackedLeaf} {follow : Bool}
    (hn : NoTuple t.leaves) (h : pos.passAll t.leaves = .ok (ls, pos')) (hd : 1 ≤ d) :
    (read t pos follow).Yields frame d fun q e => q = pos' ∧ e = d + 1 := by
  refine passInduction
    (P := fun t pos pos' => ∀ {follow : Bool} {d : Nat}, 1 ≤ d →
      (read t pos follow).Yields frame d fun q e => q = pos' ∧ e = d + 1)
    (Q := fun fs pos pos' => ∀ {follow : Bool} {d : Nat}, 1 ≤ d →
      (readFields fs pos follow).Yields frame d fun q e => q = pos' ∧ e = d + fs.length)
    (fun {t pos pos' opens} hl ht hs follow d hd => ?leaf)
    (fun x fs pos pos' ih follow d hd => ?struct)
    (fun x t pos pos' ih follow d hd => ih hd) (fun pos follow d _ => .pure ⟨rfl, rfl⟩)
    (fun x t fs pos q pos' iht ihfs follow d hd => ?cons) t hn h hd
  case leaf =>
    have hread : (readLeaf t pos follow).Yields frame d fun r e => r = pos' ∧ e = d + 1 :=
      (readLeaf_makes hs hd).yields
    cases t with
    | tuple ts => exact absurd rfl (ht ts)
    | struct | «alias» => exact hl.elim
    | _ => exact hread
  case struct =>
    refine (ih hd).bind fun q e he => ?_
    obtain ⟨rfl, rfl⟩ := he
    exact (closeStruct_moves hd).bind fun _ => .pure ⟨rfl, rfl⟩
  case cons =>
    refine (iht hd).bind fun r e he => ?_
    obtain ⟨rfl, rfl⟩ := he
    refine (ihfs (by omega)).mono fun r e he => ⟨he.1, ?_⟩
    rw [he.2, List.length_cons]
    omega

end Gen

/-! ### Passing over leaves -/

namespace Patch

open Gen

variable {frame : Option Frame} {d : Nat}

theorem enterLink_moves (h : 1 ≤ d) : enterLink.Moves frame d d := by
  have hload : (Gen.op .ldRefRest).Moves frame d (d + 1) :=
    .op h (by simp only [Op.effect]; omega)
  exact hload.trans fun _ => .dropUnder (by omega)

/-- Two counts are put on the stack. -/
theorem counts_moves {y : Gen Unit} {d' : Nat} (i j : Int) (h : y.Moves frame (d + 2) d') :
    (do Gen.op (.pushInt i); Gen.op (.pushInt j); y).Moves frame d d' := by
  have hpush (i : Int) (d : Nat) : (Gen.op (.pushInt i)).Moves frame d (d + 1) :=
    .op (Nat.zero_le d) rfl
  exact (hpush i d).trans fun _ => (hpush j (d + 1)).trans fun _ => h

theorem passFragments_moves : ∀ {fs : List Fragment} {d : Nat}, 1 ≤ d →
    (passFragments fs).Moves frame d (d + fs.countP isValue)
  | [], _, _ => .pure ()
  | .raw bits refs :: fs, d, h => by
    rw [List.countP_cons_of_neg Bool.false_ne_true]
    have hskip : (Gen.op .skipFirst).Moves frame (d + 2) d :=
      .op (by simp only [Op.effect]; omega) (by simp only [Op.effect]; omega)
    exact counts_moves _ _ (hskip.trans fun _ => passFragments_moves h)
  | .value t :: fs, d, h => by
    rw [List.countP_cons_of_pos rfl]
    have hload : (Gen.op (.load t)).Moves frame d (d + 1) := .op h (by simp only [Op.effect]; omega)
    refine hload.trans fun _ => ?_
    rw [show d + (fs.countP isValue + 1) = d + 1 + fs.countP isValue by omega]
    exact passFragments_moves (by omega)

theorem passLeaves_moves (ls : List StoredLeaf) (h : 1 ≤ d) : (passLeaves ls).Moves frame d d := by
  have hdrop : (dropUnder ((fragments ls).countP isValue) 1).Moves frame
      (d + (fragments ls).countP isValue) (d + (fragments ls).countP isValue -
        (fragments ls).countP isValue) := .dropUnder (by omega)
  rw [Nat.add_sub_cancel] at hdrop
  exact (passFragments_moves h).trans fun _ => hdrop

theorem peekLink_moves (i : Nat) (h : 1 ≤ d) :
    (do Gen.op (.peekRef i); Gen.op .ctos).Moves frame d d := by
  have hpeek : (Gen.op (.peekRef i)).Moves frame d d := .op h (by simp only [Op.effect]; omega)
  exact hpeek.trans fun _ => .op h (by simp only [Op.effect]; omega)

theorem passToLink_moves (ls : List StoredLeaf) (h : 1 ≤ d) : (passToLink ls).Moves frame d d := by
  unfold passToLink
  split
  · exact peekLink_moves _ h
  · split
    · exact (passLeaves_moves _ h).trans fun _ => peekLink_moves 0 h
    · have hcut : (Gen.op .cutLast).Moves frame (d + 2) d :=
        .op (by simp only [Op.effect]; omega) (by simp only [Op.effect]; omega)
      exact counts_moves _ _ (hcut.trans fun _ => enterLink_moves h)

theorem passRun_moves (ls : List StoredLeaf) (nextOpens : Bool) (h : 1 ≤ d) :
    (passRun ls nextOpens).Moves frame d d := by
  unfold passRun
  split
  · exact passToLink_moves ls h
  · exact passLeaves_moves ls h

theorem enterFirst_moves (p : Patch) (h : 1 ≤ d) : p.enterFirst.Moves frame d d := by
  unfold enterFirst
  split
  · exact enterLink_moves h
  · exact .pure ()

/-! ### The picked variables -/

/-- Leaves that come next in a packing can be passed. -/
theorem passAll_rowOf {k : Packing} {i : Nat} {ls rest : List StoredLeaf}
    (h : k.leaves.drop i = rowOf (ls ++ rest)) :
    (Position.packed ⟨k, i⟩).passAll (ls.map (·.type)) =
      .ok (rowOf ls, .packed ⟨k, i + ls.length⟩) := by
  rw [rowOf_append] at h
  have hp := Position.passAll_next h
  rwa [rowOf, List.map_map, List.length_map] at hp

/-- Leaves by themselves can be passed. -/
theorem passAll_row (ls : List StoredLeaf) :
    (Packing.start ⟨rowOf ls⟩).passAll (ls.map (·.type)) =
      .ok (rowOf ls, .packed ⟨⟨rowOf ls⟩, 0 + ls.length⟩) := by
  have hrow : (⟨rowOf ls⟩ : Packing).leaves.drop 0 = rowOf (ls ++ []) := by
    rw [List.append_nil, List.drop_zero]
  exact passAll_rowOf hrow

/-- The code that reads the picked ones of the pieces. -/
theorem unpackPieces_moves : ∀ {ps : List (List StoredLeaf)} {d : Nat}, (∀ p ∈ ps, IsPiece p) →
    NoTuple (ps.flatten.map (·.type)) → 1 ≤ d →
    (unpackPieces ps).Moves frame d (d + (ps.filterMap ownerOf).length)
  | [], _, _, _, _ => .pure ()
  | p :: ps, d, hps, hn, hd => by
    have hp := hps p (List.mem_cons_self ..)
    rw [List.flatten_cons, List.map_append] at hn
    have ih {d : Nat} (hd : 1 ≤ d) :
        (unpackPieces ps).Moves frame d (d + (ps.filterMap ownerOf).length) :=
      unpackPieces_moves (fun q hq => hps q (List.mem_cons_of_mem _ hq))
        hn.right hd
    rw [unpackPieces, List.filterMap_cons]
    cases hp with
    | picked v hne ho ht =>
      have hown : ownerOf p = some v := ownerOf_eq hne ho
      have hpass := passAll_row p
      rw [hown, show p.head?.bind (·.owner) = some v from hown, List.length_cons,
        Nat.add_comm _ 1, ← Nat.add_assoc]
      have hread : (Gen.read v.type (Packing.start ⟨rowOf p⟩) false).Moves frame d (d + 1) :=
        (read_yields v.type (by rw [← ht]; exact hn.left)
          (by rw [← ht]; exact hpass) hd).mono fun _ _ h => h.2
      refine hread.trans fun _ => ?_
      dsimp only
      split
      · exact (enterLink_moves (by omega)).trans fun _ => ih (by omega)
      · exact ih (by omega)
    | unpicked hne ho hc =>
      have hown : ownerOf p = none := ownerOf_eq hne ho
      rw [hown, show p.head?.bind (·.owner) = none from hown]
      exact (passRun_moves p _ hd).trans fun _ => ih hd

/-- **The picked variables can be read,** if none of the leaves is a tuple. -/
theorem unpack_moves {p : Patch} (hps : ∀ q ∈ pieces p.visited, IsPiece q)
    (hn : NoTuple (p.visited.map (·.type))) (hcount : p.picked = (pickedVariables p.visited).length)
    (hd : 1 ≤ d) : p.unpack.Moves frame d (d - 1 + p.picked) := by
  have hflat : (pieces p.visited).flatten = p.visited := List.flatten_splitBy ..
  refine Gen.Yields.depth_bind ?_
  refine (Moves.require hd).trans fun _ => (enterFirst_moves p hd).trans fun _ =>
    (unpackPieces_moves hps (by rwa [hflat]) hd).trans fun _ => ?_
  rw [← pickedVariables_eq, ← hcount]
  refine (Moves.drop (by omega)).trans fun _ => ?_
  rw [show d + p.picked - 1 = d - 1 + p.picked by omega]
  exact .ensureDepth _ rfl

end Patch

end TypedCells
