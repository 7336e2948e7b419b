import TypedCells.Proofs.Gather

/-!
# Code on two stacks

Two runs of generated code can be followed side by side: where both generators give code, both runs
trap with the same trap, or both come to their end in stacks that go together (`Gen.Pairs`). Much of
the code of a patch takes its data off the slice on top and does not look at what is below
(`Gen.Cuts`), so it does the same on any two stacks with the same slice on top.
-/

namespace TypedCells

namespace Gen

variable {α α' β β' : Type}

/-- A result in front of a generator adds nothing. -/
theorem pure_bind (a : α) (f : α → Gen β) : (Pure.pure a >>= f) = f a := by
  funext frame d
  change (f a frame d >>= fun r => Except.ok (Generated.mk r.value ([] ++ r.code) r.depth)) = _
  rcases f a frame d with e | r <;> rfl

/-- Generators in a row may be put together from either end. -/
theorem bind_bind {γ : Type} (x : Gen α) (f : α → Gen β) (h : β → Gen γ) :
    x >>= f >>= h = x >>= fun a => f a >>= h := by
  funext frame d
  change ((x frame d >>= fun r => f r.value frame r.depth >>= fun r' =>
      Except.ok (Generated.mk r'.value (r.code ++ r'.code) r'.depth)) >>= fun r =>
      h r.value frame r.depth >>= fun r' =>
        Except.ok (Generated.mk r'.value (r.code ++ r'.code) r'.depth)) =
    (x frame d >>= fun r => (f r.value frame r.depth >>= fun r' =>
      h r'.value frame r'.depth >>= fun r'' =>
        Except.ok (Generated.mk r''.value (r'.code ++ r''.code) r''.depth)) >>= fun r' =>
      Except.ok (Generated.mk r'.value (r.code ++ r'.code) r'.depth))
  rcases x frame d with e | r
  · rfl
  simp only [ok_bind]
  rcases f r.value frame r.depth with e | r'
  · rfl
  simp only [ok_bind]
  rcases h r'.value frame r'.depth with e | r''
  · rfl
  · simp only [ok_bind, List.append_assoc]

/-! ### Code that cuts a slice -/

/-- From the entries `top` the code traps, or it leaves a slice over `n` entries in their place, and
what is below makes no difference. -/
def CutsFrom (top : Stack) (x : Gen Unit) (n : Nat) : Prop :=
  (∃ e, ∀ stk, x.Ends (top ++ stk) (.error e)) ∨
    ∃ (s : Slice) (xs : List Value), xs.length = n ∧
      ∀ stk, x.Turns (top ++ stk) (.slice s :: (xs ++ stk))

/-- From a slice the code traps, or it leaves another slice over `n` entries in its place, and what
is below makes no difference. -/
def Cuts (x : Gen Unit) (n : Nat) : Prop := ∀ s : Slice, CutsFrom [.slice s] x n

section Cuts

variable {x y : Gen Unit} {n m : Nat} {top : Stack}

theorem Cuts.pure : Cuts (Pure.pure ()) 0 := fun s => .inr ⟨s, [], rfl, fun _ => .pure _ _⟩

theorem CutsFrom.bind (hx : CutsFrom top x n) (hy : Cuts y m) :
    CutsFrom top (x >>= fun _ => y) (m + n) := by
  rcases hx with ⟨e, h⟩ | ⟨s, xs, hn, h⟩
  · exact .inl ⟨e, fun stk => (h stk).bind_error⟩
  · rcases hy s with ⟨e, h'⟩ | ⟨s', ys, hm, h'⟩
    · exact .inl ⟨e, fun stk => (h stk).bind_ends fun _ => h' _⟩
    · refine .inr ⟨s', ys ++ xs, by rw [List.length_append, hn, hm], fun stk => ?_⟩
      rw [List.append_assoc]
      exact (h stk).trans fun _ => h' _

theorem Cuts.bind (hx : Cuts x n) (hy : Cuts y m) : Cuts (x >>= fun _ => y) (m + n) :=
  fun s => (hx s).bind hy

/-- Code after code that does not trap. -/
theorem CutsFrom.step (top' : Stack) (hx : ∀ stk, x.Turns (top ++ stk) (top' ++ stk))
    (hy : CutsFrom top' y n) : CutsFrom top (x >>= fun _ => y) n := by
  rcases hy with ⟨e, h⟩ | ⟨s, xs, hn, h⟩
  · exact .inl ⟨e, fun stk => (hx stk).bind_ends fun _ => h stk⟩
  · exact .inr ⟨s, xs, hn, fun stk => (hx stk).trans fun _ => h stk⟩

/-- An instruction that leaves what a computation gives. -/
theorem CutsFrom.op {o : Op} {m : Except Trap (Slice × List Value)} (hq : o.isQuiet = false)
    (hn : ∀ r, m = .ok r → r.2.length = n)
    (ho : ∀ stk, o.run (top ++ stk) = do
      let r ← m
      return .slice r.1 :: (r.2 ++ stk)) : CutsFrom top (op o) n := by
  rcases m with e | r
  · exact .inl ⟨e, fun stk => .op_error (ho stk)⟩
  · exact .inr ⟨r.1, r.2, hn r rfl, fun stk => .op hq (ho stk)⟩

theorem Cuts.load (t : Ty) : Cuts (Gen.op (.load t)) 1 := by
  intro s
  refine .op (m := t.load s >>= fun r => Pure.pure (r.2, [r.1])) rfl (fun r h => ?_) fun stk => ?_
  · obtain ⟨_, -, h⟩ := bind_eq_ok.1 h
    obtain rfl := Except.ok.inj h
    rfl
  · change Op.run _ (.slice s :: stk) = _
    rw [Op.run_load]
    rcases t.load s with e | ⟨v, s'⟩ <;> rfl

/-- The counts of a cut are in range, or they are not. -/
theorem popCut_or (i j : Int) (s : Slice) :
    (∃ e, ∀ stk, Stack.popCut (.int j :: .int i :: .slice s :: stk) = .error e) ∨
      ∀ stk, Stack.popCut (.int j :: .int i :: .slice s :: stk) =
        .ok ((s, i.toNat, j.toNat), stk) := by
  have hcount (k : Int) : (∀ stk, Stack.popCount (.int k :: stk) = .error .rangeCheck) ∨
      ∀ stk, Stack.popCount (.int k :: stk) = .ok (k.toNat, stk) := by
    by_cases h : 0 ≤ k ∧ k < twoPow 64
    · exact .inr fun stk => if_pos h
    · exact .inl fun stk => if_neg h
  simp only [Stack.popCut]
  rcases hcount j with hj | hj
  · exact .inl ⟨_, fun stk => by rw [hj]; rfl⟩
  · simp only [hj, ok_bind]
    rcases hcount i with hi | hi
    · exact .inl ⟨_, fun stk => by rw [hi]; rfl⟩
    · exact .inr fun stk => by rw [hi]; rfl

/-- An instruction that cuts a slice at two counts. -/
theorem CutsFrom.cut {o : Op} {f : Slice × Nat × Nat → Except Trap (Slice × List Value)}
    (hq : o.isQuiet = false) (hn : ∀ c r, f c = .ok r → r.2.length = n)
    (ho : ∀ stk : Stack, o.run stk = do
      let (c, stk) ← stk.popCut
      let r ← f c
      return .slice r.1 :: (r.2 ++ stk)) (i j : Int) (s : Slice) :
    CutsFrom [.int j, .int i, .slice s] (Gen.op o) n := by
  rcases popCut_or i j s with ⟨e, h⟩ | h
  · exact .inl ⟨e, fun stk => .op_error ((ho _).trans (congrArg (· >>= _) (h stk)))⟩
  · exact .op hq (hn (s, i.toNat, j.toNat)) fun stk =>
      (ho _).trans (congrArg (· >>= _) (h stk))

/-- An instruction that leaves one part of what it cuts. -/
theorem CutsFrom.cutPart {o : Op} {f : Nat → Nat → Slice → Except Trap Slice}
    (hq : o.isQuiet = false) (ho : ∀ stk : Stack, o.run stk = do
      let ((s, n, m), stk) ← stk.popCut
      let r ← f n m s
      return .slice r :: stk) (i j : Int) (s : Slice) :
    CutsFrom [.int j, .int i, .slice s] (Gen.op o) 0 := by
  refine .cut (f := fun c => do return (← f c.2.1 c.2.2 c.1, [])) hq (fun c r h => ?_)
    (fun stk => ?_) i j s
  · obtain ⟨_, -, h⟩ := bind_eq_ok.1 h
    obtain rfl := Except.ok.inj h
    rfl
  · rw [ho]
    rcases stk.popCut with e | ⟨⟨x, n, m⟩, stk⟩
    · rfl
    · simp only [ok_bind]
      rcases f n m x with e | r <;> rfl

theorem CutsFrom.skipFirst (i j : Int) (s : Slice) :
    CutsFrom [.int j, .int i, .slice s] (Gen.op .skipFirst) 0 :=
  .cutPart (f := Slice.dropFront) rfl (fun _ => rfl) i j s

theorem CutsFrom.cutLast (i j : Int) (s : Slice) :
    CutsFrom [.int j, .int i, .slice s] (Gen.op .cutLast) 0 :=
  .cutPart (f := Slice.keepBack) rfl (fun _ => rfl) i j s

theorem CutsFrom.split (i j : Int) (s : Slice) :
    CutsFrom [.int j, .int i, .slice s] (Gen.op .split) 1 := by
  refine .cut (f := fun c => do
    let r ← c.1.split c.2.1 c.2.2
    return (r.2, [.slice r.1])) rfl (fun c r h => ?_) (fun stk => ?_) i j s
  · obtain ⟨_, -, h⟩ := bind_eq_ok.1 h
    obtain rfl := Except.ok.inj h
    rfl
  · rw [Op.run]
    rcases stk.popCut with e | ⟨⟨x, n, m⟩, stk⟩
    · rfl
    · simp only [ok_bind]
      rcases x.split n m with e | r <;> rfl

/-- Code after two counts. -/
theorem Cuts.counts {i j : Int} (h : ∀ s, CutsFrom [.int j, .int i, .slice s] y n) :
    Cuts (do Gen.op (.pushInt i); Gen.op (.pushInt j); y) n := fun s =>
  .step [.int i, .slice s] (fun _ => .op rfl rfl)
    (.step [.int j, .int i, .slice s] (fun _ => .op rfl rfl) (h s))

end Cuts

/-! ### Two runs -/

/-- Where both generators give code, at the heights `d` and `d'`, the two runs trap with the same
trap, or both come to their end, in stacks that go with the results. The heights that the generators
give are the true ones. -/
def Pairs (x : Gen α) (x' : Gen α') (d d' : Nat) (s s' : Stack)
    (post : α → Stack → α' → Stack → Prop) : Prop :=
  ∀ ⦃frame frame' : Option Frame⦄ ⦃g : Generated α⦄ ⦃g' : Generated α'⦄,
    x frame d = .ok g → x' frame' d' = .ok g' →
      (∃ e, Instr.runAll g.code s = .error e ∧ Instr.runAll g'.code s' = .error e) ∨
        ∃ t t', Instr.runAll g.code s = .ok (.next, t) ∧ Instr.runAll g'.code s' = .ok (.next, t') ∧
          g.depth + s.length = d + t.length ∧ g'.depth + s'.length = d' + t'.length ∧
          post g.value t g'.value t'

section Pairs

variable {x : Gen α} {x' : Gen α'} {f : α → Gen β} {f' : α' → Gen β'} {d d' : Nat} {s s' : Stack}
  {post : β → Stack → β' → Stack → Prop}

theorem Pairs.bind {mid : α → Stack → α' → Stack → Prop} (hx : x.Pairs x' d d' s s' mid)
    (hf : ∀ a t a' t' e e', mid a t a' t' → e + s.length = d + t.length →
      e' + s'.length = d' + t'.length → (f a).Pairs (f' a') e e' t t' post) :
    (x >>= f).Pairs (x' >>= f') d d' s s' post := by
  intro frame frame' g g' hg hg'
  obtain ⟨r, q, h1, h2, rfl⟩ := bind_ok.1 hg
  obtain ⟨r', q', h1', h2', rfl⟩ := bind_ok.1 hg'
  rcases hx h1 h1' with ⟨e, he, he'⟩ | ⟨t, t', ht, ht', hd, hd', hm⟩
  · exact .inl ⟨e, by rw [Instr.runAll_append, he]; rfl, by rw [Instr.runAll_append, he']; rfl⟩
  · rw [Instr.runAll_append_of_ok ht, Instr.runAll_append_of_ok ht']
    rcases hf _ _ _ _ _ _ hm hd hd' h2 h2' with he | ⟨u, u', hu, hu', hdu, hdu', hp⟩
    · exact .inl he
    · exact .inr ⟨u, u', hu, hu', by simp only; omega, by simp only; omega, hp⟩

theorem Pairs.mono {post' : α → Stack → α' → Stack → Prop} {mid : α → Stack → α' → Stack → Prop}
    (hx : x.Pairs x' d d' s s' mid) (h : ∀ a t a' t', mid a t a' t' → post' a t a' t') :
    x.Pairs x' d d' s s' post' := by
  intro frame frame' g g' hg hg'
  rcases hx hg hg' with he | ⟨t, t', ht, ht', hd, hd', hm⟩
  · exact .inl he
  · exact .inr ⟨t, t', ht, ht', hd, hd', h _ _ _ _ hm⟩

/-- What is known of the results without a run. -/
theorem Pairs.values {mid : α → Stack → α' → Stack → Prop} (p : α → Prop) (p' : α' → Prop)
    (h : x.Pairs x' d d' s s' mid) (hp : ∀ ⦃frame d g⦄, x frame d = .ok g → p g.value)
    (hp' : ∀ ⦃frame d g⦄, x' frame d = .ok g → p' g.value) :
    x.Pairs x' d d' s s' fun a t a' t' => p a ∧ p' a' ∧ mid a t a' t' := by
  intro frame frame' g g' hg hg'
  rcases h hg hg' with he | ⟨t, t', ht, ht', hd, hd', hm⟩
  · exact .inl he
  · exact .inr ⟨t, t', ht, ht', hd, hd', hp hg, hp' hg', hm⟩

/-- Two runs that do not trap. -/
theorem Runs.pairs {p : α → Stack → Prop} {p' : α' → Stack → Prop} (h : x.Runs d s p)
    (h' : x'.Runs d' s' p') : x.Pairs x' d d' s s' fun a t a' t' => p a t ∧ p' a' t' := by
  intro frame frame' g g' hg hg'
  obtain ⟨t, ht, hd, hp⟩ := h hg
  obtain ⟨t', ht', hd', hp'⟩ := h' hg'
  exact .inr ⟨t, t', ht, ht', hd, hd', hp, hp'⟩

theorem Pairs.pure {b : β} {b' : β'} (h : post b s b' s') :
    (Pure.pure b : Gen β).Pairs (Pure.pure b' : Gen β') d d' s s' post := by
  have hx : (Pure.pure b : Gen β).Runs d s fun a t => a = b ∧ t = s := .pure ⟨rfl, rfl⟩
  have hx' : (Pure.pure b' : Gen β').Runs d' s' fun a t => a = b' ∧ t = s' := .pure ⟨rfl, rfl⟩
  refine (hx.pairs hx').mono fun _ _ _ _ ht => ?_
  obtain ⟨⟨rfl, rfl⟩, rfl, rfl⟩ := ht
  exact h

/-- A side that gives no code. -/
theorem Fails.pairs_left (h : x.Fails) {p : α → Stack → α' → Stack → Prop} :
    x.Pairs x' d d' s s' p := fun _ _ _ _ hg _ => absurd hg (h (g := _))

theorem Fails.pairs_right (h : x'.Fails) {p : α → Stack → α' → Stack → Prop} :
    x.Pairs x' d d' s s' p := fun _ _ _ _ _ hg => absurd hg (h (g := _))

theorem Pairs.depth_bind {f : Nat → Gen β} {f' : Nat → Gen β'}
    (h : (f d).Pairs (f' d') d d' s s' post) :
    (Gen.depth >>= f).Pairs (Gen.depth >>= f') d d' s s' post := by
  intro frame frame' g g' hg hg'
  obtain ⟨r, q, h1, h2, rfl⟩ := bind_ok.1 hg
  obtain ⟨r', q', h1', h2', rfl⟩ := bind_ok.1 hg'
  obtain rfl := depth_ok.1 h1
  obtain rfl := depth_ok.1 h1'
  exact h h2 h2'

/-- Both runs go on after code that only turns one stack into another. -/
theorem Turns.bind_pairs {t t' : Stack} (hx : x.Turns s t) (hx' : x'.Turns s' t')
    (hf : ∀ a a' e e', e + s.length = d + t.length → e' + s'.length = d' + t'.length →
      (f a).Pairs (f' a') e e' t t' post) : (x >>= f).Pairs (x' >>= f') d d' s s' post :=
  ((hx d).pairs (hx' d')).bind fun a u a' u' e e' hu he he' => by
    obtain ⟨rfl, rfl⟩ := hu
    exact hf a a' e e' he he'

/-- The same instruction on the same stack. -/
theorem Pairs.op {o : Op} (hq : o.isQuiet = false) (s : Stack) :
    (op o).Pairs (op o) d d' s s fun _ t _ t' => t = t' := by
  rcases ho : o.run s with e | t
  · exact fun _ _ _ _ hg hg' =>
      .inl ⟨e, Ends.op_error ho hg, Ends.op_error ho hg'⟩
  · exact ((Turns.op hq ho d).pairs (Turns.op hq ho d')).mono fun _ _ _ _ h => h.1.trans h.2.symm

/-- Both runs go on after code that leaves the same on both sides. -/
theorem Pairs.bind_same (hx : x.Pairs x' d d' s s' fun _ t _ t' => t = t')
    (hf : ∀ a a' t e e', (f a).Pairs (f' a') e e' t t post) :
    (x >>= f).Pairs (x' >>= f') d d' s s' post :=
  hx.bind fun a t a' t' e e' ht _ _ => by
    obtain rfl : t = t' := ht
    exact hf a a' t e e'

/-- Code that cuts a slice does so on both stacks. -/
theorem Cuts.pairs {x : Gen Unit} {n : Nat} (hx : Cuts x n) (q : Slice) (stk stk' : Stack) :
    x.Pairs x d d' (.slice q :: stk) (.slice q :: stk') fun _ t _ t' =>
      ∃ (r : Slice) (xs : List Value), xs.length = n ∧ t = .slice r :: (xs ++ stk) ∧
        t' = .slice r :: (xs ++ stk') := by
  rcases hx q with ⟨e, h⟩ | ⟨r, xs, hn, h⟩
  · exact fun _ _ _ _ hg hg' => .inl ⟨e, h stk hg, h stk' hg'⟩
  · exact ((h stk d).pairs (h stk' d')).mono fun _ _ _ _ ht => ⟨r, xs, hn, ht⟩

/-- What both runs come to when nothing is said of the results. -/
theorem Pairs.exec_eq {g : Generated α} {g' : Generated α'} {frame frame' : Option Frame}
    (h : x.Pairs x' d d' s s' fun _ t _ t' => t = t') (hg : x frame d = .ok g)
    (hg' : x' frame' d' = .ok g') : Instr.exec g.code s = Instr.exec g'.code s' := by
  rcases h hg hg' with ⟨e, he, he'⟩ | ⟨t, t', ht, ht', -, -, rfl⟩
  · rw [Instr.exec, Instr.exec, he, he']
  · rw [Instr.exec_of_runAll ht, Instr.exec_of_runAll ht']

end Pairs

end Gen

/-! ### Passing over leaves -/

namespace Patch

open Gen

theorem enterLink_cuts : Cuts enterLink 0 := by
  intro s
  rcases hr : s.readRef with e | ⟨c, r⟩
  · exact .inl ⟨e, fun stk => .bind_error (.op_error (by simp [hr]))⟩
  · exact .inr ⟨.ofCell c, [], rfl, fun stk => enterLink_turns hr stk⟩

theorem passFragments_cuts : ∀ fs : List Fragment, Cuts (passFragments fs) (fs.countP isValue)
  | [] => .pure
  | .raw _ _ :: fs => by
    rw [List.countP_cons_of_neg Bool.false_ne_true]
    exact .counts fun _ => (CutsFrom.skipFirst ..).bind (passFragments_cuts fs)
  | .value t :: fs => by
    rw [List.countP_cons_of_pos rfl]
    exact (Cuts.load t).bind (passFragments_cuts fs)

/-- What has been left under the slice is dropped. -/
theorem dropUnder_cuts {x : Gen Unit} {n : Nat} (hx : Cuts x n) :
    Cuts (do x; dropUnder n 1) 0 := by
  intro s
  rcases hx s with ⟨e, h⟩ | ⟨s', xs, hn, h⟩
  · exact .inl ⟨e, fun stk => (h stk).bind_error⟩
  · exact .inr ⟨s', [], rfl, fun stk =>
      (h stk).trans fun _ => Turns.dropUnder [.slice s'] xs rfl hn⟩

theorem passLeaves_cuts (ls : List StoredLeaf) : Cuts (passLeaves ls) 0 :=
  dropUnder_cuts (passFragments_cuts _)

theorem peekLink_cuts (i : Nat) : Cuts (do op (.peekRef i); op .ctos) 0 := by
  intro s
  rcases hr : s.peekRef i with e | c
  · exact .inl ⟨e, fun stk => .bind_error (.op_error (by simp [hr]))⟩
  · exact .inr ⟨.ofCell c, [], rfl, fun stk =>
      Turns.trans (t := .cell c :: stk) (.op rfl (by simp [hr])) fun _ => .op rfl rfl⟩

theorem passToLink_cuts (ls : List StoredLeaf) : Cuts (passToLink ls) 0 := by
  unfold passToLink
  split
  · exact peekLink_cuts _
  · split
    · exact (passLeaves_cuts _).bind (peekLink_cuts 0)
    · exact .counts fun _ => (CutsFrom.cutLast ..).bind enterLink_cuts

theorem passRun_cuts (ls : List StoredLeaf) (nextOpens : Bool) : Cuts (passRun ls nextOpens) 0 := by
  unfold passRun
  split
  · exact passToLink_cuts ls
  · exact passLeaves_cuts ls

theorem passRuns_cuts (last : Bool) : ∀ rs : List (List StoredLeaf), Cuts (passRuns last rs) 0
  | [] => .pure
  | r :: rs => (passRun_cuts r _).bind (passRuns_cuts last rs)

/-! ### Taking leaves off -/

theorem takeFragments_cuts : ∀ fs : List Fragment, Cuts (takeFragments fs) fs.length
  | [] => .pure
  | .raw _ _ :: fs => .counts fun _ => (CutsFrom.split ..).bind (takeFragments_cuts fs)
  | .value t :: fs => (Cuts.load t).bind (takeFragments_cuts fs)

theorem takeCell_cuts (ls : List StoredLeaf) : Cuts (takeCell ls) 1 := by
  intro s
  unfold takeCell
  split
  · rcases hr : s.readRef with e | ⟨c, r⟩
    · exact .inl ⟨e, fun stk => .op_error (by simp [hr])⟩
    · exact .inr ⟨.ofCell c, [.slice r], rfl, fun stk => .op rfl (by simp [hr])⟩
  · refine .step [.slice s, .slice s] (fun _ => .push rfl) ?_
    refine .step [.int s.refCount, .int s.bitCount, .slice s] (fun _ => .op rfl rfl) ?_
    refine .step [.int (s.refCount - 1), .int s.bitCount, .slice s] (fun _ => .op rfl rfl) ?_
    exact (CutsFrom.split ..).bind enterLink_cuts

end Patch

end TypedCells
