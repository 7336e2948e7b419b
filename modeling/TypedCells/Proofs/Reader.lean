import TypedCells.Proofs.Leaves

/-!
# What the code that reads does

`Gen.read` passes the leaves of a type at its position. Its code fetches them off a slice and leaves
the value built from them under the rest; where fetching fails, it traps (`Gen.read_fetches`). A
caller that has followed the link to the first leaf says so, and then a member without leaves must
not stand in front of it (`Ty.startsInLeaf`), unless the leaf opens no cell (`Gen.read_unopened`).
-/

namespace TypedCells

namespace Gen

variable {frame : Option Frame} {d : Nat}

theorem op_ok {o : Op} {g : Generated Unit} :
    op o frame d = .ok g ↔
      o.effect.pops ≤ d ∧ g = ⟨(), [.op o], d - o.effect.pops + o.effect.pushes⟩ :=
  instr_ok

theorem push_ok {i : Nat} {g : Generated Unit} (h : push i frame d = .ok g) :
    i < d ∧ g = ⟨(), [.op (.push i)], d + 1⟩ := by
  simp only [push, bind_ok, operand_ok, op_ok] at h
  obtain ⟨_, _, ⟨-, rfl⟩, ⟨hd, rfl⟩, rfl⟩ := h
  simp only [Op.effect] at hd ⊢
  refine ⟨hd, ?_⟩
  rw [List.nil_append, show d - (i + 1) + (i + 2) = d + 1 by omega]

/-! ### Reading a leaf -/

theorem followLink_spec {g : Generated Unit} (h : followLink frame d = .ok g) :
    1 ≤ d ∧ g.depth = d ∧ ∀ s stk, Instr.runAll g.code (.slice s :: stk) = do
      let s ← s.follow
      return (.next, .slice s :: stk) := by
  simp only [followLink, bind_ok, op_ok] at h
  obtain ⟨_, _, ⟨h1, rfl⟩, ⟨_, _, ⟨h2, rfl⟩, ⟨h3, rfl⟩, rfl⟩, rfl⟩ := h
  simp only [Op.effect] at h1 h2 h3 ⊢
  refine ⟨h1, by omega, fun s stk => ?_⟩
  simp only [List.cons_append, List.nil_append, Instr.runAll_op, Op.run_ldRef, Slice.follow]
  rcases s.readRef with e | ⟨c, r⟩
  · rfl
  · by_cases hr : r.isEmpty = true <;> simp [hr]

theorem checkOrdinal_spec {t : Ty} {g : Generated Unit} (h : checkOrdinal t frame d = .ok g) :
    g.depth = d ∧ ∀ {s s' : Slice} {v : Value} (stk : Stack), t.load s = .ok (v, s') →
      Instr.runAll g.code (.slice s' :: v :: stk) =
        if t.inRange v then .ok (.next, .slice s' :: v :: stk)
        else .error (.exception badOrdinal) := by
  cases t with
  | enumeration x variants =>
    simp only [checkOrdinal, testOrdinal, bind_ok, op_ok] at h
    obtain ⟨_, _, ⟨_, _, h1, ⟨_, _, ⟨h2, rfl⟩, ⟨h3, rfl⟩, rfl⟩, rfl⟩, ⟨h4, rfl⟩, rfl⟩ := h
    obtain ⟨hd, rfl⟩ := push_ok h1
    refine ⟨by simp only [Op.effect]; omega, fun {s s' v} stk hl => ?_⟩
    obtain ⟨k, rfl⟩ := Slice.readIntegral_int hl
    by_cases hk : k < variants
    · simp [Ty.inRange, hk, Int.not_le.2 hk]
    · simp [Ty.inRange, hk, Int.not_lt.1 hk]
  | _ =>
    obtain rfl := pure_ok.1 h
    exact ⟨rfl, fun {s s' v} stk _ => by simp [Ty.inRange]⟩

/-- The code that is left once the cell of a leaf has been entered. -/
theorem loadLeaf_spec {t : Ty} {pos : Position} {g : Generated Position}
    (h : (do op (.load t); checkOrdinal t; return pos : Gen Position) frame d = .ok g) :
    g.value = pos ∧ 1 ≤ d ∧ g.depth = d + 1 ∧ ∀ s stk, Instr.runAll g.code (.slice s :: stk) = do
      let (v, s) ← PackedLeaf.fetch ⟨t, false⟩ s
      return (.next, .slice s :: v :: stk) := by
  simp only [bind_ok, op_ok, pure_ok] at h
  obtain ⟨_, _, ⟨hd, rfl⟩, ⟨r, _, h, rfl, rfl⟩, rfl⟩ := h
  obtain ⟨hr, hc⟩ := checkOrdinal_spec h
  simp only [Op.effect] at hd hr ⊢
  refine ⟨trivial, hd, by omega, fun s stk => ?_⟩
  simp only [List.append_nil, List.cons_append, List.nil_append, Instr.runAll_op, Op.run_load,
    PackedLeaf.fetch, PackedLeaf.enter, Bool.false_eq_true, if_false, pure_eq_ok, ok_bind]
  rcases hl : t.load s with e | ⟨v, s'⟩
  · rfl
  · simp only [ok_bind, hc stk hl]
    by_cases hi : t.inRange v = true <;> simp [hi]

theorem readLeaf_spec {t : Ty} {pos : Position} {follow : Bool} {g : Generated Position}
    (h : readLeaf t pos follow frame d = .ok g) :
    ∃ opens, pos.skip t = .ok (opens, g.value) ∧ 1 ≤ d ∧ g.depth = d + 1 ∧
      ∀ s stk, Instr.runAll g.code (.slice s :: stk) = do
        let (v, s) ← PackedLeaf.fetch ⟨t, opens && follow⟩ s
        return (.next, .slice s :: v :: stk) := by
  rw [readLeaf, bind_ok] at h
  obtain ⟨_, r, h1, h, rfl⟩ := h
  obtain ⟨⟨opens, pos'⟩, hs, rfl⟩ := ofExcept_ok.1 h1
  simp only at h
  refine ⟨opens, ?_⟩
  split at h
  · next ho =>
    obtain ⟨rfl, rfl⟩ : opens = true ∧ follow = true := ho
    rw [bind_ok] at h
    obtain ⟨r1, r2, h1, h2, rfl⟩ := h
    obtain ⟨hd, hd1, hf⟩ := followLink_spec h1
    obtain ⟨rfl, -, hd2, hl⟩ := loadLeaf_spec h2
    refine ⟨hs, hd, by simp only; omega, fun s stk => ?_⟩
    simp only [List.nil_append, Instr.runAll_append, hf, Bool.and_self, PackedLeaf.fetch_opens]
    rcases s.follow with e | s'
    · rfl
    · simp [hl]
  · next ho =>
    have hof : (opens && follow) = false := by
      cases opens <;> cases follow <;> simp_all
    obtain ⟨rfl, hd, hd', hl⟩ := loadLeaf_spec h
    exact ⟨hs, hd, hd', fun s stk => by rw [hof]; exact hl s stk⟩

/-! ### Reading a value -/

theorem closeStruct_turns {n : Nat} {xs : List Value} (hn : xs.length = n) (s : Slice)
    (stk : Stack) :
    (closeStruct n).Turns (.slice s :: (xs.reverse ++ stk)) (.slice s :: .tuple xs :: stk) := by
  have h1 : ([Value.slice s] : List Value).length = 1 := rfl
  have h2 : xs.reverse.length = n := by simpa using hn
  refine (Turns.blkSwap [.slice s] xs.reverse (s := stk) h1 h2).trans fun _ => ?_
  rw [List.append_assoc]
  exact (Turns.tuple xs hn).trans fun _ => Turns.xchg _ _ _

theorem closeStruct_depth {n : Nat} {g : Generated Unit} (h : closeStruct n frame d = .ok g) :
    g.depth + n = d + 1 := by
  have hn : (List.replicate n Value.null).length = n := List.length_replicate
  obtain ⟨t, -, hl, rfl⟩ := closeStruct_turns hn (.ofCell .empty) [] d h
  simp only [List.length_cons, List.length_append, List.length_reverse, List.length_replicate,
    List.length_nil] at hl
  omega

/-- The code fetches the leaves `ts` at a position off a slice and leaves under the rest the `n`
entries that `values` makes of their values, or traps as fetching does. -/
def Fetches (x : Gen Position) (pos : Position) (follow : Bool) (ts : List Ty) (n : Nat)
    (values : List Value → List Value) : Prop :=
  ∀ ⦃frame : Option Frame⦄ ⦃d : Nat⦄ ⦃g : Generated Position⦄, x frame d = .ok g →
    ∃ ls, pos.passAll ts = .ok (ls, g.value) ∧ g.depth = d + n ∧
      ∀ s stk, Instr.runAll g.code (.slice s :: stk) = do
        let (xs, s) ← PackedLeaf.fetchAll (PackedLeaf.seen follow ls) s
        return (.next, .slice s :: ((values xs).reverse ++ stk))

theorem Fetches.pure (pos : Position) (follow : Bool) :
    Fetches (Pure.pure pos) pos follow [] 0 fun _ => [] := by
  intro frame d g h
  obtain rfl := pure_ok.1 h
  exact ⟨[], rfl, rfl, fun s stk => by simp [PackedLeaf.fetchAll]⟩

/-- A check before the code. -/
theorem Fetches.check {α : Type} {c : Gen α} {f : α → Gen Position} {pos : Position}
    {follow : Bool} {ts : List Ty} {n : Nat} {v : List Value → List Value}
    (hc : ∀ ⦃frame d g⦄, c frame d = .ok g → g.code = [] ∧ g.depth = d)
    (hf : ∀ a, Fetches (f a) pos follow ts n v) : Fetches (c >>= f) pos follow ts n v := by
  intro frame d g h
  obtain ⟨r, r', h1, h2, rfl⟩ := bind_ok.1 h
  obtain ⟨hr, hd⟩ := hc h1
  obtain ⟨ls, hp, hd', hr'⟩ := hf _ h2
  exact ⟨ls, hp, by rw [← hd]; exact hd', fun s stk => by simp only [hr, List.nil_append, hr']⟩

/-- Leaves that are fetched in two parts. Only the first may be told that its first leaf has been
entered, so it must have one. -/
theorem Fetches.append {x : Gen Position} {f : Position → Gen Position} {pos : Position}
    {follow : Bool} {ts ts' : List Ty} {n n' : Nat} {v v' : List Value → List Value}
    (hx : Fetches x pos follow ts n v) (hf : ∀ pos', Fetches (f pos') pos' true ts' n' v')
    (hne : follow = true ∨ ts ≠ []) :
    Fetches (x >>= f) pos follow (ts ++ ts') (n + n') fun xs =>
      v (xs.take ts.length) ++ v' (xs.drop ts.length) := by
  intro frame d g h
  obtain ⟨r, r', h1, h2, rfl⟩ := bind_ok.1 h
  obtain ⟨ls, hp, hd, hr⟩ := hx h1
  obtain ⟨ls', hp', hd', hr'⟩ := hf _ h2
  have hl := Position.length_passAll hp
  refine ⟨ls ++ ls', Position.passAll_append hp hp', by simp only; omega, fun s stk => ?_⟩
  have hne' : follow = true ∨ ls ≠ [] := hne.imp id fun h h' => h (by
    rw [h'] at hl
    exact List.length_eq_zero_iff.1 hl.symm)
  rw [PackedLeaf.seen_append hne', PackedLeaf.fetchAll_append, Instr.runAll_append, hr]
  rcases hfe : PackedLeaf.fetchAll (PackedLeaf.seen follow ls) s with e | ⟨xs, s'⟩
  · rfl
  have hxs := PackedLeaf.length_fetchAll hfe
  rw [PackedLeaf.length_seen, hl] at hxs
  simp only [ok_bind, pure_eq_ok, Instr.continueWith_next, hr', PackedLeaf.seen_true]
  rcases PackedLeaf.fetchAll ls' s' with e | ⟨ys, s''⟩
  · rfl
  · simp [← hxs]

/-- Code whose entries are put in another form. -/
theorem Fetches.map {x : Gen Position} {f : Position → Gen Position} {pos : Position}
    {follow : Bool} {ts : List Ty} {n n' : Nat} {v v' : List Value → List Value}
    (hx : Fetches x pos follow ts n v)
    (hf : ∀ ⦃pos' frame d g⦄, f pos' frame d = .ok g → g.value = pos' ∧ g.depth + n = d + n' ∧
      ∀ xs s stk, Instr.runAll g.code (.slice s :: ((v xs).reverse ++ stk)) =
        .ok (.next, .slice s :: ((v' xs).reverse ++ stk))) :
    Fetches (x >>= f) pos follow ts n' v' := by
  intro frame d g h
  obtain ⟨r, r', h1, h2, rfl⟩ := bind_ok.1 h
  obtain ⟨ls, hp, hd, hr⟩ := hx h1
  obtain ⟨hv, hd', hr'⟩ := hf h2
  refine ⟨ls, by rw [hp, hv], by simp only; omega, fun s stk => ?_⟩
  rw [Instr.runAll_append, hr]
  rcases PackedLeaf.fetchAll (PackedLeaf.seen follow ls) s with e | ⟨xs, s'⟩
  · rfl
  · simp [hr']

theorem readLeaf_fetches (t : Ty) (pos : Position) (follow : Bool) :
    Fetches (readLeaf t pos follow) pos follow [t] 1 fun xs => [xs.headD .null] := by
  intro frame d g h
  obtain ⟨opens, hs, -, hd, hr⟩ := readLeaf_spec h
  refine ⟨[⟨t, opens⟩], by simp [Position.passAll, hs], hd, fun s stk => ?_⟩
  have hseen : PackedLeaf.seen follow [⟨t, opens⟩] = [⟨t, opens && follow⟩] := by
    cases follow <;> simp [PackedLeaf.entered]
  rw [hr, hseen, PackedLeaf.fetchAll_singleton]
  rcases PackedLeaf.fetch ⟨t, opens && follow⟩ s with e | ⟨v, s'⟩ <;> rfl

theorem read_leaf {t : Ty} (h : t.IsLeaf) (pos : Position) (follow : Bool) :
    read t pos follow = readLeaf t pos follow ∨ ∃ e, read t pos follow = fail e := by
  cases t with
  | tuple ts => exact .inr ⟨_, rfl⟩
  | _ => first | exact .inl rfl | exact h.elim

/-- **The code that reads a value fetches the leaves of its type** and leaves the value built from
them. -/
theorem read_fetches (t : Ty) : ∀ (pos : Position) (follow : Bool),
    follow = true ∨ t.startsInLeaf = true →
    Fetches (read t pos follow) pos follow t.leaves 1 fun xs => [t.build xs] := by
  refine Ty.leafInduction
    (P := fun t => ∀ pos follow, follow = true ∨ t.startsInLeaf = true →
      Fetches (read t pos follow) pos follow t.leaves 1 fun xs => [t.build xs])
    (Q := fun fs => ∀ pos follow, follow = true ∨ Ty.fieldsStartInLeaf fs = true →
      Fetches (readFields fs pos follow) pos follow (Ty.fieldLeaves fs) fs.length
        (Ty.buildFields fs))
    (fun t h pos follow _ => ?leaf) (fun x fs ih pos follow hp => ?struct)
    (fun x t ih pos follow hp => ?named) (fun pos follow _ => .pure pos follow)
    (fun x t fs iht ihfs pos follow hp => ?cons) t
  case leaf =>
    rcases read_leaf h pos follow with hr | ⟨e, hr⟩
    · rw [hr, Ty.leaves_leaf h]
      simp only [Ty.build_leaf h]
      exact readLeaf_fetches t pos follow
    · rw [hr]
      exact fun _ _ _ hg => absurd hg fail_ok
  case struct =>
    refine (ih pos follow hp).map fun pos' frame d g hg => ?_
    obtain ⟨r, _, h1, h2, rfl⟩ := bind_ok.1 hg
    obtain rfl := pure_ok.1 h2
    refine ⟨rfl, closeStruct_depth h1, fun xs s stk => ?_⟩
    obtain ⟨_, ht, -, rfl⟩ := closeStruct_turns (Ty.length_buildFields fs xs) s stk d h1
    simp [ht, Ty.build]
  case named => exact ih pos follow hp
  case cons =>
    have h := (iht pos follow hp).append (f := fun pos' => readFields fs pos' true)
      (fun pos' => ihfs pos' true (.inl rfl)) (hp.imp id (Ty.leaves_ne_nil t))
    rw [Nat.add_comm 1] at h
    exact h

theorem readLeaf_unopened {pos : Position} (t : Ty)
    (h : ∀ {opens pos'}, pos.skip t = .ok (opens, pos') → opens = false) :
    readLeaf t pos false = readLeaf t pos true := by
  unfold readLeaf
  rcases hs : pos.skip t with e | ⟨opens, pos'⟩
  · rfl
  · obtain rfl := h hs
    rfl

/-- Whether the first link is to be followed makes no difference where there is none. -/
theorem read_unopened (t : Ty) : ∀ {pos : Position},
    (∀ {l opens pos'}, pos.skip l = .ok (opens, pos') → opens = false) →
    read t pos false = read t pos true := by
  refine Ty.leafInduction
    (P := fun t => ∀ {pos : Position},
      (∀ {l opens pos'}, pos.skip l = .ok (opens, pos') → opens = false) →
      read t pos false = read t pos true)
    (Q := fun fs => ∀ {pos : Position},
      (∀ {l opens pos'}, pos.skip l = .ok (opens, pos') → opens = false) →
      readFields fs pos false = readFields fs pos true)
    (fun t ht pos h => ?leaf) (fun x fs ih pos h => ?struct) (fun x t ih => ih) (fun _ => rfl)
    (fun x t fs iht _ pos h => ?cons) t
  case leaf =>
    cases t <;> first | exact readLeaf_unopened _ h | rfl | exact ht.elim
  case struct => rw [read, read, ih h]
  case cons => rw [readFields, readFields, iht h]

/-- The code that reads values fetches their leaves and leaves the values, the last on top. -/
theorem readEach_fetches : ∀ (ts : List Ty) (pos : Position),
    Fetches (readEach ts pos) pos true (Ty.allLeaves ts) ts.length (Ty.buildAll ts)
  | [], pos => .pure pos true
  | t :: ts, pos => by
    refine Fetches.check (fun _ _ _ h => by rw [depth_ok.1 h]; exact ⟨rfl, rfl⟩) fun entry => ?_
    have h := (read_fetches t pos true (.inl rfl)).append
      (f := fun pos' => do
        ensureDepth (entry + 1) "decode_parameter"
        readEach ts pos')
      (fun pos' => .check (fun _ _ _ h => by rw [(ensureDepth_ok.1 h).2]; exact ⟨rfl, rfl⟩)
        fun _ => readEach_fetches ts pos') (.inl rfl)
    rw [Nat.add_comm 1] at h
    exact h

/-- **The code that reads a list of values fetches their leaves** and leaves the values under the
rest of the slice. -/
theorem readAll_fetches (ts : List Ty) (pos : Position) :
    Fetches (readAll ts pos) pos true (Ty.allLeaves ts) ts.length (Ty.buildAll ts) :=
  Fetches.check (fun _ _ _ h => by rw [(require_ok.1 h).2]; exact ⟨rfl, rfl⟩)
    fun _ => readEach_fetches ts pos

/-- The code that reads a list of values from some leaf of a packing on. -/
theorem readAll_exec {ts : List Ty} {k : Packing} {i : Nat} {g : Generated Position}
    (hg : readAll ts (.packed ⟨k, i⟩) frame d = .ok g) (s : Slice) (stk : Stack) :
    Instr.exec g.code (.slice s :: stk) = do
      let (xs, s) ← PackedLeaf.fetchAll ((k.leaves.drop i).take (Ty.allLeaves ts).length) s
      return .slice s :: ((Ty.buildAll ts xs).reverse ++ stk) := by
  obtain ⟨ls, hpass, -, hr⟩ := readAll_fetches ts _ hg
  obtain ⟨-, rfl⟩ := Position.passAll_packed hpass
  rw [Instr.exec, hr, PackedLeaf.seen_true]
  rcases PackedLeaf.fetchAll ((k.leaves.drop i).take (Ty.allLeaves ts).length) s
    with e | ⟨xs, s'⟩ <;> rfl

/-- What the code that reads a list of values leaves on the stack. -/
theorem readAll_leaves {ts : List Ty} {pos : Position} {g : Generated Position}
    (hg : readAll ts pos frame d = .ok g) {s : Slice} {stk t : Stack}
    (h : Instr.exec g.code (.slice s :: stk) = .ok t) :
    ∃ (r : Slice) (vs : List Value), vs.length = ts.length ∧
      t = .slice r :: (vs.reverse ++ stk) := by
  obtain ⟨ls, -, -, hr⟩ := readAll_fetches ts pos hg
  rw [Instr.exec, hr] at h
  simp only [bind_eq_ok, pure_eq_ok, Except.ok.injEq] at h
  obtain ⟨_, ⟨⟨xs, r⟩, -, rfl⟩, rfl⟩ := h
  exact ⟨r, _, Ty.length_buildAll ts xs, rfl⟩

end Gen

end TypedCells
