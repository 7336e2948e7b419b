import TypedCells.Proofs.Reader

/-!
# Reading without traps

The quiet code takes the same decisions as the strict one: it fetches the same leaves off a slice,
and where fetching fails it leaves the call with the slice and null, having dropped all that it has
read so far (`Gen.FetchesQuietly`).

* `Gen.readAllQuiet_agrees`: on every slice the quiet code leaves two entries, the values in one
  entry and the rest that the strict code leaves, or null and a slice where the strict code traps.
-/

namespace TypedCells

namespace Gen

variable {α : Type}

/-! ### Giving up -/

theorem giveUp_turns {n : Nat} {s : Slice} {pend : List Value} {stk : Stack}
    (hn : pend.length = n) :
    (giveUp n).Turns (.slice s :: (pend ++ stk)) (.slice s :: .null :: stk) := by
  have hdrop : (dropUnder n 1).Turns (.slice s :: (pend ++ stk)) (.slice s :: stk) :=
    Turns.dropUnder [.slice s] pend rfl hn
  refine hdrop.trans fun _ => ?_
  refine Turns.trans (t := .null :: .slice s :: stk) (.op rfl rfl) fun _ => ?_
  exact Turns.blkSwap [.null] [.slice s] rfl rfl

theorem bitAnd_ofBool (a b : Bool) :
    bitAnd (if a then -1 else 0) (if b then -1 else 0) = if (a && b) then -1 else 0 := by
  cases a <;> cases b <;> rfl

theorem followLinkQuiet_ends {n : Nat} {s : Slice} {pend : List Value} (stk : Stack)
    (hs : s.Valid) (hn : pend.length = n) :
    (followLinkQuiet n).Ends (.slice s :: (pend ++ stk)) <|
      match s.follow with
      | .ok s' => .ok (.next, .slice s' :: (pend ++ stk))
      | .error _ => .ok (.exit, .slice s :: .null :: stk) := by
  refine (Turns.push (v := .slice s) rfl).bind_ends fun _ => ?_
  refine (Turns.op rfl (Op.run_bitRefs s)).bind_ends fun _ => ?_
  refine (Turns.op rfl (Op.run_pushInt 1)).bind_ends fun _ => ?_
  refine (Turns.op rfl (Op.run_equal _ _)).bind_ends fun _ => ?_
  refine (Turns.xchg _ _ _).bind_ends fun _ => ?_
  refine (Turns.op rfl (Op.run_pushInt 0)).bind_ends fun _ => ?_
  refine (Turns.op rfl (Op.run_equal _ _)).bind_ends fun _ => ?_
  refine (Turns.op rfl (Op.run_and _ _)).bind_ends fun _ => ?_
  rw [bitAnd_ofBool]
  rcases Slice.follow_cases hs with ⟨hb, hr, s', hf⟩ | ⟨hne, hf⟩
  · rw [hf, hb, hr]
    refine jumpUnless_skips.bind_ends fun _ => ?_
    intro frame d g h
    rw [(followLink_spec h).2.2, hf]
    rfl
  · have hflag : (decide ((s.refCount : Int) = 1) && decide ((s.bitCount : Int) = 0)) = false := by
      rw [Bool.and_eq_false_iff, decide_eq_false_iff_not, decide_eq_false_iff_not]
      omega
    rw [hf, hflag]
    exact Ends.bind_exit (jumpUnless_leaves (giveUp_turns hn))

/-! ### Fetching quietly -/

/-- The code fetches the leaves `ts` at a position off a slice, with `n` entries under it that have
been read before, and leaves the `m` entries that `values` makes of their values under the rest. If
fetching fails it leaves the call, with null and a slice in place of all that has been read. -/
def FetchesQuietly (x : Gen Position) (pos : Position) (ts : List Ty) (n : Nat)
    (values : List Value → List Value) : Prop :=
  ∀ ⦃frame : Option Frame⦄ ⦃d : Nat⦄ ⦃g : Generated Position⦄, x frame d = .ok g →
    ∃ ls, pos.passAll ts = .ok (ls, g.value) ∧
      ∀ ⦃s : Slice⦄ (pend : List Value) (stk : Stack), s.Valid → pend.length = n →
        match PackedLeaf.fetchAll ls s with
        | .ok (xs, s') => Instr.runAll g.code (.slice s :: (pend ++ stk)) =
            .ok (.next, .slice s' :: ((values xs).reverse ++ (pend ++ stk)))
        | .error _ => ∃ s', Instr.runAll g.code (.slice s :: (pend ++ stk)) =
            .ok (.exit, .slice s' :: .null :: stk)

theorem FetchesQuietly.pure (pos : Position) (n : Nat) :
    FetchesQuietly (Pure.pure pos) pos [] n fun _ => [] := by
  intro frame d g h
  obtain rfl := pure_ok.1 h
  exact ⟨[], rfl, fun s pend stk _ _ => by simp [PackedLeaf.fetchAll]⟩

theorem FetchesQuietly.append {x : Gen Position} {f : Position → Gen Position} {pos : Position}
    {ts ts' : List Ty} {n m : Nat} {v v' : List Value → List Value}
    (hx : FetchesQuietly x pos ts n v) (hm : ∀ xs, (v xs).length = m)
    (hf : ∀ pos', FetchesQuietly (f pos') pos' ts' (n + m) v') :
    FetchesQuietly (x >>= f) pos (ts ++ ts') n fun xs =>
      v (xs.take ts.length) ++ v' (xs.drop ts.length) := by
  intro frame d g h
  obtain ⟨r, r', h1, h2, rfl⟩ := bind_ok.1 h
  obtain ⟨ls, hp, hr⟩ := hx h1
  obtain ⟨ls', hp', hr'⟩ := hf _ h2
  refine ⟨ls ++ ls', Position.passAll_append hp hp', fun s pend stk hs hn => ?_⟩
  have hr1 := hr pend stk hs hn
  rw [PackedLeaf.fetchAll_append]
  simp only [Instr.runAll_append]
  rcases hfe : PackedLeaf.fetchAll ls s with e | ⟨xs, s'⟩
  · rw [hfe] at hr1
    obtain ⟨t, ht⟩ := hr1
    exact ⟨t, by rw [ht]; rfl⟩
  rw [hfe] at hr1
  have hxs := PackedLeaf.length_fetchAll hfe
  rw [Position.length_passAll hp] at hxs
  have hr2 := hr' ((v xs).reverse ++ pend) stk (PackedLeaf.fetchAll_valid hs hfe).2
    (by simp [hm, hn, Nat.add_comm])
  simp only [ok_bind, hr1, Instr.continueWith_next]
  rw [List.append_assoc] at hr2
  rcases hfe' : PackedLeaf.fetchAll ls' s' with e | ⟨ys, s''⟩
  · rw [hfe'] at hr2
    exact hr2
  · rw [hfe'] at hr2
    simp only [ok_bind, pure_eq_ok, hr2, ← hxs, List.take_left, List.drop_left,
      List.reverse_append, List.append_assoc]

theorem FetchesQuietly.map {x : Gen Position} {f : Position → Gen Position} {pos : Position}
    {ts : List Ty} {n : Nat} {v v' : List Value → List Value} (hx : FetchesQuietly x pos ts n v)
    (hf : ∀ ⦃pos' frame d g⦄, f pos' frame d = .ok g → g.value = pos' ∧
      ∀ xs s stk, Instr.runAll g.code (.slice s :: ((v xs).reverse ++ stk)) =
        .ok (.next, .slice s :: ((v' xs).reverse ++ stk))) :
    FetchesQuietly (x >>= f) pos ts n v' := by
  intro frame d g h
  obtain ⟨r, r', h1, h2, rfl⟩ := bind_ok.1 h
  obtain ⟨ls, hp, hr⟩ := hx h1
  obtain ⟨hv, hr'⟩ := hf h2
  refine ⟨ls, by rw [hp, hv], fun s pend stk hs hn => ?_⟩
  have hr1 := hr pend stk hs hn
  simp only [Instr.runAll_append]
  rcases hfe : PackedLeaf.fetchAll ls s with e | ⟨xs, s'⟩
  · rw [hfe] at hr1
    obtain ⟨t, ht⟩ := hr1
    exact ⟨t, by rw [ht]; rfl⟩
  · rw [hfe] at hr1
    simp only [hr1, ok_bind, Instr.continueWith_next, hr']

/-! ### Leaves -/

theorem checkOrdinalQuiet_ends {t : Ty} {n : Nat} {r s : Slice} {v : Value} {pend : List Value}
    (stk : Stack) (hn : (v :: pend).length = n) (hl : t.load r = .ok (v, s)) :
    (checkOrdinalQuiet n t).Ends (.slice s :: v :: (pend ++ stk)) <|
      if t.inRange v then .ok (.next, .slice s :: v :: (pend ++ stk))
      else .ok (.exit, .slice s :: .null :: stk) := by
  cases t with
  | enumeration x variants =>
    obtain ⟨k, rfl⟩ := Slice.readIntegral_int hl
    have test : (testOrdinal variants).Turns (.slice s :: .int k :: (pend ++ stk))
        (.ofBool (k ≥ variants) :: .slice s :: .int k :: (pend ++ stk)) := by
      refine (Turns.push (v := .int k) rfl).trans fun _ => ?_
      exact (Turns.op rfl (Op.run_pushInt _)).trans fun _ => .op rfl (Op.run_geq _ _)
    refine test.bind_ends fun _ => ?_
    by_cases hk : k < variants
    · rw [decide_eq_false (by omega)]
      simp only [Ty.inRange, hk, decide_true, if_true]
      exact jumpIf_skips.ends
    · rw [decide_eq_true (by omega)]
      simp only [Ty.inRange, hk, decide_false, Bool.false_eq_true, if_false]
      exact jumpIf_leaves (giveUp_turns hn)
  | _ =>
    simp only [Ty.inRange, if_true]
    exact (Turns.pure () _).ends

/-- Reads a leaf whose cell has been entered, or gives up on the `n` values read so far. -/
def loadLeafQuiet (t : Ty) (pos : Position) (n : Nat) : Gen Position := do
  let entry ← depth
  op (.loadQuiet t)
  jumpUnlessAt entry (giveUp n)
  checkOrdinalQuiet (n + 1) t
  return pos

theorem loadLeafQuiet_value {t : Ty} {pos : Position} {n : Nat} {frame : Option Frame} {d : Nat}
    {g : Generated Position} (h : loadLeafQuiet t pos n frame d = .ok g) : g.value = pos := by
  simp only [loadLeafQuiet, bind_ok, pure_ok] at h
  obtain ⟨_, _, -, ⟨_, _, -, ⟨_, _, -, ⟨_, _, -, rfl, rfl⟩, rfl⟩, rfl⟩, rfl⟩ := h
  rfl

theorem loadLeafQuiet_ends (t : Ty) (pos : Position) {n : Nat} (s : Slice) {pend : List Value}
    (stk : Stack) (hn : pend.length = n) :
    match PackedLeaf.fetch ⟨t, false⟩ s with
    | .ok (v, s') => (loadLeafQuiet t pos n).Ends (.slice s :: (pend ++ stk))
        (.ok (.next, .slice s' :: v :: (pend ++ stk)))
    | .error _ => ∃ s', (loadLeafQuiet t pos n).Ends (.slice s :: (pend ++ stk))
        (.ok (.exit, .slice s' :: .null :: stk)) := by
  have run (s' : Stack) (h : Op.run (.loadQuiet t) (.slice s :: (pend ++ stk)) = .ok s') :
      (op (.loadQuiet t)).Ends (.slice s :: (pend ++ stk)) (.ok (.next, s')) := by
    intro frame d g hg
    obtain ⟨-, rfl⟩ := op_ok.1 hg
    simp [h]
  rcases hl : t.load s with e | ⟨v, s'⟩
  · obtain rfl := Ty.load_underflows t s hl
    simp only [PackedLeaf.fetch, PackedLeaf.enter, hl, Bool.false_eq_true, if_false, pure_eq_ok,
      ok_bind, error_bind]
    refine ⟨s, (Turns.depth _).bind_ends fun entry => ?_⟩
    refine (run (.ofBool false :: .slice s :: (pend ++ stk)) (by simp [Op.run, hl])).bind_next
      fun _ => ?_
    exact Ends.bind_exit (jumpUnlessAt_leaves (giveUp_turns hn))
  · have hc := checkOrdinalQuiet_ends stk (show (v :: pend).length = n + 1 by simpa) hl
    have hw {r : Except Trap (Flow × Stack)}
        (h : (do checkOrdinalQuiet (n + 1) t; return pos : Gen Position).Ends
          (.slice s' :: v :: (pend ++ stk)) r) :
        (loadLeafQuiet t pos n).Ends (.slice s :: (pend ++ stk)) r := by
      refine (Turns.depth _).bind_ends fun entry => ?_
      refine (run (.ofBool true :: .slice s' :: v :: (pend ++ stk))
        (by simp [Op.run, hl])).bind_next fun _ => ?_
      exact jumpUnlessAt_skips.bind_ends fun _ => h
    simp only [PackedLeaf.fetch, PackedLeaf.enter, hl, Bool.false_eq_true, if_false, pure_eq_ok,
      ok_bind]
    by_cases hi : t.inRange v = true
    · simp only [hi, if_true] at hc ⊢
      exact hw (hc.bind_next fun _ => (Turns.pure _ _).ends)
    · simp only [hi] at hc ⊢
      exact ⟨s', hw (Ends.bind_exit hc)⟩

theorem readLeafQuiet_fetches (t : Ty) (pos : Position) (n : Nat) :
    FetchesQuietly (readLeafQuiet t pos n) pos [t] n fun xs => [xs.headD .null] := by
  intro frame d g h
  rw [readLeafQuiet, bind_ok] at h
  obtain ⟨_, r, h1, h2, rfl⟩ := h
  obtain ⟨⟨opens, pos'⟩, hs, rfl⟩ := ofExcept_ok.1 h1
  simp only at h2
  have hp : ∀ p, p = pos' → pos.passAll [t] = .ok ([⟨t, opens⟩], p) := by
    rintro _ rfl
    simp [Position.passAll, hs]
  -- one leaf is fetched, so what is left to show is about its value alone
  have one {s : Slice} {pend : List Value} {stk : Stack}
      (h : match PackedLeaf.fetch ⟨t, opens⟩ s with
        | .ok (v, s') => Instr.runAll r.code (.slice s :: (pend ++ stk)) =
            .ok (.next, .slice s' :: v :: (pend ++ stk))
        | .error _ => ∃ s', Instr.runAll r.code (.slice s :: (pend ++ stk)) =
            .ok (.exit, .slice s' :: .null :: stk)) :
      match PackedLeaf.fetchAll [⟨t, opens⟩] s with
      | .ok (xs, s') => Instr.runAll r.code (.slice s :: (pend ++ stk)) =
          .ok (.next, .slice s' :: ([xs.headD .null].reverse ++ (pend ++ stk)))
      | .error _ => ∃ s', Instr.runAll r.code (.slice s :: (pend ++ stk)) =
          .ok (.exit, .slice s' :: .null :: stk) := by
    rw [PackedLeaf.fetchAll_singleton]
    rcases hf : PackedLeaf.fetch ⟨t, opens⟩ s with e | ⟨v, s'⟩ <;> rw [hf] at h <;> exact h
  cases opens with
  | false =>
    refine ⟨_, hp _ (loadLeafQuiet_value h2), fun s pend stk _ hn => one ?_⟩
    have hl := loadLeafQuiet_ends t pos' s stk hn
    rcases hf : PackedLeaf.fetch ⟨t, false⟩ s with e | ⟨v, s'⟩
    · rw [hf] at hl
      obtain ⟨s', hl⟩ := hl
      exact ⟨s', hl h2⟩
    · rw [hf] at hl
      exact hl h2
  | true =>
    rw [if_pos rfl, bind_ok] at h2
    obtain ⟨r1, r2, h3, h4, rfl⟩ := h2
    have hv : r2.value = pos' := loadLeafQuiet_value h4
    refine ⟨_, hp _ hv, fun s pend stk hsv hn => one ?_⟩
    have hk := followLinkQuiet_ends stk hsv hn h3
    rw [PackedLeaf.fetch_opens]
    simp only [Instr.runAll_append]
    rcases hf : s.follow with e | s1
    · rw [hf] at hk
      exact ⟨s, by rw [hk]; rfl⟩
    rw [hf] at hk
    simp only [hk, ok_bind, Instr.continueWith_next]
    have hl := loadLeafQuiet_ends t pos' s1 stk hn
    rcases hf' : PackedLeaf.fetch ⟨t, false⟩ s1 with e | ⟨v, s'⟩
    · rw [hf'] at hl
      obtain ⟨s', hl⟩ := hl
      exact ⟨s', hl h4⟩
    · rw [hf'] at hl
      exact hl h4

/-! ### Values -/

theorem readQuiet_leaf {t : Ty} (h : t.IsLeaf) (pos : Position) (n : Nat) :
    readQuiet t pos n = readLeafQuiet t pos n ∨ ∃ e, readQuiet t pos n = fail e := by
  cases t with
  | tuple ts => exact .inr ⟨_, rfl⟩
  | _ => first | exact .inl rfl | exact h.elim

theorem readQuiet_fetches (t : Ty) : ∀ (pos : Position) (n : Nat),
    FetchesQuietly (readQuiet t pos n) pos t.leaves n fun xs => [t.build xs] := by
  refine Ty.leafInduction
    (P := fun t => ∀ pos n, FetchesQuietly (readQuiet t pos n) pos t.leaves n
      fun xs => [t.build xs])
    (Q := fun fs => ∀ pos n, FetchesQuietly (readFieldsQuiet fs pos n) pos (Ty.fieldLeaves fs) n
      (Ty.buildFields fs))
    (fun t h pos n => ?leaf) (fun x fs ih pos n => ?struct) (fun x t ih pos n => ?named)
    (fun pos n => .pure pos n) (fun x t fs iht ihfs pos n => ?cons) t
  case leaf =>
    rcases readQuiet_leaf h pos n with hr | ⟨e, hr⟩
    · rw [hr, Ty.leaves_leaf h]
      simp only [Ty.build_leaf h]
      exact readLeafQuiet_fetches t pos n
    · rw [hr]
      exact fun _ _ _ hg => absurd hg fail_ok
  case struct =>
    refine (ih pos n).map fun pos' frame d g hg => ?_
    obtain ⟨r, _, h1, h2, rfl⟩ := bind_ok.1 hg
    obtain rfl := pure_ok.1 h2
    refine ⟨rfl, fun xs s stk => ?_⟩
    have ht := (closeStruct_turns (Ty.length_buildFields fs xs) s stk).ends h1
    simp [ht, Ty.build]
  case named => exact ih pos n
  case cons =>
    exact (iht pos n).append (m := 1) (fun _ => rfl) fun pos' => ihfs pos' (n + 1)

theorem readEachQuiet_fetches : ∀ (ts : List Ty) (pos : Position) (n : Nat),
    FetchesQuietly (readEachQuiet ts pos n) pos (Ty.allLeaves ts) n (Ty.buildAll ts)
  | [], pos, n => .pure pos n
  | t :: ts, pos, n =>
    (readQuiet_fetches t pos n).append (m := 1) (fun _ => rfl) fun pos' =>
      readEachQuiet_fetches ts pos' (n + 1)

/-! ### The result in one entry -/

/-- Values in one entry: a tuple of them, or a single value itself unless it may be null. -/
def packed : List Ty → List Value → Value
  | [t], vs => if t.mayBeNull then .tuple vs else vs.headD .null
  | _, vs => .tuple vs

theorem wrapResult_turns {ts : List Ty} {vs : List Value} (h : vs.length = ts.length)
    (stk : Stack) : (wrapResult ts).Turns (vs.reverse ++ stk) (packed ts vs :: stk) := by
  match ts, vs, h with
  | [t], [v], _ =>
    simp only [wrapResult, packed]
    split
    · exact Turns.tuple [v] rfl
    · exact Turns.pure () _
  | [], vs, h => exact Turns.tuple vs h
  | _ :: _ :: _, vs, h => exact Turns.tuple vs h

/-- A value that is read as null has a type that says so. -/
theorem build_ne_null (t : Ty) : ∀ {ls : List PackedLeaf} {s s' : Slice} {xs : List Value},
    t.mayBeNull = false → ls.map (·.type) = t.leaves →
    PackedLeaf.fetchAll ls s = .ok (xs, s') → t.build xs ≠ .null := by
  refine Ty.leafInduction
    (P := fun t => ∀ {ls : List PackedLeaf} {s s' : Slice} {xs : List Value},
      t.mayBeNull = false → ls.map (·.type) = t.leaves →
      PackedLeaf.fetchAll ls s = .ok (xs, s') → t.build xs ≠ .null)
    (Q := fun _ => True) (fun t h ls s s' xs hn hl hf => ?_) (fun _ _ _ => fun _ _ _ => nofun)
    (fun x t ih ls s s' xs hn hl hf => ?_) trivial (fun _ _ _ _ _ => trivial) t
  · rw [Ty.leaves_leaf h, List.map_eq_singleton_iff] at hl
    obtain ⟨l, rfl, rfl⟩ := hl
    obtain ⟨v, ws, r, h1, -, rfl⟩ := PackedLeaf.fetchAll_cons_eq_ok hf
    obtain ⟨_, -, h2, -⟩ := PackedLeaf.fetch_eq_ok h1
    rw [Ty.build_leaf h]
    exact Ty.load_ne_null _ hn h2
  · rw [Ty.mayBeNull_alias] at hn
    exact ih hn hl hf

theorem packed_ne_null {ts : List Ty} {ls : List PackedLeaf} {s s' : Slice} {xs : List Value}
    (hl : ls.map (·.type) = Ty.allLeaves ts) (hf : PackedLeaf.fetchAll ls s = .ok (xs, s')) :
    packed ts (Ty.buildAll ts xs) ≠ .null := by
  match ts with
  | [] | _ :: _ :: _ => nofun
  | [t] =>
    rw [packed]
    split
    · nofun
    · next hn =>
      have hl' : ls.map (·.type) = t.leaves := by simpa [Ty.allLeaves] using hl
      have hx : xs.take t.leaves.length = xs := by
        rw [← hl', List.length_map, ← PackedLeaf.length_fetchAll hf, List.take_length]
      simp only [Ty.buildAll, hx, List.headD_cons]
      exact build_ne_null t (by simpa using hn) hl' hf

/-! ### Quiet and strict reading -/

/-- The quiet code for a list of values, by what fetching their leaves gives. -/
theorem readAllQuiet_spec {ts : List Ty} {pos : Position} {frame : Option Frame} {d : Nat}
    {g : Generated Position} (h : readAllQuiet ts pos frame d = .ok g) :
    ∃ ls p, pos.passAll (Ty.allLeaves ts) = .ok (ls, p) ∧ ∀ {s : Slice} (stk : Stack), s.Valid →
      match PackedLeaf.fetchAll ls s with
      | .ok (xs, s') => Instr.exec g.code (.slice s :: stk) =
          .ok (.slice s' :: packed ts (Ty.buildAll ts xs) :: stk)
      | .error _ =>
        ∃ s', Instr.exec g.code (.slice s :: stk) = .ok (.slice s' :: .null :: stk) := by
  obtain ⟨-, b, hb, -, rfl⟩ := call_ok h
  obtain ⟨r, r', h1, h2, rfl⟩ := bind_ok.1 hb
  obtain ⟨ls, hp, hr⟩ := readEachQuiet_fetches ts pos 0 h1
  refine ⟨ls, _, hp, fun {s} stk hs => ?_⟩
  have out {f : Flow} {v w : Value}
      (hb : Instr.runAll (r.code ++ r'.code) [.slice s] = .ok (f, [v, w])) :
      Instr.exec [.call (r.code ++ r'.code) 1 2] (.slice s :: stk) = .ok (v :: w :: stk) := by
    simp [Instr.exec, Instr.runAll_cons, Instr.run, Stack.need, hb]
  have hr1 := hr [] [] hs rfl
  rcases hf : PackedLeaf.fetchAll ls s with e | ⟨xs, s'⟩
  · rw [hf] at hr1
    obtain ⟨t, ht⟩ := hr1
    refine ⟨t, out (f := .exit) ?_⟩
    rw [Instr.runAll_append, show [Value.slice s] = .slice s :: ([] ++ []) from rfl, ht]
    rfl
  · rw [hf] at hr1
    have ht : (do
        blkSwap ts.length 1
        wrapResult ts
        blkSwap 1 1
        return r.value : Gen Position).Turns (.slice s' :: ((Ty.buildAll ts xs).reverse ++ []))
        [.slice s', packed ts (Ty.buildAll ts xs)] := by
      have hl := Ty.length_buildAll ts xs
      refine (Turns.blkSwap [.slice s'] _ (s := []) rfl (by simp)).trans fun _ => ?_
      rw [List.append_nil]
      refine (wrapResult_turns hl _).trans fun _ => ?_
      refine (Turns.blkSwap [packed ts (Ty.buildAll ts xs)] [.slice s'] (s := []) rfl rfl).trans
        fun _ => ?_
      exact Turns.pure _ _
    refine out (f := .next) ?_
    rw [Instr.runAll_append, show [Value.slice s] = .slice s :: ([] ++ []) from rfl, hr1]
    exact ht.ends h2

/-- **Reading quietly agrees with reading strictly on every slice, and never traps.** It leaves two
entries in place of the slice. Where the strict code leaves values and a rest, these are the values
in one entry, not null, and the same rest; where the strict code traps, the entry is null. -/
theorem readAllQuiet_agrees {ts : List Ty} {pos : Position} {frame frame' : Option Frame}
    {d d' : Nat} {strict quiet : Generated Position}
    (hstrict : readAll ts pos frame d = .ok strict)
    (hquiet : readAllQuiet ts pos frame' d' = .ok quiet) {s : Slice} (hs : s.Valid) (stk : Stack) :
    ∃ r s', Instr.exec quiet.code (.slice s :: stk) = .ok (.slice s' :: r :: stk) ∧
      (∀ t, Instr.exec strict.code (.slice s :: stk) = .ok t →
        ∃ vs, vs.length = ts.length ∧ t = .slice s' :: (vs.reverse ++ stk) ∧ r = packed ts vs ∧
          r ≠ .null) ∧
      ∀ e, Instr.exec strict.code (.slice s :: stk) = .error e → r = .null := by
  obtain ⟨ls, hp, -, hr⟩ := readAll_fetches ts pos hstrict
  obtain ⟨ls', p, hp', hq⟩ := readAllQuiet_spec hquiet
  obtain ⟨rfl, -⟩ := Prod.mk.inj (Except.ok.inj (hp.symm.trans hp'))
  have hq := hq stk hs
  have hr := hr s stk
  rw [PackedLeaf.seen_true] at hr
  rcases hf : PackedLeaf.fetchAll ls s with e | ⟨xs, s'⟩
  · rw [hf] at hq hr
    obtain ⟨s', hq⟩ := hq
    refine ⟨.null, s', hq, fun t ht => ?_, fun _ _ => rfl⟩
    simp [Instr.exec, hr] at ht
  · rw [hf] at hq hr
    have hx : Instr.exec strict.code (.slice s :: stk) =
        .ok (.slice s' :: ((Ty.buildAll ts xs).reverse ++ stk)) := Instr.exec_of_runAll hr
    refine ⟨_, s', hq, fun t ht => ?_, fun e he => ?_⟩
    · obtain rfl := Except.ok.inj (hx.symm.trans ht)
      exact ⟨_, Ty.length_buildAll ts xs, rfl, rfl,
        packed_ne_null (Position.passAll_types hp) hf⟩
    · rw [hx] at he
      cases he

/-! ### Two cells -/

/-- Values of the types `linkedTypes` with the given ordinal. -/
def linkedData (ordinal : Nat) : Slice :=
  .ofCell ⟨[], [.empty, .empty, .empty, ⟨.ofNat 8 ordinal ++ [false], [.empty]⟩]⟩

theorem linkedData_valid (ordinal : Nat) : (linkedData ordinal).Valid := Slice.valid_ofCell _

/-- The last ordinal is read and the number behind it is not. -/
theorem readAllQuiet_agrees_linked :
    ∃ strict quiet, Packing.ofTypes 0 0 linkedTypes = .ok linkedPacking ∧
      readAll linkedTypes linkedPacking.start none 2 = .ok strict ∧
      readAllQuiet linkedTypes linkedPacking.start none 2 = .ok quiet ∧
      (∃ r s', Instr.exec quiet.code [.slice (linkedData 2), .null] = .ok [.slice s', r, .null] ∧
        r ≠ .null) ∧
      ∃ s', Instr.exec quiet.code [.slice (linkedData 3), .null] =
        .ok [.slice s', .null, .null] := by
  obtain ⟨strict, h1⟩ := exists_of_isOk
    (show (readAll linkedTypes linkedPacking.start none 2).isOk = true by decide +kernel)
  obtain ⟨quiet, h2⟩ := exists_of_isOk
    (show (readAllQuiet linkedTypes linkedPacking.start none 2).isOk = true by decide +kernel)
  have hrun : ((readAll linkedTypes linkedPacking.start none 2).toOption.all fun g =>
      (Instr.exec g.code [.slice (linkedData 2), .null]).isOk &&
        !(Instr.exec g.code [.slice (linkedData 3), .null]).isOk) = true := by decide +kernel
  rw [h1, Except.toOption, Option.all_some, Bool.and_eq_true, Bool.not_eq_true'] at hrun
  refine ⟨strict, quiet, rfl, h1, h2, ?_, ?_⟩
  · obtain ⟨t, ht⟩ := exists_of_isOk hrun.1
    obtain ⟨r, s', h, hr, -⟩ := readAllQuiet_agrees h1 h2 (linkedData_valid 2) [.null]
    obtain ⟨vs, -, -, -, hn⟩ := hr t ht
    exact ⟨r, s', h, hn⟩
  · obtain ⟨e, he⟩ := exists_of_not_isOk hrun.2
    obtain ⟨r, s', h, -, hr⟩ := readAllQuiet_agrees h1 h2 (linkedData_valid 3) [.null]
    exact ⟨s', by rw [h, hr e he]⟩

end Gen

end TypedCells
