import TypedCells.Gen.Write
import TypedCells.Proofs.Chains
import TypedCells.Proofs.Generators

/-!
# What the code that writes does

`Gen.write` passes the leaves of a type at its position, and its code fills the builders with the
values of these leaves (`Gen.write_fills`), or traps as filling them does. The values still to be
written wait under the builder, and under them the builders filled before. Linking the builders at
the end is `Builder.nest`.

* `Gen.writeAll_spec`: the code for a list of values fills builders with all leaves and nests them.
-/

namespace TypedCells

namespace Gen

variable {frame : Option Frame} {d : Nat}

/-! ### Writing a leaf -/

/-- The builders on a stack, of which the first given is the topmost. -/
def stacked (bs : List Builder) : List Value := bs.map .builder

@[simp] theorem stacked_nil : stacked [] = [] := rfl

@[simp] theorem stacked_cons (b : Builder) (bs : List Builder) :
    stacked (b :: bs) = .builder b :: stacked bs := rfl

/-- The code passes the leaves `ts` and fills builders with their values, of which `values` makes
the entries under the builder, or traps as filling does. There are `below` more values under
them. -/
def Fills (x : Gen Chain) (chain : Chain) (ts : List Ty) (below : Nat)
    (values : List Value → List Value) : Prop :=
  ∀ ⦃frame : Option Frame⦄ ⦃d : Nat⦄ ⦃g : Generated Chain⦄, x frame d = .ok g →
    ∃ ls, chain.position.passAll ts = .ok (ls, g.value.position) ∧
      g.value.builders = chain.builders + ls.countP (·.opensCell) ∧
      ∀ ⦃xs pend : List Value⦄ (bs : List Builder) (b : Builder) (stk : Stack),
        xs.length = ts.length → pend.length = below →
        Instr.runAll g.code (.builder b :: (values xs ++ (pend ++ (stacked bs ++ stk)))) = do
          let (bs, b) ← PackedLeaf.fillAll ls xs (bs, b)
          return (.next, .builder b :: (pend ++ (stacked bs ++ stk)))

theorem store_ends (t : Ty) (v : Value) (b : Builder) (stk : Stack) :
    (op (.store t)).Ends (.builder b :: v :: stk) (do
      let b ← t.store v b
      return (.next, .builder b :: stk)) :=
  .op rfl (by simp)

theorem writeLeaf_fills (t : Ty) (below : Nat) (chain : Chain) :
    Fills (writeLeaf t below chain) chain [t] below fun xs => [xs.headD .null] := by
  intro frame d g h
  rw [writeLeaf, bind_ok] at h
  obtain ⟨_, r, h1, h, rfl⟩ := h
  obtain ⟨⟨opens, pos⟩, hs, rfl⟩ := ofExcept_ok.1 h1
  have hp : chain.position.passAll [t] = .ok ([⟨t, opens⟩], pos) := by simp [Position.passAll, hs]
  cases opens with
  | false =>
    simp only [Bool.false_eq_true, if_false, bind_ok, pure_ok] at h
    obtain ⟨r1, r2, hst, rfl, rfl⟩ := h
    refine ⟨_, hp, rfl, fun xs pend bs b stk hx _ => ?_⟩
    obtain ⟨x, rfl⟩ := List.length_eq_one_iff.1 hx
    have hrun := store_ends t x b (pend ++ (stacked bs ++ stk)) hst
    simp only [List.append_nil, List.nil_append, List.headD_cons, List.cons_append, hrun,
      PackedLeaf.fillAll_singleton, PackedLeaf.fill, Bool.false_eq_true, if_false]
    rcases t.store x b with e | b' <;> rfl
  | true =>
    simp only [if_true, bind_ok, pure_ok] at h
    obtain ⟨r1, _, h1, ⟨r2, _, h2, ⟨r3, _, h3, rfl, rfl⟩, rfl⟩, rfl⟩ := h
    refine ⟨_, hp, rfl, fun xs pend bs b stk hx hl => ?_⟩
    obtain ⟨x, rfl⟩ := List.length_eq_one_iff.1 hx
    -- the builder waits under the value and those below it
    have hsw : (blkSwap (below + 1) 1).Turns (.builder b :: x :: (pend ++ (stacked bs ++ stk)))
        (x :: (pend ++ .builder b :: (stacked bs ++ stk))) := by
      have h := Turns.blkSwap [.builder b] (x :: pend) (s := stacked bs ++ stk) (j := 1)
        (i := below + 1) rfl (by simp [hl])
      simpa using h
    simp only [List.nil_append, List.append_nil, List.headD_cons, List.cons_append]
    rw [Instr.runAll_append_of_ok (hsw.ends h1),
      Instr.runAll_append_of_ok (Turns.ends (.op rfl (Op.run_newc)) h2),
      store_ends t x {} (pend ++ .builder b :: (stacked bs ++ stk)) h3,
      PackedLeaf.fillAll_singleton, PackedLeaf.fill, if_pos rfl]
    rcases t.store x {} with e | b' <;> rfl

/-! ### Writing a value -/

theorem Fills.pure (chain : Chain) (below : Nat) :
    Fills (Pure.pure chain) chain [] below fun _ => [] := by
  intro frame d g h
  obtain rfl := pure_ok.1 h
  refine ⟨[], rfl, rfl, fun xs pend bs b stk hx _ => ?_⟩
  obtain rfl := List.length_eq_zero_iff.1 hx
  exact Instr.runAll_nil _

/-- Leaves that are written in two parts: the entries of the second wait below those of the
first. -/
theorem Fills.append {x : Gen Chain} {f : Chain → Gen Chain} {chain : Chain} {ts ts' : List Ty}
    {below n : Nat} {v v' : List Value → List Value} (hn : ∀ xs, (v' xs).length = n)
    (hx : Fills x chain ts (below + n) v) (hf : ∀ chain', Fills (f chain') chain' ts' below v') :
    Fills (x >>= f) chain (ts ++ ts') below fun xs =>
      v (xs.take ts.length) ++ v' (xs.drop ts.length) := by
  intro frame d g h
  obtain ⟨r, r', h1, h2, rfl⟩ := bind_ok.1 h
  obtain ⟨ls, hp, hb, hr⟩ := hx h1
  obtain ⟨ls', hp', hb', hr'⟩ := hf _ h2
  have hl := Position.length_passAll hp
  refine ⟨ls ++ ls', Position.passAll_append hp hp', ?_, ?_⟩
  · rw [hb', hb, List.countP_append]
    omega
  · intro xs pend bs b stk hxs hpend
    rw [List.length_append] at hxs
    obtain ⟨ys, zs, rfl, hy, hz⟩ := Ty.exists_append_of_length hxs
    have hbelow : (v' zs ++ pend).length = below + n := by
      rw [List.length_append, hn, hpend, Nat.add_comm]
    have hrun := hr bs b stk hy hbelow
    simp only [← hy, List.take_left, List.drop_left, List.append_assoc] at hrun ⊢
    rw [Instr.runAll_append, hrun, PackedLeaf.fillAll_append _ (by omega)]
    rcases PackedLeaf.fillAll ls ys (bs, b) with e | ⟨bs', b'⟩
    · rfl
    · exact hr' bs' b' stk hz hpend

theorem openStruct_turns {n : Nat} {vs : List Value} (hn : vs.length = n) (b : Builder)
    (stk : Stack) :
    (openStruct n).Turns (.builder b :: .tuple vs :: stk) (.builder b :: (vs ++ stk)) := by
  refine (Turns.xchg _ _ _).trans fun _ => (Turns.untuple hn).trans fun _ => ?_
  have h : (vs.reverse ++ [Value.builder b]).length = n + 1 := by simp [hn]
  have ht := Turns.reverse [] (vs.reverse ++ [.builder b]) (s := stk) rfl h
  simpa using ht

theorem write_leaf {t : Ty} (h : t.IsLeaf) (below : Nat) (chain : Chain) :
    write t below chain = writeLeaf t below chain ∨ ∃ e, write t below chain = fail e := by
  cases t with
  | tuple ts => exact .inr ⟨_, rfl⟩
  | _ => first | exact .inl rfl | exact h.elim

/-- **The code that writes a value fills builders with its leaves.** -/
theorem write_fills (t : Ty) : ∀ (below : Nat) (chain : Chain),
    Fills (write t below chain) chain t.leaves below fun xs => [t.build xs] := by
  refine Ty.leafInduction
    (P := fun t => ∀ below chain,
      Fills (write t below chain) chain t.leaves below fun xs => [t.build xs])
    (Q := fun fs => ∀ below chain,
      Fills (writeFields fs below chain) chain (Ty.fieldLeaves fs) below (Ty.buildFields fs))
    (fun t h below chain => ?leaf) (fun x fs ih below chain => ?struct)
    (fun x t ih below chain => ?named) (fun below chain => .pure chain below)
    (fun x t fs iht ihfs below chain => ?cons) t
  case leaf =>
    rcases write_leaf h below chain with hw | ⟨e, hw⟩
    · rw [hw, Ty.leaves_leaf h]
      simp only [Ty.build_leaf h]
      exact writeLeaf_fills t below chain
    · rw [hw]
      exact fun _ _ _ hg => absurd hg fail_ok
  case struct =>
    intro frame d g h
    obtain ⟨r, r', h1, h2, rfl⟩ := bind_ok.1 h
    obtain ⟨ls, hp, hb, hr⟩ := ih below chain h2
    refine ⟨ls, hp, hb, fun xs pend bs b stk hx hpend => ?_⟩
    have ho := (openStruct_turns (Ty.length_buildFields fs xs) b
      (pend ++ (stacked bs ++ stk))).ends h1
    rw [Instr.runAll_append]
    simp only [Ty.build, List.cons_append, List.nil_append, ho, ok_bind, Instr.continueWith_next]
    exact hr bs b stk hx hpend
  case named => exact ih below chain
  case cons =>
    exact (iht (below + fs.length) chain).append (fun xs => Ty.length_buildFields fs xs)
      (fun chain' => ihfs below chain')

theorem writeEach_fills : ∀ (ts : List Ty) (below : Nat) (chain : Chain),
    Fills (writeEach ts below chain) chain (Ty.allLeaves ts) below (Ty.buildAll ts)
  | [], below, chain => .pure chain below
  | t :: ts, below, chain =>
    (write_fills t (below + ts.length) chain).append (fun xs => Ty.length_buildAll ts xs)
      fun chain' => writeEach_fills ts below chain'

/-! ### Linking the builders -/

theorem linkBuilders_turns : ∀ {bs : List Builder} {b c : Builder} (stk : Stack),
    Builder.nest bs b = .ok c →
    (linkBuilders (bs.length + 1)).Turns (.builder b :: (stacked bs ++ stk)) (.builder c :: stk)
  | [], b, c, stk, h => by
    obtain rfl := Except.ok.inj h
    exact .pure _ _
  | p :: bs, b, c, stk, h => by
    obtain ⟨q, hq, h⟩ := bind_eq_ok.1 h
    exact Turns.trans (.op rfl (by simp [hq])) fun _ => linkBuilders_turns stk h

theorem stBuilderRef_ends (c b : Builder) (s : Stack) :
    (op .stBuilderRef).Ends (.builder c :: .builder b :: s) (do
      return (.next, .builder (← b.writeRef c.toCell) :: s)) :=
  .op rfl rfl

/-- Linking the builders, also where one of them may have no room for the link. -/
theorem linkBuilders_ends : ∀ (bs : List Builder) (b : Builder) (stk : Stack),
    (linkBuilders (bs.length + 1)).Ends (.builder b :: (stacked bs ++ stk)) (do
      return (.next, .builder (← Builder.nest bs b) :: stk))
  | [], b, stk => (Turns.pure () _).ends
  | p :: bs, b, stk => by
    rw [Builder.nest, bind_assoc]
    exact (stBuilderRef_ends b p (stacked bs ++ stk)).bind fun _ q => linkBuilders_ends bs q stk

theorem linkBuilders_runs {safe : Prop} {d : Nat} {bs : List Builder} {b : Builder} (stk : Stack)
    (h : safe → ∃ c, Builder.nest bs b = .ok c) :
    (linkBuilders (bs.length + 1)).RunsIf safe d (.builder b :: (stacked bs ++ stk)) fun _ t =>
      ∃ c, Builder.nest bs b = .ok c ∧ t = .builder c :: stk := by
  intro frame g hg hrun
  rcases hn : Builder.nest bs b with e | c
  · have herror := linkBuilders_ends bs b stk hg
    rw [hn] at herror
    obtain ⟨r, hr⟩ := hrun.resolve_left fun hs => by
      obtain ⟨c, hc⟩ := h hs
      cases hc.symm.trans hn
    cases hr.symm.trans herror
  · obtain ⟨t, ht, hd, rfl⟩ := linkBuilders_turns stk hn d hg
    exact ⟨_, ht, hd, c, rfl, rfl⟩

/-- **The code that writes a list of values fills builders with their leaves and nests them,** with
the data of the slice, if it has one, behind the last leaf. -/
theorem writeAll_spec {bits refs : Nat} {ts : List Ty} {p : Packing} {g : Generated Position}
    {xs : List Value} (rest : Option Slice) (hp : Packing.ofTypes bits refs ts = .ok p)
    (h : writeAll ts p.start rest.isSome frame d = .ok g)
    (hx : xs.length = (Ty.allLeaves ts).length) (b : Builder) (stk : Stack) :
    Instr.runAll g.code (.builder b :: (Ty.buildAll ts xs ++ (rest.toList.map .slice ++ stk))) = do
      let c ← PackedLeaf.putAll p.leaves xs rest b
      return (.next, .builder c :: stk) := by
  rw [writeAll, bind_ok] at h
  obtain ⟨_, r, h1, h, rfl⟩ := h
  obtain rfl := depth_ok.1 h1
  rw [bind_ok] at h
  obtain ⟨r1, r2, h1, h2, rfl⟩ := h
  obtain ⟨ls, hpass, hb, hr⟩ := writeEach_fills ts _ _ h1
  obtain rfl := Packing.passAll_start hp hpass
  have hrest : (rest.toList.map Value.slice).length = if rest.isSome then 1 else 0 := by
    cases rest <;> rfl
  have hrun := hr [] b stk hx hrest
  rw [stacked_nil, List.nil_append] at hrun
  simp only [List.nil_append, Instr.runAll_append, hrun, PackedLeaf.putAll]
  rcases hf : PackedLeaf.fillAll p.leaves xs ([], b) with e | ⟨bs, b'⟩
  · rfl
  have hlen : r1.value.builders = bs.length + 1 := by
    have := PackedLeaf.length_fillAll (hx.trans (Position.length_passAll hpass).symm) hf
    simp only [List.length_nil, Nat.zero_add] at this
    rw [hb, this, Nat.add_comm]
  have hend (b'' : Builder) : (do
      linkBuilders r1.value.builders
      ensureDepth (d - (ts.length + if rest.isSome then 1 else 0)) "encode_parameters"
      return r1.value.position : Gen Position).Ends (.builder b'' :: (stacked bs ++ stk)) (do
        let c ← Builder.nest bs b''
        return (.next, .builder c :: stk)) := by
    rw [hlen]
    exact (linkBuilders_ends bs b'' stk).bind fun _ c =>
      Turns.ends ((Turns.ensureDepth _ _ _).trans fun _ => .pure _ _)
  cases rest with
  | none => exact hend b' h2
  | some s =>
    simp only [ok_bind, pure_eq_ok, Instr.continueWith_next, Builder.putRest]
    rcases hs : b'.writeSlice s with e | b''
    · exact Ends.bind_error (.op_error (by simp [hs])) h2
    · exact Turns.bind_ends (.op rfl (by simp [hs])) (fun _ => hend b'') h2

end Gen

end TypedCells
