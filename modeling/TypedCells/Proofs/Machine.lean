import TypedCells.Machine.Run
import TypedCells.Proofs.Content

/-!
# Runs of programs

A program in two parts runs the first and then, unless a jump has left the call, the second
(`Instr.runAll_append`). The instructions that only move entries are described on stacks cut into
the blocks that they move. What an instruction takes off the stack and leaves on it is what its
`Op.effect` says (`Op.run_effect`), except for a quiet load that fails.
-/

namespace TypedCells

namespace Stack

/-! ### Taking entries off the stack -/

@[simp] theorem pop_cons (v : Value) (s : Stack) : Stack.pop (v :: s) = .ok (v, s) := rfl

@[simp] theorem popInt_cons (k : Int) (s : Stack) : Stack.popInt (.int k :: s) = .ok (k, s) := rfl

@[simp] theorem popBool_cons (k : Int) (s : Stack) :
    Stack.popBool (.int k :: s) = .ok (k != 0, s) := rfl

@[simp] theorem popSlice_cons (x : Slice) (s : Stack) :
    Stack.popSlice (.slice x :: s) = .ok (x, s) := rfl

@[simp] theorem popBuilder_cons (b : Builder) (s : Stack) :
    Stack.popBuilder (.builder b :: s) = .ok (b, s) := rfl

theorem pop_eq_ok {s s' : Stack} {v : Value} : s.pop = .ok (v, s') ↔ s = v :: s' := by
  cases s <;> simp [Stack.pop]

theorem popInt_eq_ok {s s' : Stack} {k : Int} : s.popInt = .ok (k, s') ↔ s = .int k :: s' := by
  rcases s with _ | ⟨v, s⟩
  · simp [Stack.popInt, Stack.pop]
  · cases v <;> simp [Stack.popInt, Value.toInt]

theorem popBool_eq_ok {s s' : Stack} {b : Bool} :
    s.popBool = .ok (b, s') ↔ ∃ k : Int, s = .int k :: s' ∧ b = (k != 0) := by
  rcases s with _ | ⟨v, s⟩
  · simp [Stack.popBool, Stack.pop]
  · cases v with
    | int k =>
      constructor
      · intro h
        obtain ⟨rfl, rfl⟩ := Prod.mk.inj (Except.ok.inj h)
        exact ⟨k, rfl, rfl⟩
      · rintro ⟨k', h, rfl⟩
        cases h
        rfl
    | _ => simp [Stack.popBool, Value.toBool, Value.toInt]

theorem popSlice_eq_ok {s s' : Stack} {x : Slice} :
    s.popSlice = .ok (x, s') ↔ s = .slice x :: s' := by
  rcases s with _ | ⟨v, s⟩
  · simp [Stack.popSlice, Stack.pop]
  · cases v <;> simp [Stack.popSlice, Value.toSlice]

theorem popBuilder_eq_ok {s s' : Stack} {b : Builder} :
    s.popBuilder = .ok (b, s') ↔ s = .builder b :: s' := by
  rcases s with _ | ⟨v, s⟩
  · simp [Stack.popBuilder, Stack.pop]
  · cases v <;> simp [Stack.popBuilder, Value.toBuilder]

theorem popCount_eq_ok {s s' : Stack} {n : Nat} (h : s.popCount = .ok (n, s')) :
    ∃ k : Int, s = .int k :: s' := by
  simp only [Stack.popCount, bind_eq_ok] at h
  obtain ⟨⟨k, r⟩, h1, h2⟩ := h
  rw [popInt_eq_ok] at h1
  split at h2
  · simp only [pure_eq_ok, Except.ok.injEq, Prod.mk.injEq] at h2
    exact ⟨k, by rw [h1, h2.2]⟩
  · simp at h2

theorem popCount_cons {n : Nat} (h : n < twoPow 64) (s : Stack) :
    Stack.popCount (.int n :: s) = .ok (n, s) := by
  unfold Stack.popCount
  rw [popInt_cons, ok_bind]
  exact if_pos ⟨Int.natCast_nonneg n, Int.ofNat_lt.2 h⟩

theorem lt_of_popCount {n : Nat} {s : Stack} {r : Nat × Stack}
    (h : Stack.popCount (.int n :: s) = .ok r) : n < twoPow 64 := by
  refine Decidable.byContradiction fun hn => ?_
  rw [Stack.popCount, popInt_cons, ok_bind] at h
  have hno : ¬ (0 ≤ (n : Int) ∧ (n : Int) < twoPow 64) := fun hk => hn (Int.ofNat_lt.1 hk.2)
  cases (if_neg hno).symm.trans h

theorem popCut_cons {n m : Nat} (hn : n < twoPow 64) (hm : m < twoPow 64) (x : Slice) (s : Stack) :
    Stack.popCut (.int m :: .int n :: .slice x :: s) = .ok ((x, n, m), s) := by
  -- not by `simp`: the kernel must not compare counts with the power in unary
  exact bind_eq_ok.2 ⟨_, popCount_cons hm _, bind_eq_ok.2 ⟨_, popCount_cons hn _, rfl⟩⟩

theorem popCut_eq_ok {s s' : Stack} {r : Slice × Nat × Nat} (h : s.popCut = .ok (r, s')) :
    ∃ a b c, s = a :: b :: c :: s' := by
  simp only [Stack.popCut, bind_eq_ok] at h
  obtain ⟨⟨m, s1⟩, h1, ⟨n, s2⟩, h2, ⟨x, s3⟩, h3, h4⟩ := h
  obtain ⟨i, rfl⟩ := popCount_eq_ok h1
  obtain ⟨j, rfl⟩ := popCount_eq_ok h2
  obtain rfl : s2 = _ := popSlice_eq_ok.1 h3
  simp only [pure_eq_ok, Except.ok.injEq, Prod.mk.injEq] at h4
  exact ⟨_, _, _, by rw [h4.2]⟩

theorem need_eq_ok {s : Stack} {n : Nat} {u : Unit} : s.need n = .ok u ↔ n ≤ s.length := by
  unfold Stack.need
  split
  · simp; omega
  · simp; omega

end Stack

namespace Op

/-! ### Moving entries -/

variable {xs ys : List Value} {s : Stack} {i j n m : Nat}

theorem run_blkSwap (hx : xs.length = j) (hy : ys.length = i) :
    Op.run (.blkSwap i j) (xs ++ ys ++ s) = .ok (ys ++ xs ++ s) := by
  have hn : Stack.need (i + j) (xs ++ ys ++ s) = .ok () := Stack.need_eq_ok.2 (by simp; omega)
  subst hx hy
  simp only [Op.run, hn, ok_bind, pure_eq_ok]
  simp [List.append_assoc, ← List.drop_drop, Nat.add_comm ys.length]

theorem run_reverse (hx : xs.length = j) (hy : ys.length = n) :
    Op.run (.reverse n j) (xs ++ ys ++ s) = .ok (xs ++ ys.reverse ++ s) := by
  have hn : Stack.need (n + j) (xs ++ ys ++ s) = .ok () := Stack.need_eq_ok.2 (by simp; omega)
  subst hx hy
  simp only [Op.run, hn, ok_bind, pure_eq_ok]
  simp [List.append_assoc, ← List.drop_drop, Nat.add_comm ys.length]

theorem run_blkDrop (hx : xs.length = m) (hy : ys.length = n) :
    Op.run (.blkDrop n m) (xs ++ ys ++ s) = .ok (xs ++ s) := by
  have hn : Stack.need (n + m) (xs ++ ys ++ s) = .ok () := Stack.need_eq_ok.2 (by simp; omega)
  subst hx hy
  simp only [Op.run, hn, ok_bind, pure_eq_ok]
  simp [List.append_assoc, ← List.drop_drop, Nat.add_comm ys.length]

theorem run_tuple (hx : xs.length = n) :
    Op.run (.tuple n) (xs ++ s) = .ok (.tuple xs.reverse :: s) := by
  have hn : Stack.need n (xs ++ s) = .ok () := Stack.need_eq_ok.2 (by simp; omega)
  subst hx
  simp [Op.run, hn]

theorem run_untuple (hx : xs.length = n) :
    Op.run (.untuple n) (.tuple xs :: s) = .ok (xs.reverse ++ s) := by
  simp [Op.run, Value.toTuple, hx]

/-! ### Instructions on stacks that have what they take -/

section Values

variable (x : Slice) (b : Builder) (c : Cell) (v : Value) (k k' : Int)

@[simp] theorem run_ldRef : Op.run .ldRef (.slice x :: s) = do
    let (c, x) ← x.readRef
    return .slice x :: .cell c :: s := rfl

@[simp] theorem run_ldRefRest : Op.run .ldRefRest (.slice x :: s) = do
    let (c, x) ← x.readRef
    return .slice (.ofCell c) :: .slice x :: s := rfl

@[simp] theorem run_ends : Op.run .ends (.slice x :: s) =
    if x.isEmpty then .ok s else .error .cellUnderflow := rfl

@[simp] theorem run_ctos : Op.run .ctos (.cell c :: s) = .ok (.slice (.ofCell c) :: s) := rfl

@[simp] theorem run_endc : Op.run .endc (.builder b :: s) = .ok (.cell b.toCell :: s) := rfl

@[simp] theorem run_newc : Op.run .newc s = .ok (.builder {} :: s) := rfl

@[simp] theorem run_drop : Op.run .drop (v :: s) = .ok s := rfl

@[simp] theorem run_pushInt : Op.run (.pushInt k) s = .ok (.int k :: s) := rfl

@[simp] theorem run_pushNull : Op.run .pushNull s = .ok (.null :: s) := rfl

@[simp] theorem run_geq : Op.run .geq (.int k' :: .int k :: s) = .ok (.ofBool (k ≥ k') :: s) := rfl

@[simp] theorem run_equal : Op.run .equal (.int k' :: .int k :: s) = .ok (.ofBool (k = k') :: s) :=
  rfl

@[simp] theorem run_and : Op.run .and (.int k' :: .int k :: s) = .ok (.int (bitAnd k k') :: s) :=
  rfl

@[simp] theorem run_throwIf (code : Nat) (flag : Bool) :
    Op.run (.throwIf code) (.ofBool flag :: s) =
      if flag then .error (.exception code) else .ok s := by
  cases flag <;> rfl

@[simp] theorem run_bitRefs : Op.run .bitRefs (.slice x :: s) =
    .ok (.int x.refCount :: .int x.bitCount :: s) := rfl

@[simp] theorem run_peekRef : Op.run (.peekRef i) (.slice x :: s) = do
    return .cell (← x.peekRef i) :: s := rfl

@[simp] theorem run_store (t : Ty) : Op.run (.store t) (.builder b :: v :: s) = do
    return .builder (← t.store v b) :: s := rfl

@[simp] theorem run_load (t : Ty) : Op.run (.load t) (.slice x :: s) = do
    let (v, x) ← t.load x
    return .slice x :: v :: s := rfl

@[simp] theorem run_stSlice : Op.run .stSlice (.builder b :: .slice x :: s) = do
    return .builder (← b.writeSlice x) :: s := rfl

@[simp] theorem run_stBuilderRef (b' : Builder) :
    Op.run .stBuilderRef (.builder b' :: .builder b :: s) = do
      return .builder (← b.writeRef b'.toCell) :: s := rfl

@[simp] theorem run_push_zero : Op.run (.push 0) (v :: s) = .ok (v :: v :: s) := rfl

@[simp] theorem run_push_one (w : Value) :
    Op.run (.push 1) (v :: w :: s) = .ok (w :: v :: w :: s) := rfl

@[simp] theorem run_xchg_one (w : Value) : Op.run (.xchg 1) (v :: w :: s) = .ok (w :: v :: s) := rfl

@[simp] theorem run_pop_two (w y : Value) :
    Op.run (.pop 2) (v :: w :: y :: s) = .ok (w :: v :: s) := rfl

end Values

/-- A cut with counts that it can take. -/
theorem run_skipFirst {n m : Nat} (hn : n < twoPow 64) (hm : m < twoPow 64) (x : Slice) :
    Op.run .skipFirst (.int m :: .int n :: .slice x :: s) = do
      return .slice (← x.dropFront n m) :: s := by
  rw [Op.run, Stack.popCut_cons hn hm, ok_bind]

theorem run_split {n m : Nat} (hn : n < twoPow 64) (hm : m < twoPow 64) (x : Slice) :
    Op.run .split (.int m :: .int n :: .slice x :: s) = do
      let (front, rest) ← x.split n m
      return .slice rest :: .slice front :: s := by
  rw [Op.run, Stack.popCut_cons hn hm, ok_bind]

/-- Only such counts are taken. -/
theorem lt_of_run_split {n m : Nat} {x : Slice} {t : Stack}
    (h : Op.run .split (.int m :: .int n :: .slice x :: s) = .ok t) :
    n < twoPow 64 ∧ m < twoPow 64 := by
  rw [Op.run] at h
  obtain ⟨r, h, -⟩ := bind_eq_ok.1 h
  obtain ⟨⟨m', s'⟩, hm, h⟩ := bind_eq_ok.1 h
  have hlt := Stack.lt_of_popCount hm
  rw [Stack.popCount_cons hlt] at hm
  obtain ⟨-, rfl⟩ := Prod.mk.inj (Except.ok.inj hm)
  obtain ⟨_, hn, -⟩ := bind_eq_ok.1 h
  exact ⟨Stack.lt_of_popCount hn, hlt⟩

theorem run_cutLast {n m : Nat} (hn : n < twoPow 64) (hm : m < twoPow 64) (x : Slice) :
    Op.run .cutLast (.int m :: .int n :: .slice x :: s) = do
      return .slice (← x.keepBack n m) :: s := by
  rw [Op.run, Stack.popCut_cons hn hm, ok_bind]

/-! ### What instructions take and leave -/

/-- Whether the instruction is a quiet load. -/
def isQuiet : Op → Bool
  | .loadQuiet _ => true
  | _ => false

/-- **An instruction changes the height of the stack as its effect says,** unless it is a quiet
load, which may fail. -/
theorem run_effect {o : Op} {s s' : Stack} (hq : o.isQuiet = false) (h : o.run s = .ok s') :
    o.effect.pops ≤ s.length ∧ s'.length + o.effect.pops = s.length + o.effect.pushes := by
  cases o with
  | push i =>
    simp only [Op.run] at h
    rcases hv : s[i]? with _ | v
    · simp [hv] at h
    · obtain ⟨hi, -⟩ := List.getElem?_eq_some_iff.1 hv
      simp only [hv, pure_eq_ok, Except.ok.injEq] at h
      subst h
      simp only [effect, List.length_cons]
      omega
  | pop i =>
    simp only [Op.run, bind_eq_ok, Stack.need_eq_ok, Stack.pop_eq_ok, pure_eq_ok,
      Except.ok.injEq, Prod.exists] at h
    obtain ⟨-, hn, v, r, rfl, rfl⟩ := h
    simp only [List.length_cons] at hn
    simp only [effect, List.length_cons]
    split <;> (try simp only [List.length_set]) <;> omega
  | xchg i =>
    simp only [Op.run] at h
    rcases s with _ | ⟨v, s⟩
    · simp at h
    · rcases hw : (v :: s)[i]? with _ | w
      · simp [hw] at h
      · obtain ⟨hi, -⟩ := List.getElem?_eq_some_iff.1 hw
        simp only [hw, List.getElem?_cons_zero, pure_eq_ok, Except.ok.injEq] at h
        subst h
        simp only [List.length_cons] at hi
        simp only [effect, List.length_set, List.length_cons, and_true]
        exact hi
  | blkSwap i j =>
    simp only [Op.run, bind_eq_ok, Stack.need_eq_ok, pure_eq_ok, Except.ok.injEq] at h
    obtain ⟨-, hn, rfl⟩ := h
    simp only [effect, List.length_append, List.length_take, List.length_drop]
    omega
  | reverse n j =>
    simp only [Op.run, bind_eq_ok, Stack.need_eq_ok, pure_eq_ok, Except.ok.injEq] at h
    obtain ⟨-, hn, rfl⟩ := h
    simp only [effect, List.length_append, List.length_take, List.length_drop, List.length_reverse]
    omega
  | blkDrop n m =>
    simp only [Op.run, bind_eq_ok, Stack.need_eq_ok, pure_eq_ok, Except.ok.injEq] at h
    obtain ⟨-, hn, rfl⟩ := h
    simp only [effect, List.length_append, List.length_take, List.length_drop]
    omega
  | tuple n =>
    simp only [Op.run, bind_eq_ok, Stack.need_eq_ok, pure_eq_ok, Except.ok.injEq] at h
    obtain ⟨-, hn, rfl⟩ := h
    simp only [effect, List.length_cons, List.length_drop]
    omega
  | untuple n =>
    simp only [Op.run, bind_eq_ok, Stack.pop_eq_ok, Prod.exists] at h
    obtain ⟨v, r, rfl, items, -, h⟩ := h
    split at h
    · simp only [pure_eq_ok, Except.ok.injEq] at h
      subst h
      simp only [effect, List.length_cons, List.length_append, List.length_reverse]
      omega
    · simp at h
  | throwIf code =>
    simp only [Op.run, bind_eq_ok, Stack.popBool_eq_ok, Prod.exists] at h
    obtain ⟨b, r, ⟨k, rfl, -⟩, h⟩ := h
    split at h
    · simp at h
    · simp only [pure_eq_ok, Except.ok.injEq] at h
      subst h
      simp [effect]
  | ends =>
    simp only [Op.run, bind_eq_ok, Stack.popSlice_eq_ok, Prod.exists] at h
    obtain ⟨x, r, rfl, h⟩ := h
    split at h
    · simp only [pure_eq_ok, Except.ok.injEq] at h
      subst h
      simp [effect]
    · simp at h
  | split | skipFirst | cutLast =>
    simp only [Op.run, bind_eq_ok, pure_eq_ok, Except.ok.injEq] at h
    obtain ⟨⟨x, r⟩, h1, y, -, rfl⟩ := h
    obtain ⟨a, b, c, rfl⟩ := Stack.popCut_eq_ok h1
    simp [effect]
  | loadQuiet t => simp [isQuiet] at hq
  | _ =>
    simp only [Op.run, bind_eq_ok, Stack.pop_eq_ok, Stack.popInt_eq_ok, Stack.popSlice_eq_ok,
      Stack.popBuilder_eq_ok, pure_eq_ok, Except.ok.injEq, Prod.exists] at h
    simp only [effect]
    grind

end Op

namespace Instr

/-! ### Programs in parts -/

variable {is js : List Instr} {s s' : Stack}

@[simp] theorem runAll_nil (s : Stack) : runAll [] s = .ok (.next, s) := by rw [runAll]; rfl

@[simp] theorem runAll_op (o : Op) (is : List Instr) (s : Stack) :
    runAll (.op o :: is) s = o.run s >>= runAll is := by
  rw [runAll, run]
  rcases o.run s with e | s' <;> rfl

/-- What is done after a first part: nothing more if it has left the call. -/
def continueWith (is : List Instr) : Flow × Stack → Except Trap (Flow × Stack)
  | (.next, s) => runAll is s
  | (.exit, s) => .ok (.exit, s)

@[simp] theorem continueWith_next (is : List Instr) (s : Stack) :
    continueWith is (.next, s) = runAll is s := rfl

@[simp] theorem continueWith_exit (is : List Instr) (s : Stack) :
    continueWith is (.exit, s) = .ok (.exit, s) := rfl

theorem runAll_cons (i : Instr) (is : List Instr) (s : Stack) :
    runAll (i :: is) s = run i s >>= continueWith is := by
  rw [runAll]
  rcases run i s with e | ⟨_ | _, s'⟩ <;> rfl

theorem runAll_single (i : Instr) (s : Stack) : runAll [i] s = run i s := by
  rw [runAll_cons]
  rcases run i s with e | ⟨_ | _, s'⟩
  · rfl
  · rw [ok_bind, continueWith_next, runAll_nil]
  · rfl

theorem runAll_append (is js : List Instr) (s : Stack) :
    runAll (is ++ js) s = runAll is s >>= continueWith js := by
  induction is generalizing s with
  | nil => simp
  | cons i is ih =>
    rw [List.cons_append, runAll_cons, runAll_cons]
    rcases run i s with e | ⟨_ | _, s'⟩
    · rfl
    · simp [ih]
    · simp

theorem runAll_append_of_ok (h : runAll is s = .ok (.next, s')) :
    runAll (is ++ js) s = runAll js s' := by
  rw [runAll_append, h]
  rfl

theorem exec_of_runAll {f : Flow} (h : runAll is s = .ok (f, s')) : exec is s = .ok s' := by
  rw [exec, h]
  rfl

theorem exec_of_runAll_error {e : Trap} (h : runAll is s = .error e) : exec is s = .error e := by
  rw [exec, h]
  rfl

theorem exec_eq_ok : exec is s = .ok s' ↔ ∃ f, runAll is s = .ok (f, s') := by
  simp [exec, bind_eq_ok, Prod.exists]

end Instr

end TypedCells
