import TypedCells.Proofs.Generators
import TypedCells.Script.Step

/-!
# Jumps

A jump that is taken runs a program of its own and then leaves the enclosing call, which returns
what is on top of the stack that this program left. A program ends early just when a jump in it is
taken, or a jump in the program of one that is taken, and so on (`Instr.runAll_eq_exit_iff`).

An arm of a conditional does not let a jump out: a jump that is taken there ends the arm, and the
instruction after the conditional is the next (`Instr.run_ifElse_of_taken`). So a call can return
something else than what the jump was made for (`Step.run_call_jumpInArm`).

* `Instr.taken_jump_leaves`: what becomes of a jump that is taken in the program of a call and in an
  arm, and the height that the generator asks of its program.
-/

namespace TypedCells

namespace Instr

/-! ### Jumps that are taken -/

/-- On the stack `s` the instruction is a jump that is taken, and runs `body` on `s'`. -/
inductive JumpsTo : Instr → (s : Stack) → (body : List Instr) → (s' : Stack) → Prop
  | flagSet {body : List Instr} {k : Int} {s : Stack} (hk : k ≠ 0) :
    JumpsTo (.jumpIf body) (.int k :: s) body s
  | flagClear {body : List Instr} {s : Stack} : JumpsTo (.jumpUnless body) (.int 0 :: s) body s

/-- In the run of a program on `s` a jump is taken, and its body comes to an end in `t`. The jump
stands in the program itself, in the body of a jump that is taken, or in the arm of a conditional
that is run: `inArm` says whether there is such an arm around it. -/
inductive Taken : (inArm : Bool) → List Instr → (s t : Stack) → Prop
  | here {before after body : List Instr} {i : Instr} {s u v t : Stack} {f : Flow}
    (hb : runAll before s = .ok (.next, u)) (hj : JumpsTo i u body v)
    (hr : runAll body v = .ok (f, t)) : Taken false (before ++ i :: after) s t
  | body {inArm : Bool} {before after body : List Instr} {i : Instr} {s u v t : Stack}
    (hb : runAll before s = .ok (.next, u)) (hj : JumpsTo i u body v) (h : Taken inArm body v t) :
    Taken inArm (before ++ i :: after) s t
  | arm {inArm : Bool} {before after a b : List Instr} {k : Int} {s u t : Stack}
    (hb : runAll before s = .ok (.next, .int k :: u))
    (h : Taken inArm (if k = 0 then b else a) u t) : Taken true (before ++ .ifElse a b :: after) s t

variable {i : Instr} {is body : List Instr} {s s' t : Stack} {f : Flow} {inArm : Bool}

theorem JumpsTo.run_eq (h : JumpsTo i s body s') (hr : runAll body s' = .ok (f, t)) :
    run i s = .ok (.exit, t) := by
  cases h with
  | flagSet hk => simp [run, hk, hr]
  | flagClear => simp [run, hr]

/-- A program runs up to a jump that is taken and no further. -/
theorem JumpsTo.leaves {before : List Instr} {u : Stack} (h : JumpsTo i u body s')
    (hb : runAll before s = .ok (.next, u)) (hr : runAll body s' = .ok (f, t))
    (after : List Instr) : runAll (before ++ i :: after) s = .ok (.exit, t) := by
  rw [runAll_append_of_ok hb, runAll_cons, h.run_eq hr]
  rfl

/-- Only a jump that is taken makes a program end early. -/
theorem exists_jumpsTo (h : run i s = .ok (.exit, t)) :
    ∃ body s' f, JumpsTo i s body s' ∧ runAll body s' = .ok (f, t) := by
  cases i with
  | op o =>
    rw [run, bind_eq_ok] at h
    obtain ⟨_, -, h⟩ := h
    cases h
  | ifElse a b =>
    rw [run, bind_eq_ok] at h
    obtain ⟨⟨flag, u⟩, -, h⟩ := h
    cases flag with
    | true =>
      obtain ⟨_, -, h⟩ := bind_eq_ok.1 h
      cases h
    | false =>
      obtain ⟨_, -, h⟩ := bind_eq_ok.1 h
      cases h
  | call body args rets =>
    simp only [run, bind_eq_ok] at h
    obtain ⟨_, -, _, -, _, -, h⟩ := h
    cases h
  | jumpIf body =>
    rw [run, bind_eq_ok] at h
    obtain ⟨⟨flag, u⟩, hp, h⟩ := h
    obtain ⟨k, rfl, rfl⟩ := Stack.popBool_eq_ok.1 hp
    by_cases hk : k = 0
    · subst hk
      cases h
    · simp only [bne_iff_ne.2 hk, if_true, bind_eq_ok] at h
      obtain ⟨⟨f, v⟩, hr, h⟩ := h
      cases h
      exact ⟨body, u, f, .flagSet hk, hr⟩
  | jumpUnless body =>
    rw [run, bind_eq_ok] at h
    obtain ⟨⟨flag, u⟩, hp, h⟩ := h
    obtain ⟨k, rfl, rfl⟩ := Stack.popBool_eq_ok.1 hp
    by_cases hk : k = 0
    · subst hk
      obtain ⟨⟨f, v⟩, hr, h⟩ := bind_eq_ok.1 h
      cases h
      exact ⟨body, u, f, .flagClear, hr⟩
    · simp only [bne_iff_ne.2 hk, if_true] at h
      cases h

theorem Taken.cons (hi : run i s = .ok (.next, s')) (h : Taken inArm is s' t) :
    Taken inArm (i :: is) s t := by
  have hcons {before : List Instr} {u : Stack} (hb : runAll before s' = .ok (.next, u)) :
      runAll (i :: before) s = .ok (.next, u) := by rw [runAll_cons, hi]; exact hb
  cases h with
  | here hb hj hr =>
    rw [← List.cons_append]
    exact .here (hcons hb) hj hr
  | body hb hj h =>
    rw [← List.cons_append]
    exact .body (hcons hb) hj h
  | arm hb h =>
    rw [← List.cons_append]
    exact .arm (hcons hb) h

/-- A jump that no arm is around leaves the program, whatever comes after it. -/
theorem Taken.runAll_append (h : Taken false is s t) (later : List Instr) :
    runAll (is ++ later) s = .ok (.exit, t) := by
  -- on where the jump stands; `inArm` rules out that it is in an arm, at any depth
  generalize hf : false = inArm at h
  induction h generalizing later with
  | here hb hj hr =>
    rw [List.append_assoc, List.cons_append]
    exact hj.leaves hb hr _
  | body hb hj _ ih =>
    have hr := ih [] hf
    rw [List.append_nil] at hr
    rw [List.append_assoc, List.cons_append]
    exact hj.leaves hb hr _
  | arm => cases hf

/-- A program ends early just when a jump is taken that no arm of a conditional is around. -/
theorem runAll_eq_exit_iff : runAll is s = .ok (.exit, t) ↔ Taken false is s t := by
  constructor
  · intro h
    induction is generalizing s with
    | nil =>
      rw [runAll_nil] at h
      cases h
    | cons i is ih =>
      rw [runAll_cons, bind_eq_ok] at h
      obtain ⟨⟨f, u⟩, hi, h⟩ := h
      cases f with
      | next => exact (ih h).cons hi
      | exit =>
        -- the program ends here, so `i` itself is the jump
        cases h
        obtain ⟨body, v, f, hj, hr⟩ := exists_jumpsTo hi
        rw [← List.nil_append (i :: is)]
        exact .here (runAll_nil s) hj hr
  · intro h
    rw [← List.append_nil is]
    exact h.runAll_append []

/-! ### Calls and conditionals -/

theorem run_call_of_taken {args rets : Nat} (hs : args ≤ s.length)
    (h : Taken false is (s.take args) t) (later : List Instr) :
    run (.call (is ++ later) args rets) s = do
      Stack.need rets t
      return (.next, t.take rets ++ s.drop args) := by
  have hn : s.need args = .ok () := Stack.need_eq_ok.2 hs
  rw [run, hn, ok_bind, h.runAll_append later, ok_bind]

/-- A jump that is taken in an arm ends the arm only. -/
theorem run_ifElse_of_taken {a b : List Instr} {k : Int}
    (h : Taken false (if k = 0 then b else a) s t) :
    run (.ifElse a b) (.int k :: s) = .ok (.next, t) := by
  have hr := runAll_eq_exit_iff.2 h
  by_cases hk : k = 0
  · rw [if_pos hk] at hr
    simp [run, hk, hr]
  · rw [if_neg hk] at hr
    simp [run, hk, hr]

/-- **A jump that is taken leaves the enclosing call, unless it stands in an arm.** A program ends
early just when a jump is taken in it, or in the body of a jump that is taken, at any depth. A call
whose program ends so runs no later instruction of it and returns what is on top of the stack that
the jump's body left. Where the jump stands in an arm of a conditional, the program goes on after
the conditional instead. A jump is generated only inside a call, and only with a body that ends
where the enclosing call has its results and nothing else above the entries below its
arguments. -/
theorem taken_jump_leaves (is : List Instr) (t : Stack) :
    (∀ s, runAll is s = .ok (.exit, t) ↔ Taken false is s t) ∧
    (∀ (later : List Instr) (args rets : Nat) (s : Stack), args ≤ s.length →
      Taken false is (s.take args) t → run (.call (is ++ later) args rets) s = do
        Stack.need rets t
        return (.next, t.take rets ++ s.drop args)) ∧
    (∀ (a b : List Instr) (k : Int) (s : Stack), Taken false (if k = 0 then b else a) s t →
      runAll (.ifElse a b :: is) (.int k :: s) = runAll is t) ∧
    ∀ {α : Type} {name : String} {mk : List Instr → Instr} {entry : Nat → Nat} {x : Gen α}
      {frame : Option Frame} {d : Nat} {g : Generated α}, Gen.jump name mk entry x frame d = .ok g →
        ∃ b fr, frame = some fr ∧ x frame (entry (d - 1)) = .ok b ∧ g.code = [mk b.code] ∧
          b.depth = fr.base + fr.rets := by
  refine ⟨fun s => runAll_eq_exit_iff, fun later args rets s hs h => run_call_of_taken hs h later,
    fun a b k s h => ?_, fun h => ?_⟩
  · rw [runAll_cons, run_ifElse_of_taken h]
    rfl
  · obtain ⟨-, b, fr, hb, hf, hd, rfl⟩ := Gen.jump_ok h
    exact ⟨b, fr, hf, hb, rfl, hd⟩

/-- Pushes nine and leaves, in the body of a jump that is taken. -/
def jumpInJump : List Instr :=
  [.op (.pushInt 0),
    .jumpUnless [.op (.pushInt 3), .jumpIf [.op (.pushInt 9)], .op (.pushInt 4)]]

theorem taken_jump_leaves_jumpInJump :
    Taken false jumpInJump [] [.int 9] ∧
    run (.call (jumpInJump ++ [.op (.pushInt 5)]) 0 1) [.int 1] = .ok (.next, [.int 9, .int 1]) ∧
    runAll [.ifElse jumpInJump [], .op (.pushInt 5)] [.int 1] = .ok (.next, [.int 5, .int 9]) ∧
    ∃ g b : Generated Unit, Gen.jumpIf (Gen.op (.pushInt 9)) (some ⟨0, 1⟩) 1 = .ok g ∧
      g.code = [.jumpIf b.code] ∧ b.depth = 1 := by
  obtain ⟨hexit, hcall, -, -⟩ := taken_jump_leaves jumpInJump [.int 9]
  obtain ⟨-, -, harm, hgen⟩ := taken_jump_leaves [.op (.pushInt 5)] [.int 9]
  have h : Taken false jumpInJump [] [.int 9] := (hexit []).1 rfl
  have hg : Gen.jumpIf (Gen.op (.pushInt 9)) (some ⟨0, 1⟩) 1 =
      .ok ⟨(), [.jumpIf [.op (.pushInt 9)]], 0⟩ := rfl
  refine ⟨h, hcall _ 0 1 _ (by decide) h, ?_, ?_⟩
  · rw [harm jumpInJump [] 1 [] h]
    rfl
  · obtain ⟨b, fr, hf, -, hc, hb⟩ := hgen hg
    cases hf
    exact ⟨_, b, hg, hc, hb⟩

end Instr

namespace Step

/-- A call whose program jumps in an arm, and after that goes on. -/
def jumpInArm : List Step :=
  [.instr (.op (.pushInt 1)),
    .ifElse [.instr (.op (.pushInt 0)), .jumpUnless [.instr (.op (.pushInt 9))]] [],
    .instr (.op (.pushInt 5))]

/-- The generator accepts a jump in an arm as one that leaves the enclosing call, and the call goes
on after it: it returns five, and the body of the jump left nine. -/
theorem run_call_jumpInArm : ∃ g code, run (.call 0 1 jumpInArm) none none 0 = .ok g ∧
    g.code = [.call code 0 1] ∧ Instr.Taken true code [] [.int 9] ∧
      Instr.runAll g.code [] = .ok (.next, [.int 5]) := by
  have h : run (.call 0 1 jumpInArm) none none 0 = .ok ⟨none, [.call [.op (.pushInt 1),
      .ifElse [.op (.pushInt 0), .jumpUnless [.op (.pushInt 9)]] [], .op (.pushInt 5)] 0 1],
      1⟩ := by
    have hb : runAll jumpInArm none (some ⟨0, 1⟩) 0 = .ok ⟨none, [.op (.pushInt 1), .ifElse
        [.op (.pushInt 0), .jumpUnless [.op (.pushInt 9)]] [], .op (.pushInt 5)], 1⟩ := by
      simp only [jumpInArm, runAll, run]
      rfl
    simp only [run, Gen.call, hb]
    rfl
  have ht : Instr.Taken false [.op (.pushInt 0), .jumpUnless [.op (.pushInt 9)]] [] [.int 9] :=
    Instr.runAll_eq_exit_iff.1 rfl
  have hb : Instr.runAll [.op (.pushInt 1)] [] = .ok (.next, [.int 1]) := rfl
  exact ⟨_, _, h, rfl, .arm hb ht, rfl⟩

end Step

end TypedCells
