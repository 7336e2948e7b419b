import TypedCells.Proofs.Generators
import TypedCells.Proofs.Supplied
import TypedCells.Script.Step

/-!
# The height of the stack

`Instr.heightAll?` follows the height of the stack through a program without running it, and gives
up where an instruction would take entries that are not there. The program of a call is followed
from the arguments alone, which is all that it finds when it runs. Where the height can be followed,
a run never lacks entries and ends at that height, if it does not trap for another reason
(`Instr.Reaches`).

A generator follows the height too, but through a call it goes on counting from the bottom of the
whole stack.

* `Step.runAll_height`: without calls, the height that a generator gives is the true one.
* `Step.run_call_height`: a call needs no more than its arguments and leaves what it promised if its
  program takes nothing from below them. The generator does not see to that.
-/

namespace TypedCells

namespace Instr

/-! ### Following the height -/

mutual

/-- The height of the stack after an instruction on `n` entries, unless it takes more than there
are. For a quiet load and for jumps the height depends on the data. -/
def height? : Instr → (n : Nat) → Option Nat
  | .op o, n =>
    if o.isQuiet = false ∧ o.effect.pops ≤ n then some (n - o.effect.pops + o.effect.pushes)
    else none
  | .ifElse _ _, 0 => none
  | .ifElse a b, n + 1 => do
    let m ← heightAll? a n
    let m' ← heightAll? b n
    if m = m' then some m else none
  | .call body args rets, n =>
    if args ≤ n ∧ (heightAll? body args).isSome then some (n - args + rets) else none
  | .jumpIf _, _ => none
  | .jumpUnless _, _ => none

/-- The height of the stack after a program on `n` entries. -/
def heightAll? : List Instr → (n : Nat) → Option Nat
  | [], n => some n
  | i :: is, n => do heightAll? is (← height? i n)

end

variable {is js a b : List Instr} {n m k : Nat}

theorem heightAll?_append (is js : List Instr) (n : Nat) :
    heightAll? (is ++ js) n = heightAll? is n >>= heightAll? js := by
  induction is generalizing n with
  | nil => rfl
  | cons i is ih =>
    rw [List.cons_append, heightAll?, heightAll?]
    cases height? i n with
    | none => rfl
    | some m => exact ih m

theorem heightAll?_single (i : Instr) (n : Nat) : heightAll? [i] n = height? i n := by
  rw [heightAll?]
  cases height? i n <;> rfl

theorem height?_op {o : Op} :
    height? (.op o) n = some m ↔ o.isQuiet = false ∧ o.effect.pops ≤ n ∧
      m = n - o.effect.pops + o.effect.pushes := by
  rw [height?, Option.ite_none_right_eq_some, Option.some.injEq, and_assoc, eq_comm (a := m)]

theorem height?_ifElse :
    height? (.ifElse a b) n = some m ↔
      1 ≤ n ∧ heightAll? a (n - 1) = some m ∧ heightAll? b (n - 1) = some m := by
  cases n with
  | zero => simp [height?]
  | succ n =>
    rw [height?, Nat.add_sub_cancel]
    rcases heightAll? a n with _ | k
    · simp
    · rcases heightAll? b n with _ | k'
      · simp
      · simp
        omega

theorem height?_call {args rets : Nat} :
    height? (.call is args rets) n = some m ↔
      args ≤ n ∧ (∃ k, heightAll? is args = some k) ∧ m = n - args + rets := by
  rw [height?, Option.ite_none_right_eq_some, Option.some.injEq, and_assoc,
    Option.isSome_iff_exists, eq_comm (a := m)]

/-! ### What a run does to the height -/

/-- From `n` entries the program comes to its end with `m` entries, or it traps, but not for want of
entries. -/
def Reaches (is : List Instr) (n m : Nat) : Prop :=
  ∀ ⦃s : Stack⦄, s.length = n → Gives (runAll is s) fun r => r.1 = .next ∧ r.2.length = m

namespace Reaches

theorem nil : Reaches [] n n := by
  intro s hs
  rw [runAll_nil]
  exact .ok ⟨rfl, hs⟩

theorem exec_gives (h : Reaches is n m) {s : Stack} (hs : s.length = n) :
    Gives (exec is s) fun s' => s'.length = m :=
  (h hs).bind fun _ hr => .ok hr.2

theorem append (h : Reaches is n m) (h' : Reaches js m k) : Reaches (is ++ js) n k := by
  intro s hs
  rw [runAll_append]
  refine (h hs).bind fun r hr => ?_
  obtain ⟨_, t⟩ := r
  obtain ⟨rfl, ht⟩ := hr
  exact h' ht

theorem op {o : Op} (hq : o.isQuiet = false) (hn : o.effect.pops ≤ n) :
    Reaches [.op o] n (n - o.effect.pops + o.effect.pushes) := by
  rintro s rfl
  rw [runAll_op]
  refine (Op.run_gives hq hn).bind fun t ht => ?_
  rw [runAll_nil]
  exact .ok ⟨rfl, ht⟩

theorem ifElse (ha : Reaches a n m) (hb : Reaches b n m) : Reaches [.ifElse a b] (n + 1) m := by
  intro s hs
  rw [runAll_single, run]
  refine (Stack.popBool_takes (by omega)).bind fun r ht => ?_
  obtain ⟨flag, t⟩ := r
  have hl : t.length = n := by simp only at ht; omega
  cases flag with
  | true => exact (ha hl).bind fun r hr => .ok ⟨rfl, hr.2⟩
  | false => exact (hb hl).bind fun r hr => .ok ⟨rfl, hr.2⟩

/-- What a call leaves below its arguments is what it finds there. -/
theorem call_gives {args rets : Nat} (h : Reaches is args rets) {s : Stack}
    (hs : args ≤ s.length) : Gives (runAll [.call is args rets] s) fun r =>
      r.1 = .next ∧ ∃ xs : List Value, xs.length = rets ∧ r.2 = xs ++ s.drop args := by
  have hn : s.need args = .ok () := Stack.need_eq_ok.2 hs
  rw [runAll_single, run, hn, ok_bind]
  refine (h (List.length_take_of_le hs)).bind fun r ht => ?_
  obtain ⟨f, t⟩ := r
  have ht : rets ≤ t.length := Nat.le_of_eq ht.2.symm
  have hn' : Stack.need rets t = .ok () := Stack.need_eq_ok.2 ht
  simp only [hn', ok_bind]
  exact .ok ⟨rfl, t.take rets, List.length_take_of_le ht, rfl⟩

theorem call {args rets : Nat} (h : Reaches is args rets) (hn : args ≤ n) :
    Reaches [.call is args rets] n (n - args + rets) := by
  rintro s rfl
  have hc := h.call_gives hn
  refine ⟨hc.supplied, fun r hr => ?_⟩
  obtain ⟨hf, xs, hx, hr⟩ := hc.result hr
  refine ⟨hf, ?_⟩
  rw [hr, List.length_append, List.length_drop, hx]
  omega

end Reaches

end Instr

/-! ### Generated code -/

/-- The heights of the code are those which the generator gives, at whatever height it is run. The
height can be followed at the height at which the code was made if there are no `calls` in it. -/
structure Generated.Tracked {α : Type} (calls : Bool) (d : Nat) (g : Generated α) : Prop where
  followed : calls = false → ∃ m, Instr.heightAll? g.code d = some m
  height : ∀ ⦃n m⦄, Instr.heightAll? g.code n = some m → m + d = n + g.depth
  reaches : ∀ ⦃n m⦄, Instr.heightAll? g.code n = some m → Instr.Reaches g.code n m

namespace Gen

variable {α β : Type} {calls : Bool}

/-- The code of the generator has the heights that the generator gives. -/
def Tracks (calls : Bool) (x : Gen α) : Prop :=
  ∀ ⦃frame : Option Frame⦄ ⦃d : Nat⦄ ⦃g : Generated α⦄, x frame d = .ok g → g.Tracked calls d

namespace Tracks

variable {x : Gen α} {f : α → Gen β}

/-- A generator without code. -/
theorem of_nil (h : ∀ ⦃frame d g⦄, x frame d = .ok g → g.code = [] ∧ g.depth = d) :
    x.Tracks calls := by
  intro frame d g hg
  obtain ⟨hc, hd⟩ := h hg
  constructor
  · exact fun _ => ⟨d, by rw [hc]; rfl⟩
  · intro n m hm
    rw [hc, Instr.heightAll?] at hm
    rw [← Option.some.inj hm, hd]
  · intro n m hm
    rw [hc, Instr.heightAll?] at hm
    rw [hc, ← Option.some.inj hm]
    exact .nil

theorem pure (a : α) : (Pure.pure a : Gen α).Tracks calls := .of_nil fun _ _ _ h => by
  rw [pure_ok.1 h]
  exact ⟨rfl, rfl⟩

theorem depth : Gen.depth.Tracks calls := .of_nil fun _ _ _ h => by
  rw [depth_ok.1 h]
  exact ⟨rfl, rfl⟩

theorem operand (n : Nat) : (Gen.operand n).Tracks calls := .of_nil fun _ _ _ h => by
  rw [(operand_ok.1 h).2]
  exact ⟨rfl, rfl⟩

theorem ensureDepth (n : Nat) (context : String) : (Gen.ensureDepth n context).Tracks calls :=
  .of_nil fun _ _ _ h => by
    rw [(ensureDepth_ok.1 h).2]
    exact ⟨rfl, rfl⟩

theorem bind (hx : x.Tracks calls) (hf : ∀ a, (f a).Tracks calls) : (x >>= f).Tracks calls := by
  intro frame d g hg
  obtain ⟨r, r', h1, h2, rfl⟩ := bind_ok.1 hg
  have hr := hx h1
  have hr' := hf r.value h2
  have cut {n k : Nat} (hk : Instr.heightAll? (r.code ++ r'.code) n = some k) :
      ∃ m, Instr.heightAll? r.code n = some m ∧ Instr.heightAll? r'.code m = some k := by
    rwa [Instr.heightAll?_append, Option.bind_eq_bind, Option.bind_eq_some_iff] at hk
  constructor
  · intro hc
    -- the second part was made at `r.depth`, which is where the first part ends
    obtain ⟨m, hm⟩ := hr.followed hc
    obtain ⟨k, hk⟩ := hr'.followed hc
    have : m = r.depth := by have := hr.height hm; omega
    exact ⟨k, by rw [Instr.heightAll?_append, hm, this]; exact hk⟩
  · intro n k hk
    obtain ⟨m, hm, hk⟩ := cut hk
    have h := hr.height hm
    have h' := hr'.height hk
    simp only
    omega
  · intro n k hk
    obtain ⟨m, hm, hk⟩ := cut hk
    exact (hr.reaches hm).append (hr'.reaches hk)

theorem ite {c : Prop} [Decidable c] {y : Gen α} (hx : x.Tracks calls) (hy : y.Tracks calls) :
    (if c then x else y).Tracks calls := by
  split
  · exact hx
  · exact hy

theorem op {o : Op} (hq : o.isQuiet = false) : (Gen.op o).Tracks calls := by
  intro frame d g hg
  obtain ⟨hd, rfl⟩ := instr_ok.1 hg
  simp only [Instr.effect] at hd
  constructor
  · exact fun _ => ⟨_, by rw [Instr.heightAll?_single, Instr.height?_op]; exact ⟨hq, hd, rfl⟩⟩
  · intro n m hm
    rw [Instr.heightAll?_single, Instr.height?_op] at hm
    obtain ⟨-, hn, rfl⟩ := hm
    simp only [Instr.effect]
    omega
  · intro n m hm
    rw [Instr.heightAll?_single, Instr.height?_op] at hm
    obtain ⟨-, hn, rfl⟩ := hm
    exact .op hq hn

theorem ifElse (hx : x.Tracks calls) (hf : ∀ a, (f a).Tracks calls) :
    (Gen.ifElse x f).Tracks calls := by
  intro frame d g hg
  obtain ⟨hd, a, b, ha, hb, hab, rfl⟩ := ifElse_ok hg
  have ha := hx ha
  have hb := hf a.value hb
  constructor
  · intro hc
    obtain ⟨m, hm⟩ := ha.followed hc
    obtain ⟨k, hk⟩ := hb.followed hc
    have : k = m := by
      have := ha.height hm
      have := hb.height hk
      omega
    exact ⟨m, by rw [Instr.heightAll?_single, Instr.height?_ifElse]; exact ⟨hd, hm, this ▸ hk⟩⟩
  · intro n m hm
    rw [Instr.heightAll?_single, Instr.height?_ifElse] at hm
    have h := hb.height hm.2.2
    simp only
    omega
  · intro n m hm
    rw [Instr.heightAll?_single, Instr.height?_ifElse] at hm
    obtain ⟨n, rfl⟩ := Nat.exists_eq_add_of_le' hm.1
    exact .ifElse (ha.reaches hm.2.1) (hb.reaches hm.2.2)

/-- The program of a call that the generator accepts leaves what was promised, if its height can be
followed from the arguments. -/
theorem call_reaches {args rets : Nat} {frame : Option Frame} {d k : Nat} {b : Generated α}
    (hx : x.Tracks calls) (hb : x frame d = .ok b) (hd : args ≤ d)
    (hbd : b.depth = d - args + rets) (hk : Instr.heightAll? b.code args = some k) :
    Instr.Reaches b.code args rets := by
  have h := (hx hb).height hk
  have hkr : k = rets := by omega
  exact hkr ▸ (hx hb).reaches hk

theorem call {args rets : Nat} (hx : x.Tracks true) : (Gen.call args rets x).Tracks true := by
  intro frame d g hg
  obtain ⟨hd, b, hb, hbd, rfl⟩ := call_ok hg
  constructor
  -- the body was made at `d` and not at `args`, so its height need not be followed from there
  · exact nofun
  · intro n m hm
    rw [Instr.heightAll?_single, Instr.height?_call] at hm
    obtain ⟨hn, -, rfl⟩ := hm
    simp only
    omega
  · intro n m hm
    rw [Instr.heightAll?_single, Instr.height?_call] at hm
    obtain ⟨hn, ⟨k, hk⟩, rfl⟩ := hm
    exact (hx.call_reaches hb hd hbd hk).call hn

/-! ### Moving entries -/

theorem push (i : Nat) : (Gen.push i).Tracks calls := (operand i).bind fun _ => .op rfl

theorem pop (i : Nat) : (Gen.pop i).Tracks calls :=
  .ite (.op rfl) ((operand i).bind fun _ => .op rfl)

theorem xchg (i : Nat) : (Gen.xchg i).Tracks calls :=
  .ite (.pure ()) ((operand i).bind fun _ => .op rfl)

theorem blkSwap (i j : Nat) : (Gen.blkSwap i j).Tracks calls :=
  .ite (.pure ()) ((operand i).bind fun _ => (operand j).bind fun _ => .op rfl)

theorem reverse (n j : Nat) : (Gen.reverse n j).Tracks calls :=
  .ite (.pure ()) ((operand n).bind fun _ => (operand j).bind fun _ => .op rfl)

theorem drop : ∀ n : Nat, (Gen.drop n).Tracks calls
  | 0 => .pure ()
  | n + 1 => (op rfl).bind fun _ => drop n

theorem dropUnder (n m : Nat) : (Gen.dropUnder n m).Tracks calls :=
  .ite (.pure ()) (.ite (drop n) ((operand n).bind fun _ => (operand m).bind fun _ => .op rfl))

theorem tuple (n : Nat) : (Gen.tuple n).Tracks calls := (operand n).bind fun _ => .op rfl

theorem untuple (n : Nat) : (Gen.untuple n).Tracks calls := (operand n).bind fun _ => .op rfl

end Tracks

end Gen

/-! ### Steps -/

namespace Step

mutual

/-- Whether the step moves entries, adds an instruction without a program in it that is no quiet
load, or is a conditional over such steps, or also a call of such steps if there may be `calls`. -/
def isPlain (calls : Bool) : Step → Bool
  | .instr (.op o) => !o.isQuiet
  | .push _ | .pushFromBottom _ | .pop _ | .xchg _ | .blkSwap _ _ | .reverse _ _ | .drop _
  | .dropUnder _ _ | .tuple _ | .untuple _ | .ensureDepth _ _ => true
  | .ifElse a b => allPlain calls a && allPlain calls b
  | .call _ _ body => calls && allPlain calls body
  | _ => false

/-- Whether all steps are plain. -/
def allPlain (calls : Bool) : List Step → Bool
  | [] => true
  | s :: ss => s.isPlain calls && allPlain calls ss

end

mutual

theorem run_tracks {calls : Bool} : ∀ (s : Step) (shared : Shared), s.isPlain calls = true →
    (s.run shared).Tracks calls
  | .instr (.op o), shared, h => by
    rw [isPlain, Bool.not_eq_true'] at h
    exact (Gen.Tracks.op h).bind fun _ => .pure _
  | .push i, _, _ => (Gen.Tracks.push i).bind fun _ => .pure _
  | .pushFromBottom _, _, _ =>
    Gen.Tracks.depth.bind fun _ => (Gen.Tracks.push _).bind fun _ => .pure _
  | .pop i, _, _ => (Gen.Tracks.pop i).bind fun _ => .pure _
  | .xchg i, _, _ => (Gen.Tracks.xchg i).bind fun _ => .pure _
  | .blkSwap i j, _, _ => (Gen.Tracks.blkSwap i j).bind fun _ => .pure _
  | .reverse n j, _, _ => (Gen.Tracks.reverse n j).bind fun _ => .pure _
  | .drop n, _, _ => (Gen.Tracks.drop n).bind fun _ => .pure _
  | .dropUnder n m, _, _ => (Gen.Tracks.dropUnder n m).bind fun _ => .pure _
  | .tuple n, _, _ => (Gen.Tracks.tuple n).bind fun _ => .pure _
  | .untuple n, _, _ => (Gen.Tracks.untuple n).bind fun _ => .pure _
  | .ensureDepth n c, _, _ => (Gen.Tracks.ensureDepth n c).bind fun _ => .pure _
  | .ifElse a b, shared, h => by
    rw [isPlain, Bool.and_eq_true] at h
    exact (runAll_tracks a shared h.1).ifElse fun shared => runAll_tracks b shared h.2
  | .call args rets body, shared, h => by
    rw [isPlain, Bool.and_eq_true] at h
    obtain ⟨rfl, h⟩ := h
    exact (runAll_tracks body shared h).call

theorem runAll_tracks {calls : Bool} : ∀ (ss : List Step) (shared : Shared),
    allPlain calls ss = true → (runAll ss shared).Tracks calls
  | [], _, _ => .pure _
  | s :: ss, shared, h => by
    rw [allPlain, Bool.and_eq_true] at h
    exact (run_tracks s shared h.1).bind fun shared => runAll_tracks ss shared h.2

end

/-! ### The height that a generator gives -/

/-- **The height that a generator gives is the height of the stack.** Code for plain steps without
calls, made at the height of the stack, does not trap for want of entries, and if it does not trap
at all it ends at the height that was given. -/
theorem runAll_height {ss : List Step} {shared : Shared} {frame : Option Frame} {d : Nat}
    {g : Generated Shared} (hp : allPlain false ss = true)
    (h : runAll ss shared frame d = .ok g) {s : Stack} (hs : s.length = d) :
    Instr.exec g.code s ≠ .error .stackUnderflow ∧
      ∀ s', Instr.exec g.code s = .ok s' → s'.length = g.depth := by
  have hg := runAll_tracks ss shared hp h
  obtain ⟨m, hm⟩ := hg.followed rfl
  have hmd : m = g.depth := by have := hg.height hm; omega
  have hr := (hg.reaches hm).exec_gives hs
  exact ⟨hr.supplied, fun s' hs' => (hr.result hs').trans hmd⟩

/-- Packs a number if a flag says so, and else puts it in a tuple, zero with null. -/
def packOrKeep : List Step :=
  [.xchg 1,
    .ifElse [.instr (.op .newc), .instr (.op (.store (.integer 8 false))), .instr (.op .endc)]
      [.push 0, .ifElse [.push 0, .tuple 1] [.instr (.op .pushNull)], .tuple 2]]

theorem runAll_height_packOrKeep : ∃ g, runAll packOrKeep none none 2 = .ok g ∧ g.depth = 1 ∧
    Instr.exec g.code [.int 5, .int 1] ≠ .error .stackUnderflow ∧
      ∀ s', Instr.exec g.code [.int 5, .int 1] = .ok s' → s'.length = g.depth := by
  have h : runAll packOrKeep none none 2 = .ok ⟨none, [.op (.xchg 1),
      .ifElse [.op .newc, .op (.store (.integer 8 false)), .op .endc]
        [.op (.push 0), .ifElse [.op (.push 0), .op (.tuple 1)] [.op .pushNull], .op (.tuple 2)]],
      1⟩ := by cbv
  exact ⟨_, h, rfl, runAll_height (by decide) h rfl⟩

/-! ### Calls -/

/-- **A call needs its arguments only, if its program takes nothing from below them.** Where the
generator accepts a call of plain steps and the height can be followed from the arguments alone, the
call does not trap for want of entries on any stack that has the arguments, and if it does not trap
at all it leaves what it promised in their place and everything below as it was. The height can be
followed if the arguments are all that the stack holds and there are no calls in the program. -/
theorem run_call_height {args rets : Nat} {body : List Step} {shared : Shared}
    {frame : Option Frame} {d : Nat} {g : Generated Shared} (hp : allPlain true body = true)
    (h : run (.call args rets body) shared frame d = .ok g) :
    ∃ code, g.code = [.call code args rets] ∧
      ((∃ k, Instr.heightAll? code args = some k) → ∀ s : Stack, args ≤ s.length →
        Instr.exec g.code s ≠ .error .stackUnderflow ∧ ∀ s', Instr.exec g.code s = .ok s' →
          ∃ xs : List Value, xs.length = rets ∧ s' = xs ++ s.drop args) ∧
      (d = args → allPlain false body = true → ∃ k, Instr.heightAll? code args = some k) := by
  obtain ⟨hd, b, hb, hbd, rfl⟩ := Gen.call_ok h
  refine ⟨b.code, rfl, fun ⟨k, hk⟩ s hs => ?_, fun hda hp' => ?_⟩
  · have hc := ((runAll_tracks body shared hp).call_reaches hb hd hbd hk).call_gives hs
    have he : Gives (Instr.exec [.call b.code args rets] s) fun s' =>
        ∃ xs : List Value, xs.length = rets ∧ s' = xs ++ s.drop args :=
      hc.bind fun _ hr => .ok hr.2
    exact ⟨he.supplied, he.result⟩
  · exact hda ▸ (runAll_tracks body shared hp' hb).followed rfl

/-- The larger of two numbers, zero if a flag says so, by way of a call that copies one. -/
def chooseCall : Step :=
  .call 3 1 [.push 1, .call 1 2 [.push 0], .drop 2,
    .ifElse [.drop 2, .instr (.op (.pushInt 0))]
      [.push 1, .push 1, .instr (.op .geq), .ifElse [.drop 1] [.dropUnder 1 1]]]

theorem run_call_height_choose : ∃ g code, run chooseCall none none 5 = .ok g ∧
    g.code = [.call code 3 1] ∧ Instr.heightAll? code 3 = some 1 ∧
      Instr.exec g.code [.int 0, .int 4, .int 9, .int 1, .int 2] ≠ .error .stackUnderflow ∧
        ∀ s', Instr.exec g.code [.int 0, .int 4, .int 9, .int 1, .int 2] = .ok s' →
          ∃ xs : List Value, xs.length = 1 ∧ s' = xs ++ [.int 1, .int 2] := by
  have h : run chooseCall none none 5 = .ok ⟨none, [.call [.op (.push 1),
      .call [.op (.push 0)] 1 2, .op .drop, .op .drop,
      .ifElse [.op .drop, .op .drop, .op (.pushInt 0)]
        [.op (.push 1), .op (.push 1), .op .geq, .ifElse [.op .drop] [.op (.blkDrop 1 1)]]] 3 1],
      3⟩ := by cbv
  obtain ⟨code, hc, hs, -⟩ := run_call_height (by decide) h
  have hk : Instr.heightAll? code 3 = some 1 := by
    obtain ⟨rfl, -, -⟩ := Instr.call.inj (List.cons.inj hc).1
    rfl
  exact ⟨_, code, h, hc, hk, hs ⟨1, hk⟩ _ (by decide)⟩

/-- The generator counts what lies below the arguments: it accepts a call that copies it. -/
theorem run_call_below : ∃ g, run (.call 1 1 [.push 1, .dropUnder 1 1]) none none 2 = .ok g ∧
    g.depth = 2 ∧ Instr.exec g.code [.int 5, .int 1] = .error .stackUnderflow := by
  have h : run (.call 1 1 [.push 1, .dropUnder 1 1]) none none 2 =
      .ok ⟨none, [.call [.op (.push 1), .op (.blkDrop 1 1)] 1 1], 2⟩ := rfl
  exact ⟨_, h, rfl, rfl⟩

end Step

end TypedCells
