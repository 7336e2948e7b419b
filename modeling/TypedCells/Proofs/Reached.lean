import TypedCells.Proofs.Indistinct
import TypedCells.Proofs.Jumps

/-!
# The stacks that a run reaches

A run of a program reaches the stack that it starts on, those after its instructions, and those that
are reached in the arms, in the jumps that are taken and in the calls, where the stack has the
entries of the call alone (`Instr.Visits`). This goes for a run that traps, too, up to the
instruction that traps.

* `Instr.visits_wellFormed`: from well-formed values all these stacks hold well-formed values, and
  no slice that is made of these has a position out of its cell.
-/

namespace TypedCells

/-- No slice that can be made of what the value holds has a position out of its cell. -/
def Value.InBounds : Value → Prop :=
  Value.Each (fun c => ∀ x, (Slice.ofCell c).Derives x → x.InBounds)
    (fun s => ∀ x, s.Derives x → x.InBounds)
    fun b => ∀ x, (Slice.ofCell b.toCell).Derives x → x.InBounds

theorem Slice.WellFormed.inBounds {s : Slice} (h : s.WellFormed) :
    ∀ x, s.Derives x → x.InBounds :=
  fun _ hx => (h.derives hx).valid.inBounds

theorem Value.WellFormed.inBounds {v : Value} (h : v.WellFormed) : v.InBounds :=
  Value.Each.mono (fun _ hc => (Slice.wellFormed_ofCell hc).inBounds) (fun _ hs => hs.inBounds)
    (fun _ hb => (Slice.wellFormed_ofCell hb).inBounds) h

namespace Instr

variable {i : Instr} {is code : List Instr} {s s' t : Stack} {f : Flow}

/-- The run of a program on `s` reaches the stack `t`. -/
inductive Visits : (code : List Instr) → (s t : Stack) → Prop
  | start {code : List Instr} {s : Stack} : Visits code s s
  | later {i : Instr} {is : List Instr} {s u t : Stack} (h : run i s = .ok (.next, u))
    (hv : Visits is u t) : Visits (i :: is) s t
  | left {i : Instr} {is : List Instr} {s t : Stack} (h : run i s = .ok (.exit, t)) :
    Visits (i :: is) s t
  | arm {a b is : List Instr} {k : Int} {s t : Stack} (hv : Visits (if k = 0 then b else a) s t) :
    Visits (.ifElse a b :: is) (.int k :: s) t
  | jump {i : Instr} {is body : List Instr} {s u t : Stack} (hj : JumpsTo i s body u)
    (hv : Visits body u t) : Visits (i :: is) s t
  | call {body is : List Instr} {args rets : Nat} {s t : Stack} (hn : args ≤ s.length)
    (hv : Visits body (s.take args) t) : Visits (.call body args rets :: is) s t

/-- The stack that a run leaves is reached. -/
theorem visits_of_runAll (h : runAll code s = .ok (f, t)) : Visits code s t := by
  induction code generalizing s with
  | nil =>
    obtain ⟨-, rfl⟩ := Prod.mk.inj (Except.ok.inj h)
    exact .start
  | cons i is ih =>
    rw [runAll_cons, bind_eq_ok] at h
    obtain ⟨⟨flow, u⟩, hi, h⟩ := h
    cases flow with
    | next => exact .later hi (ih h)
    | exit =>
      obtain ⟨-, rfl⟩ := Prod.mk.inj (Except.ok.inj h)
      exact .left hi

/-- An instruction leaves well-formed values when it finds such. -/
theorem run_wellFormed (h : run i s = .ok (f, t)) (hs : ∀ v ∈ s, v.WellFormed) :
    ∀ v ∈ t, v.WellFormed := by
  have hss := Value.forall₂_indistinct.2 ⟨hs, hs, rfl⟩
  have hf := run_follows Value.congruence_indistinct i (.of_forall₂ hss)
  obtain ⟨_, -, -, u, hu, -⟩ := hf.of_ok h
  exact (Value.forall₂_indistinct.1 hu).1

theorem JumpsTo.mem_of_mem {body : List Instr} {v : Value} (h : JumpsTo i s body s') (hv : v ∈ s') :
    v ∈ s := by
  cases h with
  | flagSet => exact List.mem_cons_of_mem _ hv
  | flagClear => exact List.mem_cons_of_mem _ hv

/-- Well-formed values are kept by every step of a run, into calls, arms and jumps too. -/
theorem Visits.wellFormed (h : Visits code s t) (hs : ∀ v ∈ s, v.WellFormed) :
    ∀ v ∈ t, v.WellFormed := by
  induction h with
  | start => exact hs
  | later h _ ih => exact ih (run_wellFormed h hs)
  | left h => exact run_wellFormed h hs
  | arm _ ih => exact ih fun v hv => hs v (List.mem_cons_of_mem _ hv)
  | jump hj _ ih => exact ih fun v hv => hs v (hj.mem_of_mem hv)
  | call _ _ ih => exact ih fun v hv => hs v (List.mem_of_mem_take hv)

/-- **The machine keeps its values well formed.** When a program is run on well-formed values, every
stack that is reached, among them the one that is left in the end, has only such values, and no
slice that is read, cut or opened from them has a position out of its cell. -/
theorem visits_wellFormed (code : List Instr) {s : Stack} (hs : ∀ v ∈ s, v.WellFormed) :
    (∀ t, Visits code s t → ∀ v ∈ t, v.WellFormed ∧ v.InBounds) ∧
    ∀ f t, runAll code s = .ok (f, t) → Visits code s t := by
  refine ⟨fun t ht v hv => ?_, fun f t h => visits_of_runAll h⟩
  have hw := ht.wellFormed hs v hv
  exact ⟨hw, hw.inBounds⟩

/-- Takes the first reference of a slice in a call that a jump leaves. -/
def firstRef : List Instr :=
  [.call [.op .ldRef, .op (.pushInt 0), .jumpUnless [.op .drop], .op .ctos] 1 1]

/-- The stack where the jump is taken, with what is left of the slice. -/
theorem visits_wellFormed_firstRef :
    Visits firstRef [.slice (.ofCell ⟨[true], [.empty]⟩), .null]
      [.slice ⟨⟨[true], [.empty]⟩, 0, 1, 1, 1⟩, .cell .empty] ∧
    (Value.slice ⟨⟨[true], [.empty]⟩, 0, 1, 1, 1⟩).WellFormed ∧
    (Value.slice ⟨⟨[true], [.empty]⟩, 0, 1, 1, 1⟩).InBounds := by
  have hc : (⟨[true], [.empty]⟩ : Cell).WithinLimits :=
    ⟨by decide, by decide, ⟨by decide, by decide, trivial⟩, trivial⟩
  have hv : Visits firstRef [.slice (.ofCell ⟨[true], [.empty]⟩), .null]
      [.slice ⟨⟨[true], [.empty]⟩, 0, 1, 1, 1⟩, .cell .empty] :=
    .call (by decide) (.later rfl (.later rfl (.jump .flagClear .start)))
  refine ⟨hv, (visits_wellFormed firstRef ?_).1 _ hv _ (List.mem_cons_self ..)⟩
  exact List.forall_mem_cons.2 ⟨Slice.wellFormed_ofCell hc, List.forall_mem_singleton.2 trivial⟩

end Instr

end TypedCells
