import Mathlib.Data.List.Basic

/-!
# Marked entries

The entries of a list that are marked (`chosen`), and the list with new entries in their place
(`replaced`).
-/

namespace TypedCells

variable {α β : Type}

/-- The values that are marked. -/
def chosen {α : Type} : List Bool → List α → List α
  | mark :: marks, v :: vs => if mark then v :: chosen marks vs else chosen marks vs
  | _, _ => []

/-- The values with new ones in the place of those that are marked. -/
def replaced {α : Type} : List Bool → (old new : List α) → List α
  | true :: marks, _ :: vs, n :: ns => n :: replaced marks vs ns
  | false :: marks, v :: vs, ns => v :: replaced marks vs ns
  | _, vs, _ => vs

/-! ### Choosing -/

theorem chosen_append : ∀ {marks ms : List Bool} {vs ws : List α}, vs.length = marks.length →
    chosen (marks ++ ms) (vs ++ ws) = chosen marks vs ++ chosen ms ws
  | [], _, [], _, _ => rfl
  | true :: _, _, v :: _, _, h => congrArg (v :: ·) (chosen_append (Nat.succ.inj h))
  | false :: marks, ms, _ :: vs, ws, h => by
    change chosen (marks ++ ms) (vs ++ ws) = chosen marks vs ++ chosen ms ws
    exact chosen_append (Nat.succ.inj h)

theorem chosen_true : ∀ {marks : List Bool} {vs : List α}, (∀ m ∈ marks, m = true) →
    vs.length = marks.length → chosen marks vs = vs
  | [], [], _, _ => rfl
  | mark :: marks, v :: vs, h, hl => by
    rw [chosen, if_pos (h mark (List.mem_cons_self ..)),
      chosen_true (fun m hm => h m (List.mem_cons_of_mem _ hm)) (Nat.succ.inj hl)]

theorem chosen_false : ∀ {marks : List Bool} {vs : List α}, (∀ m ∈ marks, m = false) →
    chosen marks vs = []
  | [], _, _ => rfl
  | _ :: _, [], _ => rfl
  | mark :: marks, v :: vs, h => by
    rw [chosen, if_neg (by simp [h mark (List.mem_cons_self ..)]),
      chosen_false fun m hm => h m (List.mem_cons_of_mem _ hm)]

theorem length_chosen : ∀ {marks : List Bool} {vs : List α}, vs.length = marks.length →
    (chosen marks vs).length = marks.countP id
  | [], [], _ => rfl
  | true :: marks, v :: vs, h => by
    rw [List.countP_cons_of_pos rfl, chosen, if_pos rfl, List.length_cons,
      length_chosen (Nat.succ.inj h)]
  | false :: marks, v :: vs, h => by
    rw [List.countP_cons_of_neg Bool.false_ne_true, chosen, if_neg Bool.false_ne_true,
      length_chosen (Nat.succ.inj h)]

/-- Entries that are not marked may be left out. -/
theorem chosen_drop : ∀ {n : Nat} {marks : List Bool} {vs : List α},
    (∀ m ∈ marks.take n, m = false) → chosen marks vs = chosen (marks.drop n) (vs.drop n)
  | 0, _, _, _ => rfl
  | _ + 1, [], _, _ => by simp [chosen]
  | _ + 1, _ :: _, [], _ => by simp [chosen]
  | _ + 1, mark :: _, _ :: _, h => by
    rw [chosen, if_neg (by simp [h mark (List.mem_cons_self ..)]),
      chosen_drop fun m hm => h m (List.mem_cons_of_mem _ hm)]
    rfl

/-! ### Replacing -/

theorem replaced_map (f : α → β) : ∀ (marks : List Bool) (vs ns : List α),
    (replaced marks vs ns).map f = replaced marks (vs.map f) (ns.map f)
  | true :: marks, _ :: vs, n :: ns => congrArg (f n :: ·) (replaced_map f marks vs ns)
  | false :: marks, v :: vs, ns => congrArg (f v :: ·) (replaced_map f marks vs ns)
  | true :: _, _ :: _, [] | true :: _, [], _ | false :: _, [], _ | [], [], _ | [], _ :: _, _ => by
    simp [replaced]

theorem replaced_true : ∀ {marks ms : List Bool} {vs ws ns us : List α},
    (∀ m ∈ marks, m = true) → vs.length = marks.length → ns.length = marks.length →
    replaced (marks ++ ms) (vs ++ ws) (ns ++ us) = ns ++ replaced ms ws us
  | [], _, [], _, [], _, _, _, _ => rfl
  | mark :: marks, ms, v :: vs, ws, n :: ns, us, h, hv, hn => by
    obtain rfl := h mark (List.mem_cons_self ..)
    exact congrArg (n :: ·) (replaced_true (fun m hm => h m (List.mem_cons_of_mem _ hm))
      (Nat.succ.inj hv) (Nat.succ.inj hn))

theorem replaced_false : ∀ {marks ms : List Bool} {vs ws ns : List α},
    (∀ m ∈ marks, m = false) → vs.length = marks.length →
    replaced (marks ++ ms) (vs ++ ws) ns = vs ++ replaced ms ws ns
  | [], _, [], _, _, _, _ => rfl
  | mark :: marks, ms, v :: vs, ws, ns, h, hv => by
    obtain rfl := h mark (List.mem_cons_self ..)
    exact congrArg (v :: ·) (replaced_false (fun m hm => h m (List.mem_cons_of_mem _ hm))
      (Nat.succ.inj hv))

theorem mem_replaced : ∀ {marks : List Bool} {vs ns : List α} {x : α},
    x ∈ replaced marks vs ns → x ∈ vs ∨ x ∈ ns
  | true :: marks, _ :: vs, n :: ns, x, h => by
    rcases List.mem_cons.1 h with rfl | h
    · exact .inr (List.mem_cons_self ..)
    · exact (mem_replaced h).imp (List.mem_cons_of_mem _) (List.mem_cons_of_mem _)
  | false :: marks, v :: vs, ns, x, h => by
    rcases List.mem_cons.1 h with rfl | h
    · exact .inl (List.mem_cons_self ..)
    · exact (mem_replaced h).imp_left (List.mem_cons_of_mem _)
  | true :: _, _ :: _, [], x, h => .inl (by simpa [replaced] using h)
  | true :: _, [], _, x, h | false :: _, [], _, x, h | [], [], _, x, h => by simp [replaced] at h
  | [], _ :: _, _, x, h => .inl (by simpa [replaced] using h)

end TypedCells
