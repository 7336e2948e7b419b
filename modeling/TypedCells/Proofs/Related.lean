import Mathlib.Data.List.Forall2
import TypedCells.Proofs.Machine

/-!
# Runs on related stacks

An instruction looks at the entries that it takes and at nothing below them, and it does not tell
entries apart between which no read, write or cut makes a difference (`Value.Congruence`). So a
program does the same on two stacks whose entries are related one by one, the second of which may
have more entries below (`Stack.Over`): unless it lacks entries on the first, it ends in the same
way and in related stacks, or it traps with the same trap (`Instr.runAll_follows`).

* `Instr.exec_stack_append`: no run depends on what is below the entries that it needs.
-/

namespace TypedCells

/-! ### Computations that follow others -/

/-- The second computation follows the first: it gives a result related to that of the first, or
fails as the first does. Where the first fails for want of entries, the second may do anything. -/
inductive Follows {ρ ρ' : Type} (rel : ρ → ρ' → Prop) : Except Trap ρ → Except Trap ρ' → Prop
  | ok {a : ρ} {b : ρ'} (h : rel a b) : Follows rel (.ok a) (.ok b)
  | fails (e : Trap) : Follows rel (.error e) (.error e)
  | lacks (y : Except Trap ρ') : Follows rel (.error .stackUnderflow) y

/-- Pairs with related parts. -/
def Both {α α' β β' : Type} (rel : α → α' → Prop) (rel' : β → β' → Prop) (p : α × β)
    (q : α' × β') : Prop :=
  rel p.1 q.1 ∧ rel' p.2 q.2

namespace Follows

variable {α α' β β' ρ ρ' σ σ' : Type} {rel : ρ → ρ' → Prop} {rel' : σ → σ' → Prop}
  {x : Except Trap ρ} {y : Except Trap ρ'} {f : ρ → Except Trap σ} {g : ρ' → Except Trap σ'}

theorem bind (h : Follows rel x y) (hf : ∀ a b, rel a b → Follows rel' (f a) (g b)) :
    Follows rel' (x >>= f) (y >>= g) := by
  cases h with
  | ok h => exact hf _ _ h
  | fails e => exact .fails e
  | lacks y => exact .lacks _

/-- After computations that give pairs. -/
theorem bind_both {rel₁ : α → α' → Prop} {rel₂ : β → β' → Prop} {x : Except Trap (α × β)}
    {y : Except Trap (α' × β')} {f : α × β → Except Trap σ} {g : α' × β' → Except Trap σ'}
    (h : Follows (Both rel₁ rel₂) x y)
    (hf : ∀ a a' b b', rel₁ a a' → rel₂ b b' → Follows rel' (f (a, b)) (g (a', b'))) :
    Follows rel' (x >>= f) (y >>= g) :=
  h.bind fun p q hpq => hf p.1 q.1 p.2 q.2 hpq.1 hpq.2

/-- After computations that give pairs with the same first part. -/
theorem bind_same {rel₂ : β → β' → Prop} {x : Except Trap (α × β)} {y : Except Trap (α × β')}
    {f : α × β → Except Trap σ} {g : α × β' → Except Trap σ'} (h : Follows (Both Eq rel₂) x y)
    (hf : ∀ a b b', rel₂ b b' → Follows rel' (f (a, b)) (g (a, b'))) :
    Follows rel' (x >>= f) (y >>= g) := by
  refine h.bind_both fun a a' b b' ha hb => ?_
  obtain rfl : a = a' := ha
  exact hf a b b' hb

theorem mono {rel₁ : ρ → ρ' → Prop} (h : Follows rel x y) (hr : ∀ a b, rel a b → rel₁ a b) :
    Follows rel₁ x y := by
  cases h with
  | ok h => exact .ok (hr _ _ h)
  | fails e => exact .fails e
  | lacks y => exact .lacks y

theorem refl {rel : ρ → ρ → Prop} {x : Except Trap ρ} (hr : ∀ a, x = .ok a → rel a a) :
    Follows rel x x := by
  cases x with
  | ok a => exact .ok (hr a rfl)
  | error e => exact .fails e

/-- The results are those of the computations. -/
theorem results (h : Follows rel x y) :
    Follows (fun a b => rel a b ∧ x = .ok a ∧ y = .ok b) x y := by
  cases h with
  | ok h => exact .ok ⟨h, rfl, rfl⟩
  | fails e => exact .fails e
  | lacks y => exact .lacks y

/-- The same decision on both sides. -/
theorem ite {c c' : Prop} [Decidable c] [Decidable c'] {x₁ : Except Trap ρ} {y₁ : Except Trap ρ'}
    (hc : c ↔ c') (h : Follows rel x y) (h' : Follows rel x₁ y₁) :
    Follows rel (if c then x else x₁) (if c' then y else y₁) := by
  by_cases hd : c
  · rwa [if_pos hd, if_pos (hc.1 hd)]
  · rwa [if_neg hd, if_neg (mt hc.2 hd)]

theorem of_ok {a : ρ} (h : Follows rel x y) (hx : x = .ok a) : ∃ b, y = .ok b ∧ rel a b := by
  cases h with
  | ok h =>
    obtain rfl := Except.ok.inj hx
    exact ⟨_, rfl, h⟩
  | fails e => cases hx
  | lacks y => cases hx

theorem of_error {e : Trap} (h : Follows rel x y) (hx : x = .error e) (he : e ≠ .stackUnderflow) :
    y = .error e := by
  cases h with
  | ok h => cases hx
  | fails e' => exact congrArg _ (Except.error.inj hx)
  | lacks y => exact absurd (Except.error.inj hx).symm he

/-- Computations that follow each other give related results or fail alike. -/
theorem both {rel' : ρ' → ρ → Prop} (h : Follows rel x y) (h' : Follows rel' y x) :
    (∃ a b, x = .ok a ∧ y = .ok b ∧ rel a b) ∨ ∃ e, x = .error e ∧ y = .error e := by
  cases h with
  | @ok a b h => exact .inl ⟨a, b, rfl, rfl, h⟩
  | fails e => exact .inr ⟨e, rfl, rfl⟩
  | lacks y =>
    cases h' with
    | fails => exact .inr ⟨_, rfl, rfl⟩
    | lacks => exact .inr ⟨_, rfl, rfl⟩

end Follows

/-! ### Entries that the machine does not tell apart -/

/-- No operation of the machine tells related entries apart: it gives related results on them, or
fails alike. -/
structure Value.Congruence (R : Value → Value → Prop) : Prop where
  int (k : Int) : R (.int k) (.int k)
  null : R .null .null
  newc : R (.builder {}) (.builder {})
  tuple {vs ws : List Value} : List.Forall₂ R vs ws → R (.tuple vs) (.tuple ws)
  toInt {v w : Value} : R v w → Follows Eq v.toInt w.toInt
  toCell {v w : Value} : R v w → Follows (fun c d => R (.cell c) (.cell d)) v.toCell w.toCell
  toSlice {v w : Value} : R v w → Follows (fun x y => R (.slice x) (.slice y)) v.toSlice w.toSlice
  toBuilder {v w : Value} :
    R v w → Follows (fun b b' => R (.builder b) (.builder b')) v.toBuilder w.toBuilder
  toTuple {v w : Value} : R v w → Follows (List.Forall₂ R) v.toTuple w.toTuple
  endc {b b' : Builder} : R (.builder b) (.builder b') → R (.cell b.toCell) (.cell b'.toCell)
  ctos {c d : Cell} : R (.cell c) (.cell d) → R (.slice (.ofCell c)) (.slice (.ofCell d))
  counts {x y : Slice} :
    R (.slice x) (.slice y) → x.bitCount = y.bitCount ∧ x.refCount = y.refCount
  writeBits {b b' : Builder} (bs : Bits) : R (.builder b) (.builder b') →
    Follows (fun b b' => R (.builder b) (.builder b')) (b.writeBits bs) (b'.writeBits bs)
  writeRef {b b' : Builder} {c d : Cell} : R (.builder b) (.builder b') → R (.cell c) (.cell d) →
    Follows (fun b b' => R (.builder b) (.builder b')) (b.writeRef c) (b'.writeRef d)
  writeSlice {b b' : Builder} {x y : Slice} :
    R (.builder b) (.builder b') → R (.slice x) (.slice y) →
      Follows (fun b b' => R (.builder b) (.builder b')) (b.writeSlice x) (b'.writeSlice y)
  store (t : Ty) {b b' : Builder} {v w : Value} : R (.builder b) (.builder b') → R v w →
    Follows (fun b b' => R (.builder b) (.builder b')) (t.store v b) (t.store w b')
  readRef {x y : Slice} : R (.slice x) (.slice y) →
    Follows (Both (fun c d => R (.cell c) (.cell d)) fun x y => R (.slice x) (.slice y))
      x.readRef y.readRef
  peekRef {x y : Slice} (i : Nat) : R (.slice x) (.slice y) →
    Follows (fun c d => R (.cell c) (.cell d)) (x.peekRef i) (y.peekRef i)
  split {x y : Slice} (n m : Nat) : R (.slice x) (.slice y) →
    Follows (Both (fun x y => R (.slice x) (.slice y)) fun x y => R (.slice x) (.slice y))
      (x.split n m) (y.split n m)
  keepBack {x y : Slice} (n m : Nat) : R (.slice x) (.slice y) →
    Follows (fun x y => R (.slice x) (.slice y)) (x.keepBack n m) (y.keepBack n m)
  load (t : Ty) {x y : Slice} : R (.slice x) (.slice y) →
    Follows (Both R fun x y => R (.slice x) (.slice y)) (t.load x) (t.load y)

section Congruence

variable {R : Value → Value → Prop} (hR : Value.Congruence R)

include hR

theorem Value.Congruence.writeNat (width : Nat) (v : Int) {b b' : Builder}
    (hb : R (.builder b) (.builder b')) :
    Follows (fun b b' => R (.builder b) (.builder b')) (b.writeNat width v) (b'.writeNat width v) :=
  .ite Iff.rfl (.fails _) (hR.writeBits _ hb)

theorem Value.Congruence.dropFront (n m : Nat) {x y : Slice} (hx : R (.slice x) (.slice y)) :
    Follows (fun x y => R (.slice x) (.slice y)) (x.dropFront n m) (y.dropFront n m) :=
  (hR.split n m hx).bind_both fun _ _ _ _ _ hr => .ok hr

end Congruence

/-- Equal entries are not told apart. -/
theorem Value.congruence_eq : Value.Congruence Eq where
  int _ := rfl
  null := rfl
  newc := rfl
  tuple h := congrArg _ (List.forall₂_eq_eq_eq ▸ h)
  toInt h := h ▸ .refl fun _ _ => by rfl
  toCell h := h ▸ .refl fun _ _ => by rfl
  toSlice h := h ▸ .refl fun _ _ => by rfl
  toBuilder h := h ▸ .refl fun _ _ => by rfl
  toTuple h := h ▸ .refl fun _ _ => List.forall₂_eq_eq_eq ▸ rfl
  endc h := by cases h; rfl
  ctos h := by cases h; rfl
  counts h := by cases h; exact ⟨rfl, rfl⟩
  writeBits _ h := by cases h; exact .refl fun _ _ => by rfl
  writeRef h h' := by cases h; cases h'; exact .refl fun _ _ => by rfl
  writeSlice h h' := by cases h; cases h'; exact .refl fun _ _ => by rfl
  store _ _ _ _ _ h h' := by cases h; cases h'; exact .refl fun _ _ => by rfl
  readRef h := by cases h; exact .refl fun _ _ => ⟨rfl, rfl⟩
  peekRef _ h := by cases h; exact .refl fun _ _ => by rfl
  split _ _ h := by cases h; exact .refl fun _ _ => ⟨rfl, rfl⟩
  keepBack _ _ h := by cases h; exact .refl fun _ _ => by rfl
  load _ _ _ h := by cases h; exact .refl fun _ _ => ⟨rfl, rfl⟩

/-! ### Related stacks -/

namespace Stack

/-- The stack `t` has entries related to those of `s`, and below them `e`. -/
def Over (R : Value → Value → Prop) (e s t : Stack) : Prop := ∃ u, List.Forall₂ R s u ∧ t = u ++ e

section Over

variable {R : Value → Value → Prop} {e s t : Stack} {xs ys : List Value} {v w : Value} {n : Nat}

theorem Over.cons (hv : R v w) (h : Over R e s t) : Over R e (v :: s) (w :: t) := by
  obtain ⟨u, hu, rfl⟩ := h
  exact ⟨w :: u, .cons hv hu, rfl⟩

theorem Over.append (hx : List.Forall₂ R xs ys) (h : Over R e s t) :
    Over R e (xs ++ s) (ys ++ t) := by
  obtain ⟨u, hu, rfl⟩ := h
  exact ⟨ys ++ u, List.rel_append hx hu, (List.append_assoc ..).symm⟩

theorem Over.drop (h : Over R e s t) (hn : n ≤ s.length) : Over R e (s.drop n) (t.drop n) := by
  obtain ⟨u, hu, rfl⟩ := h
  exact ⟨u.drop n, List.forall₂_drop n hu, List.drop_append_of_le_length (hu.length_eq ▸ hn)⟩

theorem Over.take (h : Over R e s t) (hn : n ≤ s.length) :
    List.Forall₂ R (s.take n) (t.take n) := by
  obtain ⟨u, hu, rfl⟩ := h
  rw [List.take_append_of_le_length (hu.length_eq ▸ hn)]
  exact List.forall₂_take n hu

theorem Over.length_le (h : Over R e s t) : s.length ≤ t.length := by
  obtain ⟨u, hu, rfl⟩ := h
  rw [hu.length_eq, List.length_append]
  exact Nat.le_add_right _ _

/-- Entries that stand alone. -/
theorem Over.of_forall₂ (h : List.Forall₂ R s t) : Over R [] s t :=
  ⟨t, h, (List.append_nil t).symm⟩

/-- The same entries, and more below. -/
theorem Over.append_right (s e : Stack) : Over Eq e s (s ++ e) :=
  ⟨s, List.forall₂_eq_eq_eq ▸ rfl, rfl⟩

theorem Over.getElem? (h : Over R e s t) (hv : s[n]? = some v) : ∃ w, t[n]? = some w ∧ R v w := by
  obtain ⟨u, hu, rfl⟩ := h
  obtain ⟨hn, rfl⟩ := List.getElem?_eq_some_iff.1 hv
  have hn' : n < u.length := hu.length_eq ▸ hn
  refine ⟨u[n], ?_, hu.get hn hn'⟩
  rw [List.getElem?_append_left hn', List.getElem?_eq_getElem hn']

theorem Over.set (h : Over R e s t) (hn : n < s.length) (hv : R v w) :
    Over R e (s.set n v) (t.set n w) := by
  rw [List.set_eq_take_append_cons_drop, List.set_eq_take_append_cons_drop, if_pos hn,
    if_pos (Nat.lt_of_lt_of_le hn h.length_le)]
  exact (h.drop hn).cons hv |>.append (h.take (Nat.le_of_lt hn))

variable (hR : Value.Congruence R) (h : Over R e s t)

include h

theorem pop_follows : Follows (Both R (Over R e)) s.pop t.pop := by
  obtain ⟨u, hu, rfl⟩ := h
  cases hu with
  | nil => exact .lacks _
  | cons hv hu => exact .ok ⟨hv, _, hu, rfl⟩

theorem need_follows (n : Nat) : Follows (fun _ _ => n ≤ s.length) (s.need n) (t.need n) := by
  by_cases hn : s.length < n
  · rw [need, if_pos hn]
    exact .lacks _
  · rw [need, need, if_neg hn, if_neg (by have := h.length_le; omega)]
    exact .ok (Nat.not_lt.1 hn)

include hR

theorem popInt_follows : Follows (Both Eq (Over R e)) s.popInt t.popInt :=
  (pop_follows h).bind_both fun _ _ _ _ hv h => (hR.toInt hv).bind fun _ _ hk => .ok ⟨hk, h⟩

theorem popBool_follows : Follows (Both Eq (Over R e)) s.popBool t.popBool :=
  (pop_follows h).bind_both fun _ _ _ _ hv h =>
    ((hR.toInt hv).bind fun _ _ hk => .ok (congrArg (· != 0) hk)).bind fun _ _ hb => .ok ⟨hb, h⟩

theorem popSlice_follows :
    Follows (Both (fun x y => R (.slice x) (.slice y)) (Over R e)) s.popSlice t.popSlice :=
  (pop_follows h).bind_both fun _ _ _ _ hv h => (hR.toSlice hv).bind fun _ _ hx => .ok ⟨hx, h⟩

theorem popBuilder_follows :
    Follows (Both (fun b b' => R (.builder b) (.builder b')) (Over R e))
      s.popBuilder t.popBuilder :=
  (pop_follows h).bind_both fun _ _ _ _ hv h => (hR.toBuilder hv).bind fun _ _ hb => .ok ⟨hb, h⟩

theorem popCount_follows : Follows (Both Eq (Over R e)) s.popCount t.popCount :=
  (popInt_follows hR h).bind_same fun _ _ _ h => .ite Iff.rfl (.ok ⟨rfl, h⟩) (.fails _)

theorem popCut_follows :
    Follows (Both (Both (fun x y => R (.slice x) (.slice y)) Eq) (Over R e))
      s.popCut t.popCut :=
  (popCount_follows hR h).bind_same fun _ _ _ h => (popCount_follows hR h).bind_same fun _ _ _ h =>
    (popSlice_follows hR h).bind_both fun _ _ _ _ hx h => .ok ⟨⟨hx, rfl⟩, h⟩

/-- After a slice and the same cut on both sides are taken. -/
theorem popCut_bind {rel : Stack → Stack → Prop}
    {f : (Slice × Nat × Nat) × Stack → Except Trap Stack}
    (hf : ∀ x y n m s t, R (.slice x) (.slice y) → Over R e s t →
      Follows rel (f ((x, n, m), s)) (f ((y, n, m), t))) :
    Follows rel (s.popCut >>= f) (t.popCut >>= f) := by
  refine (popCut_follows hR h).bind_both fun p q s t hpq h => ?_
  obtain ⟨x, n, m⟩ := p
  obtain ⟨y, n', m'⟩ := q
  obtain ⟨hx, hnm⟩ := hpq
  obtain ⟨rfl, rfl⟩ := Prod.mk.inj hnm
  exact hf x y n m s t hx h

end Over

end Stack

/-! ### Instructions -/

namespace Op

open Stack

variable {R : Value → Value → Prop} {e s t : Stack}

/-- **An instruction does not tell related stacks apart,** nor does it look at what is below the
entries that it takes. -/
theorem run_follows (hR : Value.Congruence R) (o : Op) (h : Over R e s t) :
    Follows (Over R e) (o.run s) (o.run t) := by
  cases o with
  | push i =>
    rcases hv : s[i]? with _ | v
    · simp only [run, hv]
      exact .lacks _
    · obtain ⟨w, hw, hr⟩ := h.getElem? hv
      simp only [run, hv, hw]
      exact .ok (h.cons hr)
  | pop i =>
    refine (need_follows h _).bind fun _ _ hn => ?_
    obtain ⟨u, hu, rfl⟩ := h
    cases hu with
    | nil => exact absurd hn (Nat.not_succ_le_zero i)
    | @cons v w s u hv hu =>
      have h : Over R e s (u ++ e) := ⟨u, hu, rfl⟩
      rcases i with _ | i
      · exact .ok h
      · exact .ok (h.set (Nat.le_of_succ_le_succ hn) hv)
  | xchg i =>
    rcases hv : s[0]? with _ | v
    · simp only [run, hv]
      exact .lacks _
    rcases hv' : s[i]? with _ | v'
    · simp only [run, hv, hv']
      exact .lacks _
    obtain ⟨w, hw, hr⟩ := h.getElem? hv
    obtain ⟨w', hw', hr'⟩ := h.getElem? hv'
    obtain ⟨h0, -⟩ := List.getElem?_eq_some_iff.1 hv
    obtain ⟨hi, -⟩ := List.getElem?_eq_some_iff.1 hv'
    simp only [run, hv, hv', hw, hw']
    exact .ok ((h.set h0 hr').set (by rwa [List.length_set]) hr)
  | blkSwap i j =>
    refine (need_follows h _).bind fun _ _ hn => .ok ?_
    have hi : i ≤ (s.drop j).length := by rw [List.length_drop]; omega
    have hj : j ≤ s.length := Nat.le_trans (Nat.le_add_left j i) hn
    exact (h.drop hn).append (List.rel_append ((h.drop hj).take hi) (h.take hj))
  | reverse n j =>
    refine (need_follows h _).bind fun _ _ hn => .ok ?_
    have hj : j ≤ s.length := Nat.le_trans (Nat.le_add_left j n) hn
    have hn' : n ≤ (s.drop j).length := by rw [List.length_drop]; omega
    exact (h.drop hn).append (List.rel_append (h.take hj) (List.rel_reverse ((h.drop hj).take hn')))
  | blkDrop n m =>
    refine (need_follows h _).bind fun _ _ hn => .ok ?_
    exact (h.drop hn).append (h.take (Nat.le_trans (Nat.le_add_left m n) hn))
  | drop => exact (pop_follows h).bind_both fun _ _ _ _ _ h => .ok h
  | pushInt v => exact .ok (h.cons (hR.int v))
  | pushNull => exact .ok (h.cons hR.null)
  | tuple n =>
    refine (need_follows h n).bind fun _ _ hn => .ok ?_
    exact (h.drop hn).cons (hR.tuple (List.rel_reverse (h.take hn)))
  | untuple n =>
    refine (pop_follows h).bind_both fun _ _ _ _ hv h => (hR.toTuple hv).bind fun _ _ hx => ?_
    exact .ite (by rw [hx.length_eq]) (.ok (h.append (List.rel_reverse hx))) (.fails _)
  | geq =>
    exact (popInt_follows hR h).bind_same fun _ _ _ h =>
      (popInt_follows hR h).bind_same fun _ _ _ h => .ok (h.cons (hR.int _))
  | equal =>
    exact (popInt_follows hR h).bind_same fun _ _ _ h =>
      (popInt_follows hR h).bind_same fun _ _ _ h => .ok (h.cons (hR.int _))
  | and =>
    exact (popInt_follows hR h).bind_same fun _ _ _ h =>
      (popInt_follows hR h).bind_same fun _ _ _ h => .ok (h.cons (hR.int _))
  | dec => exact (popInt_follows hR h).bind_same fun _ _ _ h => .ok (h.cons (hR.int _))
  | throwIf code =>
    exact (popBool_follows hR h).bind_same fun _ _ _ h => .ite Iff.rfl (.fails _) (.ok h)
  | newc => exact .ok (h.cons hR.newc)
  | endc =>
    exact (popBuilder_follows hR h).bind_both fun _ _ _ _ hb h => .ok (h.cons (hR.endc hb))
  | ctos =>
    exact (pop_follows h).bind_both fun _ _ _ _ hv h => (hR.toCell hv).bind fun _ _ hc =>
      .ok (h.cons (hR.ctos hc))
  | ends =>
    refine (popSlice_follows hR h).bind_both fun x y _ _ hx h => ?_
    obtain ⟨hb, hr⟩ := hR.counts hx
    exact .ite (by rw [Slice.isEmpty, Slice.isEmpty, hb, hr]) (.ok h) (.fails _)
  | stBuilderRef =>
    exact (popBuilder_follows hR h).bind_both fun _ _ _ _ hc h =>
      (popBuilder_follows hR h).bind_both fun _ _ _ _ hb h =>
        (hR.writeRef hb (hR.endc hc)).bind fun _ _ hb => .ok (h.cons hb)
  | stSlice =>
    exact (popBuilder_follows hR h).bind_both fun _ _ _ _ hb h =>
      (popSlice_follows hR h).bind_both fun _ _ _ _ hx h =>
        (hR.writeSlice hb hx).bind fun _ _ hb => .ok (h.cons hb)
  | stConst word =>
    exact (popBuilder_follows hR h).bind_both fun _ _ _ _ hb h =>
      (hR.writeNat _ _ hb).bind fun _ _ hb => .ok (h.cons hb)
  | stBit bit =>
    exact (popBuilder_follows hR h).bind_both fun _ _ _ _ hb h =>
      (hR.writeBits [bit] hb).bind fun _ _ hb => .ok (h.cons hb)
  | stNat width =>
    exact (popInt_follows hR h).bind_same fun _ _ _ h =>
      (popBuilder_follows hR h).bind_both fun _ _ _ _ hb h =>
        (hR.writeNat _ _ hb).bind fun _ _ hb => .ok (h.cons hb)
  | ldRef =>
    exact (popSlice_follows hR h).bind_both fun _ _ _ _ hx h =>
      (hR.readRef hx).bind_both fun _ _ _ _ hc hx => .ok ((h.cons hc).cons hx)
  | ldRefRest =>
    exact (popSlice_follows hR h).bind_both fun _ _ _ _ hx h =>
      (hR.readRef hx).bind_both fun _ _ _ _ hc hx => .ok ((h.cons hx).cons (hR.ctos hc))
  | split =>
    exact popCut_bind hR h fun _ _ n m _ _ hx h =>
      (hR.split n m hx).bind_both fun _ _ _ _ hf hr => .ok ((h.cons hf).cons hr)
  | skipFirst =>
    exact popCut_bind hR h fun _ _ n m _ _ hx h =>
      (hR.dropFront n m hx).bind fun _ _ hr => .ok (h.cons hr)
  | cutLast =>
    exact popCut_bind hR h fun _ _ n m _ _ hx h =>
      (hR.keepBack n m hx).bind fun _ _ hr => .ok (h.cons hr)
  | bitRefs =>
    refine (popSlice_follows hR h).bind_both fun x y _ _ hx h => .ok ?_
    obtain ⟨hb, hr⟩ := hR.counts hx
    rw [hb, hr]
    exact (h.cons (hR.int _)).cons (hR.int _)
  | peekRef i =>
    exact (popSlice_follows hR h).bind_both fun _ _ _ _ hx h =>
      (hR.peekRef i hx).bind fun _ _ hc => .ok (h.cons hc)
  | store ty =>
    exact (popBuilder_follows hR h).bind_both fun _ _ _ _ hb h =>
      (pop_follows h).bind_both fun _ _ _ _ hv h =>
        (hR.store ty hb hv).bind fun _ _ hb => .ok (h.cons hb)
  | load ty =>
    exact (popSlice_follows hR h).bind_both fun _ _ _ _ hx h =>
      (hR.load ty hx).bind_both fun _ _ _ _ hv hx => .ok ((h.cons hv).cons hx)
  | loadQuiet ty =>
    refine (popSlice_follows hR h).bind_both fun x y s t hx h => ?_
    have hl := hR.load ty hx
    dsimp only
    generalize ty.load x = l, ty.load y = l' at hl
    cases hl with
    | ok hl => exact .ok (((h.cons hl.1).cons hl.2).cons (hR.int _))
    | fails trap =>
      cases trap with
      | cellUnderflow | rangeCheck => exact .ok ((h.cons hx).cons (hR.int 0))
      | _ => exact .fails _
    | lacks y => exact .lacks _

end Op

namespace Instr

open Stack

variable {R : Value → Value → Prop}

mutual

/-- **A program does the same on related stacks.** The entries below those that it needs are
neither looked at nor changed; inside a call there are none. -/
theorem run_follows (hR : Value.Congruence R) : ∀ (i : Instr) {e s t : Stack}, Over R e s t →
    Follows (Both Eq (Over R e)) (i.run s) (i.run t)
  | .op o, _, _, _, h => (o.run_follows hR h).bind fun _ _ h => .ok ⟨rfl, h⟩
  | .ifElse a b, _, _, _, h =>
    (popBool_follows hR h).bind_same fun _ _ _ h => .ite Iff.rfl
      ((runAll_follows hR a h).bind_both fun _ _ _ _ _ h => .ok ⟨rfl, h⟩)
      ((runAll_follows hR b h).bind_both fun _ _ _ _ _ h => .ok ⟨rfl, h⟩)
  | .call body args rets, _, _, _, h => by
    refine (need_follows h args).bind fun _ _ hargs => ?_
    have hbody := runAll_follows hR body (.of_forall₂ (h.take hargs))
    refine hbody.bind_both fun _ _ _ _ _ h' => ?_
    refine (need_follows h' rets).bind fun _ _ hrets => .ok ⟨rfl, ?_⟩
    exact (h.drop hargs).append (h'.take hrets)
  | .jumpIf body, _, _, _, h =>
    (popBool_follows hR h).bind_same fun _ _ _ h => .ite Iff.rfl
      ((runAll_follows hR body h).bind_both fun _ _ _ _ _ h => .ok ⟨rfl, h⟩) (.ok ⟨rfl, h⟩)
  | .jumpUnless body, _, _, _, h =>
    (popBool_follows hR h).bind_same fun _ _ _ h => .ite Iff.rfl (.ok ⟨rfl, h⟩)
      ((runAll_follows hR body h).bind_both fun _ _ _ _ _ h => .ok ⟨rfl, h⟩)

theorem runAll_follows (hR : Value.Congruence R) : ∀ (code : List Instr) {e s t : Stack},
    Over R e s t → Follows (Both Eq (Over R e)) (runAll code s) (runAll code t)
  | [], _, _, _, h => .ok ⟨rfl, h⟩
  | i :: is, _, _, _, h =>
    (run_follows hR i h).bind_same fun
      | .next, _, _, h => runAll_follows hR is h
      | .exit, _, _, h => .ok ⟨rfl, h⟩

end

theorem exec_follows (hR : Value.Congruence R) (code : List Instr) {e s t : Stack}
    (h : Over R e s t) : Follows (Over R e) (exec code s) (exec code t) :=
  (runAll_follows hR code h).bind_both fun _ _ _ _ _ h => .ok h

variable {f : Flow} {s s' : Stack}

/-- More entries below stay as they are. -/
theorem runAll_stack_append (h : runAll code s = .ok (f, s')) (e : Stack) :
    runAll code (s ++ e) = .ok (f, s' ++ e) := by
  obtain ⟨⟨f', t⟩, ht, rfl, u, hu, rfl⟩ :=
    (runAll_follows Value.congruence_eq code (.append_right s e)).of_ok h
  have hs : s' = u := List.forall₂_eq_eq_eq ▸ hu
  rw [ht, hs]

/-- **Runs are local to the top of the stack.** When a program ends on a stack, it ends in the same
way on one with more entries below, which it leaves as they are; when it traps, and not for want of
entries, it traps with the same trap there. -/
theorem exec_stack_append (code : List Instr) (s e : Stack) :
    (∀ s', exec code s = .ok s' → exec code (s ++ e) = .ok (s' ++ e)) ∧
    (∀ trap, exec code s = .error trap → trap ≠ .stackUnderflow →
      exec code (s ++ e) = .error trap) ∧
    ∀ f s', runAll code s = .ok (f, s') → runAll code (s ++ e) = .ok (f, s' ++ e) := by
  refine ⟨fun s' h => ?_, fun trap h ht => ?_, fun f s' h => runAll_stack_append h e⟩
  · obtain ⟨⟨f, t⟩, hr, ht⟩ := bind_eq_ok.1 h
    obtain rfl := Except.ok.inj ht
    rw [exec, runAll_stack_append hr]
    rfl
  · exact (exec_follows Value.congruence_eq code (.append_right s e)).of_error h ht

/-- Counts down in a call, which a jump leaves when the number is not zero, and raises an exception
unless the call returns zero. -/
def countDown : List Instr :=
  [.call [.op (.push 0), .jumpIf [.op .dec], .op (.pushInt 9)] 1 1, .op (.throwIf 60)]

/-- On `1` the program ends, on `2` and `0` it raises its exception, whatever is below. -/
theorem exec_stack_append_countDown :
    exec countDown ([.int 1, .null] ++ [.int 60]) = .ok ([.null] ++ [.int 60]) ∧
    exec countDown ([.int 2, .null] ++ [.int 60]) = .error (.exception 60) ∧
    exec countDown ([.int 0, .null] ++ [.int 60]) = .error (.exception 60) :=
  ⟨(exec_stack_append countDown [.int 1, .null] [.int 60]).1 _ rfl,
    (exec_stack_append countDown [.int 2, .null] [.int 60]).2.1 _ rfl nofun,
    (exec_stack_append countDown [.int 0, .null] [.int 60]).2.1 _ rfl nofun⟩

end Instr

end TypedCells
