import TypedCells.Proofs.Locality
import TypedCells.Proofs.Machine

/-!
# Instructions that have their entries

An instruction on a stack with as many entries as its `Op.effect` takes may trap for many reasons,
but not for want of entries (`Op.run_supplied`): the entries may be of the wrong kind, the integers
out of range, the cells too full or too empty. A computation that does not fail in this one way is
`Supplied`.
-/

namespace TypedCells

/-- The computation does not fail for want of stack entries. -/
def Supplied {ρ : Type} (x : Except Trap ρ) : Prop := x ≠ .error .stackUnderflow

namespace Supplied

variable {ρ ρ' : Type} {x y : Except Trap ρ} {f : ρ → Except Trap ρ'}

theorem ok (a : ρ) : Supplied (.ok a) := nofun

theorem error {e : Trap} (h : e ≠ .stackUnderflow) : Supplied (.error e : Except Trap ρ) :=
  fun h' => h (Except.error.inj h')

theorem bind (hx : Supplied x) (hf : ∀ a, Supplied (f a)) : Supplied (x >>= f) := by
  rcases x with e | a
  · exact error fun h => hx (congrArg _ h)
  · exact hf a

theorem ite {c : Prop} [Decidable c] (hx : Supplied x) (hy : Supplied y) :
    Supplied (if c then x else y) := by
  split
  · exact hx
  · exact hy

end Supplied

/-- The computation gives a result that satisfies `post`, or it fails, but not for want of stack
entries. -/
structure Gives {ρ : Type} (x : Except Trap ρ) (post : ρ → Prop) : Prop where
  supplied : Supplied x
  result : ∀ ⦃a⦄, x = .ok a → post a

namespace Gives

variable {ρ ρ' : Type} {x : Except Trap ρ} {f : ρ → Except Trap ρ'} {mid : ρ → Prop}
  {post : ρ' → Prop}

theorem ok {a : ρ} (h : mid a) : Gives (.ok a) mid :=
  ⟨.ok a, fun _ ha => Except.ok.inj ha ▸ h⟩

theorem bind (hx : Gives x mid) (hf : ∀ a, mid a → Gives (f a) post) : Gives (x >>= f) post := by
  rcases x with e | a
  · exact ⟨.error fun he => hx.supplied (congrArg _ he), nofun⟩
  · exact hf a (hx.result rfl)

end Gives

theorem Underflows.supplied {ρ : Type} {x : Except Trap ρ} (h : Underflows x) : Supplied x :=
  fun hx => nomatch h hx

/-! ### Entries of one kind -/

namespace Value

variable (v : Value)

theorem toInt_supplied : Supplied v.toInt := by
  cases v <;> first | exact .ok _ | exact .error nofun

theorem toBool_supplied : Supplied v.toBool := (toInt_supplied v).bind fun _ => .ok _

theorem toCell_supplied : Supplied v.toCell := by
  cases v <;> first | exact .ok _ | exact .error nofun

theorem toSlice_supplied : Supplied v.toSlice := by
  cases v <;> first | exact .ok _ | exact .error nofun

theorem toBuilder_supplied : Supplied v.toBuilder := by
  cases v <;> first | exact .ok _ | exact .error nofun

theorem toTuple_supplied : Supplied v.toTuple := by
  cases v <;> first | exact .ok _ | exact .error nofun

theorem unwrapSingleton_supplied : Supplied v.unwrapSingleton := by
  refine (toTuple_supplied v).bind fun vs => ?_
  match vs with
  | [_] => exact .ok _
  | [] | _ :: _ :: _ => exact .error nofun

end Value

/-! ### Writing -/

namespace Builder

variable (b : Builder)

theorem writeBits_supplied (bs : Bits) : Supplied (b.writeBits bs) :=
  .ite (.error nofun) (.ok _)

theorem writeNat_supplied (width : Nat) (v : Int) : Supplied (b.writeNat width v) :=
  .ite (.error nofun) (writeBits_supplied b _)

theorem writeInt_supplied (width : Nat) (v : Int) : Supplied (b.writeInt width v) :=
  .ite (.error nofun) (writeBits_supplied b _)

theorem writeRef_supplied (c : Cell) : Supplied (b.writeRef c) :=
  .ite (.error nofun) (.ok _)

theorem writeSlice_supplied (s : Slice) : Supplied (b.writeSlice s) :=
  .ite (.error nofun) ((writeBits_supplied b _).bind fun _ => .ok _)

theorem writeDict_supplied (v : Value) : Supplied (b.writeDict v) := by
  cases v with
  | null => exact writeBits_supplied b _
  | cell root => exact (writeBits_supplied b _).bind fun b => writeRef_supplied b root
  | _ => exact .error nofun

theorem writeIntegral_supplied (width : Nat) (signed : Bool) (v : Value) :
    Supplied (b.writeIntegral width signed v) :=
  (Value.toInt_supplied v).bind fun _ =>
    .ite (writeInt_supplied b width _) (writeNat_supplied b width _)

theorem writeVarInt_supplied (bytes : Nat) (signed : Bool) (v : Int) :
    Supplied (b.writeVarInt bytes signed v) :=
  .ite (.error nofun) <| (writeNat_supplied b _ _).bind fun b =>
    .ite (.ok _) (.ite (writeInt_supplied b _ _) (writeNat_supplied b _ _))

end Builder

namespace Ty

mutual

theorem store_supplied : ∀ (t : Ty) (v : Value) (b : Builder), Supplied (t.store v b)
  | .integer bits signed, v, b => Builder.writeIntegral_supplied b bits signed v
  | .bool, v, b => Builder.writeIntegral_supplied b 1 true v
  | .fixedBytes n, v, b => Builder.writeIntegral_supplied b (n * 8) false v
  | .function, v, b => Builder.writeIntegral_supplied b 32 false v
  | .enumeration _ n, v, b => Builder.writeIntegral_supplied b (enumBits n) false v
  | .address, v, b => (Value.toSlice_supplied v).bind fun s => Builder.writeSlice_supplied b s
  | .addressStd, v, b => (Value.toSlice_supplied v).bind fun s =>
      .ite (Builder.writeSlice_supplied b s) (.error nofun)
  | .cell, v, b => (Value.toCell_supplied v).bind fun c => Builder.writeRef_supplied b c
  | .bytes, v, b => (Value.toCell_supplied v).bind fun c => Builder.writeRef_supplied b c
  | .string, v, b => (Value.toCell_supplied v).bind fun c => Builder.writeRef_supplied b c
  | .mapping _ _, v, b => Builder.writeDict_supplied b v
  | .array _ _, v, b => by
    refine (Value.toTuple_supplied v).bind fun vs => ?_
    match vs with
    | [length, dict] =>
      exact (Value.toInt_supplied length).bind fun n => (Builder.writeNat_supplied b 32 n).bind
        fun b => Builder.writeDict_supplied b dict
    | [] | [_] | _ :: _ :: _ :: _ => exact .error nofun
  | .varInteger n signed, v, b => (Value.toInt_supplied v).bind fun k =>
      Builder.writeVarInt_supplied b n signed k
  | .optional t, v, b => by
    have h (w : Value) : Supplied (do
        let b ← b.writeBit true
        if t.wordSize.StaysInline then t.store w b else b.writeRef (← t.store w {}).toCell) :=
      (Builder.writeBits_supplied b _).bind fun b => .ite (store_supplied t w b) <|
        (store_supplied t w {}).bind fun c => Builder.writeRef_supplied b c.toCell
    cases v with
    | null => exact Builder.writeBits_supplied b _
    | _ =>
      simp only [store]
      split
      · exact (Value.unwrapSingleton_supplied _).bind h
      · exact h _
  | .struct _ fs, v, b => (Value.toTuple_supplied v).bind fun vs =>
      .ite (storeFields_supplied fs vs b) (.error nofun)
  | .tuple ts, v, b => (Value.toTuple_supplied v).bind fun vs =>
      .ite (storeAll_supplied ts vs b) (.error nofun)
  | .alias _ t, v, b => store_supplied t v b

theorem storeAll_supplied : ∀ (ts : List Ty) (vs : List Value) (b : Builder),
    Supplied (storeAll ts vs b)
  | t :: ts, v :: vs, b => (store_supplied t v b).bind fun b => storeAll_supplied ts vs b
  | [], _, _ => .ok _
  | _ :: _, [], _ => .ok _

theorem storeFields_supplied : ∀ (fs : List (Field Ty)) (vs : List Value) (b : Builder),
    Supplied (storeFields fs vs b)
  | ⟨_, t⟩ :: fs, v :: vs, b => (store_supplied t v b).bind fun b => storeFields_supplied fs vs b
  | [], _, _ => .ok _
  | _ :: _, [], _ => .ok _

end

end Ty

/-! ### Reading and cutting -/

namespace Slice

theorem peekRef_underflows (i : Nat) (s : Slice) : Underflows (s.peekRef i) := by
  unfold peekRef
  split
  · exact .ok _
  · exact .error

theorem split_underflows (bits refs : Nat) (s : Slice) : Underflows (s.split bits refs) := by
  unfold split
  split
  · exact .error
  · exact .ok _

theorem keepBack_underflows (bits refs : Nat) (s : Slice) : Underflows (s.keepBack bits refs) := by
  unfold keepBack
  split
  · exact .error
  · exact .ok _

end Slice

/-! ### Taking entries off the stack -/

namespace Stack

/-- The computation takes `n` entries off a stack that has them. -/
def Takes {α : Type} (n : Nat) (p : Stack → Except Trap (α × Stack)) : Prop :=
  ∀ ⦃s : Stack⦄, n ≤ s.length → Gives (p s) fun r => r.2.length + n = s.length

section Takes

variable {α β : Type} {n m : Nat} {p : Stack → Except Trap (α × Stack)}

theorem Takes.bind {q : α → Stack → Except Trap (β × Stack)} (hp : Takes n p)
    (hq : ∀ a, Takes m (q a)) : Takes (n + m) (fun s => do
      let (a, s) ← p s
      q a s) := by
  intro s hs
  refine (hp (s := s) (by omega)).bind fun ⟨a, t⟩ ht => ?_
  have h := hq a (s := t) (by simp only at ht; omega)
  exact ⟨h.supplied, fun r hr => by have := h.result hr; simp only at ht; omega⟩

theorem Takes.pure (b : β) : Takes 0 (fun s => .ok (b, s)) := fun _ _ => .ok rfl

theorem Takes.ofExcept {x : Except Trap β} (hx : Supplied x) : Takes 0 (fun s => do
    return (← x, s)) := by
  rcases x with e | b
  · exact fun s _ => ⟨hx.bind fun _ => .ok _, nofun⟩
  · exact .pure b

/-- What is done with the entries taken. -/
theorem Takes.supplied_bind {s : Stack} {f : α × Stack → Except Trap β} (hp : Takes n p)
    (hs : n + m ≤ s.length) (hf : ∀ a s', m ≤ s'.length → Supplied (f (a, s'))) :
    Supplied (p s >>= f) := by
  have h := hp (s := s) (by omega)
  rcases hx : p s with e | ⟨a, s'⟩
  · exact .error fun he => h.supplied (hx.trans (congrArg _ he))
  · have := h.result hx
    exact hf a s' (by simp only at this; omega)

end Takes

theorem pop_takes : Takes 1 pop := by
  intro s hs
  rcases s with _ | ⟨v, s⟩
  · simp at hs
  · exact .ok rfl

theorem popInt_takes : Takes 1 popInt := pop_takes.bind fun v => .ofExcept v.toInt_supplied

theorem popBool_takes : Takes 1 popBool := pop_takes.bind fun v => .ofExcept v.toBool_supplied

theorem popSlice_takes : Takes 1 popSlice := pop_takes.bind fun v => .ofExcept v.toSlice_supplied

theorem popBuilder_takes : Takes 1 popBuilder :=
  pop_takes.bind fun v => .ofExcept v.toBuilder_supplied

theorem popCount_takes : Takes 1 popCount := by
  refine popInt_takes.bind (m := 0)
    (q := fun (v : Int) s =>
      if 0 ≤ v ∧ v < twoPow 64 then return (v.toNat, s) else throw .rangeCheck) fun v s _ => ?_
  split
  · exact .ok rfl
  · exact ⟨.error nofun, nofun⟩

theorem popCut_takes : Takes 3 popCut :=
  popCount_takes.bind fun refs => popCount_takes.bind fun bits => popSlice_takes.bind fun x =>
    .pure (x, bits, refs)

theorem need_supplied {s : Stack} {n : Nat} (h : n ≤ s.length) : Supplied (s.need n) := by
  have hn : s.need n = .ok () := need_eq_ok.2 h
  rw [hn]
  exact .ok _

end Stack

/-! ### Instructions -/

namespace Op

open Stack

/-- **An instruction that has the entries it takes does not trap for want of entries.** -/
theorem run_supplied {o : Op} {s : Stack} (h : o.effect.pops ≤ s.length) : Supplied (o.run s) := by
  cases o with
  | push i =>
    have hi : s[i]? = some s[i] := List.getElem?_eq_getElem h
    simp only [run, hi]
    exact .ok _
  | pop i =>
    refine (need_supplied h).bind fun _ => pop_takes.supplied_bind (m := 0) ?_ fun _ _ _ => .ok _
    exact Nat.le_trans (Nat.le_add_left 1 i) h
  | xchg i =>
    have hl : 0 < s.length := Nat.lt_of_lt_of_le i.succ_pos h
    have h0 : s[0]? = some s[0] := List.getElem?_eq_getElem hl
    have hi : s[i]? = some s[i] := List.getElem?_eq_getElem h
    simp only [run, h0, hi]
    exact .ok _
  | blkSwap i j | reverse n j | blkDrop n m | tuple n => exact (need_supplied h).bind fun _ => .ok _
  | drop => exact pop_takes.supplied_bind (m := 0) h fun _ _ _ => .ok _
  | pushInt v | pushNull | newc => exact .ok _
  | untuple n =>
    exact pop_takes.supplied_bind (m := 0) h fun v _ _ => v.toTuple_supplied.bind fun _ =>
      .ite (.ok _) (.error (by simp))
  | geq | equal | and =>
    exact popInt_takes.supplied_bind (m := 1) h fun _ _ h =>
      popInt_takes.supplied_bind (m := 0) h fun _ _ _ => .ok _
  | dec => exact popInt_takes.supplied_bind (m := 0) h fun _ _ _ => .ok _
  | throwIf code =>
    exact popBool_takes.supplied_bind (m := 0) h fun _ _ _ => .ite (.error (by simp)) (.ok _)
  | endc => exact popBuilder_takes.supplied_bind (m := 0) h fun _ _ _ => .ok _
  | ctos =>
    exact pop_takes.supplied_bind (m := 0) h fun v _ _ => v.toCell_supplied.bind fun _ => .ok _
  | ends =>
    exact popSlice_takes.supplied_bind (m := 0) h fun _ _ _ => .ite (.ok _) (.error (by simp))
  | stBuilderRef =>
    exact popBuilder_takes.supplied_bind (m := 1) h fun _ _ h =>
      popBuilder_takes.supplied_bind (m := 0) h fun b _ _ =>
        (b.writeRef_supplied _).bind fun _ => .ok _
  | stSlice =>
    exact popBuilder_takes.supplied_bind (m := 1) h fun b _ h =>
      popSlice_takes.supplied_bind (m := 0) h fun _ _ _ =>
        (b.writeSlice_supplied _).bind fun _ => .ok _
  | stConst word =>
    exact popBuilder_takes.supplied_bind (m := 0) h fun b _ _ =>
      (b.writeNat_supplied _ _).bind fun _ => .ok _
  | stBit bit =>
    exact popBuilder_takes.supplied_bind (m := 0) h fun b _ _ =>
      (b.writeBits_supplied _).bind fun _ => .ok _
  | stNat width =>
    exact popInt_takes.supplied_bind (m := 1) h fun _ _ h =>
      popBuilder_takes.supplied_bind (m := 0) h fun b _ _ =>
        (b.writeNat_supplied _ _).bind fun _ => .ok _
  | ldRef | ldRefRest =>
    exact popSlice_takes.supplied_bind (m := 0) h fun x _ _ =>
      x.readRef_underflows.supplied.bind fun _ => .ok _
  | split =>
    exact popCut_takes.supplied_bind (m := 0) h fun c _ _ =>
      (Slice.split_underflows c.2.1 c.2.2 c.1).supplied.bind fun _ => .ok _
  | skipFirst =>
    exact popCut_takes.supplied_bind (m := 0) h fun c _ _ =>
      ((Slice.split_underflows c.2.1 c.2.2 c.1).supplied.bind fun _ => .ok _).bind fun _ => .ok _
  | cutLast =>
    exact popCut_takes.supplied_bind (m := 0) h fun c _ _ =>
      (Slice.keepBack_underflows c.2.1 c.2.2 c.1).supplied.bind fun _ => .ok _
  | bitRefs => exact popSlice_takes.supplied_bind (m := 0) h fun _ _ _ => .ok _
  | peekRef i =>
    exact popSlice_takes.supplied_bind (m := 0) h fun x _ _ =>
      (x.peekRef_underflows i).supplied.bind fun _ => .ok _
  | store t =>
    exact popBuilder_takes.supplied_bind (m := 1) h fun b _ h =>
      pop_takes.supplied_bind (m := 0) h fun v _ _ => (t.store_supplied v b).bind fun _ => .ok _
  | load t =>
    exact popSlice_takes.supplied_bind (m := 0) h fun x _ _ =>
      (t.load_underflows x).supplied.bind fun _ => .ok _
  | loadQuiet t =>
    refine popSlice_takes.supplied_bind (m := 0) h fun x s _ => ?_
    rcases hx : t.load x with e | ⟨v, r⟩
    · obtain rfl := t.load_underflows x hx
      simp only [hx]
      exact .ok _
    · simp only [hx]
      exact .ok _

/-- What is left by an instruction that has the entries it takes. -/
theorem run_gives {o : Op} {s : Stack} (hq : o.isQuiet = false) (h : o.effect.pops ≤ s.length) :
    Gives (o.run s) fun s' => s'.length = s.length - o.effect.pops + o.effect.pushes where
  supplied := run_supplied h
  result s' hs' := by
    have := run_effect hq hs'
    omega

end Op

end TypedCells
