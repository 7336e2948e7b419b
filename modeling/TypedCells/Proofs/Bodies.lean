import TypedCells.Gen.Message
import TypedCells.Proofs.Writer

/-!
# What the code that appends a body does

The body of a message is the ids and then the arguments (`PackedLeaf.putBody`). The code writes it
to the message itself or to a cell of its own, to which the message gets a reference
(`Builder.putMessage`). Both times the leaves of the arguments are where the packing behind the ids
alone has them, since a packing that opens no cell is also one behind fewer bits.

* `Gen.appendBody_ends`: what the code does to the message.
* `Packing.putMessage_puts`: the content that it appends.
-/

namespace TypedCells

/-! ### Bodies -/

/-- Writes the ids in front of the arguments of a body. -/
def Builder.putIds (id : Nat) (answerId : Option UInt32) (b : Builder) : Except Trap Builder := do
  let b ← b.writeNat idBits id
  match answerId with
  | some word => b.writeNat idBits word.toNat
  | none => return b

/-- Writes a body. -/
def PackedLeaf.putBody (id : Nat) (answerId : Option UInt32) (ls : List PackedLeaf)
    (xs : List Value) (b : Builder) : Except Trap Builder := do
  putAll ls xs none (← b.putIds id answerId)

/-- Appends a body to a message, in place or in a cell of its own. A bit in front tells which. -/
def Builder.putMessage (inline : Bool) (body : Builder → Except Trap Builder) (b : Builder) :
    Except Trap Builder := do
  let b ← b.writeBit !inline
  if inline then body b else b.writeRef (← body {}).toCell

/-- The content of the ids. -/
def idsContent (id : Nat) : Option UInt32 → Cell
  | some word => .ofBits (.ofNat idBits id) ++ .ofBits (.ofNat idBits word.toNat)
  | none => .ofBits (.ofNat idBits id)

/-- The content of a message with a body, with the bit in front. -/
def messageContent (inline : Bool) (body : Cell) : Cell :=
  .ofBits [!inline] ++ if inline then body else .link body

theorem bits_idsContent (id : Nat) (answerId : Option UInt32) :
    (idsContent id answerId).bits.length = Headers.internalOffset answerId.isSome := by
  cases answerId <;> simp [idsContent, Headers.internalOffset, Bits.length_ofNat]

theorem refs_idsContent (id : Nat) (answerId : Option UInt32) :
    (idsContent id answerId).refs = [] := by
  cases answerId <;> rfl

theorem toNat_lt_twoPow (word : UInt32) : word.toNat < twoPow idBits := by
  rw [twoPow_eq]
  exact word.toNat_lt

namespace Builder

theorem hasRoom_empty {b : Builder} (hb : b.bits.length ≤ maxBits) (hr : b.refs = []) :
    b.HasRoom .empty :=
  ⟨hb, by rw [hr]; decide⟩

theorem putIds_puts {id : Nat} (h : id < twoPow idBits) (answerId : Option UInt32) :
    Puts (putIds id answerId) (idsContent id answerId) := by
  cases answerId with
  | some word => exact (writeNat_puts h).bind (writeNat_puts (toNat_lt_twoPow word))
  | none =>
    rw [idsContent, ← Cell.append_empty (.ofBits _)]
    exact (writeNat_puts h).bind .ok

/-- What a writer of bodies appends stands behind the bit, or a link to it does. -/
theorem putMessage_puts {inline : Bool} {body : Builder → Except Trap Builder} {c : Cell}
    (hin : inline = true → Puts body c) (hout : body {} = .ok (Builder.add {} c)) :
    Puts (putMessage inline body) (messageContent inline c) := by
  cases inline with
  | true => exact (writeBits_puts [false]).bind (hin rfl)
  | false =>
    have hc : (Builder.add {} c).toCell = c := Cell.empty_append c
    have hbody : putMessage false body = fun b => b.writeBit true >>= writeRef c := by
      funext b
      simp only [putMessage, Bool.false_eq_true, if_false, hout, ok_bind, hc, Bool.not_false]
    rw [hbody]
    exact (writeBits_puts [true]).bind (writeRef_puts c)

end Builder

namespace Written

variable {ws : List Written} {xs : List Value}

/-- Leaves that open no cell are written to one builder, whatever it holds. -/
theorem putAll_puts (hc : ∀ w ∈ ws, w.leaf.opensCell = false) (hw : Stores ws xs) :
    Builder.Puts (PackedLeaf.putAll (ws.map (·.leaf)) xs none) (weave ws .empty) := by
  induction hw with
  | nil => exact .ok
  | @cons w x ws xs hx _ ih =>
    obtain ⟨ho, hc⟩ := List.forall_mem_cons.1 hc
    have hput : PackedLeaf.putAll ((w :: ws).map (·.leaf)) (x :: xs) none = fun b =>
        w.leaf.type.store x b >>= PackedLeaf.putAll (ws.map (·.leaf)) xs none := by
      funext b
      simp only [PackedLeaf.putAll, List.map_cons, PackedLeaf.fillAll, PackedLeaf.fill, ho,
        Bool.false_eq_true, if_false]
      rcases w.leaf.type.store x b with e | b' <;> rfl
    rw [hput, weave, if_neg (by simp [ho])]
    exact hx.2.bind (ih hc)

theorem fits_ids (id : Nat) {answerId : Option UInt32} {ls : List PackedLeaf}
    (h : Packing.Room (Headers.internalOffset answerId.isSome) 0 ls) :
    Builder.HasRoom {} (idsContent id answerId) ∧
      (Builder.add {} (idsContent id answerId)).Fits ls := by
  have hbits := bits_idsContent id answerId
  have hrefs := refs_idsContent id answerId
  refine ⟨⟨?_, by rw [hrefs]; decide⟩, ?_⟩
  · have hle := h.le.1
    simpa [hbits] using hle
  · rw [Builder.Fits, Builder.bits_add, Builder.refs_add, hrefs, List.length_append, hbits]
    simpa using h

/-- A cell has room for a body. -/
theorem hasRoom_body (id : Nat) {answerId : Option UInt32} (hw : ∀ w ∈ ws, w.Bounded)
    (h : Packing.Room (Headers.internalOffset answerId.isSome) 0 (ws.map (·.leaf))) :
    Builder.HasRoom {} (idsContent id answerId ++ weave ws .empty) := by
  obtain ⟨hids, hfits⟩ := fits_ids id h
  exact Builder.HasRoom.append.2 ⟨hids, hasRoom_weave hw hfits⟩

/-- **A body is the ids and the woven contents of the arguments,** in a builder that has room for
that. -/
theorem putBody_empty {id : Nat} {answerId : Option UInt32} (hid : id < twoPow idBits)
    (hw : Stores ws xs)
    (hroom : Packing.Room (Headers.internalOffset answerId.isSome) 0 (ws.map (·.leaf))) :
    PackedLeaf.putBody id answerId (ws.map (·.leaf)) xs {} =
      .ok (Builder.add {} (idsContent id answerId ++ weave ws .empty)) := by
  obtain ⟨hids, hfits⟩ := fits_ids id hroom
  rw [PackedLeaf.putBody, (Builder.putIds_puts hid answerId).adds hids, ok_bind,
    putAll_weave_none hw hfits, Builder.add_append]

/-- A body whose arguments open no cell is appended to any builder. -/
theorem putBody_puts {id : Nat} {answerId : Option UInt32} (hid : id < twoPow idBits)
    (hc : ∀ w ∈ ws, w.leaf.opensCell = false) (hw : Stores ws xs) :
    Builder.Puts (PackedLeaf.putBody id answerId (ws.map (·.leaf)) xs)
      (idsContent id answerId ++ weave ws .empty) :=
  (Builder.putIds_puts hid answerId).bind (putAll_puts hc hw)

end Written

namespace Packing

/-- A body has room for its arguments. -/
theorem body_room {answers : Bool} {ts : List Ty} {q : Packing}
    (h : ofTypes (Headers.internalOffset answers) 0 ts = .ok q) :
    Room (Headers.internalOffset answers) 0 q.leaves :=
  ofTypes_room h (by cases answers <;> decide) (by decide)

theorem closed_of_newCells {q : Packing} {ws : List Written} (h : q.newCells = 0)
    (hl : ws.map (·.leaf) = q.leaves) : ∀ w ∈ ws, w.leaf.opensCell = false := by
  rw [newCells, ← hl, List.countP_eq_zero] at h
  exact fun w hw => by simpa using h _ (List.mem_map_of_mem hw)

/-- **A message with a body gets the bit and the body or a link to it.** The body is in place if the
packing behind the message opens no cell. -/
theorem putMessage_puts {id : Nat} {answerId : Option UInt32} {ts : List Ty} {p q : Packing}
    {ws : List Written} {xs : List Value} (hid : id < twoPow idBits)
    (hq : ofTypes (Headers.internalOffset answerId.isSome) 0 ts = .ok q)
    (hpq : p.newCells = 0 → p = q) (hl : ws.map (·.leaf) = q.leaves) (hw : Written.Stores ws xs) :
    Builder.Puts (Builder.putMessage (p.newCells = 0) (PackedLeaf.putBody id answerId q.leaves xs))
      (messageContent (p.newCells = 0) (idsContent id answerId ++ Written.weave ws .empty)) := by
  have hroom := body_room hq
  rw [← hl] at hroom ⊢
  refine Builder.putMessage_puts (fun h => ?_) (Written.putBody_empty hid hw hroom)
  have hc := of_decide_eq_true h
  exact Written.putBody_puts hid (closed_of_newCells (hpq hc ▸ hc) hl) hw

end Packing

/-! ### The code -/

/-- The id is `k`: it is known to be, or the code for it pushes `k` on the entries above `below`.
The code takes nothing off the stack. It runs where `taken` entries were above `below` at the height
`entry`, and others may be in their place. -/
def IdSource.Gives {α : Type} (id : IdSource (α → Gen α)) (a : α) (entry taken : Nat)
    (below : Stack) (k : Nat) : Prop :=
  match id with
  | .known word => word.toNat = k
  | .pushed code => ∀ (d : Nat) (top : Stack), d + taken = entry + top.length →
    (code a).Runs d (top ++ below) fun _ t => t = .int k :: (top ++ below)

namespace Gen

variable {α : Type} {ts : List Ty} {a : α} {id : IdSource (α → Gen α)} {answerId : Option UInt32}
  {frame : Option Frame} {d entry taken bits refs k : Nat} {below : Stack} {p : Packing}
  {xs : List Value}

theorem stConst_ends (word : UInt32) (b : Builder) (s : Stack) :
    (op (.stConst word)).Ends (.builder b :: s) (do
      return (.next, .builder (← b.writeNat idBits word.toNat) :: s)) :=
  .op rfl rfl

theorem writeId_ends (top : Stack) (h : id.Gives a entry taken below k) (b : Builder)
    (hd : d + taken = entry + (top.length + 1)) :
    (writeId a id).EndsAt d (.builder b :: (top ++ below)) (do
      return (.next, .builder (← b.writeNat idBits k) :: (top ++ below))) := by
  cases id with
  | known word =>
    obtain rfl : word.toNat = k := h
    exact ((stConst_ends word b (top ++ below)).bind fun _ c => (Turns.pure a _).ends).endsAt d
  | pushed code =>
    refine (h d (.builder b :: top) hd).bind_endsAt fun a t d' ht _ => ?_
    obtain rfl := ht
    have hstore : (op (.stNat idBits)).Ends (.int k :: .builder b :: (top ++ below)) (do
        return (.next, .builder (← b.writeNat idBits k) :: (top ++ below))) := .op rfl rfl
    exact (hstore.bind fun _ c => (Turns.pure a _).ends).endsAt d'

theorem writeAll_ends (hp : Packing.ofTypes bits refs ts = .ok p)
    (hx : xs.length = (Ty.allLeaves ts).length) (b : Builder) (stk : Stack) :
    (writeAll ts p.start false).Ends (.builder b :: (Ty.buildAll ts xs ++ stk)) (do
      return (.next, .builder (← PackedLeaf.putAll p.leaves xs none b) :: stk)) :=
  fun _ _ _ h => writeAll_spec none hp h hx b stk

/-- The code that writes a body. -/
theorem writeBody_ends (answerId : Option UInt32) (mid : Stack)
    (hid : id.Gives a entry taken below k) (hp : Packing.ofTypes bits refs ts = .ok p)
    (hx : xs.length = (Ty.allLeaves ts).length) (b : Builder)
    (hd : d + taken = entry + (ts.length + mid.length + 1)) :
    (writeBody ts a id answerId p.start).EndsAt d
      (.builder b :: (Ty.buildAll ts xs ++ (mid ++ below))) (do
        return (.next,
          .builder (← PackedLeaf.putBody k answerId p.leaves xs b) :: (mid ++ below))) := by
  have hargs (a : α) (b : Builder) : (do
      let position ← writeAll ts p.start false
      return (a, position) : Gen (α × Position)).Ends
        (.builder b :: (Ty.buildAll ts xs ++ (mid ++ below))) (do
          return (.next, .builder (← PackedLeaf.putAll p.leaves xs none b) :: (mid ++ below))) :=
    (writeAll_ends hp hx b (mid ++ below)).bind fun position c => (Turns.pure (a, position) _).ends
  have hid' := writeId_ends (Ty.buildAll ts xs ++ mid) hid b (by simpa using hd)
  rw [List.append_assoc] at hid'
  unfold writeBody
  cases answerId with
  | none =>
    simpa only [PackedLeaf.putBody, Builder.putIds, bind_assoc, pure_eq_ok, ok_bind] using
      hid'.bind fun a c => hargs a c
  | some word =>
    simpa only [PackedLeaf.putBody, Builder.putIds, bind_assoc, pure_eq_ok, ok_bind] using
      hid'.bind fun a c =>
        (stConst_ends word c (Ty.buildAll ts xs ++ (mid ++ below))).bind fun _ c => hargs a c

theorem writeBody_ok {position : Position} {g : Generated (α × Position)}
    (h : writeBody ts a id answerId position frame d = .ok g) :
    ∃ frame d g', writeAll ts position false frame d = .ok g' := by
  obtain ⟨_, _, -, h, -⟩ := bind_ok.1 h
  cases answerId with
  | none =>
    obtain ⟨g', _, h, -, -⟩ := bind_ok.1 h
    exact ⟨_, _, g', h⟩
  | some word =>
    obtain ⟨_, _, -, h, -⟩ := bind_ok.1 h
    obtain ⟨g', _, h, -, -⟩ := bind_ok.1 h
    exact ⟨_, _, g', h⟩

/-- Code that appends a body is generated only if the arguments can be packed, behind what the
message holds and behind the ids alone, and code that writes them there can be. -/
theorem appendBody_ok {g : Generated α} {used : Nat} {reversed : Bool}
    (h : appendBody ts a id answerId used reversed frame d = .ok g) :
    ∃ p q, Packing.ofTypes (used + Headers.internalOffset answerId.isSome) 0 ts = .ok p ∧
      Packing.ofTypes (Headers.internalOffset answerId.isSome) 0 ts = .ok q ∧
      (p.newCells = 0 → p = q) ∧ ∃ frame d g', writeAll ts q.start false frame d = .ok g' := by
  obtain ⟨_, _, h1, h, -⟩ := bind_ok.1 h
  obtain rfl := depth_ok.1 h1
  obtain ⟨_, _, h1, h, -⟩ := bind_ok.1 h
  obtain ⟨p, hp, rfl⟩ := ofExcept_ok.1 h1
  obtain ⟨_, _, -, h, -⟩ := bind_ok.1 h
  obtain ⟨d', g', h⟩ := ite_bind_ok h
  by_cases hin : p.newCells = 0
  · simp only [hin, if_true] at h
    obtain ⟨_, _, h, -, -⟩ := bind_ok.1 h
    exact ⟨p, p, hp, Packing.ofTypes_of_closed hp hin (Nat.le_add_left _ _) (Nat.le_refl 0),
      fun _ => rfl, writeBody_ok h⟩
  · simp only [hin, if_false] at h
    obtain ⟨_, _, h1, h, -⟩ := bind_ok.1 h
    obtain ⟨q, hq, rfl⟩ := ofExcept_ok.1 h1
    obtain ⟨_, _, -, h, -⟩ := bind_ok.1 h
    obtain ⟨_, _, -, h, -⟩ := bind_ok.1 h
    obtain ⟨_, _, h, -, -⟩ := bind_ok.1 h
    exact ⟨p, q, hp, hq, fun hc => absurd hc hin, writeBody_ok h⟩

/-- Arguments as they are on the stack: the last on top, or the first if they are `reversed`. -/
def onStack (reversed : Bool) (args : List Value) : Stack := if reversed then args else args.reverse

theorem length_onStack (reversed : Bool) (args : List Value) :
    (onStack reversed args).length = args.length := by
  cases reversed <;> simp [onStack]

/-- Bringing the first argument to the top, under the message. -/
theorem reverse_endsAt {β : Type} {reversed : Bool} {v : Value} {args : List Value}
    {f : Unit → Gen β} {r : Except Trap (Flow × Stack)} (hn : args.length = ts.length)
    (hf : (f ()).EndsAt d (v :: (args ++ below)) r) :
    (if ts.length ≥ 2 ∧ !reversed then reverse ts.length 1 >>= f else f ()).EndsAt d
      (v :: (onStack reversed args ++ below)) r := by
  refine EndsAt.ite_bind (t := v :: (args ++ below)) (fun hc => ?_) (fun hc => ?_) fun d' hd => ?_
  · obtain rfl : reversed = false := by simpa using hc.2
    have h := Turns.reverse [v] args.reverse (s := below) rfl (by simpa using hn)
    simpa [onStack] using h
  · cases reversed with
    | true => rfl
    | false => rw [onStack, if_neg Bool.false_ne_true, reverse_short (by simp at hc; omega)]
  · obtain rfl : d' = d := by simp [length_onStack] at hd; omega
    exact hf

/-- Leaving the body in a cell of its own behind the message. -/
theorem linkBody_endsAt (answerId : Option UInt32) (message : Builder) {f : α → Gen α}
    (hid : id.Gives a d (ts.length + 1) below k) (hp : Packing.ofTypes bits refs ts = .ok p)
    (hx : xs.length = (Ty.allLeaves ts).length) (hf : ∀ a s, (f a).Turns s s) :
    (do
      blkSwap ts.length 1
      op .newc
      let r ← writeBody ts a id answerId p.start
      op .stBuilderRef
      f r.1 : Gen α).EndsAt d (.builder message :: (Ty.buildAll ts xs ++ below)) (do
        let c ← PackedLeaf.putBody k answerId p.leaves xs {}
        return (.next, .builder (← message.writeRef c.toCell) :: below)) := by
  have hswap : (blkSwap ts.length 1).Turns (.builder message :: (Ty.buildAll ts xs ++ below))
      (Ty.buildAll ts xs ++ ([.builder message] ++ below)) := by
    have h := Turns.blkSwap [.builder message] (Ty.buildAll ts xs) (s := below) rfl
      (Ty.length_buildAll ts xs)
    simpa using h
  refine hswap.bind_endsAt fun _ d1 hd1 => ?_
  refine Turns.bind_endsAt (.op rfl Op.run_newc) fun _ d2 hd2 => ?_
  have hheight : d2 + (ts.length + 1) = d + (ts.length + 1 + 1) := by
    simp [Ty.length_buildAll] at hd1 hd2
    omega
  have hbody := writeBody_ends answerId [.builder message] hid hp hx {} hheight
  exact hbody.bind fun r c => (stBuilderRef_ends c message below).bind fun _ b => (hf r.1 _).ends

/-- **The code that appends a body puts it into the message or behind a reference.** -/
theorem appendBody_ends {used : Nat} {q : Packing}
    (hp : Packing.ofTypes (used + Headers.internalOffset answerId.isSome) 0 ts = .ok p)
    (hq : Packing.ofTypes (Headers.internalOffset answerId.isSome) 0 ts = .ok q)
    (hpq : p.newCells = 0 → p = q) (hid : id.Gives a d (ts.length + 1) below k)
    (hx : xs.length = (Ty.allLeaves ts).length) (b : Builder) (reversed : Bool) :
    (appendBody ts a id answerId used reversed).EndsAt d
      (.builder b :: (onStack reversed (Ty.buildAll ts xs) ++ below)) (do
        let c ← b.putMessage (p.newCells = 0) (PackedLeaf.putBody k answerId q.leaves xs)
        return (.next, .builder c :: below)) := by
  unfold appendBody
  refine EndsAt.depth_bind (EndsAt.ofExcept_bind hp ?_)
  rw [Builder.putMessage, bind_assoc]
  rcases hb : b.writeBit (!decide (p.newCells = 0)) with e | b1
  · exact EndsAt.bind_error ((Ends.op_error (by simp [Op.run, hb])).endsAt d)
  have hbit (stk : Stack) : (op (.stBit (!decide (p.newCells = 0)))).Turns (.builder b :: stk)
    (.builder b1 :: stk) := .op rfl (by simp [Op.run, hb])
  refine (hbit _).bind_endsAt fun _ d' hd => ?_
  obtain rfl : d' = d := by simpa using hd
  refine reverse_endsAt (Ty.length_buildAll ts xs) ?_
  have hend (a : α) (s : Stack) : (do
      let a ← pure a
      ensureDepth (d' - ts.length) "create_msg_body_and_append_to_builder"
      return a : Gen α).Turns s s :=
    (Turns.pure a s).trans fun _ => (Turns.ensureDepth _ _ _).trans fun _ => .pure _ _
  by_cases hin : p.newCells = 0
  · obtain rfl := hpq hin
    simp only [hin, decide_true, if_true, ok_bind]
    exact (writeBody_ends answerId [] hid hq hx b1 rfl).bind fun r c => (hend r.1 _).ends
  · simp only [hin, decide_false, if_false, ok_bind, Bool.false_eq_true, bind_assoc]
    have hlink := linkBody_endsAt answerId b1 hid hq hx hend
    exact EndsAt.ofExcept_bind hq hlink

end Gen

end TypedCells
