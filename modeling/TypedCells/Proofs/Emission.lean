import TypedCells.Proofs.Leftovers

/-!
# Code for lists of values

Where the leaves of values come next at a position, the generators that write values, read them and
read them quietly give code and pass these leaves, unless a number is too large for an operand. What
has to be known at every step is the height: while values are written, those still to come wait
under the builders; while they are read quietly, each exit has to leave the two entries that the
call returns, however many values have been read (`Gen.giveUp_moves`).

* `Gen.writeAll_yields`, `Gen.readAll_yields`, `Gen.readAllQuiet_yields`.
-/

namespace TypedCells

/-! ### The leaves of a packing -/

/-- The end of a packing. -/
def Packing.finish (k : Packing) : Position := .packed ⟨k, k.leaves.length⟩

/-- All leaves of the types can be passed from the start of their packing to its end. -/
theorem Packing.passAll_finish {bits refs : Nat} {ts : List Ty} {k : Packing}
    (hk : ofTypes bits refs ts = .ok k) :
    k.start.passAll (Ty.allLeaves ts) = .ok (k.leaves, k.finish) := by
  have hrow : k.leaves.drop 0 = k.leaves ++ [] := (List.append_nil _).symm
  have h := Position.passAll_next hrow
  rwa [ofTypes_types hk, Nat.zero_add] at h

namespace Gen

variable {α β : Type} {frame : Option Frame} {d k n below : Nat}

theorem Yields.ofExcept_bind {x : Except GenError α} {a : α} {f : α → Gen β}
    {post : β → Nat → Prop} (h : x = .ok a) (hf : (f a).Yields frame d post) :
    (ofExcept x >>= f).Yields frame d post :=
  Yields.bind (Makes.ofExcept h).yields fun _ _ h' => by
    obtain ⟨rfl, rfl⟩ := h'
    exact hf

/-! ### Writing -/

/-- Values have been written up to the position, and the builders are over `e` entries. -/
def WrittenTo (pos : Position) (e : Nat) (chain : Chain) (d : Nat) : Prop :=
  chain.position = pos ∧ 1 ≤ chain.builders ∧ d = e + chain.builders

theorem writeLeaf_yields {t : Ty} {chain : Chain} {opens : Bool} {pos : Position}
    (hs : chain.position.skip t = .ok (opens, pos)) (hb : 1 ≤ chain.builders) :
    (writeLeaf t below chain).Yields frame (k + below + 1 + chain.builders)
      (WrittenTo pos (k + below)) := by
  refine Yields.ofExcept_bind hs ?_
  have hstore {d' : Nat} (h : 2 ≤ d') : (op (.store t)).Moves frame d' (d' - 1) :=
    .op h (by simp only [Op.effect]; omega)
  cases opens with
  | true =>
    have hnewc : (op .newc).Moves frame (k + below + 1 + chain.builders)
        (k + below + 1 + chain.builders + 1) := .op (Nat.zero_le _) rfl
    exact (Moves.blkSwap (by omega)).bind fun _ => hnewc.bind fun _ =>
      (hstore (by omega)).bind fun _ =>
        .pure ⟨rfl, Nat.le_add_left .., by simp only [if_true]; omega⟩
  | false => exact (hstore (by omega)).bind fun _ => .pure ⟨rfl, hb, by simp⟩

/-- **A value is written where its leaves are the next ones,** with `below` values waiting under
the builder and `k` entries under them. -/
theorem write_yields (t : Ty) {chain : Chain} {pos : Position} {ls : List PackedLeaf}
    {below : Nat} (hn : NoTuple t.leaves) (h : chain.position.passAll t.leaves = .ok (ls, pos))
    (hb : 1 ≤ chain.builders) :
    (write t below chain).Yields frame (k + below + 1 + chain.builders)
      (WrittenTo pos (k + below)) := by
  refine passInduction
    (P := fun t p p' => ∀ {chain : Chain} {below : Nat}, chain.position = p → 1 ≤ chain.builders →
      (write t below chain).Yields frame (k + below + 1 + chain.builders)
        (WrittenTo p' (k + below)))
    (Q := fun fs p p' => ∀ {chain : Chain} {below : Nat}, chain.position = p →
      1 ≤ chain.builders →
      (writeFields fs below chain).Yields frame (k + below + fs.length + chain.builders)
        (WrittenTo p' (k + below)))
    (fun {t p p' opens} hl ht hs chain below hp hb => ?leaf)
    (fun x fs p p' ih chain below hp hb => ?struct)
    (fun x t p p' ih chain below hp hb => ih hp hb)
    (fun p chain below hp hb => .pure ⟨hp, hb, rfl⟩)
    (fun x t fs p q p' iht ihfs chain below hp hb => ?cons) t hn h rfl hb
  case leaf =>
    rw [← hp] at hs
    have hwrite : (writeLeaf t below chain).Yields frame (k + below + 1 + chain.builders)
        (WrittenTo p' (k + below)) := writeLeaf_yields hs hb
    cases t with
    | tuple ts => exact absurd rfl (ht ts)
    | struct | «alias» => exact hl.elim
    | _ => exact hwrite
  case struct =>
    refine (Patch.openStruct_moves (by omega)).bind fun _ => ?_
    rw [show k + below + 1 + chain.builders - 1 + fs.length =
      k + below + fs.length + chain.builders by omega]
    exact ih hp hb
  case cons =>
    -- the members behind the first one wait with what has been waiting
    have hfirst : (write t (below + fs.length) chain).Yields frame
        (k + (below + fs.length) + 1 + chain.builders) (WrittenTo q (k + (below + fs.length))) :=
      iht hp hb
    rw [show k + (below + fs.length) + 1 + chain.builders =
      k + below + (fs.length + 1) + chain.builders by omega] at hfirst
    refine hfirst.bind fun r e hr => ?_
    obtain ⟨hq, hb', rfl⟩ := hr
    rw [← Nat.add_assoc]
    exact ihfs hq hb'

/-- Values are written in turn. -/
theorem writeEach_yields : ∀ {ts : List Ty} {chain : Chain} {pos : Position}
    {ls : List PackedLeaf}, NoTuple (Ty.allLeaves ts) →
    chain.position.passAll (Ty.allLeaves ts) = .ok (ls, pos) → 1 ≤ chain.builders →
    (writeEach ts below chain).Yields frame (k + below + ts.length + chain.builders)
      (WrittenTo pos (k + below))
  | [], chain, pos, ls, _, h, hb => by
    obtain ⟨-, rfl⟩ := Prod.mk.inj (Except.ok.inj h)
    exact .pure ⟨rfl, hb, rfl⟩
  | t :: ts, chain, pos, ls, hn, h, hb => by
    obtain ⟨ks, ks', q, h1, h2⟩ := Position.passAll_append_eq_ok h
    have hfirst : (write t (below + ts.length) chain).Yields frame
        (k + (below + ts.length) + 1 + chain.builders) (WrittenTo q (k + (below + ts.length))) :=
      write_yields t hn.left h1 hb
    rw [show k + (below + ts.length) + 1 + chain.builders =
      k + below + (ts.length + 1) + chain.builders by omega] at hfirst
    refine hfirst.bind fun r e hr => ?_
    obtain ⟨rfl, hb', rfl⟩ := hr
    rw [← Nat.add_assoc]
    exact writeEach_yields hn.right h2 hb'

/-- **Values can be written to a builder:** it is left in the place of all of them. -/
theorem writeAll_yields {ts : List Ty} {pos pos' : Position} {ls : List PackedLeaf} {tail : Bool}
    (hn : NoTuple (Ty.allLeaves ts)) (h : pos.passAll (Ty.allLeaves ts) = .ok (ls, pos'))
    (hd : ts.length + tail.toNat + 1 ≤ d) :
    (writeAll ts pos tail).Yields frame d fun q e =>
      q = pos' ∧ e = d - (ts.length + tail.toNat) := by
  have hextra : (if tail = true then 1 else 0) = tail.toNat := by cases tail <;> rfl
  obtain ⟨k, rfl⟩ : ∃ k, d = k + tail.toNat + ts.length + 1 :=
    ⟨d - (tail.toNat + ts.length + 1), by omega⟩
  refine .depth_bind ?_
  rw [hextra]
  have hvalues : (writeEach ts tail.toNat { position := pos }).Yields frame
      (k + tail.toNat + ts.length + 1) (WrittenTo pos' (k + tail.toNat)) :=
    writeEach_yields hn h (Nat.le_refl 1)
  refine hvalues.bind fun chain e hc => ?_
  obtain ⟨rfl, hb, rfl⟩ := hc
  have hlink : (do
      linkBuilders chain.builders
      ensureDepth (k + tail.toNat + ts.length + 1 - (ts.length + tail.toNat)) "encode_parameters"
      return chain.position : Gen Position).Yields frame (k + chain.builders) fun q e =>
        q = chain.position ∧ e = k + tail.toNat + ts.length + 1 - (ts.length + tail.toNat) :=
    (Patch.linkBuilders_moves hb).bind fun _ => (Moves.ensureDepth _ (by omega)).bind fun _ =>
      .pure ⟨rfl, by omega⟩
  cases tail with
  | true =>
    have hstore : (op .stSlice).Moves frame (k + true.toNat + chain.builders)
        (k + chain.builders) :=
      .op (by simp only [Op.effect, Bool.toNat_true]; omega)
        (by simp only [Op.effect, Bool.toNat_true]; omega)
    exact hstore.bind fun _ => hlink
  | false => exact hlink

/-! ### Reading -/

/-- Values are read in turn. -/
theorem readEach_yields : ∀ {ts : List Ty} {pos pos' : Position} {ls : List PackedLeaf} {d : Nat},
    NoTuple (Ty.allLeaves ts) → pos.passAll (Ty.allLeaves ts) = .ok (ls, pos') → 1 ≤ d →
    (readEach ts pos).Yields frame d fun q e => q = pos' ∧ e = d + ts.length
  | [], pos, pos', ls, d, _, h, _ => by
    obtain ⟨-, rfl⟩ := Prod.mk.inj (Except.ok.inj h)
    exact .pure ⟨rfl, rfl⟩
  | t :: ts, pos, pos', ls, d, hn, h, hd => by
    obtain ⟨ks, ks', q, h1, h2⟩ := Position.passAll_append_eq_ok h
    refine .depth_bind ?_
    refine (read_yields t hn.left h1 hd).bind fun r e hr => ?_
    obtain ⟨rfl, rfl⟩ := hr
    refine (Moves.ensureDepth _ rfl).bind fun _ =>
      (readEach_yields hn.right h2 (by omega)).mono fun r e hr => ⟨hr.1, ?_⟩
    rw [hr.2, List.length_cons]
    omega

/-- **Values can be read from a slice.** -/
theorem readAll_yields {ts : List Ty} {pos pos' : Position} {ls : List PackedLeaf}
    (hn : NoTuple (Ty.allLeaves ts)) (h : pos.passAll (Ty.allLeaves ts) = .ok (ls, pos'))
    (hd : 1 ≤ d) :
    (readAll ts pos).Yields frame d fun q e => q = pos' ∧ e = d + ts.length :=
  (Moves.require hd).bind fun _ => readEach_yields hn h hd

/-! ### Reading quietly -/

/-- A call of a program that leaves what the call returns. -/
theorem Yields.call {body : Gen α} {args rets : Nat} {post : α → Prop} (hd : args ≤ d)
    (h : body.Yields (some ⟨d - args, rets⟩) d fun a e => post a ∧ e = d - args + rets) :
    (call args rets body).Yields frame d fun a e => post a ∧ e = d - args + rets := by
  have hlt : ¬ d < args := Nat.not_lt.2 hd
  have hcounts (n : Nat) : (operand n).Moves frame d d := .operand n
  rcases h with ⟨b, hb, hp, he⟩ | ⟨n, hn, hb⟩
  · rcases hcounts args with ⟨_, hargs, -⟩ | ⟨n, hn, hargs⟩
    · rcases hcounts rets with ⟨_, hrets, -⟩ | ⟨n, hn, hrets⟩
      · exact .inl ⟨⟨b.value, [.call b.code args rets], b.depth⟩,
          by simp [Gen.call, hlt, hb, he, hargs, hrets], hp, he⟩
      · exact .inr ⟨n, hn, by simp [Gen.call, hlt, hb, he, hargs, hrets]⟩
    · exact .inr ⟨n, hn, by simp [Gen.call, hlt, hb, he, hargs]⟩
  · exact .inr ⟨n, hn, by simp [Gen.call, hlt, hb]⟩

/-- A jump with a body that leaves what the call returns. -/
theorem Moves.jump {body : Gen Unit} {name : String} {mk : List Instr → Instr}
    {entry : Nat → Nat} {base rets : Nat} (hd : 1 ≤ d)
    (h : body.Moves (some ⟨base, rets⟩) (entry (d - 1)) (base + rets)) :
    (jump name mk entry body).Moves (some ⟨base, rets⟩) d (d - 1) := by
  have hlt : ¬ d < 1 := Nat.not_lt.2 hd
  rcases h with ⟨b, hb, he⟩ | ⟨n, hn, hb⟩
  · exact .inl ⟨⟨b.value, [mk b.code], d - 1⟩, by simp [Gen.jump, hlt, hb, he], rfl⟩
  · exact .inr ⟨n, hn, by simp [Gen.jump, hlt, hb]⟩

/-- From wherever the code gives up, the call ends with null and the rest. -/
theorem giveUp_moves {base : Nat} : (giveUp n).Moves frame (base + n + 1) (base + 2) := by
  have hdrop : (dropUnder n 1).Moves frame (base + n + 1) (base + n + 1 - n) :=
    .dropUnder (by omega)
  rw [show base + n + 1 - n = base + 1 by omega] at hdrop
  have hnull : (op .pushNull).Moves frame (base + 1) (base + 2) := .op (Nat.zero_le _) rfl
  exact hdrop.trans fun _ => hnull.trans fun _ => .blkSwap (by omega)

section Quiet

variable {base : Nat}

theorem followLinkQuiet_moves :
    (followLinkQuiet n).Moves (some ⟨base, 2⟩) (base + n + 1) (base + n + 1) := by
  generalize hd : base + n + 1 = d
  have hpush (i : Int) (d : Nat) : (op (.pushInt i)).Moves (some ⟨base, 2⟩) d (d + 1) :=
    .op (Nat.zero_le d) rfl
  have hequal (d : Nat) : (op .equal).Moves (some ⟨base, 2⟩) (d + 2) (d + 1) :=
    .op (Nat.le_add_left ..) rfl
  have hand : (op .and).Moves (some ⟨base, 2⟩) (d + 2) (d + 1) := .op (Nat.le_add_left ..) rfl
  have hsizes : (op .bitRefs).Moves (some ⟨base, 2⟩) (d + 1) (d + 2) :=
    .op (Nat.le_add_left ..) rfl
  have hjump : (jumpUnless (giveUp n)).Moves (some ⟨base, 2⟩) (d + 1) d :=
    .jump (Nat.le_add_left ..) (by rw [Nat.add_sub_cancel, ← hd]; exact giveUp_moves)
  exact (Moves.push (by omega)).trans fun _ => hsizes.trans fun _ =>
    (hpush 1 (d + 2)).trans fun _ => (hequal (d + 1)).trans fun _ =>
    (Moves.xchg (by omega)).trans fun _ => (hpush 0 (d + 2)).trans fun _ =>
    (hequal (d + 1)).trans fun _ => hand.trans fun _ => hjump.trans fun _ =>
    (followLink_makes (by omega)).moves

theorem checkOrdinalQuiet_moves (t : Ty) (hn : 1 ≤ n) :
    (checkOrdinalQuiet n t).Moves (some ⟨base, 2⟩) (base + n + 1) (base + n + 1) := by
  generalize hd : base + n + 1 = d
  cases t with
  | enumeration x variants =>
    exact (testOrdinal_makes variants (by omega)).moves.trans fun _ =>
      .jump (Nat.le_add_left ..) (by
        rw [Nat.add_sub_cancel, ← hd]
        exact giveUp_moves)
  | _ => exact .pure ()

/-- A leaf is read over what has been read before, or the code gives up on all of it. -/
theorem readLeafQuiet_yields {t : Ty} {pos q : Position} {opens : Bool}
    (hs : pos.skip t = .ok (opens, q)) :
    (readLeafQuiet t pos n).Yields (some ⟨base, 2⟩) (base + n + 1) fun r e =>
      r = q ∧ e = base + (n + 1) + 1 := by
  refine Yields.ofExcept_bind hs ?_
  have hload : (op (.loadQuiet t)).Moves (some ⟨base, 2⟩) (base + n + 1) (base + n + 3) :=
    .op (Nat.le_add_left ..) (by simp only [Op.effect]; omega)
  have hjump : (jumpUnlessAt (base + n + 1) (giveUp n)).Moves (some ⟨base, 2⟩) (base + n + 3)
      (base + (n + 1) + 1) := .jump (by omega) giveUp_moves
  have hread : (do
      let entry ← Gen.depth
      op (.loadQuiet t)
      jumpUnlessAt entry (giveUp n)
      checkOrdinalQuiet (n + 1) t
      return q : Gen Position).Yields (some ⟨base, 2⟩) (base + n + 1) fun r e =>
        r = q ∧ e = base + (n + 1) + 1 :=
    .depth_bind <| hload.bind fun _ => hjump.bind fun _ =>
      (checkOrdinalQuiet_moves t (Nat.le_add_left ..)).bind fun _ => .pure ⟨rfl, rfl⟩
  cases opens with
  | true => exact followLinkQuiet_moves.bind fun _ => hread
  | false => exact hread

/-- **A value is read quietly where its leaves are the next ones,** over the `n` values read so far,
which are what the code gives up on. -/
theorem readQuiet_yields (t : Ty) {pos pos' : Position} {ls : List PackedLeaf}
    (hn : NoTuple t.leaves) (h : pos.passAll t.leaves = .ok (ls, pos')) :
    (readQuiet t pos n).Yields (some ⟨base, 2⟩) (base + n + 1) fun q e =>
      q = pos' ∧ e = base + (n + 1) + 1 := by
  refine passInduction
    (P := fun t pos pos' => ∀ n : Nat,
      (readQuiet t pos n).Yields (some ⟨base, 2⟩) (base + n + 1) fun q e =>
        q = pos' ∧ e = base + (n + 1) + 1)
    (Q := fun fs pos pos' => ∀ n : Nat,
      (readFieldsQuiet fs pos n).Yields (some ⟨base, 2⟩) (base + n + 1) fun q e =>
        q = pos' ∧ e = base + (n + fs.length) + 1)
    (fun {t pos pos' opens} hl ht hs n => ?leaf) (fun x fs pos pos' ih n => ?struct)
    (fun x t pos pos' ih => ih) (fun pos n => .pure ⟨rfl, rfl⟩)
    (fun x t fs pos q pos' iht ihfs n => ?cons) t hn h n
  case leaf =>
    have hread : (readLeafQuiet t pos n).Yields (some ⟨base, 2⟩) (base + n + 1) fun r e =>
        r = pos' ∧ e = base + (n + 1) + 1 := readLeafQuiet_yields hs
    cases t with
    | tuple ts => exact absurd rfl (ht ts)
    | struct | «alias» => exact hl.elim
    | _ => exact hread
  case struct =>
    refine (ih n).bind fun q e he => ?_
    obtain ⟨rfl, rfl⟩ := he
    rw [show base + (n + fs.length) + 1 = base + n + 1 + fs.length by omega]
    exact (closeStruct_moves (by omega)).bind fun _ => .pure ⟨rfl, rfl⟩
  case cons =>
    refine (iht n).bind fun r e he => ?_
    obtain ⟨rfl, rfl⟩ := he
    refine (ihfs (n + 1)).mono fun r e he => ⟨he.1, ?_⟩
    rw [he.2, List.length_cons]
    omega

/-- Values are read quietly in turn. -/
theorem readEachQuiet_yields : ∀ {ts : List Ty} {pos pos' : Position} {ls : List PackedLeaf}
    {n : Nat}, NoTuple (Ty.allLeaves ts) → pos.passAll (Ty.allLeaves ts) = .ok (ls, pos') →
    (readEachQuiet ts pos n).Yields (some ⟨base, 2⟩) (base + n + 1) fun q e =>
      q = pos' ∧ e = base + (n + ts.length) + 1
  | [], pos, pos', ls, n, _, h => by
    obtain ⟨-, rfl⟩ := Prod.mk.inj (Except.ok.inj h)
    exact .pure ⟨rfl, rfl⟩
  | t :: ts, pos, pos', ls, n, hn, h => by
    obtain ⟨ks, ks', q, h1, h2⟩ := Position.passAll_append_eq_ok h
    refine (readQuiet_yields t hn.left h1).bind fun r e hr => ?_
    obtain ⟨rfl, rfl⟩ := hr
    refine (readEachQuiet_yields hn.right h2).mono fun r e hr => ⟨hr.1, ?_⟩
    rw [hr.2, List.length_cons]
    omega

end Quiet

/-- The values read become one entry. -/
theorem wrapResult_moves : ∀ ts : List Ty,
    (wrapResult ts).Moves frame (d + ts.length) (d + 1)
  | [t] => by
    rw [wrapResult]
    split
    · exact .tuple (Nat.le_add_left ..)
    · exact .pure ()
  | [] | t :: u :: ts => by
    have htuple {n : Nat} : (tuple n).Moves frame (d + n) (d + 1) := by
      have h : (tuple n).Moves frame (d + n) (d + n - n + 1) := .tuple (Nat.le_add_left ..)
      rwa [Nat.add_sub_cancel] at h
    exact htuple

/-- **Values can be read from a slice without traps.** -/
theorem readAllQuiet_yields {ts : List Ty} {pos pos' : Position} {ls : List PackedLeaf}
    (hn : NoTuple (Ty.allLeaves ts)) (h : pos.passAll (Ty.allLeaves ts) = .ok (ls, pos'))
    (hd : 1 ≤ d) :
    (readAllQuiet ts pos).Yields frame d fun q e => q = pos' ∧ e = d + 1 := by
  obtain ⟨base, rfl⟩ : ∃ base, d = base + 1 := ⟨d - 1, by omega⟩
  refine .call hd ?_
  rw [Nat.add_sub_cancel]
  refine (readEachQuiet_yields (n := 0) hn h).bind fun q e hq => ?_
  obtain ⟨rfl, rfl⟩ := hq
  rw [Nat.zero_add, show base + ts.length + 1 = base + 1 + ts.length by omega]
  exact (Moves.blkSwap (by omega)).bind fun _ => (wrapResult_moves ts).bind fun _ =>
    (Moves.blkSwap (by omega)).bind fun _ => .pure ⟨rfl, rfl⟩

end Gen

end TypedCells
