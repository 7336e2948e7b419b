import TypedCells.Proofs.Gather
import TypedCells.Proofs.Writer

/-!
# Writing data again

What a patch holds on the stack is written piece by piece. While this goes on, the stack is a
builder over what is still held, the rest of the slice and the builders that are full
(`Patch.workStack`). Fragments are copied; of a new value the next leaf is exposed on the stack
before it is written.

* `Patch.exposeIn_runs`: a value is taken apart until its first leaf is under the builder.
* `Patch.writePieces_runs`: writing the pieces grows the builders by their contents.
-/

namespace TypedCells

namespace Ty

theorem buildAll_members : ∀ (fs : List (Field Ty)) (xs : List Value),
    buildAll (fs.map (·.type)) xs = buildFields fs xs
  | [], _ => rfl
  | ⟨_, t⟩ :: fs, xs => by rw [List.map_cons, buildAll, buildFields, buildAll_members fs]

theorem allLeaves_members (fs : List (Field Ty)) :
    allLeaves (fs.map (·.type)) = fieldLeaves fs := by
  induction fs with
  | nil => rfl
  | cons f fs ih =>
    rw [fieldLeaves, ← ih]
    rfl

/-- A value behind others that have no leaves. -/
theorem buildAll_concat {ts : List Ty} {t : Ty} {ys : List Value} (h : allLeaves ts = [])
    (hy : ys.length = t.leaves.length) :
    buildAll (ts ++ [t]) ys = buildAll ts [] ++ [t.build ys] := by
  have hts : ([] : List Value).length = (allLeaves ts).length := by rw [h]; rfl
  rw [← List.nil_append ys, buildAll_append_all hts, List.nil_append, ← List.append_nil ys,
    buildAll_append hy, List.append_nil]
  rfl

end Ty

namespace Patch

/-! ### Exposing a leaf -/

/-- The code leaves the value of the first leaf under the builder, and under it values of types with
the other leaves. If there are no leaves, it leaves nothing. -/
structure Exposes (code : Gen (Option (List Held))) (ls : List Ty) (rest : List Held)
    (values : List Value → List Value) : Prop where
  first : ∀ ⦃l : Ty⦄ ⦃ls' : List Ty⦄ ⦃x : Value⦄ ⦃xs : List Value⦄ (b : Builder) (stk : Stack)
    (d : Nat), ls = l :: ls' → xs.length = ls'.length →
    code.Runs d (.builder b :: (values (x :: xs) ++ stk)) fun r t =>
      ∃ us : List Ty, r = some (us.map .value ++ rest) ∧ Ty.allLeaves us = ls' ∧
        t = .builder b :: x :: (Ty.buildAll us xs ++ stk)
  nothing : ∀ (b : Builder) (stk : Stack) (d : Nat), ls = [] →
    code.Runs d (.builder b :: (values [] ++ stk)) fun r t => r = none ∧ t = .builder b :: stk

section Exposes

variable {code code' : Gen (Option (List Held))} {u : Ty} {us : List Ty} {rest : List Held}

/-- What the code leaves of a value in front of others: the first leaf, or else the others. -/
theorem Exposes.front
    (h : Exposes code u.leaves (us.map .value ++ rest) fun xs => [u.build xs]) {l : Ty}
    {ls : List Ty} {x : Value} {xs : List Value} (hl : Ty.allLeaves (u :: us) = l :: ls)
    (hx : xs.length = ls.length) (b : Builder) (stk : Stack) (d : Nat) :
    code.Runs d (.builder b :: (Ty.buildAll (u :: us) (x :: xs) ++ stk)) fun r t =>
      (r = none ∧ Ty.allLeaves us = l :: ls ∧
        t = .builder b :: (Ty.buildAll us (x :: xs) ++ stk)) ∨
      ∃ us' : List Ty, r = some (us'.map .value ++ rest) ∧ Ty.allLeaves us' = ls ∧
        t = .builder b :: x :: (Ty.buildAll us' xs ++ stk) := by
  rw [Ty.allLeaves, List.flatMap_cons] at hl
  rcases hleaves : u.leaves with _ | ⟨l', ls'⟩
  · rw [hleaves] at hl
    have hnil : ([] : List Value).length = u.leaves.length := by rw [hleaves]; rfl
    have hbuild : Ty.buildAll (u :: us) (x :: xs) = u.build [] :: Ty.buildAll us (x :: xs) :=
      Ty.buildAll_append hnil
    rw [hbuild]
    exact (h.nothing b (Ty.buildAll us (x :: xs) ++ stk) d hleaves).mono fun r t ht =>
      .inl ⟨ht.1, hl, ht.2⟩
  · rw [hleaves, List.cons_append, List.cons.injEq] at hl
    obtain ⟨rfl, rfl⟩ := hl
    rw [List.length_append] at hx
    obtain ⟨ys, zs, rfl, hy, -⟩ := Ty.exists_append_of_length hx
    have hbuild : Ty.buildAll (u :: us) (x :: (ys ++ zs)) =
        u.build (x :: ys) :: Ty.buildAll us zs := by
      rw [← List.cons_append]
      exact Ty.buildAll_append (by rw [hleaves, List.length_cons, List.length_cons, hy])
    rw [hbuild]
    refine (h.first b (Ty.buildAll us zs ++ stk) d hleaves hy).mono fun r t ht => .inr ?_
    obtain ⟨ts, rfl, hts, rfl⟩ := ht
    refine ⟨ts ++ us, by simp, ?_, ?_⟩
    · rw [Ty.allLeaves_append, hts]
      rfl
    · rw [Ty.buildAll_append_all (by rw [hts, hy]), List.append_assoc]

/-- A value in front of others, of which the code exposes the first leaf if the value has none. -/
theorem Exposes.cons
    (h : Exposes code u.leaves (us.map .value ++ rest) fun xs => [u.build xs])
    (h' : Exposes code' (Ty.allLeaves us) rest (Ty.buildAll us)) :
    Exposes (do
      match ← code with
      | some held => return some held
      | none => code') (Ty.allLeaves (u :: us)) rest (Ty.buildAll (u :: us)) where
  first l ls x xs b stk d hl hx := by
    refine (h.front hl hx b stk d).bind fun r t d' ht _ => ?_
    rcases ht with ⟨rfl, hls, rfl⟩ | ⟨ts, rfl, ht⟩
    · exact h'.first b stk d' hls hx
    · exact .pure ⟨ts, rfl, ht⟩
  nothing b stk d hl := by
    obtain ⟨hu, hus⟩ := List.append_eq_nil_iff.1 hl
    have hnil : ([] : List Value).length = u.leaves.length := by rw [hu]; rfl
    have hbuild : Ty.buildAll (u :: us) [] = u.build [] :: Ty.buildAll us [] :=
      Ty.buildAll_append hnil
    rw [hbuild]
    refine (h.nothing b (Ty.buildAll us [] ++ stk) d hu).bind fun r t d' ht _ => ?_
    obtain ⟨rfl, rfl⟩ := ht
    exact h'.nothing b stk d' hus

end Exposes

theorem exposeIn_leaf {u : Ty} (h : u.IsLeaf) (t : Ty) (rest : List Held) :
    exposeIn t u rest =
      if u = t then pure (some rest) else Gen.fail (.internal (.noSuchLeaf u t)) := by
  cases u <;> first | rfl | exact h.elim

/-- **A value is taken apart until its first leaf is exposed.** -/
theorem exposeIn_runs (t u : Ty) :
    ∀ rest : List Held, Exposes (exposeIn t u rest) u.leaves rest fun xs => [u.build xs] := by
  refine Ty.leafInduction
    (P := fun u => ∀ rest, Exposes (exposeIn t u rest) u.leaves rest fun xs => [u.build xs])
    (Q := fun fs => ∀ rest,
      Exposes (exposeAmong t fs rest) (Ty.fieldLeaves fs) rest (Ty.buildFields fs))
    (fun u h rest => ?leaf) (fun x fs ih rest => ?struct) (fun x u ih => ih)
    (fun rest => ?nil) (fun x u fs ihu ihfs rest => ?cons) u
  case leaf =>
    rw [Ty.leaves_leaf h, exposeIn_leaf h]
    refine ⟨fun l ls' x xs b stk d hl hx => ?_, nofun⟩
    obtain ⟨rfl, rfl⟩ := List.cons.inj hl
    obtain rfl := List.length_eq_zero_iff.1 hx
    simp only [Ty.build_leaf h]
    split
    · exact .pure ⟨[], rfl, rfl, rfl⟩
    · exact .fail
  case struct =>
    have hopen (xs : List Value) (b : Builder) (stk : Stack) :=
      Gen.openStruct_turns (Ty.length_buildFields fs xs) b stk
    exact ⟨fun l ls' x xs b stk d hl hx =>
        (hopen (x :: xs) b stk).bind fun _ d' _ => (ih rest).first b stk d' hl hx,
      fun b stk d hl => (hopen [] b stk).bind fun _ d' _ => (ih rest).nothing b stk d' hl⟩
  case nil => exact ⟨nofun, fun b stk d _ => .pure ⟨rfl, rfl⟩⟩
  case cons =>
    have hfs := ihfs rest
    have hu := ihu ((fs.map (·.type)).map .value ++ rest)
    rw [← Ty.allLeaves_members, ← funext (Ty.buildAll_members fs)] at hfs
    have hall := hu.cons hfs
    rw [← Ty.allLeaves_members, ← funext (Ty.buildAll_members _), List.map_cons, exposeAmong,
      show fs.map (fun f => Held.value f.type) = (fs.map (·.type)).map .value from
        (List.map_map ..).symm]
    exact hall

/-- The first leaf of values that are held is exposed. -/
theorem expose_runs {t l : Ty} : ∀ {us ls : List Ty} (held : List Held) (x : Value)
    {xs : List Value}, Ty.allLeaves us = l :: ls → xs.length = ls.length →
    ∀ (b : Builder) (stk : Stack) (d : Nat),
    (expose t (us.map .value ++ held)).Runs d (.builder b :: (Ty.buildAll us (x :: xs) ++ stk))
      fun r s => ∃ us' : List Ty, r = us'.map .value ++ held ∧ Ty.allLeaves us' = ls ∧
        s = .builder b :: x :: (Ty.buildAll us' xs ++ stk)
  | [], _, _, _, _, hl, _, _, _, _ => by simp [Ty.allLeaves] at hl
  | u :: us, ls, held, x, xs, hl, hx, b, stk, d => by
    refine ((exposeIn_runs t u (us.map .value ++ held)).front hl hx b stk d).bind
      fun r s d' hr _ => ?_
    rcases hr with ⟨rfl, hls, rfl⟩ | ⟨ts, rfl, hr⟩
    · exact expose_runs held x hls hx b stk d'
    · exact .pure ⟨ts, rfl, hr⟩

/-! ### Builders -/

/-- The builders after a cell has been opened, if it has. -/
def opened (opens : Bool) (q : List Builder × Builder) : List Builder × Builder :=
  if opens then (q.2 :: q.1, {}) else q

theorem grow_cons (w : Written) (ws : List Written) (q : List Builder × Builder) :
    Written.grow (w :: ws) q = Written.grow ws ((opened w.leaf.opensCell q).1,
      (opened w.leaf.opensCell q).2.add w.content) := by
  rw [Written.grow, opened]
  split <;> rfl

/-- Contents of one cell are added together. -/
theorem grow_row {ws : List Written} (hne : ws ≠ []) (h : ∀ w ∈ ws.tail, w.leaf.opensCell = false)
    (q : List Builder × Builder) :
    Written.grow ws q =
      ((opened (Written.opens ws) q).1, (opened (Written.opens ws) q).2.add (Written.row ws)) := by
  cases ws with
  | nil => exact absurd rfl hne
  | cons w ws =>
    rw [grow_cons, Written.row, Builder.add_append]
    simp only [List.tail_cons] at h
    change Written.grow ws ((opened w.leaf.opensCell q).1, _) = ((opened w.leaf.opensCell q).1,
      ((opened w.leaf.opensCell q).2.add w.content).add _)
    generalize (opened w.leaf.opensCell q).2.add w.content = b
    generalize (opened w.leaf.opensCell q).1 = bs
    clear hne
    induction ws generalizing b with
    | nil => rw [Written.row, Builder.add_empty]; rfl
    | cons v ws ih =>
      rw [Written.grow, if_neg (by simp [h v (List.mem_cons_self ..)]),
        ih (fun w hw => h w (List.mem_cons_of_mem _ hw)), Written.row, Builder.add_append]

/-- What has been added had room. -/
theorem hasRoom_of_fits {b : Builder} {c : Cell} {ls : List PackedLeaf} (h : (b.add c).Fits ls) :
    b.HasRoom c := by
  have hle := Packing.Room.le h
  rwa [Builder.bits_add, Builder.refs_add, List.length_append, List.length_append] at hle

/-! ### The stack -/

/-- The stack while data is written: the builder, what is held, the rest of the slice, and the
builders that are full. -/
def workStack (es : List Value) (s : Slice) (q : List Builder × Builder) (stk : Stack) : Stack :=
  .builder q.2 :: (es ++ .slice s :: (Gen.stacked q.1 ++ stk))

theorem workStack_append (xs es : List Value) (s : Slice) (q : List Builder × Builder)
    (stk : Stack) : workStack (xs ++ es) s q stk =
      .builder q.2 :: (xs ++ (es ++ .slice s :: (Gen.stacked q.1 ++ stk))) := by
  rw [workStack, List.append_assoc]

variable {entry d : Nat} {es : List Value} {s : Slice} {q : List Builder × Builder} {stk : Stack}

/-- A new builder is on top, and the one so far has gone under the slice. -/
theorem openBuilder_runs (held : List Held)
    (hd : d + 1 + stk.length = entry + (workStack es s q stk).length) :
    (openBuilder entry ⟨held, q.1.length + 1⟩).Runs d (workStack es s q stk) fun r t =>
      r = ⟨held, q.1.length + 1 + 1⟩ ∧ t = workStack es s (q.2 :: q.1, {}) stk := by
  refine Gen.Runs.depth_bind ?_
  have hswap := Gen.Turns.blkSwap [.builder q.2] (es ++ [.slice s]) (s := Gen.stacked q.1 ++ stk)
    (j := 1) (i := d + 1 - entry - (q.1.length + 1)) rfl (by
      simp only [workStack, List.length_cons, List.length_append, Gen.stacked, List.length_map,
        List.length_nil] at hd ⊢
      omega)
  simp only [List.append_assoc, List.cons_append, List.nil_append] at hswap
  refine hswap.bind fun _ d2 _ => Gen.Turns.bind (.op rfl Op.run_newc) fun _ d3 _ => ?_
  exact .pure ⟨rfl, rfl⟩

theorem openBuilderFor_runs (held : List Held) (ls : List StoredLeaf)
    (hd : d + 1 + stk.length = entry + (workStack es s q stk).length) :
    (openBuilderFor entry ls ⟨held, q.1.length + 1⟩).Runs d (workStack es s q stk) fun r t =>
      r = ⟨held, (opened (opensCell ls) q).1.length + 1⟩ ∧
        t = workStack es s (opened (opensCell ls) q) stk := by
  rw [openBuilderFor, opened]
  split
  · exact openBuilder_runs held hd
  · exact .pure ⟨rfl, rfl⟩

/-! ### Copying -/

variable {safe : Prop}

/-- An instruction that writes a value, if the value can be written and there is room for it. -/
theorem puts_runs {o : Op} {v : Value} {w : Builder → Except Trap Builder} {c : Cell} {b : Builder}
    (hq : o.isQuiet = false)
    (hrun : o.run (.builder b :: v :: stk) = do return .builder (← w b) :: stk)
    (hput : (safe ∨ ∃ b', w b = .ok b') → Builder.Puts w c) (hb : b.HasRoom .empty)
    (hroom : safe → b.HasRoom c) :
    (Gen.op o).RunsIf safe d (.builder b :: v :: stk) fun _ t =>
      Builder.Puts w c ∧ b.HasRoom c ∧ t = .builder (b.add c) :: stk := by
  refine .op hq fun h => ?_
  rw [hrun] at h ⊢
  have hok : safe ∨ ∃ b', w b = .ok b' := h.imp_right fun ⟨t, ht⟩ => by
    obtain ⟨b', hb', -⟩ := bind_eq_ok.1 ht
    exact ⟨b', hb'⟩
  have hputs := hput hok
  have hbc : b.HasRoom c := hok.elim hroom fun ⟨b', hb'⟩ => ((hputs.eq_ok hb).1 hb').1
  exact ⟨_, by rw [hputs.adds hbc]; rfl, hputs, hbc, rfl⟩

theorem copyRaw_runs {x : Slice} {held : List Held} {b : Builder} (hx : x.Valid)
    (hb : b.HasRoom .empty) (hroom : safe → b.HasRoom x.toCell) :
    (copyRaw (.raw :: held)).RunsIf safe d (.builder b :: .slice x :: stk) fun r t =>
      r = held ∧ b.HasRoom x.toCell ∧ t = .builder (b.add x.toCell) :: stk :=
  (puts_runs rfl (by simp) (fun _ => Builder.writeSlice_puts hx) hb hroom).bind
    fun _ _ _ ht _ => .pure ⟨rfl, ht.2⟩

theorem copyValue_runs {w w' : Written} {v : Value} {held : List Held} {b : Builder}
    (hw : Recoded safe w w') (hv : v.Valid) (hc : v.canon = w.value) (hb : b.HasRoom .empty)
    (hroom : safe → b.HasRoom w'.content) :
    (copyValue w.leaf.type (.value w.leaf.type :: held)).RunsIf safe d (.builder b :: v :: stk)
      fun r s => r = held ∧ Recoded True w w' ∧ b.HasRoom w'.content ∧
        s = .builder (b.add w'.content) :: stk := by
  rw [copyValue, if_pos rfl]
  have himage (h : safe ∨ ∃ b', w.leaf.type.store v b = .ok b') : w'.Image := by
    refine hw.image (h.imp_right fun ⟨b', hb'⟩ => ⟨b, b', ?_⟩)
    rwa [hw.leaf, hw.value, ← hc, Ty.store_canon _ hv]
  have hput (h : safe ∨ ∃ b', w.leaf.type.store v b = .ok b') :
      Builder.Puts (w.leaf.type.store v) w'.content := by
    have hwrites := (himage h).writes
    rw [hw.leaf, hw.value] at hwrites
    exact Ty.puts_of_canon hwrites hv hc
  refine (puts_runs rfl (by simp) hput hb hroom).bind fun _ t _ ht _ => .pure ?_
  obtain ⟨hputs, hbc, rfl⟩ := ht
  exact ⟨rfl, ⟨hw.reads, hw.leaf, hw.value, hw.same,
    fun _ => himage (.inr ⟨_, hputs.adds hbc⟩)⟩, hbc, rfl⟩

/-- Fragments that are held are written back. -/
theorem copyFragments_runs (held : List Held) (stk : Stack) {fs : List Fragment} {es : List Value}
    {ws ws' : List Written} {b : Builder} (h : Copied safe fs es ws ws') (hb : b.HasRoom .empty)
    (hroom : safe → b.HasRoom (Written.row ws')) :
    (copyFragments fs (fs.map heldAs ++ held)).RunsIf safe d (.builder b :: (es ++ stk)) fun r t =>
      r = held ∧ Copied True fs es ws ws' ∧ b.HasRoom (Written.row ws') ∧
        t = .builder (b.add (Written.row ws')) :: stk := by
  induction h generalizing b d with
  | nil => exact .pure ⟨rfl, .nil, hb, by rw [Written.row, Builder.add_empty]; rfl⟩
  | raw x hx hu hfix h ih =>
    rw [Written.row_append, Builder.add_append, Builder.HasRoom.append] at *
    rw [← hu] at hroom ⊢
    refine (copyRaw_runs hx hb fun hs => (hroom hs).1).bind fun r t d' ht _ => ?_
    obtain ⟨rfl, hbx, rfl⟩ := ht
    refine (ih hbx.add fun hs => (hroom hs).2).mono fun r t ht => ?_
    exact ⟨ht.1, .raw x hx hu hfix ht.2.1, ⟨hbx, ht.2.2.1⟩, ht.2.2.2⟩
  | value v hv hc hfix hw h ih =>
    rw [Written.row, Builder.add_append, Builder.HasRoom.append] at *
    refine (copyValue_runs hw hv hc hb fun hs => (hroom hs).1).bind fun r t d' ht _ => ?_
    obtain ⟨rfl, hw', hbx, rfl⟩ := ht
    refine (ih hbx.add fun hs => (hroom hs).2).mono fun r t ht => ?_
    exact ⟨ht.1, .value v hv hc hfix hw' ht.2.1, ⟨hbx, ht.2.2.1⟩, ht.2.2.2⟩

/-- A value without leaves is not taken for the fragments of leaves. -/
theorem copyFragments_fails {l : StoredLeaf} {ls : List StoredLeaf} {u : Ty} {held : List Held}
    (hl : l.type.IsLeaf) (hu : u.leaves = []) :
    (copyFragments (fragments (l :: ls)) (.value u :: held)).Fails := by
  have hne : u ≠ l.type := by
    rintro rfl
    simp [Ty.leaves_leaf hl] at hu
  rw [fragments]
  split
  · split <;> exact (Gen.Fails.fail _).bind
  · rw [copyFragments, copyValue, if_neg hne]
    exact (Gen.Fails.fail _).bind

/-! ### Writing pieces -/

/-- The contents have been added to the builders; what is held is left under values without
leaves. -/
def Wrote (ws : List Written) (held : List Held) (es : List Value) (s : Slice)
    (q : List Builder × Builder) (stk : Stack) (r : Progress) (t : Stack) : Prop :=
  (Written.grow ws q).2.HasRoom .empty ∧ ∃ us : List Ty, Ty.allLeaves us = [] ∧
    r = ⟨us.map .value ++ held, (Written.grow ws q).1.length + 1⟩ ∧
      t = workStack (Ty.buildAll us [] ++ es) s (Written.grow ws q) stk

theorem hasRoom_opened (opens : Bool) (h : q.2.HasRoom .empty) :
    (opened opens q).2.HasRoom .empty := by
  rw [opened]
  split
  · exact ⟨Nat.zero_le _, Nat.zero_le _⟩
  · exact h

/-- **New values are written leaf by leaf.** -/
theorem writeLeaves_runs : ∀ (held : List Held) {ls : List StoredLeaf} {us : List Ty}
    {ns : List Written} {ys es : List Value} {q : List Builder × Builder} {rest : List PackedLeaf}
    {d : Nat}, Ty.allLeaves us = ls.map (·.type) → News safe ls ns ys →
    (safe → ∀ n ∈ ns, n.Bounded) → q.2.HasRoom .empty →
    (safe → q.2.Fits (ns.map (·.leaf) ++ rest)) →
    d + 1 + stk.length = entry + (workStack (Ty.buildAll us ys ++ es) s q stk).length →
    (writeLeaves entry ls ⟨us.map .value ++ held, q.1.length + 1⟩).RunsIf safe d
      (workStack (Ty.buildAll us ys ++ es) s q stk) fun r t =>
        News True ls ns ys ∧ Wrote ns held es s q stk r t
  | held, [], us, ns, ys, es, q, rest, d, hl, hn, _, hq, _, _ => by
    obtain ⟨hns, hys⟩ := hn.length_eq
    obtain rfl := List.length_eq_zero_iff.1 hns
    obtain rfl := List.length_eq_zero_iff.1 hys
    exact .pure ⟨⟨rfl, .nil⟩, hq, us, hl, rfl, rfl⟩
  | held, l :: ls, us, ns, ys, es, q, rest, d, hl, hn, hbound, hq, hfits, hd => by
    obtain ⟨n, ns, y, ys, rfl, rfl, hleaf, hr, hi, hy, hyv, hn'⟩ := hn.cons
    have hbound' : safe → ∀ n ∈ ns, n.Bounded := fun hs => (List.forall_mem_cons.1 (hbound hs)).2
    have hfits' (hs : safe) := Written.fits_grow q.1
      (by simpa using (List.forall_mem_cons.1 (hbound hs)).1 : ∀ w ∈ [n], w.Bounded) (hfits hs)
    simp only [show (q.1, q.2) = q from rfl, grow_cons] at hfits'
    have hopen := openBuilderFor_runs (us.map .value ++ held) [l] hd
    rw [show opensCell [l] = n.leaf.opensCell by rw [hleaf]; rfl] at hopen
    have hq' := hasRoom_opened n.leaf.opensCell hq
    simp only [Wrote, grow_cons]
    generalize opened n.leaf.opensCell q = q' at hopen hfits' hq' ⊢
    refine hopen.runsIf.bind fun r t d1 ht hd1 => ?_
    obtain ⟨rfl, rfl⟩ := ht
    have hx : ys.length = (ls.map (·.type)).length := by rw [List.length_map, hn'.length_eq.2]
    have hexpose := expose_runs (t := l.type) held y hl hx q'.2
      (es ++ .slice s :: (Gen.stacked q'.1 ++ stk)) d1
    rw [workStack_append (q := q')] at hd1 ⊢
    refine hexpose.runsIf.bind fun r t d2 ht hd2 => ?_
    obtain ⟨us', rfl, hl', rfl⟩ := ht
    have himage (h : safe ∨ ∃ b', l.type.store y q'.2 = .ok b') : n.Image := by
      refine hi (h.imp_right fun ⟨b', hb'⟩ => ⟨q'.2, b', ?_⟩)
      rwa [hleaf, ← hyv, Ty.store_canon _ hy]
    have hput (h : safe ∨ ∃ b', l.type.store y q'.2 = .ok b') :
        Builder.Puts (l.type.store y) n.content := by
      have hwrites := (himage h).writes
      rw [hleaf] at hwrites
      exact Ty.puts_of_canon hwrites hy hyv
    refine (puts_runs rfl (by simp) hput hq' fun hs => hasRoom_of_fits (hfits' hs)).bind
      fun _ t d3 ht hd3 => ?_
    obtain ⟨hputs, hroom, rfl⟩ := ht
    have hd' : d3 + 1 + stk.length = entry +
        (workStack (Ty.buildAll us' ys ++ es) s (q'.1, q'.2.add n.content) stk).length := by
      rw [workStack_append]
      simp only [List.length_cons] at hd1 hd2 hd3 ⊢
      omega
    have ih := writeLeaves_runs held hl' hn' hbound' (q := (q'.1, q'.2.add n.content)) hroom.add
      hfits' hd'
    rw [workStack_append] at ih
    refine ih.mono fun r t ht => ⟨⟨?_, .cons ⟨hr, fun _ => himage (.inr ⟨_, hputs.adds hroom⟩), hy,
      hyv⟩ ht.1.gives⟩, ht.2⟩
    rw [List.map_cons, hleaf, ht.1.leaf]
    rfl

/-- A piece that is not picked is copied to the builders, and what is held under it is left. -/
theorem writeCopy_runs (part : List Held) (zs : List Value) (copied : Prop) {p : List StoredLeaf}
    {ps : List (List StoredLeaf)} {us : List Written} {ts : List Ty} {held : List Held}
    {rest : List PackedLeaf} {post : Progress → Stack → Prop} (hne : p ≠ [])
    (ho : ∀ l ∈ p, l.owner = none) (hc : ∀ l ∈ p.tail, l.opensCell = false)
    (hl : us.map (·.leaf) = rowOf p) (hbound : safe → ∀ w ∈ us, w.Bounded)
    (hcopy : ∀ {b : Builder} {stk : Stack} {d : Nat}, b.HasRoom .empty →
      (safe → b.HasRoom (Written.row us)) →
      (if opensNext ps then copyRaw (part ++ held)
        else copyFragments (fragments p) (part ++ held)).RunsIf safe d
          (.builder b :: (zs ++ stk)) fun r t => r = held ∧ copied ∧ b.HasRoom (Written.row us) ∧
            t = .builder (b.add (Written.row us)) :: stk)
    (hfails : ∀ {u : Ty} {held : List Held}, u.leaves = [] →
      (if opensNext ps then copyRaw (.value u :: held)
        else copyFragments (fragments p) (.value u :: held)).Fails)
    (hts : Ty.allLeaves ts = []) (hq : q.2.HasRoom .empty)
    (hfits : safe → q.2.Fits (us.map (·.leaf) ++ rest))
    (hd : d + 1 + stk.length = entry + (workStack (Ty.buildAll ts [] ++ (zs ++ es)) s q stk).length)
    (hpost : ∀ {d' : Nat}, copied → (Written.grow us q).2.HasRoom .empty →
      d' + 1 + stk.length = entry + (workStack es s (Written.grow us q) stk).length →
      (writePieces entry ps ⟨held, (Written.grow us q).1.length + 1⟩).RunsIf safe d'
        (workStack es s (Written.grow us q) stk) post) :
    (writePieces entry (p :: ps) ⟨ts.map .value ++ (part ++ held), q.1.length + 1⟩).RunsIf safe d
      (workStack (Ty.buildAll ts [] ++ (zs ++ es)) s q stk) post := by
  have hhead : p.head?.any (·.picked) = false := any_head_picked hne (picked_of_owner ho)
  have hus : us ≠ [] := by
    rintro rfl
    exact hne (List.map_eq_nil_iff.1 hl.symm)
  have hfits' (hs : safe) := Written.fits_grow q.1 (hbound hs) (hfits hs)
  simp only [show (q.1, q.2) = q from rfl] at hfits'
  rw [grow_row hus (oneCell_of_leaf hl hc), opens_eq hl] at hfits' hpost
  have hq' := hasRoom_opened (opensCell p) hq
  rw [writePieces, if_neg (by simp [hhead])]
  refine (openBuilderFor_runs _ p hd).runsIf.bind fun r t d1 ht hd1 => ?_
  obtain ⟨rfl, rfl⟩ := ht
  generalize opened (opensCell p) q = q' at hfits' hpost hq' hd1 ⊢
  rcases ts with _ | ⟨u, ts⟩
  · change d1 + _ = _ + (workStack (zs ++ es) s q' stk).length at hd1
    change Gen.RunsIf safe _ d1 (workStack (zs ++ es) s q' stk) post
    rw [workStack_append (q := q')] at hd1 ⊢
    refine (hcopy hq' fun hs => hasRoom_of_fits (hfits' hs)).ite_bind fun r t d2 ht hd2 =>
      .pure_bind ?_
    obtain ⟨rfl, hcopied, hroom, rfl⟩ := ht
    refine hpost hcopied hroom.add ?_
    simp only [workStack, List.length_cons] at hd hd1 hd2 ⊢
    omega
  · have hu := (List.append_eq_nil_iff.1 hts).1
    have hcode := @hfails u (ts.map .value ++ (part ++ held)) hu
    split at hcode
    · next hnext =>
      rw [if_pos hnext]
      exact hcode.bind.runsIf
    · next hnext =>
      rw [if_neg hnext]
      exact hcode.bind.runsIf

/-- **Writing the pieces that are held grows the builders by their contents.** Values without leaves
may be left over from the pieces before. -/
theorem writePieces_runs {ps : List (List StoredLeaf)} {ns ws ws' : List Written}
    {held : List Held} {es : List Value} (h : Holds safe ps ns ws ws' held es) :
    ∀ (us : List Ty) {q : List Builder × Builder} {rest : List PackedLeaf} {d : Nat},
      (safe → DocumentedRow ps.flatten) → Ty.allLeaves us = [] → q.2.HasRoom .empty →
      (safe → q.2.Fits (ws'.map (·.leaf) ++ rest)) →
      d + 1 + stk.length = entry + (workStack (Ty.buildAll us [] ++ es) s q stk).length →
      (writePieces entry ps ⟨us.map .value ++ held, q.1.length + 1⟩).RunsIf safe d
        (workStack (Ty.buildAll us [] ++ es) s q stk) fun r t =>
          Holds True ps ns ws ws' held es ∧ Wrote ws' [] [] s q stk r t := by
  induction h with
  | nil => exact fun us _ _ _ _ hus hq _ _ => .pure ⟨.nil, hq, us, hus, rfl, rfl⟩
  | @new p ps ms ns us ws ws' held es ys v hne ho ht hold hn h ih =>
    intro ts q rest d hdoc hts hq hfits hd
    have hdoc' (hs : safe) := (documentedRow_append.1 (hdoc hs)).2
    have hhead : p.head?.any (·.picked) = true := any_head_picked hne (picked_of_owner ho)
    rw [List.map_append, List.append_assoc] at hfits
    have hy : ys.length = v.type.leaves.length := by rw [hn.length_eq.2, ← ht, List.length_map]
    have hleaves : Ty.allLeaves (ts ++ [v.type]) = p.map (·.type) := by
      rw [ht, Ty.allLeaves_append, hts, Ty.allLeaves, List.flatMap_singleton, List.nil_append]
    have hbound (hs : safe) := (documentedRow_append.1 (hdoc hs)).1.bounded hn.leaf hn.reads
    have hstack : workStack (Ty.buildAll ts [] ++ v.type.build ys :: es) s q stk =
        workStack (Ty.buildAll (ts ++ [v.type]) ys ++ es) s q stk := by
      rw [Ty.buildAll_concat hts hy, List.append_assoc]
      rfl
    have hheld : ts.map Held.value ++ .value v.type :: held =
        (ts ++ [v.type]).map .value ++ held := by simp
    rw [hstack] at hd ⊢
    rw [hheld, writePieces, if_pos hhead]
    refine (writeLeaves_runs held hleaves hn hbound hq hfits hd).bind fun r t d1 ht hd1 => ?_
    obtain ⟨hn', hq', ts', hts', rfl, rfl⟩ := ht
    refine (ih ts' hdoc' hts' hq' (fun hs => Written.fits_grow _ (hbound hs) (hfits hs)) ?_).mono
      fun r t hr => ⟨.new hne ho ht hold hn' hr.1, ?_⟩
    · omega
    · rw [Wrote, Written.grow_append]
      exact hr.2
  | @whole p ps ns us ws ws' held es x hne ho hc hnext hold hx hu h ih =>
    intro ts q rest d hdoc hts hq hfits hd
    have hdoc' (hs : safe) := (documentedRow_append.1 (hdoc hs)).2
    rw [List.map_append, List.append_assoc] at hfits
    have hbound (hs : safe) := (documentedRow_append.1 (hdoc hs)).1.bounded hold.leaf hold.reads
    refine writeCopy_runs [.raw] [.slice x] True hne ho hc hold.leaf hbound
      (fun hb hroom => ?_) (fun _ => ?_) hts hq hfits hd fun _ hq' hd' => ?_
    · rw [← hu] at hroom ⊢
      rw [if_pos hnext]
      exact (copyRaw_runs hx hb hroom).mono fun r t ht => ⟨ht.1, trivial, ht.2⟩
    · rw [if_pos hnext]
      exact .fail _
    · refine (ih [] hdoc' rfl hq' (fun hs => Written.fits_grow _ (hbound hs) (hfits hs))
        hd').mono fun r t ht => ⟨.whole hne ho hc hnext hold hx hu ht.1, ?_⟩
      rw [Wrote, Written.grow_append]
      exact ht.2
  | @parts p ps ns us us' ws ws' held es zs hne ho hc hnext hold hcopy h ih =>
    intro ts q rest d hdoc hts hq hfits hd
    have hdoc' (hs : safe) := (documentedRow_append.1 (hdoc hs)).2
    rw [List.map_append, List.append_assoc] at hfits
    have hl := hcopy.leaf.trans hold.leaf
    have hbound (hs : safe) :=
      (documentedRow_append.1 (hdoc hs)).1.bounded hl (hcopy.reads hold.reads)
    have hoff : ¬ opensNext ps = true := by simp [hnext]
    refine writeCopy_runs _ zs (Copied True (fragments p) zs us us') hne ho hc hl hbound
      (fun hb hroom => ?_) (fun hu => ?_) hts hq hfits hd fun hcopy' hq' hd' => ?_
    · rw [if_neg hoff]
      exact copyFragments_runs held _ hcopy hb hroom
    · rw [if_neg hoff]
      rcases p with _ | ⟨l, p⟩
      · exact absurd rfl hne
      refine copyFragments_fails ?_ hu
      obtain ⟨w, hw, he⟩ := List.mem_map.1
        (hold.leaf ▸ List.mem_cons_self .. : l.toPackedLeaf ∈ us.map (·.leaf))
      exact he ▸ (hold.stored w hw).isLeaf
    · refine (ih [] hdoc' rfl hq' (fun hs => Written.fits_grow _ (hbound hs) (hfits hs))
        hd').mono fun r t ht => ⟨.parts hne ho hc hnext hold hcopy' ht.1, ?_⟩
      rw [Wrote, Written.grow_append]
      exact ht.2

end Patch

end TypedCells
