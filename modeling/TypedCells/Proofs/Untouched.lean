import TypedCells.Proofs.Canonical
import TypedCells.Proofs.CellContents
import TypedCells.Proofs.Update

/-!
# What an update leaves as it is

An update copies the leaves that are not picked. Those that are copied as part of a slice keep their
bits and references. Those of varying size are read and written again, unless a cell opens behind
their piece (`Patch.recoded`), and then they are what writing their values gives: this has the same
value, but may differ from what was there if the encoder would not have written that
(`Patch.update_recodes`).
-/

namespace TypedCells

/-! ### The contents of leaves -/

/-- What the slice shows in front of `r`, which is what is left of it. -/
def Slice.before (s r : Slice) : Cell :=
  ⟨s.bits.take (r.bitStart - s.bitStart), s.refs.take (r.refStart - s.refStart)⟩

theorem Slice.before_past {s : Slice} {c d : Cell} (h : s.toCell = c ++ d) :
    s.before (s.past c) = c := by
  have hb : s.bits = c.bits ++ d.bits := congrArg Cell.bits h
  have hr : s.refs = c.refs ++ d.refs := congrArg Cell.refs h
  ext1 <;> simp [before, past, advance, hb, hr]

/-- The bits and references that fetching each of the leaves takes off a slice, in turn, and what is
left. The link to the cell of a leaf that opens one is not part of them. -/
def PackedLeaf.contents : List PackedLeaf → Slice → Except Trap (List Cell × Slice)
  | [], s => return ([], s)
  | l :: ls, s => do
    let q ← l.enter s
    let (_, r) ← l.fetch s
    let (cs, s) ← contents ls r
    return (q.before r :: cs, s)

/-- Where leaves are fetched from woven contents, these are their contents. -/
theorem Written.contents_weave : ∀ {ws : List Written} {s r : Slice} {e : Cell} {vs : List Value},
    (∀ w ∈ ws, w.Reads) → s.Valid → s.toCell = weave ws e →
    PackedLeaf.fetchAll (ws.map (·.leaf)) s = .ok (vs, r) →
    PackedLeaf.contents (ws.map (·.leaf)) s = .ok (ws.map (·.content), r)
  | [], s, r, e, vs, _, _, _, h => by
    obtain ⟨-, rfl⟩ := Prod.mk.inj (Except.ok.inj h)
    rfl
  | w :: ws, s, r, e, vs, hw, hs, he, h => by
    obtain ⟨q, v, hq, hqv, hqc, hf, -⟩ := fetch_weave (hw w (List.mem_cons_self ..)) hs he
    obtain ⟨_, _, q', h1, h2, -⟩ := PackedLeaf.fetchAll_cons_eq_ok h
    obtain ⟨-, rfl⟩ := Prod.mk.inj (Except.ok.inj (hf.symm.trans h1))
    have ih := contents_weave (fun w h => hw w (List.mem_cons_of_mem _ h)) (hqv.past hqc)
      (Slice.toCell_past hqc) h2
    simp [PackedLeaf.contents, hq, hf, ih, Slice.before_past hqc]

/-! ### Kept leaves -/

/-- The value is read from `c`, which is all there is, and writing it gives `c'`. -/
def Ty.Recodes (t : Ty) (c c' : Cell) : Prop :=
  ∃ v r b, t.load (.ofCell c) = .ok (v, r) ∧ r.isEmpty = true ∧ t.store v {} = .ok b ∧ b.toCell = c'

namespace Patch

theorem Renewed.kept {ls : List StoredLeaf} {marks : List Bool} {ns ws ws' : List Written}
    (h : Renewed ls marks ns ws ws') {i : Nat} (hi : (marksOf ls)[i]? = some false) :
    ∃ m w w', marks[i]? = some m ∧ ws[i]? = some w ∧ ws'[i]? = some w' ∧ Kept m w w' := by
  induction h generalizing i with
  | nil => simp [marksOf] at hi
  | new hl _ ih =>
    cases i with
    | zero => simp [marksOf, hl] at hi
    | succ i => exact ih hi
  | @keep _ _ m _ w w' _ _ _ _ hw _ ih =>
    cases i with
    | zero => exact ⟨m, w, w', rfl, rfl, rfl, hw⟩
    | succ i => exact ih hi

/-- A leaf that is recoded holds what writing the value that it held gives. -/
theorem Kept.recodes {w w' : Written} (h : Kept true w w') (hw : w.Reads)
    (hroom : w'.Bounded → Builder.HasRoom {} w'.content) :
    w.leaf.type.Recodes w.content w'.content := by
  have himage := h.image rfl
  have hshow : (Slice.ofCell w.content).toCell = w.content ++ .empty := by simp
  obtain ⟨⟨v, r⟩, hload, hr, hv⟩ := hw.reads (Slice.valid_ofCell w.content) hshow
  obtain rfl : r = (Slice.ofCell w.content).past w.content := hr
  have hput := Ty.puts_of_canon himage.writes (w'.leaf.type.load_valid (Slice.valid_ofCell _)
    (h.leaf ▸ hload)) (hv.trans h.value.symm)
  rw [h.leaf] at hput
  exact ⟨v, _, _, hload,
    ((Slice.valid_ofCell _).past hshow).isEmpty_iff.2 (Slice.toCell_past hshow),
    hput.adds (hroom himage.bounded), Cell.empty_append _⟩

/-- A leaf with one content only for each value keeps it. -/
theorem Kept.exact {m : Bool} {w w' : Written} (h : Kept m w w') (hw : w.Reads)
    (he : w.leaf.type.Exact) (ho : w.leaf.type.Accepted) : w' = w := by
  have himage := hw.reads.image he (.inl ho)
  exact h.same ⟨hw, himage.writes, himage.bounds⟩

/-- What an update makes of a leaf of an unmarked variable. -/
theorem Covers.kept {bits refs start : Nat} {types : List Ty} {marks : List Bool} {p : Patch}
    {k : Packing} {vars : List (Ty × Bool)} {rest : List StoredLeaf} {ns ws ws' : List Written}
    (hc : p.Covers start types marks k vars rest) (hk : Packing.ofTypes bits refs types = .ok k)
    (hl : ws.map (·.leaf) = rowOf (p.visited ++ rest)) (hw : ∀ w ∈ ws, w.Reads)
    (h : Renewed (p.visited ++ rest) (recoded (pieces p.visited) ++ rest.map fun _ => false)
      ns ws ws') {i : Nat} {l : PackedLeaf} (hi : (rowOf (p.visited ++ rest))[i]? = some l)
    (hmark : (leafMarks (types.drop start) (marks.drop start))[i]? = some false) :
    ∃ w w', ws[i]? = some w ∧ ws'[i]? = some w' ∧
      ((recoded (pieces p.visited))[i]? = some true → l.type.Recodes w.content w'.content) ∧
      ((recoded (pieces p.visited))[i]? ≠ some true ∨ l.type.Exact → w' = w) := by
  rw [← hc.types_eq, ← hc.marks_eq, ← hc.laid.leafMarks] at hmark
  obtain ⟨m, w, w', hm, hiw, hiw', hkept⟩ := h.kept hmark
  obtain rfl : w.leaf = l := by
    rw [← hl, List.getElem?_map, hiw] at hi
    exact Option.some.inj hi
  have hmem : w.leaf ∈ rowOf (p.visited ++ rest) := List.mem_of_getElem? hi
  have hreads := hw w (List.mem_of_getElem? hiw)
  refine ⟨w, w', hiw, hiw', fun hrec => ?_, ?_⟩
  · rw [List.getElem?_append_left (List.getElem?_eq_some_iff.1 hrec).1, hrec] at hm
    obtain rfl := Option.some.inj hm
    exact hkept.recodes hreads ((hc.room hk).hasRoom (hkept.leaf ▸ hmem))
  · rintro (hrec | he)
    · refine hkept.unchanged ?_
      rw [List.getElem?_append] at hm
      split at hm
      · rw [hm] at hrec
        simpa using hrec
      · obtain ⟨_, -, rfl⟩ := List.mem_map.1 (List.mem_of_getElem? hm)
        rfl
    · exact hkept.exact hreads he (hc.accepted hk hmem)

/-- **An update keeps what it does not pick, up to recoding.** Let the strict code for the variables
of the range read a slice, and let the code of the update run on it without a trap. Then the strict
code reads the result too, and leaves the same. Each leaf of an unmarked variable takes the same
bits and references off the result as off the slice, unless it is recoded; then it takes what
writing the value gives, which is the same if the type has one content only for each value. -/
theorem update_recodes {α : Type} {bits refs start : Nat} {types : List Ty} {marks : List Bool}
    {p : Patch} {k : Packing} {frame frame' : Option Frame} {d entry : Nat}
    {strict : Generated Position} {g : Generated α}
    (hp : ofMarks bits refs start types marks = .ok p)
    (hk : Packing.ofTypes bits refs types = .ok k)
    (hstrict : Gen.readAll (types.drop start) (.packed ⟨k, p.start⟩) frame d = .ok strict)
    {s r : Slice} {old : List Value} (hs : s.Valid)
    (hread : Instr.exec strict.code [.slice s] = .ok (.slice r :: old.reverse))
    {new : Nat → α → Gen α} {a : α} {xs : List Value} {below t : Stack}
    (hxs : Ty.AdmitsAll (chosen marks types) xs)
    (hsup : Supplies new entry below (chosen marks (List.range marks.length)) xs a)
    (hg : p.update new a frame' entry = .ok g)
    (hrun : Instr.exec g.code (.slice s :: below) = .ok t) :
    ∃ (s' r' : Slice) (vs : List Value) (cs cs' : List Cell), t = .slice s' :: below ∧
      Instr.exec strict.code [.slice s'] = .ok (.slice r' :: vs.reverse) ∧ r'.same r = true ∧
      PackedLeaf.contents (k.leaves.drop p.start) s = .ok (cs, r) ∧
      PackedLeaf.contents (k.leaves.drop p.start) s' = .ok (cs', r') ∧
      ∀ (i : Nat) (l : PackedLeaf), (k.leaves.drop p.start)[i]? = some l →
        (leafMarks (types.drop start) (marks.drop start))[i]? = some false →
        ∃ c c', cs[i]? = some c ∧ cs'[i]? = some c' ∧
          ((recoded (pieces p.visited))[i]? = some true → l.type.Recodes c c') ∧
          ((recoded (pieces p.visited))[i]? ≠ some true ∨ l.type.Exact → c' = c) := by
  obtain ⟨k', vars, rest, hk', -, hc⟩ := ofMarks_covers hp
  obtain rfl := Except.ok.inj (hk.symm.trans hk')
  obtain ⟨ns, ys, rfl, -, hnew⟩ := hc.exists_news False hk False.elim hxs
  -- the contents that the strict code reads
  rw [hc.exec_strict hstrict] at hread
  simp only [bind_eq_ok, pure_eq_ok, Except.ok.injEq, List.cons.injEq, Value.slice.injEq] at hread
  obtain ⟨⟨zs, r'⟩, hf, rfl, -⟩ := hread
  obtain ⟨ws, hl, -, hw, hshow⟩ := PackedLeaf.fetchAll_written hs hf
  -- and those that the update leaves
  obtain ⟨f, hrunAll⟩ := Instr.exec_eq_ok.1 hrun
  obtain ⟨t', ht, -, ws', hren, hl', hw', rfl⟩ := hc.update_runs hk False.elim hl hw hs hshow
    False.elim hnew hsup hg (.inr ⟨_, hrunAll⟩)
  obtain rfl : t = _ := (Prod.mk.inj (Except.ok.inj (hrunAll.symm.trans ht))).2
  obtain ⟨zs', q, hf', -, -, hq⟩ := Written.fetchAll_weave hw'
    (Slice.valid_ofCell (Written.weave ws' r'.toCell)) (Slice.toCell_ofCell _)
  have hcs := Written.contents_weave hw hs hshow (hl ▸ hf)
  have hcs' := Written.contents_weave hw' (Slice.valid_ofCell _) (Slice.toCell_ofCell _) hf'
  rw [hl, hc.row] at hcs
  rw [hl', hc.row] at hcs'
  refine ⟨_, q, Ty.buildAll (types.drop start) zs', _, _, rfl, ?_, Slice.same_iff.2 hq, hcs, hcs',
    fun i l hi hmark => ?_⟩
  · rw [hc.exec_strict hstrict, ← hl', hf']
    simp
  · obtain ⟨w, w', h1, h2, h3, h4⟩ := hc.kept hk hl hw hren (hc.row ▸ hi) hmark
    refine ⟨w.content, w'.content, by simp [h1], by simp [h2], h3, fun h => ?_⟩
    rw [h4 h]

/-- A variable integer and a byte. -/
def paddedTypes : List Ty := [.varInteger 16 false, .integer 8 false]

/-- Their leaves, in one cell. -/
def paddedLeaves : List PackedLeaf := paddedTypes.map (⟨·, false⟩)

/-- One, in two bytes. -/
def paddedOne : Cell := .ofBits (.ofNat 4 2 ++ .ofNat 16 1)

/-- One, in as many bytes as the encoder would take. -/
def shortOne : Cell := .ofBits (.ofNat 4 1 ++ .ofNat 8 1)

/-- The variable integer in more bytes than it needs, and the byte. -/
def paddedData : Slice := .ofCell (paddedOne ++ .ofBits (.ofNat 8 5))

/-- Code that puts a seven on the stack. -/
def sevenNew (_ : Nat) (_ : Unit) : Gen Unit := Gen.op (.pushInt 7)

theorem sevenNew_supplies (entry : Nat) (below : Stack) :
    Supplies sevenNew entry below [1] [.int 7] () := fun d _ _ =>
  (Gen.Turns.op rfl (Op.run_pushInt ..) d).mono fun _ _ ht => ⟨ht, trivial⟩

theorem admits_seven : Ty.AdmitsAll [.integer 8 false] [.int 7] :=
  .cons ⟨⟨.ofCell (.ofBits (.ofNat 8 7)), _, Slice.valid_ofCell _, rfl⟩, rfl⟩ .nil

/-- The patch that picks the byte recodes the variable integer. -/
theorem exists_paddedPatch : ∃ p, ofMarks 0 0 0 paddedTypes [false, true] = .ok p ∧ p.start = 0 ∧
    (recoded (pieces p.visited))[0]? = some true := by
  obtain ⟨p, hp, hstart, hrec⟩ := exists_patch_of_any
    (fun p => (recoded (pieces p.visited))[0]? == some true)
    (show (ofMarks 0 0 0 paddedTypes [false, true]).toOption.any _ = true by decide +kernel)
  exact ⟨p, hp, hstart, beq_iff_eq.1 hrec⟩

/-- The strict code reads the data. -/
theorem exists_paddedRead {i : Nat} (hi : i = 0) :
    ∃ (strict : Generated Position) (r : Slice) (vs : List Value),
      Gen.readAll (paddedTypes.drop 0) (.packed ⟨⟨paddedLeaves⟩, i⟩) none 1 = .ok strict ∧
      Instr.exec strict.code [.slice paddedData] = .ok (.slice r :: vs.reverse) := by
  subst hi
  obtain ⟨strict, r, vs, h, hread, -⟩ := exists_read_of_any (fun _ => true) (show
    ((Gen.readAll (paddedTypes.drop 0) (.packed ⟨⟨paddedLeaves⟩, 0⟩) none 1).toOption.any fun g =>
      (topSlice? (Instr.exec g.code [.slice paddedData])).any _) = true by decide +kernel)
  exact ⟨strict, r, vs, h, hread⟩

/-- The code of the update runs on the data, and writes the integer anew. -/
theorem exists_paddedUpdate {p : Patch} (hp : ofMarks 0 0 0 paddedTypes [false, true] = .ok p) :
    ∃ (g : Generated Unit) (s : Slice) (t : Stack), p.update sevenNew () none 2 = .ok g ∧
      Instr.exec g.code [.slice paddedData, .null] = .ok (.slice s :: t) ∧
      (PackedLeaf.contents paddedLeaves s).toOption.map (·.1) =
        some [shortOne, .ofBits (.ofNat 8 7)] := by
  have hrun : ((ofMarks 0 0 0 paddedTypes [false, true]).toOption.any fun p =>
      (p.update sevenNew () none 2).toOption.any fun g =>
        (topSlice? (Instr.exec g.code [.slice paddedData, .null])).any fun s =>
          (PackedLeaf.contents paddedLeaves s).toOption.map (·.1) ==
            some [shortOne, .ofBits (.ofNat 8 7)]) = true := by decide +kernel
  rw [any_toOption hp] at hrun
  obtain ⟨g, hg, hrun⟩ := exists_of_any hrun
  obtain ⟨s, htop, hs⟩ := (Option.any_eq_true ..).1 hrun
  obtain ⟨t, ht⟩ := topSlice?_eq_some htop
  exact ⟨g, s, t, hg, ht, beq_iff_eq.1 hs⟩

/-- A variable integer before the picked byte is written anew. -/
theorem update_recodes_padded :
    ∃ (p : Patch) (strict : Generated Position) (g : Generated Unit) (s r r' : Slice)
      (old vs : List Value) (cs cs' : List Cell), ofMarks 0 0 0 paddedTypes [false, true] = .ok p ∧
      Gen.readAll (paddedTypes.drop 0) (.packed ⟨⟨paddedLeaves⟩, p.start⟩) none 1 = .ok strict ∧
      Instr.exec strict.code [.slice paddedData] = .ok (.slice r :: old.reverse) ∧
      p.update sevenNew () none 2 = .ok g ∧
      Instr.exec g.code [.slice paddedData, .null] = .ok [.slice s, .null] ∧
      Instr.exec strict.code [.slice s] = .ok (.slice r' :: vs.reverse) ∧ r'.same r = true ∧
      PackedLeaf.contents (paddedLeaves.drop p.start) paddedData = .ok (cs, r) ∧
      PackedLeaf.contents (paddedLeaves.drop p.start) s = .ok (cs', r') ∧
      ∃ c c', cs[0]? = some c ∧ cs'[0]? = some c' ∧ (Ty.varInteger 16 false).Recodes c c' := by
  obtain ⟨p, hp, hstart, hrec⟩ := exists_paddedPatch
  obtain ⟨strict, r, old, hstrict, hread⟩ := exists_paddedRead hstart
  obtain ⟨g, _, _, hg, hrun, -⟩ := exists_paddedUpdate hp
  obtain ⟨s, r', vs, cs, cs', hs, h1, h2, h3, h4, h5⟩ := update_recodes hp rfl hstrict
    (Slice.valid_ofCell _) hread admits_seven (sevenNew_supplies 2 [.null]) hg hrun
  obtain ⟨c, c', hc, hc', hcode, -⟩ := h5 0 ⟨.varInteger 16 false, false⟩ (by rw [hstart]; rfl) rfl
  rw [hs] at hrun
  exact ⟨p, strict, g, s, r, r', old, vs, cs, cs', hp, hstrict, hread, hg, hrun, h1, h2, h3, h4, c,
    c', hc, hc', hcode hrec⟩

/-- So an update changes what it does not pick: the integer takes two bytes of the data, and one of
the result. -/
theorem update_shortens :
    ∃ (p : Patch) (strict : Generated Position) (g : Generated Unit) (s r r' r'' : Slice)
      (old : List Value) (t : Stack) (cs cs' : List Cell),
      ofMarks 0 0 0 paddedTypes [false, true] = .ok p ∧
      Gen.readAll (paddedTypes.drop 0) (.packed ⟨⟨paddedLeaves⟩, p.start⟩) none 1 = .ok strict ∧
      paddedData.Valid ∧
      Instr.exec strict.code [.slice paddedData] = .ok (.slice r :: old.reverse) ∧
      Ty.AdmitsAll (chosen [false, true] paddedTypes) [.int 7] ∧
      Supplies sevenNew 2 [.null] (chosen [false, true] (List.range 2)) [.int 7] () ∧
      p.update sevenNew () none 2 = .ok g ∧
      Instr.exec g.code [.slice paddedData, .null] = .ok (.slice s :: t) ∧
      PackedLeaf.contents paddedLeaves paddedData = .ok (cs, r') ∧
      PackedLeaf.contents paddedLeaves s = .ok (cs', r'') ∧
      (leafMarks paddedTypes [false, true])[0]? = some false ∧ cs[0]? = some paddedOne ∧
      cs'[0]? = some shortOne ∧ paddedOne ≠ shortOne := by
  obtain ⟨p, hp, hstart, -⟩ := exists_paddedPatch
  obtain ⟨strict, r, old, hstrict, hread⟩ := exists_paddedRead hstart
  obtain ⟨g, s, t, hg, hrun, hcs⟩ := exists_paddedUpdate hp
  rcases hs : PackedLeaf.contents paddedLeaves s with e | ⟨cs, r''⟩
  · rw [hs] at hcs
    cases hcs
  · rw [hs] at hcs
    obtain rfl := Option.some.inj hcs
    exact ⟨p, strict, g, s, r, _, r'', old, t, _, _, hp, hstrict, Slice.valid_ofCell _, hread,
      admits_seven, sevenNew_supplies 2 [.null], hg, hrun, rfl, hs, rfl, rfl, rfl, by decide⟩

end Patch

end TypedCells
