import TypedCells.Proofs.Decoders
import TypedCells.Proofs.RoundTrip

/-!
# Calls from either side

A function that accepts calls from outside and from other contracts gets a flag that tells which it
is. Its code has the code for both in the arms of a conditional, so it runs as the code for the one
that the flag stands for, and keeps the flag below the arguments (`Gen.exec_either`). Where writing
values succeeds behind a packing's offset, their woven content is what is behind the old contents
(`Written.putAll_eq_ok`), and the arm with the same offset reads it.

* `Gen.readArguments_either`: the code for either side against the code for one.
-/

namespace TypedCells

/-! ### Leaves that have been written -/

namespace Written

variable {ws : List Written} {xs : List Value} {b c : Builder} {bs : List Builder}
  {r : List Builder × Builder}

/-- Where filling builders succeeds, it has grown them. -/
theorem fillAll_eq_ok (hw : Stores ws xs) (hb : b.HasRoom .empty)
    (h : PackedLeaf.fillAll (ws.map (·.leaf)) xs (bs, b) = .ok r) : r = grow ws (bs, b) := by
  induction hw generalizing bs b with
  | nil => exact (Except.ok.inj h).symm
  | cons hx _ ih =>
    obtain ⟨-, hput⟩ := hx
    rw [List.map_cons, PackedLeaf.fillAll, bind_eq_ok] at h
    obtain ⟨r', hfill, h⟩ := h
    rw [grow]
    rw [PackedLeaf.fill] at hfill
    split at hfill
    · next ho =>
      obtain ⟨b', hstore, he⟩ := bind_eq_ok.1 hfill
      obtain ⟨hroom, rfl⟩ := (hput.eq_ok (b := {}) ⟨by decide, by decide⟩).1 hstore
      obtain rfl := Except.ok.inj he
      rw [if_pos ho]
      exact ih hroom.add h
    · next ho =>
      obtain ⟨b', hstore, he⟩ := bind_eq_ok.1 hfill
      obtain ⟨hroom, rfl⟩ := (hput.eq_ok hb).1 hstore
      obtain rfl := Except.ok.inj he
      rw [if_neg ho]
      exact ih hroom.add h

/-- Where writing leaves succeeds, their woven content is behind what the builder held. -/
theorem putAll_eq_ok (hw : Stores ws xs) (hb : b.HasRoom .empty)
    (h : PackedLeaf.putAll (ws.map (·.leaf)) xs none b = .ok c) :
    c = b.add (weave ws .empty) := by
  obtain ⟨r, hfill, hnest⟩ := bind_eq_ok.1 h
  obtain rfl := fillAll_eq_ok hw hb hfill
  have hweave : Builder.nest [] (b.add (weave ws .empty)) = .ok c :=
    nest_weave [] (by rw [Builder.add_empty]; exact hnest)
  exact (Except.ok.inj hweave).symm

end Written

/-! ### The flag -/

/-- The calls that a flag stands for: those from other contracts if it is zero. -/
def Origin.ofFlag (flag : Int) : Origin := if flag = 0 then .internal else .external

/-- Where the arguments of the calls start that a flag stands for. -/
def Headers.argumentsOffset (h : Headers) (answers : Bool) (flag : Int) : Nat :=
  if flag = 0 then internalOffset answers else h.externalOffset answers

namespace Instr

/-- The flag under the top picks the arm, and is kept. -/
theorem exec_arm (a b : List Instr) (v : Value) (k : Int) (below : Stack) :
    exec [.op (.push 1), .ifElse a b] (v :: .int k :: below) =
      exec (if k = 0 then b else a) (v :: .int k :: below) := by
  have hpush : Op.run (.push 1) (v :: .int k :: below) = .ok (.int k :: v :: .int k :: below) := rfl
  have hflag (s : Stack) : Stack.popBool (.int k :: s) = .ok (k != 0, s) := rfl
  rw [exec, exec, runAll_op, hpush, ok_bind, runAll_single, run, hflag, ok_bind]
  by_cases hk : k = 0
  · simp only [hk, bne_self_eq_false, Bool.false_eq_true, if_false, if_true]
    rcases runAll b (v :: .int 0 :: below) with e | ⟨f, s⟩ <;> rfl
  · simp only [hk, bne_iff_ne.2 hk, if_true, if_false]
    rcases runAll a (v :: .int k :: below) with e | ⟨f, s⟩ <;> rfl

end Instr

namespace Gen

variable {h : Headers} {ts : List Ty} {answers : Bool} {frame frame' : Option Frame}
  {d d' offset : Nat} {g g' : Generated Unit} {k : Int} {p : Packing}

theorem readArguments_ofFlag (h : Headers) (ts : List Ty) (answers : Bool) (k : Int) :
    readArguments h ts answers (.ofFlag k) =
      readArgumentsAt .stops (h.argumentsOffset answers k) ts := by
  unfold Origin.ofFlag Headers.argumentsOffset
  split <;> rfl

/-- The code for either side has the code for both in it. -/
theorem readArguments_either_ok (hg : readArguments h ts answers .either frame d = .ok g) :
    ∃ a b, readExternal .stops h ts answers frame d = .ok a ∧
      readInternal .stops ts answers frame d = .ok b ∧
      g.code = [.op (.push 1), .ifElse a.code b.code] := by
  obtain ⟨_, _, hentry, h1, rfl⟩ := bind_ok.1 hg
  obtain rfl := depth_ok.1 hentry
  obtain ⟨_, _, hrequire, h2, rfl⟩ := bind_ok.1 h1
  obtain ⟨-, rfl⟩ := require_ok.1 hrequire
  obtain ⟨_, _, hpush, h3, rfl⟩ := bind_ok.1 h2
  obtain ⟨-, rfl⟩ := push_ok hpush
  obtain ⟨_, _, hif, hensure, rfl⟩ := bind_ok.1 h3
  obtain ⟨-, a, b, ha, hb, -, rfl⟩ := ifElse_ok hif
  obtain ⟨-, rfl⟩ := ensureDepth_ok.1 hensure
  exact ⟨a, b, ha, hb, rfl⟩

/-- **The code for either side runs as that for the side that the flag stands for.** -/
theorem exec_either (hg : readArguments h ts answers .either frame d = .ok g) (k : Int) :
    ∃ a, readArguments h ts answers (.ofFlag k) frame d = .ok a ∧ ∀ s below,
      Instr.exec g.code (.slice s :: .int k :: below) =
        Instr.exec a.code (.slice s :: .int k :: below) := by
  obtain ⟨a, b, ha, hb, hcode⟩ := readArguments_either_ok hg
  rw [hcode]
  by_cases hk : k = 0
  · refine ⟨b, by rw [Origin.ofFlag, if_pos hk]; exact hb, fun s below => ?_⟩
    rw [Instr.exec_arm, if_pos hk]
  · refine ⟨a, by rw [Origin.ofFlag, if_neg hk]; exact ha, fun s below => ?_⟩
    rw [Instr.exec_arm, if_neg hk]

/-! ### Generating the code again -/

theorem closeStruct_ok {n : Nat} (hg : closeStruct n frame d = .ok g) : n ≤ 255 := by
  obtain ⟨_, _, -, h, -⟩ := bind_ok.1 hg
  obtain ⟨_, _, h, -, -⟩ := bind_ok.1 h
  obtain ⟨_, _, h, -, -⟩ := bind_ok.1 h
  exact (operand_ok.1 h).1

/-- Code that reads a value is generated at every height if it is at one. -/
theorem read_again (t : Ty) : ∀ {pos : Position} {follow : Bool} {frame : Option Frame} {d : Nat}
    {g : Generated Position}, read t pos follow frame d = .ok g →
    MakesReader (read t pos follow) 1 g.value := by
  refine Ty.leafInduction
    (P := fun t => ∀ {pos follow frame d} {g : Generated Position},
      read t pos follow frame d = .ok g → MakesReader (read t pos follow) 1 g.value)
    (Q := fun fs => ∀ {pos follow frame d} {g : Generated Position},
      readFields fs pos follow frame d = .ok g →
      MakesReader (readFields fs pos follow) fs.length g.value)
    (fun t hl pos follow frame d g h => ?leaf)
    (fun x fs ih pos follow frame d g h => ?struct)
    (fun x t ih pos follow frame d g h => ih h)
    (fun {pos follow frame d g} h => ?nil)
    (fun x t fs iht ihfs pos follow frame d g h => ?cons) t
  case leaf =>
    rcases read_leaf hl pos follow with hr | ⟨e, hr⟩
    · rw [hr] at h ⊢
      obtain ⟨opens, hs, -⟩ := readLeaf_spec h
      exact fun _ hd => readLeaf_makes hs hd
    · rw [hr] at h
      exact absurd h fail_ok
  case struct =>
    obtain ⟨r, _, h1, h2, rfl⟩ := bind_ok.1 h
    obtain ⟨_, _, hclose, hpure, rfl⟩ := bind_ok.1 h2
    obtain rfl := pure_ok.1 hpure
    exact (ih h1).struct (closeStruct_ok hclose)
  case nil =>
    obtain rfl := pure_ok.1 h
    exact makesReader_pure _
  case cons =>
    obtain ⟨r, r', h1, h2, rfl⟩ := bind_ok.1 h
    have hfields := ihfs h2
    exact (iht h1).member hfields

theorem readEach_again : ∀ {ts : List Ty} {pos : Position} {g : Generated Position}
    {frame : Option Frame} {d : Nat}, readEach ts pos frame d = .ok g →
    MakesReader (readEach ts pos) ts.length g.value
  | [], pos, g, frame, d, h => by
    obtain rfl := pure_ok.1 h
    exact makesReader_pure _
  | t :: ts, pos, g, frame, d, h => by
    obtain ⟨_, _, -, h1, rfl⟩ := bind_ok.1 h
    obtain ⟨_, _, hread, h2, rfl⟩ := bind_ok.1 h1
    obtain ⟨_, _, -, h3, rfl⟩ := bind_ok.1 h2
    have heach := readEach_again h3
    exact (read_again t hread).value heach

/-- **Code that reads arguments is generated at every height** if it is at one. -/
theorem readArgumentsAt_again (hg : readArgumentsAt .stops offset ts frame d = .ok g)
    (hd : 1 ≤ d') :
    (readArgumentsAt .stops offset ts).Makes d' () (d' + ts.length - 1) := by
  obtain ⟨_, _, h1, h2, -⟩ := bind_ok.1 hg
  obtain ⟨p, hp, rfl⟩ := ofExcept_ok.1 h1
  obtain ⟨_, _, hread, -, -⟩ := bind_ok.1 h2
  obtain ⟨_, _, -, heach, -⟩ := bind_ok.1 hread
  exact (readEach_again heach).all.arguments hp hd

/-! ### What the code for one side does -/

/-- The code for one side fetches the leaves of its packing, and then nothing may be left. -/
theorem readArgumentsAt_exec (hp : Packing.ofTypes offset 0 ts = .ok p)
    (hg : readArgumentsAt .stops offset ts frame d = .ok g) (s : Slice) (below : Stack) :
    Instr.exec g.code (.slice s :: below) = do
      let (xs, s) ← PackedLeaf.fetchAll p.leaves s
      if !s.isEmpty then throw .cellUnderflow
      return (Ty.buildAll ts xs).reverse ++ below := by
  rw [Instr.exec, readData_spec hp hg]
  rcases PackedLeaf.fetchAll p.leaves s with e | ⟨xs, s'⟩
  · rfl
  · by_cases he : s'.isEmpty = true <;> simp [he]

theorem readArgumentsAt_packing (hg : readArgumentsAt .stops offset ts frame d = .ok g) :
    ∃ p, Packing.ofTypes offset 0 ts = .ok p := by
  obtain ⟨_, _, hp, -, -⟩ := bind_ok.1 hg
  obtain ⟨p, hp, -⟩ := ofExcept_ok.1 hp
  exact ⟨p, hp⟩

/-- The code for one side does the same wherever it is generated and whatever is below. -/
theorem readArgumentsAt_exec_map (hg : readArgumentsAt .stops offset ts frame d = .ok g)
    (hg' : readArgumentsAt .stops offset ts frame' d' = .ok g') (s : Slice) (below : Stack) :
    Instr.exec g.code (.slice s :: below) =
      (Instr.exec g'.code [.slice s]).map (· ++ below) := by
  obtain ⟨p, hp⟩ := readArgumentsAt_packing hg
  rw [readArgumentsAt_exec hp hg, readArgumentsAt_exec hp hg']
  rcases PackedLeaf.fetchAll p.leaves s with e | ⟨xs, s'⟩
  · rfl
  · by_cases he : s'.isEmpty = true <;> simp [he, Except.map]

/-- Where an encoder ends, all leaves are put behind what its builder held. -/
theorem exec_writer_eq_ok {xs : List Value} {b : Builder} {writer : Generated Position}
    {below t : Stack} (hp : Packing.ofTypes offset 0 ts = .ok p)
    (hwrite : writeAll ts p.start false frame d = .ok writer)
    (hl : xs.length = (Ty.allLeaves ts).length)
    (hrun : Instr.exec (writer.code ++ [.op .endc]) (.builder b :: (Ty.buildAll ts xs ++ below)) =
      .ok t) :
    ∃ b', PackedLeaf.putAll p.leaves xs none b = .ok b' ∧ t = .cell b'.toCell :: below := by
  have hspec : Instr.runAll writer.code (.builder b :: (Ty.buildAll ts xs ++ below)) = do
      let c ← PackedLeaf.putAll p.leaves xs none b
      return (.next, .builder c :: below) := writeAll_spec none hp hwrite hl b below
  obtain ⟨f, hrun⟩ := Instr.exec_eq_ok.1 hrun
  rw [Instr.runAll_append, hspec] at hrun
  rcases hput : PackedLeaf.putAll p.leaves xs none b with e | b'
  · rw [hput] at hrun
    cases hrun
  · rw [hput] at hrun
    cases hrun
    exact ⟨b', rfl, rfl⟩

/-- The arguments that have been written behind what a builder held are read by the code with the
same offset, from every slice that shows the same. -/
theorem readArgumentsAt_written {vs : List Value} {b : Builder} {writer : Generated Position}
    {c : Cell} {below : Stack} (hp : Packing.ofTypes offset 0 ts = .ok p)
    (hwrite : writeAll ts p.start false frame d = .ok writer) (hvs : Ty.AdmitsAll ts vs)
    (hb : b.HasRoom .empty)
    (hrun : Instr.exec (writer.code ++ [.op .endc]) (.builder b :: (vs ++ below)) =
      .ok (.cell c :: below))
    (hread : readArgumentsAt .stops offset ts frame' d' = .ok g) :
    ∃ part, (Slice.ofCell c).dropFront b.bits.length b.refs.length = .ok part ∧ part.Valid ∧
      ∀ s below', s.Valid → s.same part = true →
        ∃ ws, Instr.exec g.code (.slice s :: below') = .ok (ws.reverse ++ below') ∧
          Value.sameAll ws vs = true := by
  obtain ⟨xs, rfl, hxs⟩ := hvs.build
  obtain ⟨b', hput, he⟩ := exec_writer_eq_ok hp hwrite hxs.length_eq.symm hrun
  obtain rfl : c = b'.toCell := Value.cell.inj (List.cons.inj he).1
  -- the run has filled builders, so every leaf has a content
  obtain ⟨⟨bs, bl⟩, hfill, -⟩ := bind_eq_ok.1 hput
  have htypes := Packing.ofTypes_types hp
  obtain ⟨ws, hl, hw⟩ := Written.exists_encodes_of_fillAll
    (htypes ▸ Packing.ofTypes_accepted hp) (htypes ▸ hxs) hfill
  rw [← hl] at hput
  obtain rfl := Written.putAll_eq_ok hw.stores hb hput
  have hvalid := Slice.valid_ofCell (b.add (Written.weave ws .empty)).toCell
  have hcell : (Slice.ofCell (b.add (Written.weave ws .empty)).toCell).toCell =
      b.toCell ++ Written.weave ws .empty := by
    rw [Slice.toCell_ofCell]
    rfl
  refine ⟨_, Slice.dropFront_of_shows hvalid hcell, hvalid.past hcell, fun s below' hs hsame => ?_⟩
  rw [Slice.same_iff, Slice.toCell_past hcell] at hsame
  exact readData_weave hp hread hl hw hs hsame below'

/-- **The code for either side picks the side that the flag stands for and keeps the flag.** Code
for that side alone is generated at every height, and with it the code for either side ends with the
same values, or with the same trap. Values that have been written with the packing of that side are
read from every slice that shows what was written, without a trap. -/
theorem readArguments_either (hg : readArguments h ts answers .either frame d = .ok g) (k : Int) :
    (∀ frame' d', 1 ≤ d' → ∃ g', readArguments h ts answers (.ofFlag k) frame' d' = .ok g' ∧
      ∀ s below, Instr.exec g.code (.slice s :: .int k :: below) =
        (Instr.exec g'.code [.slice s]).map (· ++ .int k :: below)) ∧
    ∀ (p : Packing) (frame' : Option Frame) (d' : Nat) (writer : Generated Position)
      (vs : List Value) (b : Builder) (c : Cell) (below : Stack),
      Packing.ofTypes (h.argumentsOffset answers k) 0 ts = .ok p →
      writeAll ts p.start false frame' d' = .ok writer → Ty.AdmitsAll ts vs →
      b.HasRoom .empty →
      Instr.exec (writer.code ++ [.op .endc]) (.builder b :: (vs ++ below)) =
        .ok (.cell c :: below) →
      ∃ part, (Slice.ofCell c).dropFront b.bits.length b.refs.length = .ok part ∧ part.Valid ∧
        ∀ s below', s.Valid → s.same part = true →
          ∃ ws, Instr.exec g.code (.slice s :: .int k :: below') =
            .ok (ws.reverse ++ .int k :: below') ∧ Value.sameAll ws vs = true := by
  obtain ⟨a, ha, hexec⟩ := exec_either hg k
  rw [readArguments_ofFlag] at ha ⊢
  constructor
  · intro frame' d' hd
    obtain ⟨code, hg'⟩ := readArgumentsAt_again ha hd frame'
    refine ⟨_, hg', fun s below => ?_⟩
    rw [hexec, readArgumentsAt_exec_map ha hg']
  · intro p frame' d' writer vs b c below hp hwrite hvs hb hrun
    obtain ⟨part, hpart, hvalid, hread⟩ := readArgumentsAt_written hp hwrite hvs hb hrun ha
    refine ⟨part, hpart, hvalid, fun s below' hs hsame => ?_⟩
    rw [hexec]
    exact hread s (.int k :: below') hs hsame

/-- Three integers that need a second cell behind the header of a call from outside, and none behind
that of a call from another contract. -/
def threeWords : List Ty := List.replicate 3 (.integer 256 false)

/-- Their packing behind the header of a call from outside. -/
def threeWordsOutside : Packing :=
  ⟨[⟨.integer 256 false, false⟩, ⟨.integer 256 false, true⟩, ⟨.integer 256 false, false⟩]⟩

theorem admits_word {n : Nat} (hn : n < twoPow 256) : Ty.Admits (.integer 256 false) (.int n) := by
  obtain ⟨⟨v, r⟩, hread, -, hv⟩ := (Slice.readNat_takes hn).exists
  obtain rfl : v = n := hv
  refine ⟨⟨.ofCell (.ofBits (.ofNat 256 v)), r, Slice.valid_ofCell _, ?_⟩, rfl⟩
  simp [Ty.load, Slice.readIntegral, hread]

/-- Arguments behind the header of a call from outside are read where the flag is set. The same
flag below a slice that is empty gives the trap of the code for that side. -/
theorem readArguments_either_threeWords :
    ∃ g outside writer c part ws,
      readArguments {} threeWords false .either none 2 = .ok g ∧
      readArguments {} threeWords false .external none 1 = .ok outside ∧
      Instr.exec g.code [.slice (.ofCell .empty), .int (-1)] =
        (Instr.exec outside.code [.slice (.ofCell .empty)]).map (· ++ [.int (-1)]) ∧
      writeAll threeWords threeWordsOutside.start false none 4 = .ok writer ∧
      Instr.exec (writer.code ++ [.op .endc]) [.builder {}, .int 1, .int 2, .int 3] =
        .ok [.cell c] ∧
      (Slice.ofCell c).dropFront 0 0 = .ok part ∧
      Instr.exec g.code [.slice part, .int (-1)] = .ok (ws.reverse ++ [.int (-1)]) ∧
      Value.sameAll ws [.int 1, .int 2, .int 3] = true := by
  obtain ⟨g, hg⟩ := exists_of_isOk
    (show (readArguments {} threeWords false .either none 2).isOk = true by decide +kernel)
  have hok : ((writeAll threeWords threeWordsOutside.start false none 4).toOption.any fun w =>
      (Instr.exec (w.code ++ [.op .endc]) [.builder {}, .int 1, .int 2, .int 3]).isOk) = true := by
    decide +kernel
  rcases hwrite : writeAll threeWords threeWordsOutside.start false none 4 with e | writer
  · rw [hwrite] at hok
    cases hok
  rw [hwrite] at hok
  obtain ⟨t, hrun⟩ := exists_of_isOk hok
  have hp : Packing.ofTypes (Headers.externalOffset {} false) 0 threeWords =
    .ok threeWordsOutside := rfl
  have hl : [Value.int 1, .int 2, .int 3].length = (Ty.allLeaves threeWords).length := rfl
  obtain ⟨b', -, rfl⟩ := exec_writer_eq_ok hp hwrite hl hrun
  have h := readArguments_either hg (-1)
  obtain ⟨outside, hout, hsame⟩ := h.1 none 1 (Nat.le_refl 1)
  rw [show Origin.ofFlag (-1) = .external from rfl] at hout
  have hvs : Ty.AdmitsAll threeWords [.int 1, .int 2, .int 3] :=
    .cons (admits_word (n := 1) (by decide)) (.cons (admits_word (n := 2) (by decide))
      (.cons (admits_word (n := 3) (by decide)) .nil))
  obtain ⟨part, hpart, hvalid, hread⟩ := h.2 threeWordsOutside none 4 writer _ {} _ [] hp hwrite hvs
    ⟨by decide, by decide⟩ hrun
  obtain ⟨ws, hexec, hws⟩ := hread part [] hvalid (by rw [Slice.same_iff])
  exact ⟨g, outside, writer, _, part, ws, hg, hout, hsame _ _, rfl, hrun, hpart, hexec, hws⟩

end Gen

end TypedCells
