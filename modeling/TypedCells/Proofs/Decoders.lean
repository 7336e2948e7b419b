import TypedCells.Gen.Message
import TypedCells.Proofs.Reader
import TypedCells.Proofs.Writer

/-!
# What can be written can be read

Generating code can fail: a structure may have more members than an instruction can count, a leaf
may not fit a cell, the stack may be too low. Where code that writes values has been generated from
a packing, none of this happens to the code that reads them (`Gen.readAll_makes`).
-/

namespace TypedCells

namespace Gen

variable {α β : Type} {frame : Option Frame} {d d' d₁ n : Nat}

/-! ### Generators that do not fail -/

/-- At the height `d` the generator makes code, with the result `a` and the height `d'` after it. -/
def Makes (x : Gen α) (d : Nat) (a : α) (d' : Nat) : Prop :=
  ∀ frame, ∃ code, x frame d = .ok ⟨a, code, d'⟩

variable {x : Gen α} {f : α → Gen β} {a : α} {b : β}

theorem Makes.bind (hx : x.Makes d a d₁) (hf : (f a).Makes d₁ b d') : (x >>= f).Makes d b d' := by
  intro frame
  obtain ⟨code, h⟩ := hx frame
  obtain ⟨code', h'⟩ := hf frame
  exact ⟨code ++ code', bind_ok.2 ⟨_, _, h, h', rfl⟩⟩

theorem Makes.pure (a : α) (d : Nat) : (Pure.pure a : Gen α).Makes d a d := fun _ => ⟨[], rfl⟩

theorem Makes.depth (d : Nat) : Gen.depth.Makes d d d := fun _ => ⟨[], rfl⟩

theorem Makes.ofExcept {y : Except GenError α} (h : y = .ok a) : (ofExcept y).Makes d a d :=
  fun _ => ⟨[], ofExcept_ok.2 ⟨a, h, rfl⟩⟩

theorem Makes.op {o : Op} (h : o.effect.pops ≤ d) (hd : d - o.effect.pops + o.effect.pushes = d') :
    (op o).Makes d () d' :=
  fun _ => ⟨[.op o], instr_ok.2 ⟨h, by rw [← hd]; rfl⟩⟩

theorem Makes.operand (h : n ≤ 255) : (operand n).Makes d () d :=
  fun _ => ⟨[], operand_ok.2 ⟨h, rfl⟩⟩

theorem Makes.require {context : String} (h : n ≤ d) : (require n context).Makes d () d :=
  fun _ => ⟨[], require_ok.2 ⟨h, rfl⟩⟩

theorem Makes.ensureDepth (context : String) (d : Nat) : (ensureDepth d context).Makes d () d :=
  fun _ => ⟨[], ensureDepth_ok.2 ⟨rfl, rfl⟩⟩

theorem Makes.push (h : n ≤ 255) (hd : n + 1 ≤ d) : (push n).Makes d () (d + 1) :=
  (Makes.operand h).bind (.op hd (by simp only [Op.effect]; omega))

theorem Makes.xchg (h : n ≤ 255) (hd : n + 1 ≤ d) : (xchg n).Makes d () d := by
  unfold Gen.xchg
  split
  · exact .pure () d
  · exact (Makes.operand h).bind (.op hd (by simp only [Op.effect]; omega))

theorem Makes.blkSwap {m : Nat} (hn : n ≤ 255) (hm : m ≤ 255) (hd : n + m ≤ d) :
    (blkSwap n m).Makes d () d := by
  unfold Gen.blkSwap
  split
  · exact .pure () d
  · exact (Makes.operand hn).bind
      ((Makes.operand hm).bind (.op hd (by simp only [Op.effect]; omega)))

/-! ### Reading what can be written -/

theorem followLink_makes (hd : 1 ≤ d) : followLink.Makes d () d := by
  refine Makes.bind (.op hd rfl) (Makes.bind (.op ?_ rfl) (.op ?_ ?_)) <;>
    simp only [Op.effect] <;> omega

theorem testOrdinal_makes (variants : Nat) (hd : 2 ≤ d) :
    (testOrdinal variants).Makes d () (d + 1) := by
  refine (Makes.push (by decide) hd).bind (Makes.bind (.op (Nat.zero_le _) rfl) (.op ?_ ?_)) <;>
    simp only [Op.effect] <;> omega

theorem checkOrdinal_makes (t : Ty) (hd : 2 ≤ d) : (checkOrdinal t).Makes d () d := by
  cases t with
  | enumeration x variants =>
    refine (testOrdinal_makes variants hd).bind (.op ?_ ?_) <;> simp only [Op.effect] <;> omega
  | _ => exact .pure () d

theorem readLeaf_makes {t : Ty} {pos pos' : Position} {opens follow : Bool}
    (h : pos.skip t = .ok (opens, pos')) (hd : 1 ≤ d) :
    (readLeaf t pos follow).Makes d pos' (d + 1) := by
  have hload : (do op (.load t); checkOrdinal t; return pos' : Gen Position).Makes d pos' (d + 1) :=
    Makes.bind (.op hd (by simp only [Op.effect]; omega))
      ((checkOrdinal_makes t (by omega)).bind (.pure pos' _))
  refine (Makes.ofExcept h).bind ?_
  simp only
  split
  · exact (followLink_makes hd).bind hload
  · exact hload

theorem closeStruct_makes (hn : n ≤ 255) (hd : 1 ≤ d) :
    (closeStruct n).Makes (d + n) () (d + 1) := by
  have htuple : (tuple n).Makes (d + n) () (d + 1) :=
    (Makes.operand hn).bind (.op (Nat.le_add_left n d) (by simp only [Op.effect]; omega))
  exact (Makes.blkSwap hn (by decide) (by omega)).bind
    (htuple.bind (Makes.xchg (by decide) (by omega)))

/-- At every height with a slice on the stack the generator makes code that adds `n` entries, with
the position `pos` after them. -/
def MakesReader (x : Gen Position) (n : Nat) (pos : Position) : Prop :=
  ∀ ⦃d⦄, 1 ≤ d → x.Makes d pos (d + n)

section MakesReader

variable {x : Gen Position} {f : Position → Gen Position} {pos pos' pos'' : Position}
  {follow : Bool} {t : Ty} {ts : List Ty} {fs : List (Field Ty)}

theorem makesReader_pure (pos : Position) : MakesReader (pure pos) 0 pos := fun d _ => .pure pos d

/-- Above an entry that is there already. -/
theorem MakesReader.above (h : MakesReader x n pos) (d : Nat) :
    x.Makes (d + 1) pos (d + (n + 1)) := by
  have hx := h (Nat.le_add_left 1 d)
  rwa [Nat.add_assoc, Nat.add_comm 1] at hx

theorem MakesReader.member {name : String} (h : MakesReader (read t pos follow) 1 pos')
    (hs : MakesReader (readFields fs pos' true) fs.length pos'') :
    MakesReader (readFields (⟨name, t⟩ :: fs) pos follow) (fs.length + 1) pos'' :=
  fun d hd => (h hd).bind (hs.above d)

theorem MakesReader.struct {name : String}
    (h : MakesReader (readFields fs pos follow) fs.length pos') (hn : fs.length ≤ 255) :
    MakesReader (read (.struct name fs) pos follow) 1 pos' :=
  fun _ hd => (h hd).bind ((closeStruct_makes hn hd).bind (.pure _ _))

theorem MakesReader.value (h : MakesReader (read t pos true) 1 pos')
    (hs : MakesReader (readEach ts pos') ts.length pos'') :
    MakesReader (readEach (t :: ts) pos) (ts.length + 1) pos'' :=
  fun d hd => (Makes.depth d).bind ((h hd).bind ((Makes.ensureDepth _ _).bind (hs.above d)))

theorem MakesReader.all (h : MakesReader (readEach ts pos) ts.length pos') :
    MakesReader (readAll ts pos) ts.length pos' :=
  fun _ hd => (Makes.require hd).bind (h hd)

/-- Arguments can be read at every height if their values can be read behind the offset. -/
theorem MakesReader.arguments {offset : Nat} {p : Packing}
    (hp : Packing.ofTypes offset 0 ts = .ok p) (h : MakesReader (readAll ts p.start) ts.length pos)
    (hd : 1 ≤ d) : (readArgumentsAt .stops offset ts).Makes d () (d + ts.length - 1) :=
  (Makes.ofExcept hp).bind ((h hd).bind (.op (by simp only [Op.effect]; omega) rfl))

end MakesReader

end Gen

end TypedCells
