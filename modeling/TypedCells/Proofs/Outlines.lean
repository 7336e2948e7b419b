import Mathlib.Data.List.Basic
import TypedCells.Machine.Listing

/-!
# Outlines of programs

A listing holds the mnemonics of the instructions and, in front of an instruction, the programs
inside it, with nothing but tabs and braces around them. What can be told of a program by these is
its outline: the tree of its mnemonics. The text gives the whole tree back.

* `Op.newline_notMem_mnemonic`: a mnemonic is one line, so the text determines the lines.
* `Instr.blockLines_append_inj`: the lines inside a block begin with a tab and the closing brace
  does not, so it is known where a block ends.
* `Instr.lines_append_inj`: no mnemonic looks like the beginning of a block, so it is known where
  the lines of an instruction end.
* `Instr.listing_eq_iff`: two programs have the same listing just if they have the same outline.
-/

namespace TypedCells

/-! ### Mnemonics -/

@[simp] theorem newline_notMem_toDigits (n : Nat) : '\n' ∉ Nat.toDigits 10 n := fun h =>
  absurd (Nat.isDigit_of_mem_toDigits (by decide) (by decide) h) (by decide)

@[simp] theorem newline_notMem_intRepr (v : Int) : '\n' ∉ v.repr.toList := by
  cases v with
  | ofNat n => simp [Int.repr]
  | negSucc n => simp [Int.repr]

@[simp] theorem newline_notMem_hexWord (w : UInt32) : '\n' ∉ (hexWord w).toList := by
  have hdigit : ∀ d < 16, Nat.digitChar d ≠ '\n' := by decide
  rw [hexWord, String.toList_ofList, List.mem_map]
  rintro ⟨i, -, hi⟩
  exact hdigit _ (Nat.mod_lt _ (by decide)) hi

namespace Ty

@[simp] theorem newline_mem_integralMnemonic {verb quiet : String} {width : Nat} {signed : Bool} :
    '\n' ∈ (integralMnemonic verb width signed quiet).toList ↔
      '\n' ∈ verb.toList ∨ '\n' ∈ quiet.toList := by
  cases signed <;> simp [integralMnemonic]

@[simp] theorem newline_mem_varIntegerMnemonic {verb quiet : String} {bytes : Nat} {signed : Bool} :
    '\n' ∈ (varIntegerMnemonic verb bytes signed quiet).toList ↔
      '\n' ∈ verb.toList ∨ '\n' ∈ quiet.toList := by
  cases signed <;> simp [varIntegerMnemonic]

theorem newline_notMem_storeMnemonic (t : Ty) : '\n' ∉ t.storeMnemonic.toList := by
  fun_induction storeMnemonic t with
  | case14 t ih => split <;> simp_all
  | _ => simp_all

theorem newline_notMem_loadMnemonic {quiet : String} (hq : '\n' ∉ quiet.toList) (t : Ty) :
    '\n' ∉ (t.loadMnemonic quiet).toList := by
  fun_induction loadMnemonic quiet t <;> simp_all

theorem head_storeMnemonic (t : Ty) :
    t.storeMnemonic.toList.head? = some 'S' ∨ t.storeMnemonic.toList.head? = some 'U' := by
  fun_induction storeMnemonic t with
  | case14 t ih => split <;> simp
  | _ => simp_all [integralMnemonic, varIntegerMnemonic]

theorem head_loadMnemonic (quiet : String) (t : Ty) :
    (t.loadMnemonic quiet).toList.head? = some 'L' := by
  fun_induction loadMnemonic quiet t <;> simp_all [integralMnemonic, varIntegerMnemonic]

end Ty

/-- A mnemonic is one line. -/
theorem Op.newline_notMem_mnemonic (o : Op) : '\n' ∉ o.mnemonic.toList := by
  cases o with
  | store t => exact t.newline_notMem_storeMnemonic
  | load t => exact t.newline_notMem_loadMnemonic (by decide)
  | loadQuiet t => exact t.newline_notMem_loadMnemonic (by decide)
  | stBit bit => cases bit <;> decide
  | _ => simp [mnemonic]

/-- No mnemonic looks like the beginning of a block. -/
theorem Op.mnemonic_ne_pushcont (o : Op) : o.mnemonic ≠ "PUSHCONT \x7b" := by
  intro h
  have h := congrArg String.toList h
  cases o with
  | store t =>
    have hhead := t.head_storeMnemonic
    rw [show t.storeMnemonic.toList = "PUSHCONT \x7b".toList from h] at hhead
    exact absurd hhead (by decide)
  | load t =>
    have hhead := t.head_loadMnemonic ""
    rw [show (t.loadMnemonic "").toList = "PUSHCONT \x7b".toList from h] at hhead
    exact absurd hhead (by decide)
  | loadQuiet t =>
    have hhead := t.head_loadMnemonic "Q"
    rw [show (t.loadMnemonic "Q").toList = "PUSHCONT \x7b".toList from h] at hhead
    exact absurd hhead (by decide)
  | _ => simp [mnemonic] at h

/-! ### Where lines and blocks end -/

/-- A list is cut in two at the first element without a property. -/
theorem append_cons_inj {α : Type} {p : α → Prop} {a : α} (ha : ¬p a) {ys ys' : List α} :
    ∀ {xs xs' : List α}, (∀ x ∈ xs, p x) → (∀ x ∈ xs', p x) →
      (xs ++ a :: ys = xs' ++ a :: ys' ↔ xs = xs' ∧ ys = ys')
  | [], [], _, _ => by simp
  | [], x' :: xs', _, h' => by
    have hx : a ≠ x' := fun hx => ha (hx ▸ h' x' (by simp))
    simp [hx]
  | x :: xs, [], h, _ => by
    have hx : x ≠ a := fun hx => ha (hx ▸ h x (by simp))
    simp [hx]
  | x :: xs, x' :: xs', h, h' => by
    rw [List.cons_append, List.cons_append, List.cons.injEq, List.cons.injEq, and_assoc,
      append_cons_inj ha (fun y hy => h y (.tail _ hy)) fun y hy => h' y (.tail _ hy)]

namespace Instr

/-- The programs inside an instruction, in the order in which they are listed. -/
def blocks : Instr → List (List Instr)
  | .op _ => []
  | .ifElse a b => [a, b]
  | .call body _ _ | .jumpIf body | .jumpUnless body => [body]

theorem lines_eq (i : Instr) :
    i.lines = (i.blocks.map codeLines).flatMap blockLines ++ [i.mnemonic] := by
  cases i <;> simp [lines, blocks, mnemonic]

theorem mnemonic_ne_pushcont (i : Instr) : i.mnemonic ≠ "PUSHCONT \x7b" := by
  cases i with
  | op o => exact o.mnemonic_ne_pushcont
  | _ => simp [mnemonic]

theorem blockLines_append_inj {body body' rest rest' : List String} :
    blockLines body ++ rest = blockLines body' ++ rest' ↔ body = body' ∧ rest = rest' := by
  have hinside (body : List String) :
      ∀ s ∈ body.map ("\t" ++ ·), s.toList.head? = some '\t' := by simp
  have hinj : Function.Injective ("\t" ++ · : String → String) := fun _ _ h =>
    (String.append_right_inj _).1 h
  simpa [blockLines, hinj.list_map.eq_iff] using
    append_cons_inj (a := "\x7d") (by decide) (hinside body) (hinside body')

/-- Blocks and the mnemonic behind them can be told apart in a text. -/
theorem blocks_append_inj {m m' : String} (hm : m ≠ "PUSHCONT \x7b") (hm' : m' ≠ "PUSHCONT \x7b")
    {rest rest' : List String} : ∀ {bs bs' : List (List String)},
      bs.flatMap blockLines ++ m :: rest = bs'.flatMap blockLines ++ m' :: rest' ↔
        bs = bs' ∧ m = m' ∧ rest = rest'
  | [], [] => by simp
  | [], b' :: bs' => by simp [blockLines, hm]
  | b :: bs, [] => by simp [blockLines, hm'.symm]
  | b :: bs, b' :: bs' => by
    rw [List.flatMap_cons, List.flatMap_cons, List.append_assoc, List.append_assoc,
      blockLines_append_inj, blocks_append_inj hm hm', List.cons.injEq, and_assoc]

theorem lines_append_inj {i j : Instr} {rest rest' : List String} :
    i.lines ++ rest = j.lines ++ rest' ↔
      (i.blocks.map codeLines = j.blocks.map codeLines ∧ i.mnemonic = j.mnemonic) ∧
        rest = rest' := by
  rw [lines_eq, lines_eq, List.append_assoc, List.append_assoc, List.singleton_append,
    List.singleton_append, blocks_append_inj i.mnemonic_ne_pushcont j.mnemonic_ne_pushcont,
    and_assoc]

theorem lines_ne_nil (i : Instr) : i.lines ≠ [] := by simp [lines_eq]

theorem newline_notMem_blockLines {body : List String} (h : ∀ s ∈ body, '\n' ∉ s.toList) :
    ∀ s ∈ blockLines body, '\n' ∉ s.toList := by
  simpa [blockLines, or_imp, forall_and] using h

mutual

theorem newline_notMem_lines : ∀ (i : Instr), ∀ s ∈ i.lines, '\n' ∉ s.toList
  | .op o => by simpa [lines] using o.newline_notMem_mnemonic
  | .ifElse a b => by
    have ha := newline_notMem_blockLines (newline_notMem_codeLines a)
    have hb := newline_notMem_blockLines (newline_notMem_codeLines b)
    simp only [lines, List.forall_mem_append, List.forall_mem_singleton]
    exact ⟨⟨ha, hb⟩, by decide⟩
  | .call body _ _ | .jumpIf body | .jumpUnless body => by
    have hbody := newline_notMem_blockLines (newline_notMem_codeLines body)
    simp only [lines, List.forall_mem_append, List.forall_mem_singleton]
    exact ⟨hbody, by decide⟩

theorem newline_notMem_codeLines : ∀ (code : List Instr), ∀ s ∈ codeLines code, '\n' ∉ s.toList
  | [] => by simp [codeLines]
  | i :: is => List.forall_mem_append.2 ⟨newline_notMem_lines i, newline_notMem_codeLines is⟩

end

/-- Lines can be told apart in a text. -/
theorem flatMap_lines_inj : ∀ {ls ls' : List String}, (∀ s ∈ ls, '\n' ∉ s.toList) →
    (∀ s ∈ ls', '\n' ∉ s.toList) →
    ((ls.flatMap fun s => s.toList ++ ['\n']) = (ls'.flatMap fun s => s.toList ++ ['\n']) ↔
      ls = ls')
  | [], [], _, _ => by simp
  | [], l' :: ls', _, _ => by simp
  | l :: ls, [], _, _ => by simp
  | l :: ls, l' :: ls', h, h' => by
    have ih := flatMap_lines_inj (fun s hs => h s (.tail _ hs)) fun s hs => h' s (.tail _ hs)
    have hin (s : String) (hs : '\n' ∉ s.toList) : ∀ c ∈ s.toList, c ≠ '\n' :=
      fun _ hc hn => hs (hn ▸ hc)
    simp only [List.flatMap_cons, List.append_assoc, List.singleton_append, List.cons.injEq]
    rw [append_cons_inj (by simp) (hin l (h l (by simp))) (hin l' (h' l' (by simp))),
      String.toList_inj, ih]

theorem toList_listing (code : List Instr) :
    (listing code).toList = (codeLines code).flatMap fun s => s.toList ++ ['\n'] := by
  simp [listing, List.flatMap_map]

end Instr

/-! ### Outlines -/

/-- An instruction without its operands: its mnemonic and the outlines of the programs inside it, in
the order in which they are listed. -/
structure Outline where
  line : String
  blocks : List (List Outline)

namespace Instr

mutual

/-- The outline of an instruction. -/
def outline : Instr → Outline
  | .op o => ⟨mnemonic (.op o), []⟩
  | .ifElse a b => ⟨mnemonic (.ifElse a b), [outlines a, outlines b]⟩
  | .call body args rets => ⟨mnemonic (.call body args rets), [outlines body]⟩
  | .jumpIf body => ⟨mnemonic (.jumpIf body), [outlines body]⟩
  | .jumpUnless body => ⟨mnemonic (.jumpUnless body), [outlines body]⟩

/-- The outline of a program. -/
def outlines : List Instr → List Outline
  | [] => []
  | i :: is => outline i :: outlines is

end

theorem outline_eq (i : Instr) : i.outline = ⟨i.mnemonic, i.blocks.map outlines⟩ := by
  cases i <;> rfl

mutual

/-- Instructions have the same outline just if the mnemonics and the lines of the blocks agree. -/
theorem outline_eq_iff : ∀ (i j : Instr), i.outline = j.outline ↔
    i.blocks.map codeLines = j.blocks.map codeLines ∧ i.mnemonic = j.mnemonic
  | .op o, j => by
    rw [outline_eq j]
    cases j <;> simp [outline, blocks]
  | .ifElse a b, j => by
    have iha := outlines_eq_iff a
    have ihb := outlines_eq_iff b
    cases j <;> simp [outline_eq, blocks, iha, ihb, mnemonic]
  | .call body _ _, j | .jumpIf body, j | .jumpUnless body, j => by
    have ih := outlines_eq_iff body
    cases j <;> simp [outline_eq, blocks, ih, mnemonic]

theorem outlines_eq_iff : ∀ (p q : List Instr), outlines p = outlines q ↔ codeLines p = codeLines q
  | [], [] => by simp [outlines, codeLines]
  | [], j :: js => by simp [outlines, codeLines, j.lines_ne_nil]
  | i :: is, [] => by simp [outlines, codeLines, i.lines_ne_nil]
  | i :: is, j :: js => by
    -- the lines of `i` and `j` end at the same place, whatever comes behind them
    rw [outlines, outlines, List.cons.injEq, outline_eq_iff i j, outlines_eq_iff is js, codeLines,
      codeLines, lines_append_inj]

end

/-- **A listing determines the outline of a program**, and nothing more of it. -/
theorem listing_eq_iff (p q : List Instr) : listing p = listing q ↔ outlines p = outlines q := by
  rw [← String.toList_inj, toList_listing, toList_listing,
    flatMap_lines_inj (newline_notMem_codeLines p) (newline_notMem_codeLines q), outlines_eq_iff]

end Instr

end TypedCells
