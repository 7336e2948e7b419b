import TypedCells.Ty.Basic

/-!
# Instructions

A program is a list of instructions. An `Op` works on the stack and has no program in it; an
`Instr` is an `Op` or one of the four ways to run a program that is part of the instruction.
`Instr.effect` says how many entries an instruction takes off the stack and how many it leaves.

In stack comments the top comes last, and entries are numbered from the top, which is entry `0`.
-/

namespace TypedCells

/-- An instruction without a program in it. -/
inductive Op where
  /-- Copies entry `i` to the top. -/
  | push (i : Nat)
  /-- Moves the top into entry `i`. -/
  | pop (i : Nat)
  /-- Swaps the top with entry `i`. -/
  | xchg (i : Nat)
  /-- Swaps the top `j` entries with the `i` entries under them. -/
  | blkSwap (i j : Nat)
  /-- Reverses the `n` entries under the top `j`. -/
  | reverse (n j : Nat)
  /-- Drops the `n` entries under the top `m`. -/
  | blkDrop (n m : Nat)
  /-- Drops the top. -/
  | drop
  /-- Pushes an integer. -/
  | pushInt (v : Int)
  /-- Pushes null. -/
  | pushNull
  /-- Turns `x₁ … xₙ` into a tuple. -/
  | tuple (n : Nat)
  /-- Turns a tuple of `n` into `x₁ … xₙ`. -/
  | untuple (n : Nat)
  /-- Turns `x y` into the truth value of `x ≥ y`. -/
  | geq
  /-- Turns `x y` into the truth value of `x = y`. -/
  | equal
  /-- Turns `x y` into the bitwise conjunction. -/
  | and
  /-- Subtracts one. -/
  | dec
  /-- Raises an exception when the flag it takes is not zero. -/
  | throwIf (code : Nat)
  /-- Pushes an empty builder. -/
  | newc
  /-- Finishes a builder into a cell. -/
  | endc
  /-- Opens a cell as a slice. -/
  | ctos
  /-- Takes a slice, which must be empty. -/
  | ends
  /-- Turns `b b'` into `b` with the cell of `b'` as its last reference. -/
  | stBuilderRef
  /-- Turns `s b` into `b` with the data of `s`. -/
  | stSlice
  /-- Appends a 32-bit constant to a builder. -/
  | stConst (word : UInt32)
  /-- Appends a constant bit to a builder. -/
  | stBit (bit : Bool)
  /-- Turns `b x` into `b` with `x` as a number of the given width. -/
  | stNat (width : Nat)
  /-- Turns `s` into its first reference and the rest. -/
  | ldRef
  /-- Turns `s` into the rest and its first reference opened as a slice. -/
  | ldRefRest
  /-- Turns `s l r` into the first `l` bits and `r` references of `s` and the rest. -/
  | split
  /-- Turns `s l r` into `s` without its first `l` bits and `r` references. -/
  | skipFirst
  /-- Turns `s l r` into the last `l` bits and `r` references of `s`. -/
  | cutLast
  /-- Turns `s` into the numbers of its bits and references. -/
  | bitRefs
  /-- Turns `s` into its reference `i`. -/
  | peekRef (i : Nat)
  /-- Turns `x b` into `b` with the value `x` of a type. -/
  | store (t : Ty)
  /-- Turns `s` into the value of a type at its front and the rest. -/
  | load (t : Ty)
  /-- Like `load` with a true flag on top; when the data does not hold such a value, leaves `s` and
  a false flag. -/
  | loadQuiet (t : Ty)
deriving DecidableEq

/-- An instruction. -/
inductive Instr where
  /-- An instruction without a program in it. -/
  | op (o : Op)
  /-- Takes a flag and runs one of two programs, the first when the flag is not zero. -/
  | ifElse (thenCode elseCode : List Instr)
  /-- Runs a program on the top `args` entries alone and keeps the top `rets` of what it leaves. -/
  | call (body : List Instr) (args rets : Nat)
  /-- Takes a flag; when it is not zero, runs a program and leaves the enclosing call. -/
  | jumpIf (body : List Instr)
  /-- Takes a flag; when it is zero, runs a program and leaves the enclosing call. -/
  | jumpUnless (body : List Instr)

/-- How an instruction changes the height of the stack. -/
structure Effect where
  /-- The entries that have to be there. -/
  pops : Nat
  /-- The entries left in their place. -/
  pushes : Nat
deriving DecidableEq, Repr

/-- The effect of an instruction without a program in it; that of a quiet load when it succeeds. -/
def Op.effect : Op → Effect
  | .push i => ⟨i + 1, i + 2⟩
  | .pop i => ⟨i + 1, i⟩
  | .xchg i => ⟨i + 1, i + 1⟩
  | .blkSwap i j => ⟨i + j, i + j⟩
  | .reverse n j => ⟨n + j, n + j⟩
  | .blkDrop n m => ⟨n + m, m⟩
  | .drop | .throwIf _ | .ends => ⟨1, 0⟩
  | .pushInt _ | .pushNull | .newc => ⟨0, 1⟩
  | .tuple n => ⟨n, 1⟩
  | .untuple n => ⟨1, n⟩
  | .geq | .equal | .and => ⟨2, 1⟩
  | .dec | .endc | .ctos | .stConst _ | .stBit _ | .peekRef _ => ⟨1, 1⟩
  | .stBuilderRef | .stSlice | .stNat _ | .store _ => ⟨2, 1⟩
  | .ldRef | .ldRefRest | .load _ | .bitRefs => ⟨1, 2⟩
  | .loadQuiet _ => ⟨1, 3⟩
  | .split => ⟨3, 2⟩
  | .skipFirst | .cutLast => ⟨3, 1⟩

/-- The effect of an instruction, seen from the instruction after it. -/
def Instr.effect : Instr → Effect
  | .op o => o.effect
  | .ifElse _ _ => ⟨1, 0⟩
  | .call _ args rets => ⟨args, rets⟩
  | .jumpIf _ => ⟨1, 0⟩
  | .jumpUnless _ => ⟨1, 0⟩

end TypedCells
