import TypedCells.Machine.Instr
import TypedCells.Wire.Load
import TypedCells.Wire.Store

/-!
# The machine

`Op.run` and `Instr.run` say what an instruction does to the stack, `Instr.runAll` what a program
does. A stack is a list with the top first. Running a program ends in a stack and a `Flow`: it came
to its end, or a jump left the enclosing call, whose remaining instructions are then not run. A
conditional passes neither on: what its arm does, the instruction after it is the next.
-/

namespace TypedCells

/-- The entries of the stack, the top first. -/
abbrev Stack := List Value

/-- How a program ends. -/
inductive Flow where
  /-- It came to its end. -/
  | next
  /-- A jump left the enclosing call. -/
  | exit
deriving DecidableEq, Repr

namespace Stack

/-- Takes the top off the stack. -/
def pop : Stack → Except Trap (Value × Stack)
  | [] => throw .stackUnderflow
  | v :: s => return (v, s)

/-- Takes an integer off the stack. -/
def popInt (s : Stack) : Except Trap (Int × Stack) := do
  let (v, s) ← s.pop
  return (← v.toInt, s)

/-- Takes a truth value off the stack. -/
def popBool (s : Stack) : Except Trap (Bool × Stack) := do
  let (v, s) ← s.pop
  return (← v.toBool, s)

/-- Takes a slice off the stack. -/
def popSlice (s : Stack) : Except Trap (Slice × Stack) := do
  let (v, s) ← s.pop
  return (← v.toSlice, s)

/-- Takes a builder off the stack. -/
def popBuilder (s : Stack) : Except Trap (Builder × Stack) := do
  let (v, s) ← s.pop
  return (← v.toBuilder, s)

/-- Takes a count of bits or references off the stack, a number below `2 ^ 64`. -/
def popCount (s : Stack) : Except Trap (Nat × Stack) := do
  let (v, s) ← s.popInt
  if 0 ≤ v ∧ v < twoPow 64 then return (v.toNat, s) else throw .rangeCheck

/-- Takes a slice with a count of bits and a count of references on top of it off the stack. -/
def popCut (s : Stack) : Except Trap ((Slice × Nat × Nat) × Stack) := do
  let (refs, s) ← s.popCount
  let (bits, s) ← s.popCount
  let (x, s) ← s.popSlice
  return ((x, bits, refs), s)

/-- Fails unless the stack has `n` entries. -/
def need (n : Nat) (s : Stack) : Except Trap Unit :=
  if s.length < n then throw .stackUnderflow else return ()

end Stack

/-- What an instruction without a program in it does to the stack. -/
def Op.run : Op → Stack → Except Trap Stack
  | .push i, s =>
    match s[i]? with
    | some v => return v :: s
    | none => throw .stackUnderflow
  | .pop i, s => do
    s.need (i + 1)
    let (v, s) ← s.pop
    return if i = 0 then s else s.set (i - 1) v
  | .xchg i, s =>
    match s[0]?, s[i]? with
    | some v, some w => return (s.set 0 w).set i v
    | _, _ => throw .stackUnderflow
  | .blkSwap i j, s => do
    s.need (i + j)
    return (s.drop j).take i ++ s.take j ++ s.drop (i + j)
  | .reverse n j, s => do
    s.need (n + j)
    return s.take j ++ ((s.drop j).take n).reverse ++ s.drop (n + j)
  | .blkDrop n m, s => do
    s.need (n + m)
    return s.take m ++ s.drop (n + m)
  | .drop, s => do return (← s.pop).2
  | .pushInt v, s => return .int v :: s
  | .pushNull, s => return .null :: s
  | .tuple n, s => do
    s.need n
    return .tuple (s.take n).reverse :: s.drop n
  | .untuple n, s => do
    let (v, s) ← s.pop
    let items ← v.toTuple
    if items.length = n then return items.reverse ++ s
    else throw (.typeCheck .requestedSize .tuple)
  | .geq, s => do
    let (y, s) ← s.popInt
    let (x, s) ← s.popInt
    return .ofBool (x ≥ y) :: s
  | .equal, s => do
    let (y, s) ← s.popInt
    let (x, s) ← s.popInt
    return .ofBool (x = y) :: s
  | .and, s => do
    let (y, s) ← s.popInt
    let (x, s) ← s.popInt
    return .int (bitAnd x y) :: s
  | .dec, s => do
    let (x, s) ← s.popInt
    return .int (x - 1) :: s
  | .throwIf code, s => do
    let (flag, s) ← s.popBool
    if flag then throw (.exception code) else return s
  | .newc, s => return .builder {} :: s
  | .endc, s => do
    let (b, s) ← s.popBuilder
    return .cell b.toCell :: s
  | .ctos, s => do
    let (v, s) ← s.pop
    return .slice (.ofCell (← v.toCell)) :: s
  | .ends, s => do
    let (x, s) ← s.popSlice
    if x.isEmpty then return s else throw .cellUnderflow
  | .stBuilderRef, s => do
    let (inner, s) ← s.popBuilder
    let (b, s) ← s.popBuilder
    return .builder (← b.writeRef inner.toCell) :: s
  | .stSlice, s => do
    let (b, s) ← s.popBuilder
    let (x, s) ← s.popSlice
    return .builder (← b.writeSlice x) :: s
  | .stConst word, s => do
    let (b, s) ← s.popBuilder
    return .builder (← b.writeNat 32 word.toNat) :: s
  | .stBit bit, s => do
    let (b, s) ← s.popBuilder
    return .builder (← b.writeBit bit) :: s
  | .stNat width, s => do
    let (x, s) ← s.popInt
    let (b, s) ← s.popBuilder
    return .builder (← b.writeNat width x) :: s
  | .ldRef, s => do
    let (x, s) ← s.popSlice
    let (c, x) ← x.readRef
    return .slice x :: .cell c :: s
  | .ldRefRest, s => do
    let (x, s) ← s.popSlice
    let (c, x) ← x.readRef
    return .slice (.ofCell c) :: .slice x :: s
  | .split, s => do
    let ((x, bits, refs), s) ← s.popCut
    let (front, rest) ← x.split bits refs
    return .slice rest :: .slice front :: s
  | .skipFirst, s => do
    let ((x, bits, refs), s) ← s.popCut
    return .slice (← x.dropFront bits refs) :: s
  | .cutLast, s => do
    let ((x, bits, refs), s) ← s.popCut
    return .slice (← x.keepBack bits refs) :: s
  | .bitRefs, s => do
    let (x, s) ← s.popSlice
    return .int x.refCount :: .int x.bitCount :: s
  | .peekRef i, s => do
    let (x, s) ← s.popSlice
    return .cell (← x.peekRef i) :: s
  | .store t, s => do
    let (b, s) ← s.popBuilder
    let (v, s) ← s.pop
    return .builder (← t.store v b) :: s
  | .load t, s => do
    let (x, s) ← s.popSlice
    let (v, x) ← t.load x
    return .slice x :: v :: s
  | .loadQuiet t, s => do
    let (x, s) ← s.popSlice
    match t.load x with
    | .ok (v, rest) => return .ofBool true :: .slice rest :: v :: s
    | .error .cellUnderflow => return .ofBool false :: .slice x :: s
    | .error .rangeCheck => return .ofBool false :: .slice x :: s
    | .error trap => throw trap

namespace Instr

mutual

/-- What an instruction does to the stack. -/
def run : Instr → Stack → Except Trap (Flow × Stack)
  | .op o, s => do return (.next, ← o.run s)
  | .ifElse a b, s => do
    let (flag, s) ← s.popBool
    let (_, s) ← if flag then runAll a s else runAll b s
    return (.next, s)
  | .call body args rets, s => do
    s.need args
    let (_, t) ← runAll body (s.take args)
    Stack.need rets t
    return (.next, t.take rets ++ s.drop args)
  | .jumpIf body, s => do
    let (flag, s) ← s.popBool
    if flag then
      let (_, s) ← runAll body s
      return (.exit, s)
    else return (.next, s)
  | .jumpUnless body, s => do
    let (flag, s) ← s.popBool
    if flag then return (.next, s)
    else
      let (_, s) ← runAll body s
      return (.exit, s)

/-- What a program does to the stack. -/
def runAll : List Instr → Stack → Except Trap (Flow × Stack)
  | [], s => return (.next, s)
  | i :: is, s => do
    match ← run i s with
    | (.next, s) => runAll is s
    | (.exit, s) => return (.exit, s)

end

/-- The stack that a program leaves. -/
def exec (code : List Instr) (s : Stack) : Except Trap Stack := do
  return (← runAll code s).2

/-- The stacks after each of several instructions, of which each runs as a program of its own. A
trap is the last entry. -/
def trace : List Instr → Stack → List (Except Trap Stack)
  | [], _ => []
  | i :: is, s =>
    match exec [i] s with
    | .ok s => .ok s :: trace is s
    | .error trap => [.error trap]

end Instr

end TypedCells
