import TypedCells.Gen.Message
import TypedCells.Patch.Update

/-!
# Generators as data

A `Step` is one request for code: an instruction, a move on the stack, a program inside an
instruction, or one of the generators for values, messages and patches. `Step.run` carries it out.
Steps can share a packing, which then is passed through by all of them in the order in which they
run, wherever they stand. A sum that no word holds is cut.

`Step.trace` carries out a script and notes the height of the stack after each of its steps.
-/

namespace TypedCells

/-- Where a step gets its packing from. -/
inductive PackingSource where
  /-- The step packs types behind `bits` bits and `refs` references, its own if none are given. -/
  | fresh (bits refs : Nat) (types : Option (List Ty))
  /-- The step goes on with the packing that steps share. -/
  | shared

/-- The variables of stored data and the marks of those picked. -/
structure PatchSpec where
  /-- The bits in front of the data. -/
  bits : Nat
  /-- The references in front of the data. -/
  refs : Nat
  /-- The index of the first variable of the range. -/
  start : Nat
  /-- The types of all variables. -/
  types : List Ty
  /-- Which variables are picked. -/
  marks : List Bool

/-- The patch of a description. -/
def PatchSpec.patch (s : PatchSpec) : Except GenError Patch :=
  Patch.ofMarksWith .wraps s.bits s.refs s.start s.types s.marks

/-- A request for code. -/
inductive Step where
  /-- Adds an instruction as it is. -/
  | instr (i : Instr)
  /-- Copies entry `i` to the top. -/
  | push (i : Nat)
  /-- Copies the entry with `i` entries under it to the top. -/
  | pushFromBottom (i : Nat)
  /-- Moves the top into entry `i`. -/
  | pop (i : Nat)
  /-- Swaps the top with entry `i`. -/
  | xchg (i : Nat)
  /-- Swaps the top `j` entries with the `i` entries under them. -/
  | blkSwap (i j : Nat)
  /-- Reverses the `n` entries under the top `j`. -/
  | reverse (n j : Nat)
  /-- Drops the top `n` entries. -/
  | drop (n : Nat)
  /-- Drops the `n` entries under the top `m`. -/
  | dropUnder (n m : Nat)
  /-- Makes a tuple of the top `n` entries. -/
  | tuple (n : Nat)
  /-- Takes a tuple of `n` apart. -/
  | untuple (n : Nat)
  /-- Fails unless the stack has the given height. -/
  | ensureDepth (n : Nat) (context : String)
  /-- Runs one of two programs. -/
  | ifElse (thenSteps elseSteps : List Step)
  /-- Calls a program. -/
  | call (args rets : Nat) (body : List Step)
  /-- Leaves the enclosing call when a flag is not zero. -/
  | jumpIf (body : List Step)
  /-- Leaves the enclosing call when a flag is zero. -/
  | jumpUnless (body : List Step)
  /-- Leaves the enclosing call when a flag is zero, from the height `entry`. -/
  | jumpUnlessAt (entry : Nat) (body : List Step)
  /-- Makes a packing the shared one. -/
  | share (source : PackingSource)
  /-- Writes values. -/
  | write (types : List Ty) (source : PackingSource) (tail : Bool)
  /-- Writes a message body. -/
  | writeBody (types : List Ty) (id : IdSource (List Step)) (answerId : Option UInt32)
      (source : PackingSource)
  /-- Appends a message body to a message. -/
  | appendBody (types : List Ty) (id : IdSource (List Step)) (answerId : Option UInt32)
      (used : Nat) (reversed : Bool)
  /-- Appends a call of the constructor to a message. -/
  | appendConstructor (used : Nat)
  /-- Reads one value. -/
  | read (type : Ty) (source : Option PackingSource) (followFirst : Bool)
  /-- Reads values. -/
  | readAll (types : List Ty) (source : Option PackingSource)
  /-- Reads values without traps. -/
  | readAllQuiet (types : List Ty) (source : Option PackingSource)
  /-- Reads stored data. -/
  | readData (bits refs : Nat) (types : List Ty) (keepRest : Bool)
  /-- Reads the arguments of a call. -/
  | readArguments (headers : Headers) (types : List Ty) (answers : Bool) (origin : Origin)
  /-- Reads the picked variables of stored data. -/
  | unpack (spec : PatchSpec)
  /-- Updates the picked variables of stored data; the steps for the new value of a variable stand
  at its index. -/
  | update (spec : PatchSpec) (new : List (List Step))

namespace Step

open Gen

/-- The packing that steps share, if any, as far as it has been passed. -/
abbrev Shared := Option Cursor

/-- The position that a source gives a step which handles the types. -/
def positionOf (types : List Ty) (shared : Shared) : PackingSource → Gen Position
  | .fresh bits refs own => do
    let packing ← ofExcept (Packing.ofTypesWith .wraps bits refs (own.getD types))
    return packing.start
  | .shared => return .packed (shared.getD { packing := ⟨[]⟩ })

/-- The position that a source gives, where no source stands for data in one cell. -/
def positionOf? (types : List Ty) (shared : Shared) : Option PackingSource → Gen Position
  | some source => positionOf types shared source
  | none => return .oneCell

/-- The shared packing after a step that got its position from a source. -/
def sharedAfter (shared : Shared) : PackingSource → Position → Shared
  | .shared, .packed c => some c
  | _, _ => shared

/-- The shared packing after a step that may have had no source. -/
def sharedAfter? (shared : Shared) : Option PackingSource → Position → Shared
  | some source, position => sharedAfter shared source position
  | none, _ => shared

mutual

/-- Carries out a step. -/
def run : Step → Shared → Gen Shared
  | .instr i, shared => do Gen.instr i; return shared
  | .push i, shared => do Gen.push i; return shared
  | .pushFromBottom i, shared => do Gen.push ((← depth) - 1 - i); return shared
  | .pop i, shared => do Gen.pop i; return shared
  | .xchg i, shared => do Gen.xchg i; return shared
  | .blkSwap i j, shared => do Gen.blkSwap i j; return shared
  | .reverse n j, shared => do Gen.reverse n j; return shared
  | .drop n, shared => do Gen.drop n; return shared
  | .dropUnder n m, shared => do Gen.dropUnder n m; return shared
  | .tuple n, shared => do Gen.tuple n; return shared
  | .untuple n, shared => do Gen.untuple n; return shared
  | .ensureDepth n context, shared => do Gen.ensureDepth n context; return shared
  | .ifElse a b, shared => Gen.ifElse (runAll a shared) (runAll b)
  | .call args rets body, shared => Gen.call args rets (runAll body shared)
  | .jumpIf body, shared => Gen.jumpIf (runAll body shared)
  | .jumpUnless body, shared => Gen.jumpUnless (runAll body shared)
  | .jumpUnlessAt entry body, shared => Gen.jumpUnlessAt entry (runAll body shared)
  | .share source, shared => do
    match ← positionOf [] shared source with
    | .packed c => return some c
    | .oneCell => return shared
  | .write types source tail, shared => do
    let position ← writeAll types (← positionOf types shared source) tail
    return sharedAfter shared source position
  | .writeBody types id answerId source, shared => do
    let position ← positionOf types shared source
    let (shared, position) ← Gen.writeBody types shared (runId id) answerId position
    return sharedAfter shared source position
  | .appendBody types id answerId used reversed, shared =>
    Gen.appendBodyWith .wraps types shared (runId id) answerId used reversed
  | .appendConstructor used, shared => do Gen.appendConstructor used; return shared
  | .read type source followFirst, shared => do
    let position ← Gen.read type (← positionOf? [type] shared source) followFirst
    return sharedAfter? shared source position
  | .readAll types source, shared => do
    let position ← Gen.readAll types (← positionOf? types shared source)
    return sharedAfter? shared source position
  | .readAllQuiet types source, shared => do
    let position ← Gen.readAllQuiet types (← positionOf? types shared source)
    return sharedAfter? shared source position
  | .readData bits refs types keepRest, shared => do
    Gen.readDataWith .wraps bits refs types keepRest
    return shared
  | .readArguments headers types answers origin, shared => do
    Gen.readArgumentsWith .wraps headers types answers origin
    return shared
  | .unpack spec, shared => do
    Patch.unpack (← ofExcept spec.patch)
    return shared
  | .update spec new, shared => do
    let patch ← ofExcept spec.patch
    let programs := runEach new
    patch.update (fun i shared => (programs[i]?.getD pure) shared) shared

/-- Carries out steps in turn. -/
def runAll : List Step → Shared → Gen Shared
  | [], shared => return shared
  | s :: ss, shared => do
    let shared ← run s shared
    runAll ss shared

/-- The code of an id source. -/
def runId : IdSource (List Step) → IdSource (Shared → Gen Shared)
  | .known id => .known id
  | .pushed steps => .pushed fun shared => runAll steps shared

/-- The generators of several scripts. -/
def runEach : List (List Step) → List (Shared → Gen Shared)
  | [] => []
  | steps :: scripts => (fun shared => runAll steps shared) :: runEach scripts

end

/-- Carries out a script from a height of the stack on: the height after each step, and then the
code and the shared packing, or the error of the step that fails. -/
def trace : List Step → Shared → (depth : Nat) →
    List Nat × Except GenError (List Instr × Shared)
  | [], shared, _ => ([], .ok ([], shared))
  | s :: ss, shared, depth =>
    match run s shared none depth with
    | .error e => ([], .error e)
    | .ok r =>
      let (depths, result) := trace ss r.value r.depth
      (r.depth :: depths, result.map fun (code, shared) => (r.code ++ code, shared))

end Step

end TypedCells
