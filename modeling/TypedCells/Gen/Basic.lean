import TypedCells.Gen.Error
import TypedCells.Machine.Listing

/-!
# Generating code

A generator `Gen α` produces code together with a result. It starts from the height of the stack
and the call that the code is in, and knows the height after every instruction it adds, so it
refuses code that would take more than the stack holds. The arms of a conditional have to agree on
the height, a call has to leave what it promised, and so does every jump out of it.

The code of a sequence of generators is their code in a row; a generator that runs inside an
instruction (`Gen.ifElse`, `Gen.call` and the jumps) gives the program of that instruction.
-/

namespace TypedCells

/-- A call whose body is being generated. -/
structure Frame where
  /-- The height of the stack below the arguments. -/
  base : Nat
  /-- The number of entries that the call returns. -/
  rets : Nat

/-- What a generator made. -/
structure Generated (α : Type) where
  /-- The result. -/
  value : α
  /-- The code. -/
  code : List Instr
  /-- The height of the stack after the code. -/
  depth : Nat

/-- A generator of code, given the innermost call the code is in and the height of the stack
before it. -/
def Gen (α : Type) : Type := Option Frame → (depth : Nat) → Except GenError (Generated α)

namespace Gen

variable {α β : Type}

instance : Monad Gen where
  pure a := fun _ depth => .ok ⟨a, [], depth⟩
  bind x f := fun frame depth => do
    let r ← x frame depth
    let r' ← f r.value frame r.depth
    return ⟨r'.value, r.code ++ r'.code, r'.depth⟩

/-- Fails. -/
def fail (e : GenError) : Gen α := fun _ _ => .error e

/-- A result that may be an error already. -/
def ofExcept : Except GenError α → Gen α
  | .ok a => pure a
  | .error e => fail e

/-- The height of the stack. -/
def depth : Gen Nat := fun _ depth => .ok ⟨depth, [], depth⟩

/-- Fails unless the stack has `n` entries. -/
def require (n : Nat) (context : String) : Gen Unit := do
  if (← depth) < n then fail (.stackUnderflow context)

/-- Fails unless the stack has exactly the given height. -/
def ensureDepth (expected : Nat) (context : String) : Gen Unit := do
  let found ← depth
  if found ≠ expected then fail (.stackMismatch context expected found)

/-- Adds an instruction, with the programs in it as they are. -/
def instr (i : Instr) : Gen Unit := fun _ depth =>
  if depth < i.effect.pops then .error (.stackUnderflow i.text)
  else .ok ⟨(), [i], depth - i.effect.pops + i.effect.pushes⟩

/-- Adds an instruction without a program in it. -/
def op (o : Op) : Gen Unit := instr (.op o)

/-- Fails if an instruction cannot have the number as an operand. -/
def operand (n : Nat) : Gen Unit := do
  if n > 255 then fail (.internal (.operandOutOfRange n))

/-! ### Moving stack entries -/

/-- Copies entry `i` to the top. -/
def push (i : Nat) : Gen Unit := do
  operand i
  op (.push i)

/-- Moves the top into entry `i`; the top into itself drops it. -/
def pop (i : Nat) : Gen Unit :=
  if i = 0 then op .drop
  else do
    operand i
    op (.pop i)

/-- Swaps the top with entry `i`. -/
def xchg (i : Nat) : Gen Unit :=
  if i = 0 then pure ()
  else do
    operand i
    op (.xchg i)

/-- Swaps the top `j` entries with the `i` entries under them. -/
def blkSwap (i j : Nat) : Gen Unit :=
  if i = 0 ∨ j = 0 then pure ()
  else do
    operand i
    operand j
    op (.blkSwap i j)

/-- Reverses the `n` entries under the top `j`. -/
def reverse (n j : Nat) : Gen Unit :=
  if n < 2 then pure ()
  else do
    operand n
    operand j
    op (.reverse n j)

/-- Drops the top `n` entries, one by one. -/
def drop : (n : Nat) → Gen Unit
  | 0 => pure ()
  | n + 1 => do
    op .drop
    drop n

/-- Drops the `n` entries under the top `m`. -/
def dropUnder (n m : Nat) : Gen Unit :=
  if n = 0 then pure ()
  else if m = 0 then drop n
  else do
    operand n
    operand m
    op (.blkDrop n m)

/-- Turns `x₁ … xₙ` into a tuple. -/
def tuple (n : Nat) : Gen Unit := do
  operand n
  op (.tuple n)

/-- Turns a tuple of `n` into `x₁ … xₙ`. -/
def untuple (n : Nat) : Gen Unit := do
  operand n
  op (.untuple n)

/-! ### Programs in instructions -/

/-- Takes a flag and runs one of two programs. The second generator gets the result of the first,
and both have to leave the same height. -/
def ifElse (thenArm : Gen α) (elseArm : α → Gen β) : Gen β := fun frame depth => do
  if depth < 1 then throw (.stackUnderflow "IFELSE")
  let a ← thenArm frame (depth - 1)
  let b ← elseArm a.value frame (depth - 1)
  if b.depth ≠ a.depth then throw (.stackMismatch "IFELSE branches" a.depth b.depth)
  return ⟨b.value, [.ifElse a.code b.code], b.depth⟩

/-- Runs a program on the top `args` entries alone. It has to leave `rets` in their place. -/
def call (args rets : Nat) (body : Gen α) : Gen α := fun frame depth => do
  if depth < args then throw (.stackUnderflow "CALLX")
  let base := depth - args
  let b ← body (some ⟨base, rets⟩) depth
  if b.depth ≠ base + rets then throw (.stackMismatch "CALLX exit" (base + rets) b.depth)
  let _ ← operand args frame depth
  let _ ← operand rets frame depth
  return ⟨b.value, [.call b.code args rets], b.depth⟩

/-- Takes a flag and adds a jump whose body starts at the height `entry` gives for the height
without the flag. The body has to leave what the enclosing call returns. -/
def jump (name : String) (mk : List Instr → Instr) (entry : Nat → Nat) (body : Gen α) : Gen α :=
  fun frame depth => do
    if depth < 1 then throw (.stackUnderflow name)
    let some f := frame | throw (.internal (.jumpOutsideCall name))
    let b ← body frame (entry (depth - 1))
    if b.depth ≠ f.base + f.rets then
      throw (.stackMismatch (name ++ " exit") (f.base + f.rets) b.depth)
    return ⟨b.value, [mk b.code], depth - 1⟩

/-- Leaves the enclosing call when the flag is not zero. -/
def jumpIf (body : Gen α) : Gen α := jump "IFJMP" .jumpIf id body

/-- Leaves the enclosing call when the flag is zero. -/
def jumpUnless (body : Gen α) : Gen α := jump "IFNOTJMP" .jumpUnless id body

/-- Leaves the enclosing call when the flag is zero, from another height than the code goes on
with: a quiet load that fails leaves fewer entries than one that succeeds. -/
def jumpUnlessAt (entry : Nat) (body : Gen α) : Gen α :=
  jump "IFNOTJMP" .jumpUnless (fun _ => entry) body

end Gen

end TypedCells
