import TypedCells.Gen.Write
import TypedCells.Patch.Unpack

/-!
# Updating the picked variables

`Patch.update` turns a slice of stored data into one in which the picked variables have new values
and all else is copied. First the data is taken apart on the stack (`gather`): raw slices and
values to be copied, and the new values, the first on top. Then it is written again
(`writePieces`), a new builder being opened where the packing has it, and what was not visited is
put behind.
-/

namespace TypedCells.Patch

open Gen

variable {α : Type}

/-! ### Taking data apart -/

/-- Puts the new value of a variable on the stack; the code for it gets `a` and gives the result. -/
def provide (new : Nat → α → Gen α) (v : Variable) (a : α) : Gen α := do
  let before ← depth
  let a ← new v.index a
  ensureDepth (before + 1) "repack value provider"
  return a

/-- Puts the new values of several variables on the stack. -/
def provideEach (new : Nat → α → Gen α) : List Variable → α → Gen α
  | [], a => pure a
  | v :: vs, a => do
    let a ← provide new v a
    provideEach new vs a

/-- Passes over runs, each of which ends its cell but the last one, which does if `lastOpens`
holds. -/
def passRuns (lastOpens : Bool) : List (List StoredLeaf) → Gen Unit
  | [] => pure ()
  | run :: rest => do
    passRun run (if rest.isEmpty then lastOpens else true)
    passRuns lastOpens rest

/-- Replaces picked leaves by new values: `s → x₁ … xₙ s`. A leaf on its own is read, which leaves
the stack as it has to be. -/
def replaceStretch (new : Nat → α → Gen α) (leaves : List StoredLeaf) (nextOpens : Bool) (a : α) :
    Gen α := do
  let vs := pickedVariables leaves
  match leaves, vs, nextOpens with
  | [leaf], [v], false => do
    op (.load leaf.type)
    let a ← provide new v a
    pop 2
    return a
  | _, _, _ => do
    passRuns nextOpens (runs leaves)
    let a ← provideEach new vs a
    blkSwap 1 vs.length
    return a

/-- Takes fragments off the front of a slice: `s → x₁ … xₙ s`. -/
def takeFragments : List Fragment → Gen Unit
  | [] => pure ()
  | .raw bits refs :: fragments => do
    op (.pushInt (cutToWord bits))
    op (.pushInt (cutToWord refs))
    op .split
    takeFragments fragments
  | .value t :: fragments => do
    op (.load t)
    takeFragments fragments

/-- Takes all of a slice but its link, and enters the next cell: `s → x s`. -/
def takeCell (leaves : List StoredLeaf) : Gen Unit :=
  if fixedRefs? leaves = some 0 then op .ldRefRest
  else do
    push 0
    op .bitRefs
    op .dec
    op .split
    enterLink

/-- What the stack holds of leaves that are copied. -/
def heldOf (leaves : List StoredLeaf) (nextOpens : Bool) : List Held :=
  if nextOpens then [.raw]
  else (fragments leaves).map fun
    | .raw _ _ => .raw
    | .value t => .value t

/-- Takes stretches off a slice and says what the stack then holds: `s → x₁ … xₙ s`. -/
def gatherStretches (new : Nat → α → Gen α) : List (List StoredLeaf) → α → Gen (List Held × α)
  | [], a => pure ([], a)
  | leaves :: rest, a => do
    let nextOpens := opensNext rest
    if leaves.head?.any (·.picked) then
      let a ← replaceStretch new leaves nextOpens a
      let (held, a) ← gatherStretches new rest a
      return ((pickedVariables leaves).map (.value ·.type) ++ held, a)
    else
      if nextOpens then takeCell leaves else takeFragments (fragments leaves)
      let (held, a) ← gatherStretches new rest a
      return (heldOf leaves nextOpens ++ held, a)

/-- Takes the visited leaves off a slice: `s → s xₙ … x₁`, and says what `x₁ … xₙ` are. -/
def gather (p : Patch) (new : Nat → α → Gen α) (a : α) : Gen (List Held × α) := do
  let entry ← depth
  enterFirst p
  let (held, a) ← gatherStretches new (stretches p.visited) a
  ensureDepth (entry + held.length) "repack fragments"
  reverse (held.length + 1) 0
  return (held, a)

/-! ### Writing it again -/

/-- How far updated data has been written. -/
structure Progress where
  /-- What is held under the builder, the next first. -/
  held : List Held
  /-- The number of builders on the stack. -/
  builders : Nat := 1

/-- Opens a new builder; the one so far goes under the rest of the slice and all that is held. The
slice was `entry` entries high. -/
def openBuilder (entry : Nat) (r : Progress) : Gen Progress := do
  blkSwap ((← depth) + 1 - entry - r.builders) 1
  op .newc
  return { r with builders := r.builders + 1 }

/-- Opens a new builder if the first of the leaves opens a cell. -/
def openBuilderFor (entry : Nat) (leaves : List StoredLeaf) (r : Progress) : Gen Progress :=
  if opensCell leaves then openBuilder entry r else pure r

/-- Writes what is held as a slice. -/
def copyRaw (held : List Held) : Gen (List Held) :=
  match held with
  | .raw :: held => do
    op .stSlice
    return held
  | held => fail (.internal (.rawExpected held.head?))

/-- Writes what is held as a value. -/
def copyValue (t : Ty) (held : List Held) : Gen (List Held) :=
  match held with
  | .value u :: rest =>
    if u = t then do
      op (.store t)
      return rest
    else fail (.internal (.valueExpected t held.head?))
  | held => fail (.internal (.valueExpected t held.head?))

/-- Writes fragments that are held. -/
def copyFragments : List Fragment → List Held → Gen (List Held)
  | [], held => pure held
  | .raw _ _ :: fragments, held => do
    let held ← copyRaw held
    copyFragments fragments held
  | .value t :: fragments, held => do
    let held ← copyValue t held
    copyFragments fragments held

mutual

/-- Takes a held value of type `u` apart until the leaf `t` is next, where `rest` is held under it:
`x b → … b`. Members before the leaf that have no leaves go away with it; the result is what is
held under the leaf, or nothing if `u` has no leaves. -/
def exposeIn (t : Ty) : (u : Ty) → (rest : List Held) → Gen (Option (List Held))
  | .struct _ fs, rest => do
    openStruct fs.length
    exposeAmong t fs rest
  | .alias _ u, rest => exposeIn t u rest
  | u, rest => if u = t then pure (some rest) else fail (.internal (.noSuchLeaf u t))

/-- Takes the first of held members that has leaves apart. -/
def exposeAmong (t : Ty) : (fs : List (Field Ty)) → (rest : List Held) → Gen (Option (List Held))
  | [], _ => pure none
  | ⟨_, u⟩ :: fs, rest => do
    match ← exposeIn t u (fs.map (.value ·.type) ++ rest) with
    | some held => return some held
    | none => exposeAmong t fs rest

end

/-- Takes held values apart until the leaf `t` is next, and gives what is held under it. -/
def expose (t : Ty) : List Held → Gen (List Held)
  | .value u :: held => do
    match ← exposeIn t u held with
    | some held => return held
    | none => expose t held
  | held => fail (.internal (.valueExpected t held.head?))

/-- Writes the leaves of a new value, opening builders where the packing has it. -/
def writeLeaves (entry : Nat) : List StoredLeaf → Progress → Gen Progress
  | [], r => pure r
  | l :: ls, r => do
    let r ← openBuilderFor entry [l] r
    let held ← expose l.type r.held
    op (.store l.type)
    writeLeaves entry ls { r with held }

/-- Writes pieces in order. -/
def writePieces (entry : Nat) : List (List StoredLeaf) → Progress → Gen Progress
  | [], r => pure r
  | piece :: rest, r => do
    let r ←
      if piece.head?.any (·.picked) then writeLeaves entry piece r
      else do
        let r ← openBuilderFor entry piece r
        let held ←
          if opensNext rest then copyRaw r.held else copyFragments (fragments piece) r.held
        pure { r with held }
    writePieces entry rest r

/-- Turns a slice of stored data into a slice of updated data. The code for the new value of a
variable is `new` at its index. -/
def update (p : Patch) (new : Nat → α → Gen α) (a : α) : Gen α := do
  let entry ← depth
  require 1 "pack_data"
  let (held, a) ← gather p new a
  op .newc
  let r ← writePieces entry (pieces p.visited) { held }
  op .stSlice
  linkBuilders r.builders
  op .endc
  op .ctos
  if r.held.length > 0 then fail (.internal (.heldLeft r.held.length))
  ensureDepth entry "pack_data"
  return a

end TypedCells.Patch
