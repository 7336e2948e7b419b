import TypedCells.Gen.Error

/-!
# Packing leaves into a chain of cells

A list of types is stored leaf by leaf in a chain of cells, each linked from the last reference of
the one before. A `Packing` says which leaves open a new cell. Writing, reading and patching follow
the same packing and so agree on the form of the data.

A leaf goes into the current cell if it and all leaves after it fit there, or if it fits and leaves
a reference for the link (`placeInWords`). Room is counted by `Ty.wordSize`, so a packing does not
depend on the values. A packing made with a sum that was cut can have leaves where there is no room
for them (`Overflow.wraps`); a generator that stops at such a sum (`Overflow.stops`) makes none.

A `Cursor` passes the leaves of a packing in order and refuses any other leaf. A `Position` is such
a cursor, or stands for data that is known to lie in one cell.
-/

namespace TypedCells

/-- A leaf and where it goes. -/
structure PackedLeaf where
  /-- The type of the leaf. -/
  type : Ty
  /-- The leaf is the first of a new cell. -/
  opensCell : Bool
deriving DecidableEq

/-- Which leaves of a list open a new cell. -/
structure Packing where
  /-- The leaves in order. -/
  leaves : List PackedLeaf
deriving DecidableEq

/-- A leaf that is to be placed. -/
structure LooseLeaf where
  /-- The type of the leaf. -/
  type : Ty
  /-- The room that the leaf takes. -/
  size : Size
  /-- The room that the leaf and all after it take together. -/
  rest : Size

namespace LooseLeaf

/-- The room that loose leaves take together. -/
def total : List LooseLeaf → Size
  | [] => 0
  | l :: _ => l.rest

/-- Leaves with their room, counted in words from the last leaf on. -/
def ofTypes : List Ty → List LooseLeaf
  | [] => []
  | t :: ts =>
    let ls := ofTypes ts
    ⟨t, t.wordSize, (t.wordSize + total ls).cut⟩ :: ls

end LooseLeaf

namespace Packing

/-- Places leaves in a cell that already holds `bits` bits and `refs` references, and in the cells
that continue it. All sums are cut to words. -/
def placeInWords (bits refs : Nat) : List LooseLeaf → Except GenError (List PackedLeaf)
  | [] => return []
  | l :: ls =>
    let bits' := cutToWord (bits + l.size.bits)
    let refs' := cutToWord (refs + l.size.refs)
    if cutToWord (bits + l.rest.bits) ≤ maxBits ∧ cutToWord (refs + l.rest.refs) ≤ maxRefs then do
      return ⟨l.type, false⟩ :: (← placeInWords bits' refs' ls)
    else if bits' ≤ maxBits ∧ refs' < maxRefs then do
      return ⟨l.type, false⟩ :: (← placeInWords bits' refs' ls)
    else if l.size.bits ≤ maxBits ∧ l.size.refs < maxRefs then do
      return ⟨l.type, true⟩ :: (← placeInWords l.size.bits l.size.refs ls)
    else throw (.unsupported (.oversizedLeaf l.type))

/-- Words hold all sums that are taken when leaves are packed behind `bits` bits and `refs`
references. -/
def SumsFit (bits refs : Nat) (leaves : List Ty) : Prop :=
  (∀ t ∈ leaves, t.sumsFit) ∧ bits + (Ty.totalSize leaves).bits < wordLimit ∧
    refs + (Ty.totalSize leaves).refs < wordLimit

instance (bits refs : Nat) (leaves : List Ty) : Decidable (SumsFit bits refs leaves) :=
  inferInstanceAs (Decidable (_ ∧ _))

/-- Packs the leaves of the types behind `bits` bits and `refs` references. -/
def ofTypesWith (o : Overflow) (bits refs : Nat) (ts : List Ty) : Except GenError Packing :=
  let leaves := Ty.allLeaves ts
  if o = .stops ∧ ¬ SumsFit bits refs leaves then throw .overflow
  else
    match Ty.oversizedAmong? leaves with
    | some payload => throw (.unsupported (.oversizedPayload payload))
    | none => do return ⟨← placeInWords bits refs (LooseLeaf.ofTypes leaves)⟩

/-- Packs the leaves of the types behind `bits` bits and `refs` references, unless no word holds a
sum. -/
def ofTypes (bits refs : Nat) (ts : List Ty) : Except GenError Packing :=
  ofTypesWith .stops bits refs ts

/-- Whether the leaf with index `i` opens a new cell; no leaf, as behind the last one, opens
none. -/
def opensCell (p : Packing) (i : Nat) : Bool := p.leaves[i]?.any (·.opensCell)

/-- The number of cells after the first one. -/
def newCells (p : Packing) : Nat := p.leaves.countP (·.opensCell)

end Packing

/-- A place between the leaves of a packing. -/
structure Cursor where
  /-- The packing. -/
  packing : Packing
  /-- The number of leaves passed. -/
  index : Nat := 0

namespace Cursor

/-- Passes one leaf and tells whether it opens a new cell. -/
def skip (c : Cursor) (leaf : Ty) : Except GenError (Bool × Cursor) :=
  match c.packing.leaves[c.index]? with
  | none => throw (.packingExhausted c.packing.leaves.length)
  | some l =>
    if l.type = leaf then return (l.opensCell, { c with index := c.index + 1 })
    else throw (.packingMismatch c.index l.type leaf)

/-- Passes leaves in turn, up to the first that is refused. -/
def skipAll : List Ty → Cursor → Cursor × Except GenError Unit
  | [], c => (c, .ok ())
  | leaf :: leaves, c =>
    match c.skip leaf with
    | .ok (_, c) => skipAll leaves c
    | .error e => (c, .error e)

end Cursor

/-- Where the next leaf goes. -/
inductive Position where
  /-- Into the one cell that holds everything. -/
  | oneCell
  /-- To where a packing has it. -/
  | packed (c : Cursor)

/-- Passes one leaf and tells whether it opens a new cell. -/
def Position.skip : Position → Ty → Except GenError (Bool × Position)
  | .oneCell, _ => return (false, .oneCell)
  | .packed c, leaf => do
    let (opens, c) ← c.skip leaf
    return (opens, .packed c)

/-- The start of a packing. -/
def Packing.start (p : Packing) : Position := .packed ⟨p, 0⟩

end TypedCells
