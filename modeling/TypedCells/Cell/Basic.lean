import TypedCells.Bits

/-!
# Cells

A cell holds bits and references to further cells, so it is a tree; two cells are equal when the
trees are (`Cell.same_iff`). It has room for `maxBits` bits and `maxRefs` references. Data too long
for one cell goes on in the cell behind the last reference: `Cell.chain?` follows such links.
-/

namespace TypedCells

/-- The number of bits a cell can hold. -/
def maxBits : Nat := 1023

/-- The number of references a cell can hold. -/
def maxRefs : Nat := 4

/-- A cell: data bits, and references to other cells. -/
structure Cell where
  /-- The data bits. -/
  bits : Bits
  /-- The cells referred to. -/
  refs : List Cell

namespace Cell

/-- The cell without data. -/
def empty : Cell := ⟨[], []⟩

instance : Inhabited Cell := ⟨empty⟩

mutual

/-- Equality of the whole trees. -/
def same : Cell → Cell → Bool
  | ⟨bs, rs⟩, ⟨bs', rs'⟩ => bs == bs' && sameAll rs rs'

/-- Equality of lists of cells. -/
def sameAll : List Cell → List Cell → Bool
  | [], [] => true
  | c :: cs, c' :: cs' => same c c' && sameAll cs cs'
  | _, _ => false

end

mutual

theorem same_iff : ∀ c d : Cell, same c d = true ↔ c = d
  | ⟨_, rs⟩, ⟨_, _⟩ => by simp [same, sameAll_iff rs]

theorem sameAll_iff : ∀ cs ds : List Cell, sameAll cs ds = true ↔ cs = ds
  | [], ds => by cases ds <;> simp [sameAll]
  | c :: cs, ds => by cases ds <;> simp [sameAll, same_iff c, sameAll_iff cs]

end

instance : DecidableEq Cell := fun c d => decidable_of_iff _ (same_iff c d)

/-- The cell and the `links` cells that continue it, each behind the last reference of the one
before. The last references of the last cell are data. -/
def chain? : Cell → (links : Nat) → Option (List Cell)
  | c, 0 => some [c]
  | c, n + 1 => do
    let next ← c.refs.getLast?
    return c :: (← next.chain? n)

end Cell

end TypedCells
