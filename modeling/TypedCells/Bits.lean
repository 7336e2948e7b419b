/-!
# Bit strings of integers

Cells hold bits, the most significant one first. A natural number in `width` bits is `ofNat`, an
integer in two's complement is `ofInt`; `toNat` and `toInt` read them back. Integers themselves
are unbounded.
-/

namespace TypedCells

/-- The number of binary digits of `n`; `0` has none. -/
def bitLength (n : Nat) : Nat := if n = 0 then 0 else n.log2 + 1

/-- The power `2 ^ n`, which is the number of strings of `n` bits. -/
def twoPow (n : Nat) : Nat := 1 <<< n

/-- A string of bits, the most significant one first. -/
abbrev Bits := List Bool

namespace Bits

/-- The last `width` binary digits of `n`. -/
def ofNat : (width n : Nat) → Bits
  | 0, _ => []
  | w + 1, n => n.testBit w :: ofNat w n

/-- The number with the given binary digits. -/
def toNat (bs : Bits) : Nat := bs.foldl (fun n b => 2 * n + b.toNat) 0

/-- The last `width` digits of the two's complement of `v`. -/
def ofInt (width : Nat) (v : Int) : Bits := ofNat width (v % twoPow width).toNat

/-- The integer with the given two's complement: the first bit counts negatively. -/
def toInt : Bits → Int
  | [] => 0
  | b :: bs => toNat bs - if b then (twoPow bs.length : Int) else 0

end Bits

/-- The bitwise conjunction of two's complements that are unbounded to the left. -/
def bitAnd : Int → Int → Int
  | .ofNat m, .ofNat n => .ofNat (m &&& n)
  | .ofNat m, .negSucc n => .ofNat (m - (m &&& n))
  | .negSucc m, .ofNat n => .ofNat (n - (n &&& m))
  | .negSucc m, .negSucc n => .negSucc (m ||| n)

example : bitAnd (-4) 7 = 4 ∧ bitAnd (-4) (-6) = -8 := by decide

/-- The eight hexadecimal digits of a word. -/
def hexWord (w : UInt32) : String :=
  .ofList ((List.range 8).reverse.map fun i => Nat.digitChar (w.toNat / twoPow (4 * i) % 16))

end TypedCells
