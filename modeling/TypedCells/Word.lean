/-!
# Sums in words

Room is counted in words of 32 bits. A sum that no word holds is cut to its last 32 bits, unless the
generator is built to stop there (`Overflow`). Cutting may wait until a sum is complete
(`cutToWord_add`), so a sum of words is the cut sum of what they stand for.
-/

namespace TypedCells

/-- The number of values of a word: `2 ^ 32`. -/
def wordLimit : Nat := 4294967296

/-- What a word keeps of a number. -/
def cutToWord (n : Nat) : Nat := n % wordLimit

/-- The number before `n`, counted in words: the last word comes before zero. -/
def predInWord (n : Nat) : Nat := if n = 0 then wordLimit - 1 else n - 1

/-- What becomes of a sum that no word holds. -/
inductive Overflow where
  /-- The generator stops. -/
  | stops
  /-- The sum is cut. -/
  | wraps
deriving DecidableEq, Repr

/-- What is left of a sum. A generator that stops has the sum itself and stops before it is used. -/
def Overflow.keep : Overflow → Nat → Nat
  | .stops, n => n
  | .wraps, n => cutToWord n

theorem cutToWord_le (n : Nat) : cutToWord n ≤ n := Nat.mod_le ..

theorem cutToWord_of_lt {n : Nat} (h : n < wordLimit) : cutToWord n = n := Nat.mod_eq_of_lt h

/-- Cutting may wait until the sum is complete. -/
theorem cutToWord_add (m n : Nat) : cutToWord (cutToWord m + cutToWord n) = cutToWord (m + n) :=
  (Nat.add_mod ..).symm

@[simp] theorem cutToWord_cutToWord (n : Nat) : cutToWord (cutToWord n) = cutToWord n :=
  Nat.mod_mod ..

@[simp] theorem cutToWord_cutToWord_add (m n : Nat) :
    cutToWord (cutToWord m + n) = cutToWord (m + n) :=
  Nat.mod_add_mod ..

@[simp] theorem cutToWord_add_cutToWord (m n : Nat) :
    cutToWord (m + cutToWord n) = cutToWord (m + n) :=
  Nat.add_mod_mod ..

/-- Whole bytes stay whole when their bits are cut to a word. -/
theorem cutToWord_eight_mul (n : Nat) : cutToWord (8 * n) = 8 * (n % 536870912) :=
  Nat.mul_mod_mul_left 8 n 536870912

theorem predInWord_of_pos {n : Nat} (h : 1 ≤ n) : predInWord n = n - 1 := if_neg (by omega)

theorem sub_one_le_predInWord (n : Nat) : n - 1 ≤ predInWord n := by
  unfold predInWord
  split <;> omega

end TypedCells
