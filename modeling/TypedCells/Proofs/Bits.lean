import Mathlib.Algebra.Group.Nat.Defs
import TypedCells.Wire.Store

/-!
# Integers as bit strings

A string of `w` bits is a number below `twoPow w`, and the other way round (`Bits.toNat_ofNat`,
`Bits.ofNat_toNat`). In two's complement it is an integer of `SignedRange w`
(`Bits.toInt_ofInt`, `Bits.ofInt_toInt`). The byte length of a variable integer is the least one
that holds it (`varByteLength_le_iff`).
-/

namespace TypedCells

theorem twoPow_eq (n : Nat) : twoPow n = 2 ^ n := by simp [twoPow, Nat.one_shiftLeft]

@[simp] theorem twoPow_zero : twoPow 0 = 1 := rfl

theorem twoPow_succ (n : Nat) : twoPow (n + 1) = 2 * twoPow n := by
  rw [twoPow_eq, twoPow_eq, Nat.pow_succ, Nat.mul_comm]

theorem twoPow_pos (n : Nat) : 0 < twoPow n := by
  rw [twoPow_eq]; exact Nat.two_pow_pos n

theorem twoPow_le {m n : Nat} (h : m ≤ n) : twoPow m ≤ twoPow n := by
  rw [twoPow_eq, twoPow_eq]; exact Nat.pow_le_pow_right (by omega) h

theorem bitLength_le_iff {n w : Nat} : bitLength n ≤ w ↔ n < twoPow w := by
  unfold bitLength
  split
  · next h => simp [h, twoPow_pos]
  · next h => rw [twoPow_eq, ← Nat.log2_lt h]; omega

namespace Bits

/-! ### Numbers -/

@[simp] theorem length_ofNat : ∀ w n : Nat, (ofNat w n).length = w
  | 0, _ => rfl
  | w + 1, n => by simp [ofNat, length_ofNat w]

@[simp] theorem toNat_nil : toNat [] = 0 := rfl

theorem foldl_digits (bs : Bits) (n : Nat) :
    bs.foldl (fun n b => 2 * n + b.toNat) n = n * twoPow bs.length + toNat bs := by
  induction bs generalizing n with
  | nil => simp
  | cons b bs ih =>
    simp only [toNat, List.foldl_cons, List.length_cons, twoPow_succ]
    rw [ih (2 * n + b.toNat), ih (2 * 0 + b.toNat)]
    simp only [Nat.add_mul, Nat.mul_zero, Nat.zero_add]
    rw [Nat.mul_comm 2 n, Nat.mul_assoc]
    omega

theorem toNat_cons (b : Bool) (bs : Bits) :
    toNat (b :: bs) = b.toNat * twoPow bs.length + toNat bs := by
  have h := foldl_digits bs b.toNat
  simpa [toNat] using h

theorem toNat_lt : ∀ bs : Bits, toNat bs < twoPow bs.length
  | [] => by simp
  | b :: bs => by
    have ih := toNat_lt bs
    rw [toNat_cons, List.length_cons, twoPow_succ]
    cases b <;> simp <;> omega

theorem toNat_ofNat (w n : Nat) : toNat (ofNat w n) = n % twoPow w := by
  induction w with
  | zero => simp [ofNat, Nat.mod_one]
  | succ w ih =>
    rw [ofNat, toNat_cons, ih, length_ofNat, twoPow_eq, twoPow_eq, Nat.mod_pow_succ,
      Nat.testBit_eq_decide_div_mod_eq]
    rcases Nat.mod_two_eq_zero_or_one (n / 2 ^ w) with h | h <;> simp [h, Nat.add_comm]

theorem toNat_ofNat_of_lt {w n : Nat} (h : n < twoPow w) : toNat (ofNat w n) = n := by
  rw [toNat_ofNat, Nat.mod_eq_of_lt h]

theorem toNat_inj {as bs : Bits} (hl : as.length = bs.length) (h : toNat as = toNat bs) :
    as = bs := by
  induction as generalizing bs with
  | nil => cases bs with
    | nil => rfl
    | cons b bs => simp at hl
  | cons a as ih => cases bs with
    | nil => simp at hl
    | cons b bs =>
      have hl' : as.length = bs.length := by simpa using hl
      have ha := toNat_lt as
      have hb := toNat_lt bs
      rw [toNat_cons, toNat_cons, ← hl'] at h
      rw [← hl'] at hb
      have hab : a = b := by cases a <;> cases b <;> simp at h ⊢ <;> omega
      subst hab
      rw [ih hl' (by omega)]

theorem ofNat_toNat (bs : Bits) : ofNat bs.length (toNat bs) = bs :=
  toNat_inj (length_ofNat _ _) (toNat_ofNat_of_lt (toNat_lt bs))

/-! ### Two's complement -/

/-- The integers that `w` bits of two's complement can hold; no bits hold `0`. -/
def SignedRange (w : Nat) (v : Int) : Prop :=
  -(twoPow w : Int) ≤ 2 * v ∧ 2 * v < twoPow w

@[simp] theorem length_ofInt (w : Nat) (v : Int) : (ofInt w v).length = w := length_ofNat _ _

theorem toInt_eq (bs : Bits) :
    toInt bs = toNat bs - if bs.headD false then (twoPow bs.length : Int) else 0 := by
  cases bs with
  | nil => rfl
  | cons b bs =>
    rw [toInt, toNat_cons, List.length_cons, twoPow_succ]
    cases b
    · simp
    · simp only [if_true, Bool.toNat_true, List.headD_cons]
      omega

theorem toInt_mem (bs : Bits) : SignedRange bs.length (toInt bs) := by
  cases bs with
  | nil => simp [SignedRange, toInt]
  | cons b bs =>
    have h := toNat_lt bs
    rw [SignedRange, toInt, List.length_cons, twoPow_succ]
    cases b <;> simp <;> omega

theorem toInt_emod (bs : Bits) : (toInt bs % twoPow bs.length).toNat = toNat bs := by
  have h := toNat_lt bs
  rw [toInt_eq]
  split
  · rw [Int.sub_emod_right, Int.emod_eq_of_lt (by omega) (by omega), Int.toNat_natCast]
  · rw [Int.sub_zero, Int.emod_eq_of_lt (by omega) (by omega), Int.toNat_natCast]

theorem ofInt_toInt (bs : Bits) : ofInt bs.length (toInt bs) = bs := by
  rw [ofInt, toInt_emod, ofNat_toNat]

/-- Two integers of the range of `w` bits with the same remainder are equal. -/
theorem signedRange_inj {w : Nat} {v v' : Int} (h : SignedRange w v) (h' : SignedRange w v')
    (hm : v % twoPow w = v' % twoPow w) : v = v' := by
  have hp := twoPow_pos w
  unfold SignedRange at h h'
  obtain ⟨k, hk⟩ : (twoPow w : Int) ∣ v - v' := Int.dvd_of_emod_eq_zero (by
    rw [Int.sub_emod, hm, Int.sub_self, Int.zero_emod])
  have h1 : -(twoPow w : Int) < twoPow w * k := by omega
  have h2 : (twoPow w : Int) * k < twoPow w := by omega
  have hk0 : k = 0 := by
    rcases Int.lt_trichotomy k 0 with hk | hk | hk
    · have : (twoPow w : Int) * k ≤ twoPow w * (-1) :=
        Int.mul_le_mul_of_nonneg_left (by omega) (by omega)
      omega
    · exact hk
    · have : (twoPow w : Int) * 1 ≤ twoPow w * k :=
        Int.mul_le_mul_of_nonneg_left (by omega) (by omega)
      omega
  rw [hk0] at hk
  omega

theorem toInt_ofInt {w : Nat} {v : Int} (h : SignedRange w v) : toInt (ofInt w v) = v := by
  have hp := twoPow_pos w
  have hr : SignedRange w (toInt (ofInt w v)) := by simpa using toInt_mem (ofInt w v)
  refine signedRange_inj hr h ?_
  have hm : 0 ≤ v % twoPow w := Int.emod_nonneg _ (by omega)
  have hl : v % twoPow w < twoPow w := Int.emod_lt_of_pos _ (by omega)
  have he := toInt_emod (ofInt w v)
  rw [length_ofInt, ofInt, toNat_ofNat_of_lt (by omega)] at he
  have hm' : 0 ≤ toInt (ofNat w (v % twoPow w).toNat) % twoPow w := Int.emod_nonneg _ (by omega)
  rw [ofInt]
  omega

end Bits

/-! ### Variable integers -/

/-- The integers that `n` whole bytes can hold. -/
def ByteRange (signed : Bool) (n : Nat) (v : Int) : Prop :=
  if signed then Bits.SignedRange (8 * n) v else 0 ≤ v ∧ v < twoPow (8 * n)

/-- The byte length of an integer is the least one that can hold it. -/
theorem varByteLength_le_iff {signed : Bool} {n : Nat} {v : Int} (h : signed ∨ 0 ≤ v) :
    varByteLength v signed ≤ n ↔ ByteRange signed n v := by
  have hp := twoPow_pos (8 * n)
  unfold varByteLength ByteRange Bits.SignedRange
  by_cases hv : v = 0
  · subst hv; cases signed <;> simp <;> omega
  rw [if_neg hv]
  cases signed with
  | false =>
    have h0 : 0 ≤ v := by simpa using h
    have hb := bitLength_le_iff (n := v.natAbs) (w := 8 * n)
    simp only [Bool.false_eq_true, if_false]
    omega
  | true =>
    simp only [if_true]
    cases n with
    | zero => simp; omega
    | succ n =>
      have ht : twoPow (8 * (n + 1)) = 2 * twoPow (8 * n + 7) := twoPow_succ (8 * n + 7)
      have hn := bitLength_le_iff (n := (-v - 1).toNat) (w := 8 * n + 7)
      have hq := bitLength_le_iff (n := v.toNat) (w := 8 * n + 7)
      have hp' := twoPow_pos (8 * n + 7)
      rw [ht]
      split <;> omega

end TypedCells
