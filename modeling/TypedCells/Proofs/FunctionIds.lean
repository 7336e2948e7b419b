import TypedCells.Interface.Signature

/-!
# Which id a call is met with

The highest bit of an id tells answers from calls. `Signature.outboundId` brings the bit into the
state that the reason for the message asks for. `Signature.inboundId` leaves it as the hash has it.
So a caller and its callee agree on an unpinned id only where the hash happens to begin with a
clear bit, and everywhere else the callee waits for the id that its own answer would carry
(`Signature.inboundId_agrees`).
-/

namespace TypedCells

/-! ### The bit of the direction -/

/-- Two words are the same when they have the same bits. -/
theorem word_eq_iff {x y : UInt32} :
    x = y ↔ ∀ (i : Nat) (hi : i < 32), x.toBitVec[i] = y.toBitVec[i] := by
  rw [← UInt32.toBitVec_inj, BitVec.eq_of_getElem_eq_iff]

theorem getElem_answerBit : ∀ (i : Nat) (hi : i < 32),
    answerBit.toBitVec[i] = decide (i = 31) := by
  decide

theorem and_answerBit_eq_zero_iff {x : UInt32} :
    x &&& answerBit = 0 ↔ x.toBitVec[31] = false := by
  simp only [word_eq_iff, UInt32.toBitVec_and, BitVec.getElem_and, getElem_answerBit]
  constructor
  · intro h
    simpa using h 31 (by omega)
  · intro h i hi
    by_cases hi' : i = 31 <;> simp [hi', h]

theorem clear_answerBit_iff {x : UInt32} : x &&& ~~~answerBit = x ↔ x &&& answerBit = 0 := by
  rw [and_answerBit_eq_zero_iff]
  simp only [word_eq_iff, UInt32.toBitVec_and, UInt32.toBitVec_not, BitVec.getElem_and,
    BitVec.getElem_not, getElem_answerBit]
  constructor
  · intro h
    simpa using h 31 (by omega)
  · intro h i hi
    by_cases hi' : i = 31 <;> simp [hi', h]

theorem set_answerBit_iff {x : UInt32} : x ||| answerBit = x ↔ x &&& answerBit ≠ 0 := by
  rw [ne_eq, and_answerBit_eq_zero_iff, Bool.not_eq_false]
  simp only [word_eq_iff, UInt32.toBitVec_or, BitVec.getElem_or, getElem_answerBit]
  constructor
  · intro h
    simpa using h 31 (by omega)
  · intro h i hi
    by_cases hi' : i = 31 <;> simp [hi', h]

namespace Signature

/-! ### Callers and callees -/

/-- The id a call goes out with is the one the callee expects just when it is pinned or the hash
begins with a clear bit. Just when it is pinned or the hash begins with a set bit, the callee
expects what its answer would go out with. -/
theorem inboundId_agrees (f : Signature) :
    (f.outboundId .call = f.inboundId ↔ f.pinned.isSome ∨ f.rawId &&& answerBit = 0) ∧
    (f.outboundId .answer = f.inboundId ↔ f.pinned.isSome ∨ f.rawId &&& answerBit ≠ 0) := by
  cases h : f.pinned with
  | some id => simp [outboundId, inboundId, h]
  | none => simp [outboundId, inboundId, h, clear_answerBit_iff, set_answerBit_iff]

/-- The getter of a balance, whose hash begins with a set bit. -/
def balance : Signature := ⟨"balance", [], some [.integer 128 false], false, none⟩

set_option maxRecDepth 10000 in
theorem rawId_balance : balance.rawId = 0x866db788 := by decide +kernel

/-- A call of `balance` goes out with an id that the callee does not expect. -/
theorem inboundId_balance : balance.outboundId .call ≠ balance.inboundId := by
  have hcall : balance.outboundId .call = balance.rawId &&& ~~~answerBit := rfl
  have hin : balance.inboundId = balance.rawId := rfl
  rw [hcall, hin, rawId_balance]
  decide

end Signature

end TypedCells
