import TypedCells.Proofs.Bits
import TypedCells.Proofs.Conditions
import TypedCells.Proofs.Values
import TypedCells.Proofs.WordSizes

/-!
# What reading a value takes off a slice

`Ty.load` moves the front of a slice over some bits and references, never more than are shown, and
the room it moves over is one that `Ty.size` allows (`Ty.load_moves`).
-/

namespace TypedCells

namespace Slice

/-! ### Moving the front -/

/-- The slice `s'` is `s` moved on by `n` bits and `m` references that `s` shows. -/
structure Moves (n m : Nat) (s s' : Slice) : Prop where
  eq : s' = s.advance n m
  bits_le : n ≤ s.bitCount
  refs_le : m ≤ s.refCount

theorem Moves.refl (s : Slice) : Moves 0 0 s s := ⟨rfl, Nat.zero_le _, Nat.zero_le _⟩

theorem Moves.trans {n m n' m' : Nat} {s s' s'' : Slice} (h : Moves n m s s')
    (h' : Moves n' m' s' s'') : Moves (n + n') (m + m') s s'' := by
  obtain ⟨rfl, h1, h2⟩ := h
  obtain ⟨rfl, h3, h4⟩ := h'
  rw [bitCount_advance] at h3
  rw [refCount_advance] at h4
  exact ⟨by rw [advance_advance], by omega, by omega⟩

theorem Moves.valid {n m : Nat} {s s' : Slice} (h : Moves n m s s') (hs : s.Valid) : s'.Valid := by
  rw [h.eq]; exact hs.advance h.bits_le h.refs_le

theorem readBits_moves {n : Nat} {s s' : Slice} {bs : Bits} (h : s.readBits n = .ok (bs, s')) :
    Moves n 0 s s' := by
  obtain ⟨h1, -, h2⟩ := readBits_eq_ok.1 h
  exact ⟨h2, h1, Nat.zero_le _⟩

theorem readBit_moves {s s' : Slice} {b : Bool} (h : s.readBit = .ok (b, s')) :
    Moves 1 0 s s' := by
  simp only [readBit, bind_eq_ok, pure_eq_ok, Except.ok.injEq, Prod.mk.injEq] at h
  obtain ⟨⟨bs, r⟩, h1, -, rfl⟩ := h
  exact readBits_moves h1

theorem readNat_moves {w n : Nat} {s s' : Slice} (h : s.readNat w = .ok (n, s')) :
    Moves w 0 s s' ∧ n < twoPow w := by
  simp only [readNat, bind_eq_ok, pure_eq_ok, Except.ok.injEq, Prod.mk.injEq] at h
  obtain ⟨⟨bs, r⟩, h1, rfl, rfl⟩ := h
  obtain ⟨-, h2, -⟩ := readBits_eq_ok.1 h1
  have h3 : bs.length ≤ w := by rw [h2]; exact List.length_take_le w _
  exact ⟨readBits_moves h1, Nat.lt_of_lt_of_le (Bits.toNat_lt bs) (twoPow_le h3)⟩

theorem readIntegral_moves {w : Nat} {signed : Bool} {s s' : Slice} {v : Value}
    (h : s.readIntegral w signed = .ok (v, s')) : Moves w 0 s s' := by
  unfold readIntegral at h
  split at h
  all_goals
    simp only [readInt, readNat, bind_eq_ok, pure_eq_ok, Except.ok.injEq, Prod.mk.injEq] at h
    obtain ⟨-, ⟨⟨bs, r⟩, h1, rfl⟩, -, rfl⟩ := h
    exact readBits_moves h1

theorem readRef_moves {s s' : Slice} {c : Cell} (h : s.readRef = .ok (c, s')) :
    Moves 0 1 s s' := by
  obtain ⟨h1, -, h2⟩ := readRef_eq_ok.1 h
  exact ⟨h2, Nat.zero_le _, by omega⟩

theorem readCell_moves {s s' : Slice} {v : Value} (h : s.readCell = .ok (v, s')) :
    Moves 0 1 s s' := by
  simp only [readCell, bind_eq_ok, pure_eq_ok, Except.ok.injEq, Prod.mk.injEq] at h
  obtain ⟨⟨c, r⟩, h1, -, rfl⟩ := h
  exact readRef_moves h1

theorem readDict_moves {s s' : Slice} {v : Value} (h : s.readDict = .ok (v, s')) :
    ∃ m ≤ 1, Moves 1 m s s' := by
  simp only [readDict, bind_eq_ok] at h
  obtain ⟨⟨b, r⟩, h1, h2⟩ := h
  cases b with
  | false =>
    simp only [Bool.false_eq_true, if_false, pure_eq_ok, Except.ok.injEq, Prod.mk.injEq] at h2
    obtain ⟨-, rfl⟩ := h2
    exact ⟨0, Nat.zero_le _, readBit_moves h1⟩
  | true =>
    simp only [if_true, bind_eq_ok, pure_eq_ok, Except.ok.injEq, Prod.mk.injEq] at h2
    obtain ⟨⟨c, r'⟩, h2, -, rfl⟩ := h2
    exact ⟨1, Nat.le_refl _, (readBit_moves h1).trans (readRef_moves h2)⟩

theorem skipAnycast_moves {s s' : Slice} (h : s.skipAnycast = .ok s') :
    ∃ n ≤ 36, Moves n 0 s s' := by
  simp only [skipAnycast, bind_eq_ok] at h
  obtain ⟨⟨b, r⟩, h1, h2⟩ := h
  cases b with
  | false =>
    simp only [Bool.false_eq_true, if_false, pure_eq_ok, Except.ok.injEq] at h2
    subst h2
    exact ⟨1, by omega, readBit_moves h1⟩
  | true =>
    simp only [if_true, bind_eq_ok] at h2
    obtain ⟨⟨depth, r'⟩, h2, h3⟩ := h2
    split at h3
    · simp at h3
    · next hd =>
      simp only [bind_eq_ok, pure_eq_ok, Except.ok.injEq] at h3
      obtain ⟨⟨bs, r''⟩, h3, rfl⟩ := h3
      exact ⟨1 + 5 + depth, by omega,
        ((readBit_moves h1).trans (readNat_moves h2).1).trans (readBits_moves h3)⟩

theorem skipAddress_moves {s s' : Slice} (h : s.skipAddress = .ok s') :
    ∃ n ≤ addressBits, Moves n 0 s s' := by
  simp only [skipAddress, bind_eq_ok] at h
  obtain ⟨⟨tag, r⟩, h1, h2⟩ := h
  have m1 := (readNat_moves h1).1
  have h9 : twoPow 9 = 512 := rfl
  unfold addressBits
  split at h2
  · simp only [pure_eq_ok, Except.ok.injEq] at h2
    subst h2
    exact ⟨2, by omega, m1⟩
  · simp only [bind_eq_ok, pure_eq_ok, Except.ok.injEq] at h2
    obtain ⟨⟨length, r'⟩, h2, ⟨bs, r''⟩, h3, rfl⟩ := h2
    obtain ⟨m2, hl⟩ := readNat_moves h2
    exact ⟨2 + 9 + length, by omega, (m1.trans m2).trans (readBits_moves h3)⟩
  · simp only [bind_eq_ok, pure_eq_ok, Except.ok.injEq] at h2
    obtain ⟨r', h2, ⟨bs, r''⟩, h3, rfl⟩ := h2
    obtain ⟨n, hn, m2⟩ := skipAnycast_moves h2
    exact ⟨2 + n + (8 + 256), by omega, (m1.trans m2).trans (readBits_moves h3)⟩
  · simp only [bind_eq_ok, pure_eq_ok, Except.ok.injEq] at h2
    obtain ⟨r', h2, ⟨length, r''⟩, h3, ⟨bs, r'''⟩, h4, rfl⟩ := h2
    obtain ⟨n, hn, m2⟩ := skipAnycast_moves h2
    obtain ⟨m3, hl⟩ := readNat_moves h3
    exact ⟨2 + n + 9 + (32 + length), by omega,
      ((m1.trans m2).trans m3).trans (readBits_moves h4)⟩

/-- Skips a standard address. -/
def skipStdAddress (s : Slice) : Except Trap Slice := do
  let (tag, rest) ← s.readBits 3
  if tag = [true, false, false] then
    let (_, rest) ← rest.readBits (8 + 256)
    return rest
  else throw .cellUnderflow

theorem readStdAddress_eq (s : Slice) :
    s.readStdAddress = do
      let rest ← s.skipStdAddress
      return (.slice (s.upTo rest), rest) := by
  unfold readStdAddress skipStdAddress
  rcases s.readBits 3 with _ | ⟨tag, r⟩
  · rfl
  · by_cases ht : tag = [true, false, false]
    · simp only [ok_bind, ht, if_true]
      rcases r.readBits (8 + 256) with _ | ⟨bs, r'⟩ <;> rfl
    · simp [ht]

theorem skipStdAddress_moves {s s' : Slice} (h : s.skipStdAddress = .ok s') :
    Moves stdAddressBits 0 s s' := by
  simp only [skipStdAddress, bind_eq_ok] at h
  obtain ⟨⟨tag, r⟩, h1, h2⟩ := h
  split at h2
  · simp only [bind_eq_ok, pure_eq_ok, Except.ok.injEq] at h2
    obtain ⟨⟨bs, r'⟩, h2, rfl⟩ := h2
    exact (readBits_moves h1).trans (readBits_moves h2)
  · simp at h2

end Slice

/-! ### The room that is moved over -/

/-- A room of `n` bits and `m` references is one that a bound allows. -/
structure Size.Allows (z : Size) (n m : Nat) : Prop where
  refs_le : m ≤ z.refs
  bits_eq : z.fixed = true → n = z.bits
  refs_eq : z.fixedRefs = true → m = z.refs

theorem Size.Allows.exact (n m : Nat) : (Size.exact n m).Allows n m :=
  ⟨Nat.le_refl _, fun _ => rfl, fun _ => rfl⟩

theorem Size.Allows.add {z z' : Size} {n m n' m' : Nat} (h : z.Allows n m) (h' : z'.Allows n' m') :
    (z + z').Allows (n + n') (m + m') := by
  refine ⟨Nat.add_le_add h.refs_le h'.refs_le, fun hf => ?_, fun hf => ?_⟩
  · obtain ⟨h1, h2⟩ := (Bool.and_eq_true _ _).mp hf
    rw [h.bits_eq h1, h'.bits_eq h2]; rfl
  · obtain ⟨h1, h2⟩ := (Bool.and_eq_true _ _).mp hf
    rw [h.refs_eq h1, h'.refs_eq h2]; rfl

theorem Size.Allows.upTo {bits refs n m : Nat} {fixedRefs : Bool} (h : m ≤ refs)
    (hr : fixedRefs = true → m = refs) : (Size.upTo bits refs fixedRefs).Allows n m :=
  ⟨h, fun hf => Bool.noConfusion hf, hr⟩

/-- Where neither count is fixed, only the bound on the references is left. -/
theorem Size.Allows.atMost {bits refs n m : Nat} (h : m ≤ refs) :
    (Size.upTo bits refs false).Allows n m :=
  .upTo h fun hr => Bool.noConfusion hr

/-- The room that an optional takes when its payload takes `m` references in place, or one behind
which it lies. -/
theorem Size.optional_allows (z : Size) {n m : Nat} (hi : z.cut.StaysInline → m ≤ z.refs)
    (ho : ¬ z.cut.StaysInline → m ≤ 1) : z.optional.Allows n m := by
  unfold Size.optional
  split
  · next hz =>
    have h := hi hz
    refine .upTo h fun hr => ?_
    have hr : z.refs = 0 := beq_iff_eq.1 hr
    omega
  · next hz => exact .atMost (ho hz)

theorem Size.one_le_bits_optional (z : Size) : 1 ≤ z.optional.bits := by
  unfold Size.optional
  split
  · exact Nat.le_add_right _ _
  · exact Nat.le_refl _

namespace Ty

mutual

theorem fixedRefs_of_fixed : ∀ t : Ty, t.size.fixed = true → t.size.fixedRefs = true
  | .integer .. | .bool | .addressStd | .cell | .bytes | .string | .fixedBytes _ | .function
  | .enumeration .. => fun _ => rfl
  | .address | .varInteger .. | .array .. | .mapping .. => nofun
  | .optional t => by
    rw [size, Size.optional]
    split <;> nofun
  | .struct _ fs => fieldsFixedRefs_of_fixed fs
  | .tuple ts => totalFixedRefs_of_fixed ts
  | .alias _ t => fixedRefs_of_fixed t

theorem totalFixedRefs_of_fixed : ∀ ts : List Ty,
    (totalSize ts).fixed = true → (totalSize ts).fixedRefs = true
  | [] => fun _ => rfl
  | t :: ts => fun h => by
    obtain ⟨h1, h2⟩ := (Bool.and_eq_true _ _).mp h
    exact (Bool.and_eq_true _ _).mpr ⟨fixedRefs_of_fixed t h1, totalFixedRefs_of_fixed ts h2⟩

theorem fieldsFixedRefs_of_fixed : ∀ fs : List (Field Ty),
    (fieldsSize fs).fixed = true → (fieldsSize fs).fixedRefs = true
  | [] => fun _ => rfl
  | ⟨_, t⟩ :: fs => fun h => by
    obtain ⟨h1, h2⟩ := (Bool.and_eq_true _ _).mp h
    exact (Bool.and_eq_true _ _).mpr ⟨fixedRefs_of_fixed t h1, fieldsFixedRefs_of_fixed fs h2⟩

end

/-- Reading a value moves from `s` to `s'` over a room that its size allows, of no more bits than
the size has if the widths are sound. -/
def Spans (z : Size) (sound : Prop) (s s' : Slice) : Prop :=
  ∃ n m, s.Moves n m s' ∧ z.Allows n m ∧ (sound → n ≤ z.bits)

theorem Spans.exact {n m : Nat} {p : Prop} {s s' : Slice} (h : s.Moves n m s') :
    Spans (.exact n m) p s s' :=
  ⟨n, m, h, .exact n m, fun _ => Nat.le_refl _⟩

theorem Spans.add {z z' : Size} {p p' : Prop} {s s' s'' : Slice} (h : Spans z p s s')
    (h' : Spans z' p' s' s'') : Spans (z + z') (p ∧ p') s s'' := by
  obtain ⟨n, m, h1, h2, h3⟩ := h
  obtain ⟨n', m', h1', h2', h3'⟩ := h'
  exact ⟨n + n', m + m', h1.trans h1', h2.add h2',
    fun hp => Nat.add_le_add (h3 hp.1) (h3' hp.2)⟩

/-- Reads the payload of an optional: in place, or from a cell of its own. -/
def loadPayload (t : Ty) (s : Slice) : Except Trap (Value × Slice) :=
  if t.wordSize.StaysInline then t.load s
  else do
    let (box, s) ← s.readRef
    let (v, _) ← t.load (.ofCell box)
    return (v, s)

theorem loadPayload_inline {t : Ty} (h : t.wordSize.StaysInline) (s : Slice) :
    t.loadPayload s = t.load s := if_pos h

theorem loadPayload_boxed {t : Ty} (h : ¬ t.wordSize.StaysInline) (s : Slice) :
    t.loadPayload s = do
      let (box, s) ← s.readRef
      let (v, _) ← t.load (.ofCell box)
      return (v, s) := if_neg h

theorem load_optional (t : Ty) (s : Slice) :
    (Ty.optional t).load s = do
      let (present, s) ← s.readBit
      if present then
        let (v, s) ← t.loadPayload s
        return (if t.mayBeNull then .tuple [v] else v, s)
      else return (.null, s) := by
  rw [load]
  rcases s.readBit with _ | ⟨b, r⟩
  · rfl
  · cases b with
    | false => rfl
    | true =>
      by_cases hz : t.wordSize.StaysInline
      · simp [loadPayload, hz]
      · simp only [ok_bind, Bool.not_true, Bool.false_eq_true, if_false, if_true, loadPayload, hz]
        rcases r.readRef with _ | ⟨box, r'⟩
        · rfl
        · simp only [ok_bind]
          rcases t.load (.ofCell box) with _ | ⟨v, r''⟩ <;> rfl

/-- An optional is read off a slice: it is missing, or its payload is in place or in a cell of its
own. -/
inductive LoadsOptional (t : Ty) (s : Slice) : Value → Slice → Prop
  | missing {r : Slice} (hb : s.readBit = .ok (false, r)) : LoadsOptional t s .null r
  | inline {r s' : Slice} {w : Value} (hb : s.readBit = .ok (true, r)) (hz : t.wordSize.StaysInline)
      (hw : t.load r = .ok (w, s')) : LoadsOptional t s (if t.mayBeNull then .tuple [w] else w) s'
  | boxed {r s' q : Slice} {box : Cell} {w : Value} (hb : s.readBit = .ok (true, r))
      (hz : ¬ t.wordSize.StaysInline) (hbox : r.readRef = .ok (box, s'))
      (hw : t.load (.ofCell box) = .ok (w, q)) :
      LoadsOptional t s (if t.mayBeNull then .tuple [w] else w) s'

theorem loadsOptional {t : Ty} {s s' : Slice} {v : Value}
    (h : (Ty.optional t).load s = .ok (v, s')) : LoadsOptional t s v s' := by
  rw [load_optional, bind_eq_ok] at h
  obtain ⟨⟨b, r⟩, hb, h⟩ := h
  cases b with
  | false =>
    obtain ⟨rfl, rfl⟩ := Prod.mk.inj (Except.ok.inj h)
    exact .missing hb
  | true =>
    obtain ⟨⟨w, r'⟩, hw, h⟩ := bind_eq_ok.1 h
    obtain ⟨rfl, rfl⟩ := Prod.mk.inj (Except.ok.inj h)
    by_cases hz : t.wordSize.StaysInline
    · rw [loadPayload_inline hz] at hw
      exact .inline hb hz hw
    · simp only [loadPayload_boxed hz, bind_eq_ok, pure_eq_ok, Except.ok.injEq,
        Prod.mk.injEq] at hw
      obtain ⟨⟨box, r''⟩, hbox, ⟨w', q⟩, hw, rfl, rfl⟩ := hw
      exact .boxed hb hz hbox hw

/-- The bytes of a variable integer are no more than its type says if that is a power of two. -/
theorem lt_of_varLength {n k : Nat} (h : n.isPowerOfTwo) (hk : k < twoPow (varLengthBits n)) :
    k < n := by
  obtain ⟨j, rfl⟩ := h
  have hj : varLengthBits (2 ^ j) ≤ j := by
    rw [varLengthBits, predInWord_of_pos (Nat.two_pow_pos j), bitLength_le_iff, twoPow_eq]
    exact Nat.sub_lt (Nat.two_pow_pos j) Nat.one_pos
  have hle := twoPow_le hj
  rw [twoPow_eq j] at hle
  omega

mutual

/-- **Reading a value moves over a room that its size allows.** -/
theorem load_moves : ∀ (t : Ty) {s s' : Slice} {v : Value}, t.load s = .ok (v, s') →
    Spans t.size t.PowerBytes s s'
  | .integer _ _, _, _, _, h => .exact (Slice.readIntegral_moves h)
  | .bool, _, _, _, h => .exact (Slice.readIntegral_moves h)
  | .fixedBytes _, _, _, _, h => .exact (Slice.readIntegral_moves h)
  | .function, _, _, _, h => .exact (Slice.readIntegral_moves h)
  | .enumeration _ _, _, _, _, h => .exact (Slice.readIntegral_moves h)
  | .address, s, s', v, h => by
    simp only [load, Slice.readAddress, bind_eq_ok, pure_eq_ok, Except.ok.injEq,
      Prod.mk.injEq] at h
    obtain ⟨r, h1, -, rfl⟩ := h
    obtain ⟨n, hn, hm⟩ := Slice.skipAddress_moves h1
    exact ⟨n, 0, hm, .upTo (Nat.le_refl _) fun _ => rfl, fun _ => hn⟩
  | .addressStd, s, s', v, h => by
    simp only [load, Slice.readStdAddress_eq, bind_eq_ok, pure_eq_ok, Except.ok.injEq,
      Prod.mk.injEq] at h
    obtain ⟨r, h1, -, rfl⟩ := h
    exact .exact (Slice.skipStdAddress_moves h1)
  | .cell, _, _, _, h => .exact (Slice.readCell_moves h)
  | .bytes, _, _, _, h => .exact (Slice.readCell_moves h)
  | .string, _, _, _, h => .exact (Slice.readCell_moves h)
  | .mapping _ _, s, s', v, h => by
    obtain ⟨m, hm, h1⟩ := Slice.readDict_moves h
    exact ⟨1, m, h1, .atMost hm, fun _ => Nat.le_refl _⟩
  | .array _ _, s, s', v, h => by
    simp only [load, bind_eq_ok, pure_eq_ok, Except.ok.injEq, Prod.mk.injEq] at h
    obtain ⟨⟨n, r⟩, h1, ⟨d, r'⟩, h2, -, rfl⟩ := h
    obtain ⟨m, hm, h3⟩ := Slice.readDict_moves h2
    exact ⟨32 + 1, 0 + m, (Slice.readNat_moves h1).1.trans h3,
      .atMost (by rwa [Nat.zero_add]), fun _ => Nat.le_refl _⟩
  | .varInteger n signed, s, s', v, h => by
    simp only [load, Slice.readVarInt, bind_eq_ok] at h
    obtain ⟨⟨length, r⟩, h1, h2⟩ := h
    obtain ⟨h3, hl⟩ := Slice.readNat_moves h1
    refine ⟨varLengthBits n + cutToWord (8 * length), 0, h3.trans (Slice.readIntegral_moves h2),
      .upTo (Nat.le_refl _) fun _ => rfl, fun hn => ?_⟩
    have hk := lt_of_varLength hn hl
    have hw := cutToWord_le (8 * length)
    simp only [size, Size.upTo, predInWord_of_pos (show 1 ≤ n by omega)]
    omega
  | .optional t, s, s', v, h => by
    cases loadsOptional h with
    | missing hb =>
      exact ⟨1, 0, Slice.readBit_moves hb,
        t.size.optional_allows (fun _ => Nat.zero_le _) (fun _ => Nat.zero_le _),
        fun _ => t.size.one_le_bits_optional⟩
    | inline hb hz hw =>
      obtain ⟨n, m, h3, h4, h5⟩ := load_moves t hw
      have hr := h4.refs_le
      refine ⟨1 + n, 0 + m, (Slice.readBit_moves hb).trans h3,
        t.size.optional_allows (fun _ => by omega) (fun h => absurd (cut_staysInline.2 hz) h),
        fun hd => ?_⟩
      rw [size_optional_inline hz]
      exact Nat.add_le_add_left (h5 hd.2) 1
    | boxed hb hz hbox _ =>
      exact ⟨1 + 0, 0 + 1, (Slice.readBit_moves hb).trans (Slice.readRef_moves hbox),
        t.size.optional_allows (fun h => absurd (cut_staysInline.1 h) hz) (fun _ => Nat.le_refl _),
        fun _ => t.size.one_le_bits_optional⟩
  | .struct _ fs, s, s', v, h => by
    simp only [load, bind_eq_ok, pure_eq_ok, Except.ok.injEq, Prod.mk.injEq] at h
    obtain ⟨⟨vs, r⟩, h1, -, rfl⟩ := h
    exact loadFields_moves fs h1
  | .tuple ts, s, s', v, h => by
    simp only [load, bind_eq_ok, pure_eq_ok, Except.ok.injEq, Prod.mk.injEq] at h
    obtain ⟨⟨vs, r⟩, h1, -, rfl⟩ := h
    exact loadAll_moves ts h1
  | .alias _ t, _, _, _, h => load_moves t h

theorem loadAll_moves : ∀ (ts : List Ty) {s s' : Slice} {vs : List Value},
    loadAll ts s = .ok (vs, s') → Spans (totalSize ts) (Ty.tuple ts).PowerBytes s s'
  | [], s, s', vs, h => by
    simp only [loadAll, pure_eq_ok, Except.ok.injEq, Prod.mk.injEq] at h
    obtain ⟨-, rfl⟩ := h
    exact .exact (Slice.Moves.refl s)
  | t :: ts, s, s', vs, h => by
    simp only [loadAll, bind_eq_ok, pure_eq_ok, Except.ok.injEq, Prod.mk.injEq] at h
    obtain ⟨⟨v, r⟩, h1, ⟨ws, r'⟩, h2, -, rfl⟩ := h
    exact (load_moves t h1).add (loadAll_moves ts h2)

theorem loadFields_moves : ∀ (fs : List (Field Ty)) {s s' : Slice} {vs : List Value},
    loadFields fs s = .ok (vs, s') → Spans (fieldsSize fs) (Ty.struct "" fs).PowerBytes s s'
  | [], s, s', vs, h => by
    simp only [loadFields, pure_eq_ok, Except.ok.injEq, Prod.mk.injEq] at h
    obtain ⟨-, rfl⟩ := h
    exact .exact (Slice.Moves.refl s)
  | ⟨_, t⟩ :: fs, s, s', vs, h => by
    simp only [loadFields, bind_eq_ok, pure_eq_ok, Except.ok.injEq, Prod.mk.injEq] at h
    obtain ⟨⟨v, r⟩, h1, ⟨ws, r'⟩, h2, -, rfl⟩ := h
    exact (load_moves t h1).add (loadFields_moves fs h2)

end

end Ty

end TypedCells
