import TypedCells.Proofs.Quiet
import TypedCells.Proofs.Reading

/-!
# Ordinals in values that were read

The value of an enumeration is an ordinal, and `Ty.ordinals` finds those in a value by its type. The
code that reads values compares the ordinals of leaves with the numbers of their variants, and
members of structures are leaves. The payload of an optional belongs to a leaf, so nothing compares
what is in there: such an ordinal is only as small as the bits it is kept in.

* `Ty.load_ordinals`: reading a value without any comparison gives ordinals that fit their bits.
* `Gen.readAll_ordinals`: the code, strict or quiet, gives no ordinal out of range unless an
  optional keeps it, and its enumeration leaves codes unused.
-/

namespace TypedCells

/-- An ordinal that is part of a value. -/
structure Ordinal where
  /-- The number of variants of its enumeration. -/
  variants : Nat
  /-- The ordinal itself. -/
  value : Int
  /-- It is in the payload of an optional. -/
  optional : Bool

namespace Ordinal

/-- The ordinal is that of a variant. -/
def InRange (o : Ordinal) : Prop := 0 ≤ o.value ∧ o.value < o.variants

/-- The ordinal fits the bits in which it is kept. -/
def InWidth (o : Ordinal) : Prop := 0 ≤ o.value ∧ o.value < twoPow (enumBits o.variants)

/-- The ordinal is that of a variant, or it is an unused code and in the payload of an optional. -/
def Guarded (o : Ordinal) : Prop :=
  o.InRange ∨ o.optional = true ∧ o.variants ≤ o.value ∧ o.value < twoPow (enumBits o.variants)

theorem InWidth.guarded {o : Ordinal} (h : o.InWidth) (ho : o.optional = true) : o.Guarded := by
  by_cases hv : o.value < o.variants
  · exact .inl ⟨h.1, hv⟩
  · exact .inr ⟨ho, by omega, h.2⟩

end Ordinal

namespace Ty

/-- The payload of a present optional, out of the tuple that may be around it. -/
def payload (t : Ty) (v : Value) : Value :=
  if t.mayBeNull then v.unwrapSingleton.toOption.getD v else v

theorem payload_wrapped (t : Ty) (v : Value) :
    t.payload (if t.mayBeNull then .tuple [v] else v) = v := by
  unfold payload
  split <;> rfl

mutual

/-- The ordinals in a value of the type. What containers keep in their dictionaries does not
count. -/
def ordinals : Ty → Value → List Ordinal
  | .enumeration _ variants, .int k => [⟨variants, k, false⟩]
  | .optional _, .null => []
  | .optional t, v => (t.ordinals (t.payload v)).map fun o => { o with optional := true }
  | .struct _ fs, .tuple vs => fieldOrdinals fs vs
  | .tuple ts, .tuple vs => allOrdinals ts vs
  | .alias _ t, v => t.ordinals v
  | _, _ => []

/-- The ordinals in values of the types. -/
def allOrdinals : List Ty → List Value → List Ordinal
  | t :: ts, v :: vs => t.ordinals v ++ allOrdinals ts vs
  | _, _ => []

/-- The ordinals in the members of a structure. -/
def fieldOrdinals : List (Field Ty) → List Value → List Ordinal
  | ⟨_, t⟩ :: fs, v :: vs => t.ordinals v ++ fieldOrdinals fs vs
  | _, _ => []

end

theorem mem_ordinals_optional {t : Ty} {v : Value} {o : Ordinal}
    (h : o ∈ (Ty.optional t).ordinals v) :
    v ≠ .null ∧ ∃ p ∈ t.ordinals (t.payload v), o = { p with optional := true } := by
  cases v with
  | null => simp [ordinals] at h
  | _ =>
    rw [ordinals, List.mem_map] at h
    · obtain ⟨p, hp, rfl⟩ := h
      exact ⟨nofun, p, hp, rfl⟩
    · nofun

/-! ### What is read without comparisons -/

theorem readIntegral_unsigned {w : Nat} {s s' : Slice} {k : Int}
    (h : s.readIntegral w false = .ok (.int k, s')) : 0 ≤ k ∧ k < twoPow w := by
  simp only [Slice.readIntegral, Bool.false_eq_true, if_false, bind_eq_ok, pure_eq_ok,
    Except.ok.injEq, Prod.mk.injEq, Value.int.injEq] at h
  obtain ⟨⟨n, r⟩, h1, rfl, -⟩ := h
  have hn := (Slice.readNat_moves h1).2
  omega

mutual

/-- The ordinals in a value that was read fit their bits. -/
theorem load_ordinals : ∀ (t : Ty) {s s' : Slice} {v : Value}, t.load s = .ok (v, s') →
    ∀ o ∈ t.ordinals v, o.InWidth
  | .integer .., _, _, _, _ | .bool, _, _, _, _ | .address, _, _, _, _ | .addressStd, _, _, _, _
  | .cell, _, _, _, _ | .bytes, _, _, _, _ | .string, _, _, _, _ | .fixedBytes _, _, _, _, _
  | .function, _, _, _, _ | .varInteger .., _, _, _, _ | .array .., _, _, _, _
  | .mapping .., _, _, _, _ => by simp [ordinals]
  | .enumeration _ variants, s, s', v, h => by
    obtain ⟨k, rfl⟩ := Slice.readIntegral_int h
    simpa [ordinals, Ordinal.InWidth] using readIntegral_unsigned h
  | .optional t, s, s', v, h => by
    intro o ho
    obtain ⟨hv, p, hp, rfl⟩ := mem_ordinals_optional ho
    cases loadsOptional h with
    | missing _ => exact absurd rfl hv
    | inline _ _ hw | boxed _ _ _ hw =>
      rw [payload_wrapped] at hp
      exact load_ordinals t hw p hp
  | .struct _ fs, s, s', v, h => by
    simp only [load, bind_eq_ok, pure_eq_ok, Except.ok.injEq, Prod.mk.injEq] at h
    obtain ⟨⟨vs, r⟩, h, rfl, -⟩ := h
    exact loadFields_ordinals fs h
  | .tuple ts, s, s', v, h => by
    simp only [load, bind_eq_ok, pure_eq_ok, Except.ok.injEq, Prod.mk.injEq] at h
    obtain ⟨⟨vs, r⟩, h, rfl, -⟩ := h
    exact loadAll_ordinals ts h
  | .alias _ t, _, _, _, h => load_ordinals t h

theorem loadAll_ordinals : ∀ (ts : List Ty) {s s' : Slice} {vs : List Value},
    loadAll ts s = .ok (vs, s') → ∀ o ∈ allOrdinals ts vs, o.InWidth
  | [], _, _, _, _ => by simp [allOrdinals]
  | t :: ts, s, s', vs, h => by
    simp only [loadAll, bind_eq_ok, pure_eq_ok, Except.ok.injEq, Prod.mk.injEq] at h
    obtain ⟨⟨v, r⟩, h1, ⟨ws, r'⟩, h2, rfl, -⟩ := h
    exact List.forall_mem_append.2 ⟨load_ordinals t h1, loadAll_ordinals ts h2⟩

theorem loadFields_ordinals : ∀ (fs : List (Field Ty)) {s s' : Slice} {vs : List Value},
    loadFields fs s = .ok (vs, s') → ∀ o ∈ fieldOrdinals fs vs, o.InWidth
  | [], _, _, _, _ => by simp [fieldOrdinals]
  | ⟨_, t⟩ :: fs, s, s', vs, h => by
    simp only [loadFields, bind_eq_ok, pure_eq_ok, Except.ok.injEq, Prod.mk.injEq] at h
    obtain ⟨⟨v, r⟩, h1, ⟨ws, r'⟩, h2, rfl, -⟩ := h
    exact List.forall_mem_append.2 ⟨load_ordinals t h1, loadFields_ordinals fs h2⟩

end

/-! ### What is read with comparisons at the leaves -/

/-- The ordinals in the value of a leaf that was read and compared. -/
theorem leaf_ordinals {t : Ty} {s s' : Slice} {v : Value} (hleaf : t.IsLeaf)
    (htuple : ∀ us, t ≠ .tuple us) (h : t.load s = .ok (v, s')) (hv : t.inRange v = true) :
    ∀ o ∈ t.ordinals v, o.Guarded := by
  cases t with
  | enumeration x variants =>
    obtain ⟨k, rfl⟩ := Slice.readIntegral_int h
    have hk : k < variants := of_decide_eq_true hv
    have ho : Ordinal.Guarded ⟨variants, k, false⟩ := .inl ⟨(readIntegral_unsigned h).1, by omega⟩
    simpa [ordinals] using ho
  | optional t =>
    intro o ho
    obtain ⟨-, p, -, rfl⟩ := mem_ordinals_optional ho
    exact (load_ordinals _ h _ ho).guarded rfl
  | tuple us => exact absurd rfl (htuple us)
  | struct => exact hleaf.elim
  | «alias» => exact hleaf.elim
  | _ => simp [ordinals]

/-- The ordinals in a value whose leaves were read and compared. -/
theorem build_ordinals (t : Ty) : ∀ {ls : List PackedLeaf} {s s' : Slice} {xs : List Value},
    ls.map (·.type) = t.leaves → (∀ l ∈ t.leaves, ∀ us, l ≠ .tuple us) →
    PackedLeaf.fetchAll ls s = .ok (xs, s') → ∀ o ∈ t.ordinals (t.build xs), o.Guarded := by
  refine leafInduction
    (P := fun t => ∀ {ls : List PackedLeaf} {s s' : Slice} {xs : List Value},
      ls.map (·.type) = t.leaves → (∀ l ∈ t.leaves, ∀ us, l ≠ .tuple us) →
      PackedLeaf.fetchAll ls s = .ok (xs, s') → ∀ o ∈ t.ordinals (t.build xs), o.Guarded)
    (Q := fun fs => ∀ {ls : List PackedLeaf} {s s' : Slice} {xs : List Value},
      ls.map (·.type) = fieldLeaves fs → (∀ l ∈ fieldLeaves fs, ∀ us, l ≠ .tuple us) →
      PackedLeaf.fetchAll ls s = .ok (xs, s') →
      ∀ o ∈ fieldOrdinals fs (buildFields fs xs), o.Guarded)
    (fun t h ls s s' xs hl ht hf => ?leaf) (fun x fs ih => ih) (fun x t ih => ih)
    (fun _ _ _ => by simp [fieldOrdinals])
    (fun x t fs iht ihfs ls s s' xs hl ht hf => ?cons) t
  case leaf =>
    rw [leaves_leaf h] at hl ht
    obtain ⟨l, rfl, rfl⟩ := List.map_eq_singleton_iff.1 hl
    obtain ⟨v, ws, r, h1, -, rfl⟩ := PackedLeaf.fetchAll_cons_eq_ok hf
    obtain ⟨_, -, h2, h3⟩ := PackedLeaf.fetch_eq_ok h1
    rw [build_leaf h]
    exact leaf_ordinals h (ht _ (List.mem_singleton_self _)) h2 h3
  case cons =>
    obtain ⟨ls1, ls2, rfl, hl1, hl2⟩ := List.map_eq_append_iff.1 hl
    obtain ⟨xs1, xs2, r, h1, h2, rfl⟩ := PackedLeaf.fetchAll_append_eq_ok hf
    rw [fieldLeaves, List.forall_mem_append] at ht
    rw [buildFields_append (by
      rw [PackedLeaf.length_fetchAll h1, ← hl1, List.length_map])]
    exact List.forall_mem_append.2 ⟨iht hl1 ht.1 h1, ihfs hl2 ht.2 h2⟩

theorem buildAll_ordinals : ∀ (ts : List Ty) {ls : List PackedLeaf} {s s' : Slice}
    {xs : List Value}, ls.map (·.type) = allLeaves ts →
    (∀ l ∈ allLeaves ts, ∀ us, l ≠ .tuple us) → PackedLeaf.fetchAll ls s = .ok (xs, s') →
    ∀ o ∈ allOrdinals ts (buildAll ts xs), o.Guarded
  | [], _, _, _, _, _, _, _ => by simp [allOrdinals]
  | t :: ts, ls, s, s', xs, hl, ht, hf => by
    rw [allLeaves, List.flatMap_cons] at hl
    obtain ⟨ls1, ls2, rfl, hl1, hl2⟩ := List.map_eq_append_iff.1 hl
    obtain ⟨xs1, xs2, r, h1, h2, rfl⟩ := PackedLeaf.fetchAll_append_eq_ok hf
    rw [allLeaves, List.flatMap_cons, List.forall_mem_append] at ht
    rw [buildAll_append (by rw [PackedLeaf.length_fetchAll h1, ← hl1, List.length_map])]
    exact List.forall_mem_append.2 ⟨build_ordinals t hl1 ht.1 h1, buildAll_ordinals ts hl2 ht.2 h2⟩

end Ty

namespace Gen

/-- **The ordinals in what is read.** If the strict code runs, and if the quiet code gives values,
then every ordinal in these values is that of a variant, with one exception: an unused code in the
payload of an optional is let through. -/
theorem readAll_ordinals {ts : List Ty} {pos : Position} {frame : Option Frame} {d : Nat}
    {s : Slice} {stk : Stack} (hts : ∀ l ∈ Ty.allLeaves ts, ∀ us, l ≠ .tuple us) (hs : s.Valid) :
    (∀ ⦃g⦄, readAll ts pos frame d = .ok g → ∀ ⦃t⦄, Instr.exec g.code (.slice s :: stk) = .ok t →
      ∃ vs s', vs.length = ts.length ∧ t = .slice s' :: (vs.reverse ++ stk) ∧
        ∀ o ∈ Ty.allOrdinals ts vs, o.Guarded) ∧
    ∀ ⦃g⦄, readAllQuiet ts pos frame d = .ok g →
      ∃ r s', Instr.exec g.code (.slice s :: stk) = .ok (.slice s' :: r :: stk) ∧
        (r ≠ .null → ∃ vs, vs.length = ts.length ∧ r = packed ts vs ∧
          ∀ o ∈ Ty.allOrdinals ts vs, o.Guarded) := by
  constructor
  · intro g hg t ht
    obtain ⟨ls, hp, -, hr⟩ := readAll_fetches ts pos hg
    have hr := hr s stk
    rw [PackedLeaf.seen_true] at hr
    rcases hf : PackedLeaf.fetchAll ls s with e | ⟨xs, s'⟩
    · rw [hf] at hr
      simp [Instr.exec, hr] at ht
    · rw [hf] at hr
      obtain rfl := Except.ok.inj ((Instr.exec_of_runAll hr).symm.trans ht)
      exact ⟨_, s', Ty.length_buildAll ts xs, rfl,
        Ty.buildAll_ordinals ts (Position.passAll_types hp) hts hf⟩
  · intro g hg
    obtain ⟨ls, p, hp, hr⟩ := readAllQuiet_spec hg
    have hr := hr stk hs
    rcases hf : PackedLeaf.fetchAll ls s with e | ⟨xs, s'⟩
    · rw [hf] at hr
      obtain ⟨s', hr⟩ := hr
      exact ⟨.null, s', hr, fun h => absurd rfl h⟩
    · rw [hf] at hr
      exact ⟨_, s', hr, fun _ => ⟨_, Ty.length_buildAll ts xs, rfl,
        Ty.buildAll_ordinals ts (Position.passAll_types hp) hts hf⟩⟩

/-! ### An unused code -/

/-- An optional ordinal of one enumeration in front of an ordinal of another. -/
def payloadTypes : List Ty := [.optional (.enumeration "Color" 3), .enumeration "Size" 2]

/-- Both ordinals in one cell. -/
def payloadPacking : Packing :=
  ⟨[⟨.optional (.enumeration "Color" 3), false⟩, ⟨.enumeration "Size" 2, false⟩]⟩

/-- Values of the types `payloadTypes` with the given ordinals. -/
def payloadData (color size : Nat) : Slice :=
  .ofCell ⟨true :: (Bits.ofNat 8 color ++ Bits.ofNat 8 size), []⟩

theorem payloadData_valid (color size : Nat) : (payloadData color size).Valid :=
  Slice.valid_ofCell _

theorem payloadTypes_leaves : ∀ l ∈ Ty.allLeaves payloadTypes, ∀ us, l ≠ .tuple us := by
  simp [payloadTypes, Ty.allLeaves, Ty.leaves]

/-- What both codes leave where the two ordinals can be read. -/
theorem exists_payload_reads {s rest : Slice} {color size : Int} (hs : s.Valid)
    (hf : PackedLeaf.fetchAll payloadPacking.leaves s = .ok ([.int color, .int size], rest)) :
    ∃ strict quiet, readAll payloadTypes payloadPacking.start none 1 = .ok strict ∧
      readAllQuiet payloadTypes payloadPacking.start none 1 = .ok quiet ∧
      Instr.exec strict.code [.slice s] = .ok [.slice rest, .int size, .int color] ∧
      Instr.exec quiet.code [.slice s] = .ok [.slice rest, .tuple [.int color, .int size]] := by
  obtain ⟨strict, h1⟩ := exists_of_isOk
    (show (readAll payloadTypes payloadPacking.start none 1).isOk = true by decide +kernel)
  obtain ⟨quiet, h2⟩ := exists_of_isOk
    (show (readAllQuiet payloadTypes payloadPacking.start none 1).isOk = true by decide +kernel)
  have hx := readAll_exec h1 s []
  rw [show (payloadPacking.leaves.drop 0).take _ = payloadPacking.leaves from rfl, hf] at hx
  obtain ⟨ls, p, hp, hq⟩ := readAllQuiet_spec h2
  obtain rfl : ls = payloadPacking.leaves :=
    (Prod.mk.inj (Except.ok.inj (hp.symm.trans rfl))).1
  have hq := hq [] hs
  rw [hf] at hq
  exact ⟨strict, quiet, h1, h2, hx, hq⟩

/-- With ordinals of variants in both places the code gives them. -/
theorem readAll_ordinals_payload :
    ∃ strict quiet, Packing.ofTypes 0 0 payloadTypes = .ok payloadPacking ∧
      readAll payloadTypes payloadPacking.start none 1 = .ok strict ∧
      readAllQuiet payloadTypes payloadPacking.start none 1 = .ok quiet ∧
      (∃ s' color size, Instr.exec strict.code [.slice (payloadData 2 1)] =
          .ok [.slice s', size, color] ∧
        ∀ o ∈ Ty.allOrdinals payloadTypes [color, size], o.Guarded) ∧
      ∃ s' vs, Instr.exec quiet.code [.slice (payloadData 2 1)] = .ok [.slice s', .tuple vs] ∧
        ∀ o ∈ Ty.allOrdinals payloadTypes vs, o.Guarded := by
  obtain ⟨strict, quiet, h1, h2, hx, hq⟩ := exists_payload_reads (payloadData_valid 2 1) rfl
  obtain ⟨hstrict, hquiet⟩ := @readAll_ordinals payloadTypes payloadPacking.start none 1 _ []
    payloadTypes_leaves (payloadData_valid 2 1)
  refine ⟨strict, quiet, rfl, h1, h2, ?_, ?_⟩
  · obtain ⟨vs, s', hl, h, ho⟩ := hstrict h1 hx
    match vs, hl with
    | [color, size], _ => exact ⟨s', color, size, hx.trans (congrArg _ h), ho⟩
  · obtain ⟨r, s', h, hr⟩ := hquiet h2
    obtain ⟨-, rfl, -⟩ : s' = _ ∧ r = _ ∧ True := by simpa using h.symm.trans hq
    obtain ⟨vs, -, hv, ho⟩ := hr nofun
    exact ⟨s', vs, h.trans (by rw [hv]; rfl), ho⟩

/-- Behind the presence bit the code lets an ordinal through that its enumeration does not have. -/
theorem readAll_unused_code :
    ∃ strict quiet s', Packing.ofTypes 0 0 payloadTypes = .ok payloadPacking ∧
      readAll payloadTypes payloadPacking.start none 1 = .ok strict ∧
      readAllQuiet payloadTypes payloadPacking.start none 1 = .ok quiet ∧
      Instr.exec strict.code [.slice (payloadData 200 1)] = .ok [.slice s', .int 1, .int 200] ∧
      Instr.exec quiet.code [.slice (payloadData 200 1)] =
        .ok [.slice s', .tuple [.int 200, .int 1]] ∧
      ∃ o ∈ Ty.allOrdinals payloadTypes [.int 200, .int 1], ¬ o.InRange := by
  obtain ⟨strict, quiet, h1, h2, hx, hq⟩ := exists_payload_reads (payloadData_valid 200 1) rfl
  exact ⟨strict, quiet, _, rfl, h1, h2, hx, hq, ⟨3, 200, true⟩, .head _, by simp [Ordinal.InRange]⟩

end Gen

end TypedCells
