import TypedCells.Proofs.Conditions
import TypedCells.Proofs.Writing

/-!
# The written form of a value

A content is the image of a value if writing the value appends it and reading takes it off again
(`Ty.Image`). A value that was read from a content is written in an image that is not longer
(`Ty.Reads.rewrites`), though not always in the same: a variable integer is written in as few bytes
as possible, and what follows a payload in a cell of its own is lost. Types without these have one
content for each value (`Ty.Exact`).

Writing fails for lack of room, and for widths in the type of which values can be read but not
written (`Ty.Proper`). There is room for a payload in a cell of its own if its type is not oversized
or the cell that it was read from is within the limits of cells (`Ty.Roomy`).
-/

namespace TypedCells

namespace Slice

theorem readIntegral_takes (signed : Bool) (bs : Bits) :
    Takes Prod.snd (fun x => x.1.canon) (readIntegral bs.length signed) (.ofBits bs)
      (.int (bs.toInteger signed)) := by
  intro s d hs he
  have h := readBits_of_shows hs he
  refine ⟨(.int (bs.toInteger signed), s.past (.ofBits bs)), ?_, rfl, rfl⟩
  cases signed <;> simp [readIntegral, readInt, readNat, h, Bits.toInteger]

theorem readNat_takes {w n : Nat} (h : n < twoPow w) :
    Takes Prod.snd Prod.fst (readNat w) (.ofBits (.ofNat w n)) n := by
  have hb := readBits_takes (.ofNat w n)
  rw [Bits.length_ofNat] at hb
  have hn : Takes Prod.snd Prod.fst (readNat w) (.ofBits (.ofNat w n)) (Bits.ofNat w n).toNat :=
    hb.map (fun _ => rfl) (fun _ => rfl)
  rw [Bits.toNat_ofNat_of_lt h] at hn
  exact hn

/-! What reading an integer, a reference or a dictionary takes has a form that the result tells. -/

theorem Takes.bits {n : Nat} {c : Cell} {bs : Bits}
    (h : Takes Prod.snd Prod.fst (readBits n) c bs) : bs.length = n ∧ c = .ofBits bs := by
  obtain ⟨⟨bs', r⟩, h1, hr, rfl⟩ := h.exists
  obtain ⟨hl, d, hd, hp⟩ := readBits_shows (valid_ofCell c) h1
  rw [toCell_ofCell] at hd
  exact ⟨hl, (eq_of_past hd (hr.symm.trans hp)).symm⟩

theorem Takes.link {c r : Cell} (h : Takes Prod.snd Prod.fst readRef c r) : c = .link r := by
  obtain ⟨⟨r', s⟩, h1, hr, rfl⟩ := h.exists
  obtain ⟨d, hd, hp⟩ := readRef_shows (valid_ofCell c) h1
  rw [toCell_ofCell] at hd
  exact (eq_of_past hd (hr.symm.trans hp)).symm

theorem Takes.bit {c : Cell} {b : Bool} (h : Takes Prod.snd Prod.fst readBit c b) :
    c = .ofBits [b] := by
  obtain ⟨bs, hb, rfl⟩ := h.unmap (φ := fun bs : Bits => bs.headD false) (readBits_local 1)
    (fun _ => rfl) (fun _ => rfl)
  obtain ⟨hl, rfl⟩ := hb.bits
  obtain ⟨b, rfl⟩ := List.length_eq_one_iff.1 hl
  rfl

theorem Takes.nat {w n : Nat} {c : Cell} (h : Takes Prod.snd Prod.fst (readNat w) c n) :
    c = .ofBits (.ofNat w n) ∧ n < twoPow w := by
  obtain ⟨bs, hb, rfl⟩ := h.unmap (φ := Bits.toNat) (readBits_local w) (fun _ => rfl) (fun _ => rfl)
  obtain ⟨rfl, rfl⟩ := hb.bits
  exact ⟨by rw [Bits.ofNat_toNat], Bits.toNat_lt bs⟩

theorem Takes.integral {w : Nat} {signed : Bool} {c : Cell} {a : Value}
    (h : Takes Prod.snd (fun x => x.1.canon) (readIntegral w signed) c a) :
    ∃ bs : Bits, bs.length = w ∧ c = .ofBits bs ∧ a = .int (bs.toInteger signed) := by
  have hmap : readIntegral w signed = fun s => readBits w s >>= fun x =>
      .ok (Value.int (x.1.toInteger signed), x.2) := by
    funext s
    cases signed <;> rcases h : readBits w s with e | x <;>
      simp [readIntegral, readNat, readInt, h, Bits.toInteger]
  rw [hmap] at h
  obtain ⟨bs, hb, rfl⟩ := h.unmap (φ := fun bs : Bits => Value.int (bs.toInteger signed))
    (readBits_local w) (fun _ => rfl) (fun _ => rfl)
  exact ⟨bs, hb.bits.1, hb.bits.2, rfl⟩

theorem Takes.cell {c : Cell} {a : Value}
    (h : Takes Prod.snd (fun x => x.1.canon) readCell c a) : ∃ r, c = .link r ∧ a = .cell r := by
  obtain ⟨r, hr, rfl⟩ := h.unmap (φ := Value.cell) readRef_local (fun _ => rfl) (fun _ => rfl)
  exact ⟨r, hr.link, rfl⟩

theorem Takes.present {f : Slice → Except Trap (Value × Slice)} {d : Cell} {a : Value}
    (h : Takes Prod.snd (fun x => x.1.canon) (readPresent f) d a)
    (hf : Local Prod.snd (fun x => x.1.canon) f) :
    (d = .ofBits [false] ∧ a = .null) ∨
      ∃ c, d = .ofBits [true] ++ c ∧ Takes Prod.snd (fun x => x.1.canon) f c a := by
  obtain ⟨c, c', b, rfl, hb, hc⟩ := Takes.next h readBit_local fun b => by
    cases b with
    | false => exact .ok (fun _ => rfl) (fun _ _ => rfl)
    | true => exact hf
  obtain rfl := hb.bit
  cases b with
  | false =>
    have hc : Takes Prod.snd (fun x => x.1.canon) (fun s => .ok (Value.null, s)) c' a := hc
    obtain ⟨rfl, rfl⟩ := hc.unok (fun _ => rfl)
    exact .inl ⟨Cell.append_empty _, rfl⟩
  | true => exact .inr ⟨c', rfl, hc⟩

theorem Takes.dict {c : Cell} {a : Value}
    (h : Takes Prod.snd (fun x => x.1.canon) readDict c a) :
    (c = .ofBits [false] ∧ a = .null) ∨
      ∃ root, c = .ofBits [true] ++ .link root ∧ a = .cell root := by
  rw [readDict_eq] at h
  rcases h.present readCell_local with hnull | ⟨c, rfl, hc⟩
  · exact .inl hnull
  · obtain ⟨root, rfl, rfl⟩ := hc.cell
    exact .inr ⟨root, rfl, rfl⟩

/-- What a reader takes that returns what another one skips is in the result, but for references. -/
theorem Takes.upTo {f : Slice → Except Trap Slice} {c : Cell} {a : Value}
    (h : Takes Prod.snd (fun x => x.1.canon)
      (fun s => do
        let rest ← f s
        return (Value.slice (s.upTo rest), rest)) c a) :
    a = .slice (.ofCell (.ofBits c.bits)) := by
  obtain ⟨x, h1, hx, rfl⟩ := h.exists
  obtain ⟨r, -, h1⟩ := bind_eq_ok.1 h1
  obtain rfl := Except.ok.inj h1
  obtain rfl : r = (ofCell c).past c := hx
  simp only [Value.canon]
  rw [(upTo_past (valid_ofCell c) (d := .empty) (by simp)).2]

end Slice

/-- The content takes no more room than a value of the size may. -/
def Size.Bounds (z : Size) (c : Cell) : Prop :=
  c.bits.length ≤ z.bits ∧ c.refs.length ≤ z.refs

theorem Size.Bounds.add {z z' : Size} {c c' : Cell} (h : z.Bounds c) (h' : z'.Bounds c') :
    (z + z').Bounds (c ++ c') := by
  simp only [Bounds, Cell.bits_append, Cell.refs_append, List.length_append, bits_add,
    refs_add] at h h' ⊢
  omega

namespace Ty

/-! ### Images -/

/-- The content is the written form of the value: writing the value appends it, and reading it gives
the value back, up to what its slices show. -/
structure Image (t : Ty) (c : Cell) (a : Value) : Prop where
  writes : Builder.Puts (t.store a) c
  reads : t.Reads c a
  bounds : t.size.Bounds c

theorem Reads.spans {t : Ty} {c : Cell} {a : Value} (h : t.Reads c a) :
    t.size.Allows c.bits.length c.refs.length ∧
      (t.PowerBytes → c.bits.length ≤ t.size.bits) := by
  obtain ⟨⟨v, r⟩, h1, h2, -⟩ := h (Slice.valid_ofCell c) (d := .empty) (by simp)
  obtain ⟨n, m, hm, ha, hb⟩ := load_moves t h1
  have he : (Slice.ofCell c).advance n m = (Slice.ofCell c).past c := hm.eq.symm.trans h2
  have hn : n = c.bits.length := by
    simpa [Slice.advance, Slice.past, Slice.ofCell] using congrArg Slice.bitStart he
  have hr : m = c.refs.length := by
    simpa [Slice.advance, Slice.past, Slice.ofCell] using congrArg Slice.refStart he
  subst hn hr
  exact ⟨ha, hb⟩

theorem Reads.bounds {t : Ty} {c : Cell} {a : Value} (h : t.Reads c a) (hd : t.Documented) :
    t.size.Bounds c :=
  ⟨h.spans.2 (proper_of_documented t hd).powerBytes, h.spans.1.refs_le⟩

/-- Values that show the same are written in the same way. -/
theorem puts_of_canon {t : Ty} {v a : Value} {c : Cell} (h : Builder.Puts (t.store a) c)
    (hv : v.Valid) (ha : v.canon = a) : Builder.Puts (t.store v) c := by
  rwa [← funext (t.store_canon hv), ha]

/-- Writing does not fail for other reasons than lack of room: not for the widths in the type, or
some builder takes the value. -/
def Writable (t : Ty) (a : Value) : Prop := t.Proper ∨ ∃ b b', t.store a b = .ok b'

/-- Writes the payload of an optional: in place, or into a cell of its own. -/
def storePayload (t : Ty) (v : Value) (b : Builder) : Except Trap Builder :=
  if t.wordSize.StaysInline then t.store v b
  else do b.writeRef (← t.store v {}).toCell

theorem store_present {t : Ty} {v : Value} (h : t.mayBeNull = false → v ≠ .null) (b : Builder) :
    (Ty.optional t).store (t.present v) b = b.writeBit true >>= t.storePayload v := by
  unfold present
  cases hn : t.mayBeNull with
  | true =>
    simp [store, hn, Value.unwrapSingleton, Value.toTuple]
    rfl
  | false =>
    have hv := h hn
    cases v with
    | null => exact absurd rfl hv
    | _ =>
      simp [store, hn]
      rfl

theorem load_present (t : Ty) {c : Cell} {a : Value}
    (h : Slice.Takes Prod.snd (fun x => x.1.canon) t.loadPayload c a) :
    (Ty.optional t).Reads (.ofBits [true] ++ c) (t.present a) := by
  intro s d hs he
  rw [Cell.append_assoc] at he
  obtain ⟨⟨v, r⟩, h1, h2, rfl⟩ := h (hs.past he) (Slice.toCell_past he)
  refine ⟨(t.present v, r), ?_, by rw [Slice.past_append]; exact h2, canon_present t v⟩
  have hb : s.readBits 1 = _ := Slice.readBits_of_shows hs he
  simp [load_optional, Slice.readBit, hb, h1, present]

theorem canon_ne_null {v : Value} (h : v ≠ .null) : v.canon ≠ .null := by
  cases v <;> simp_all [Value.canon]

theorem Writable.payload {t : Ty} {a : Value} (hn : t.mayBeNull = false → a ≠ .null)
    (h : (Ty.optional t).Writable (t.present a)) : t.Writable a := by
  refine h.imp And.right fun ⟨b, b', hb⟩ => ?_
  rw [store_present hn, bind_eq_ok] at hb
  obtain ⟨b1, -, hb⟩ := hb
  rw [storePayload] at hb
  split at hb
  · exact ⟨_, _, hb⟩
  · obtain ⟨b2, hb, -⟩ := bind_eq_ok.1 hb
    exact ⟨_, _, hb⟩

/-! ### Optionals -/

theorem image_missing (t : Ty) : (Ty.optional t).Image (.ofBits [false]) .null := by
  refine ⟨Builder.writeBits_puts [false], fun s d hs he => ?_, t.size.one_le_bits_optional,
    Nat.zero_le _⟩
  have hb : s.readBits 1 = _ := Slice.readBits_of_shows hs he
  exact ⟨(.null, s.past (.ofBits [false])), by simp [load_optional, Slice.readBit, hb], rfl, rfl⟩

/-- A payload in place is written behind the presence bit. -/
theorem puts_inline {t : Ty} {c : Cell} {a : Value} (h : Builder.Puts (t.store a) c)
    (hi : t.wordSize.StaysInline) (hn : t.mayBeNull = false → a ≠ .null) :
    Builder.Puts ((Ty.optional t).store (t.present a)) (.ofBits [true] ++ c) := by
  have hs : t.storePayload a = t.store a := funext fun b => by rw [storePayload, if_pos hi]
  rw [funext (store_present hn), hs]
  exact (Builder.writeBits_puts [true]).bind h

/-- A payload in a cell of its own is written as a link to what an empty builder then holds. -/
theorem puts_boxed {t : Ty} {c : Cell} {a : Value} (h : Builder.Puts (t.store a) c)
    (hi : ¬ t.wordSize.StaysInline) (hr : ({} : Builder).HasRoom c)
    (hn : t.mayBeNull = false → a ≠ .null) :
    Builder.Puts ((Ty.optional t).store (t.present a)) (.ofBits [true] ++ .link c) := by
  have he : (({} : Builder).add c).toCell = c := Cell.empty_append c
  have hs : t.storePayload a = Builder.writeRef c := funext fun b => by
    rw [storePayload, if_neg hi, h.adds hr, ok_bind, he]
  rw [funext (store_present hn), hs]
  exact (Builder.writeBits_puts [true]).bind (Builder.writeRef_puts c)

theorem bounds_inline {t : Ty} {c : Cell} (h : t.size.Bounds c) (hi : t.wordSize.StaysInline) :
    (Ty.optional t).size.Bounds (.ofBits [true] ++ c) := by
  obtain ⟨hbits, hrefs⟩ := h
  rw [size_optional_inline hi]
  simp only [Size.Bounds, Size.upTo, Cell.bits_append, Cell.refs_append, List.length_append,
    Cell.bits_ofBits, Cell.refs_ofBits, List.length_cons, List.length_nil]
  omega

theorem bounds_boxed {t : Ty} (hi : ¬ t.wordSize.StaysInline) (c : Cell) :
    (Ty.optional t).size.Bounds (.ofBits [true] ++ .link c) := by
  rw [size_optional_boxed hi]
  exact ⟨Nat.le_refl 1, Nat.le_refl 1⟩

theorem Image.inline {t : Ty} {c : Cell} {a : Value} (h : t.Image c a) (hi : t.wordSize.StaysInline)
    (hn : t.mayBeNull = false → a ≠ .null) :
    (Ty.optional t).Image (.ofBits [true] ++ c) (t.present a) := by
  have hl : t.loadPayload = t.load := funext (loadPayload_inline hi)
  exact ⟨puts_inline h.writes hi hn, load_present t (by rw [hl]; exact h.reads),
    bounds_inline h.bounds hi⟩

theorem Image.boxed {t : Ty} {c : Cell} {a : Value} (h : t.Image c a)
    (hi : ¬ t.wordSize.StaysInline) (hr : ({} : Builder).HasRoom c)
    (hn : t.mayBeNull = false → a ≠ .null) :
    (Ty.optional t).Image (.ofBits [true] ++ .link c) (t.present a) := by
  refine ⟨puts_boxed h.writes hi hr hn, load_present t fun s d hs hc => ?_, bounds_boxed hi c⟩
  obtain ⟨⟨v, r⟩, h1, -, h3⟩ := h.reads.exists
  refine ⟨(v, s.past (.link c)), ?_, rfl, h3⟩
  simp [loadPayload_boxed hi, Slice.readRef_of_shows hs hc, h1]

/-- What is read as an optional is an absence bit, or a presence bit and a payload. -/
theorem Reads.optional {t : Ty} {d : Cell} {a : Value} (h : (Ty.optional t).Reads d a) :
    (d = .ofBits [false] ∧ a = .null) ∨ ∃ c w, d = .ofBits [true] ++ c ∧
      Slice.Takes Prod.snd (fun x => x.1.canon) t.loadPayload c w ∧ a = t.present w := by
  rw [Reads, load_optional_eq] at h
  rcases h.present (loadPresent_local t (load_local t)) with hnull | ⟨c, rfl, hc⟩
  · exact .inl hnull
  · obtain ⟨w, hw, rfl⟩ := hc.unmap (k := fun y : Value × Slice => (t.present y.1, y.2))
      (φ := t.present) (loadPayload_local t (load_local t)) (fun _ => rfl)
      fun y => canon_present t y.1
    exact .inr ⟨c, w, rfl, hw, rfl⟩

/-- What is read as a payload in a cell of its own is a link to a content of the payload, behind
which there may be more. -/
theorem Reads.box {t : Ty} {c : Cell} {w : Value} (hi : ¬ t.wordSize.StaysInline)
    (h : Slice.Takes Prod.snd (fun x => x.1.canon) t.loadPayload c w) :
    ∃ d e, c = .link (d ++ e) ∧ t.Reads d w := by
  obtain ⟨⟨v, s⟩, h1, hs, rfl⟩ := h.exists
  rw [loadPayload_boxed hi] at h1
  simp only [bind_eq_ok, pure_eq_ok, Except.ok.injEq, Prod.mk.injEq] at h1
  obtain ⟨⟨box, r⟩, h1, ⟨v', r'⟩, h2, rfl, rfl⟩ := h1
  obtain ⟨e, he, hr⟩ := Slice.readRef_shows (Slice.valid_ofCell c) h1
  rw [Slice.toCell_ofCell] at he
  obtain ⟨d, e', hd, -, hreads, -⟩ := exists_reads (Slice.valid_ofCell box) h2
  rw [Slice.toCell_ofCell] at hd
  refine ⟨d, e', ?_, hreads⟩
  rw [← hd]
  exact (Slice.eq_of_past he (hs.symm.trans hr)).symm

theorem Reads.ne_null {t : Ty} {d : Cell} {a : Value} (h : t.Reads d a) (hn : t.mayBeNull = false) :
    a ≠ .null := by
  obtain ⟨x, h1, -, rfl⟩ := h.exists
  exact canon_ne_null (load_ne_null t hn h1)

/-! ### Members -/

theorem length_loadAll {ts : List Ty} {s s' : Slice} {vs : List Value}
    (h : loadAll ts s = .ok (vs, s')) : vs.length = ts.length := by
  induction ts generalizing s s' vs with
  | nil =>
    simp only [loadAll, pure_eq_ok, Except.ok.injEq, Prod.mk.injEq] at h
    rw [← h.1]
    rfl
  | cons t ts ih =>
    simp only [loadAll, bind_eq_ok, pure_eq_ok, Except.ok.injEq, Prod.mk.injEq] at h
    obtain ⟨_, -, ⟨ws, r⟩, h1, rfl, -⟩ := h
    simp [ih h1]

theorem reads_tuple {ts : List Ty} {d : Cell} {a : Value} : (Ty.tuple ts).Reads d a ↔
    ∃ as : List Value, a = .tuple as ∧ as.length = ts.length ∧
      Slice.Takes Prod.snd (fun x => Value.canonAll x.1) (loadAll ts) d as := by
  constructor
  · intro h
    obtain ⟨as, has, rfl⟩ := Slice.Takes.unmap (f := loadAll ts)
      (k := fun x : List Value × Slice => (Value.tuple x.1, x.2)) (φ := Value.tuple) h
      (loadAll_local ts) (fun _ => rfl) (fun _ => rfl)
    obtain ⟨⟨vs, r⟩, h1, -, rfl⟩ := has.exists
    exact ⟨_, rfl, (Value.length_canonAll vs).trans (length_loadAll h1), has⟩
  · rintro ⟨as, rfl, -, h⟩
    exact h.map (φ := Value.tuple) (fun _ => rfl) fun _ => rfl

/-- What is read as a tuple are contents of its items in a row. -/
theorem Reads.uncons {t : Ty} {ts : List Ty} {d : Cell} {a : Value}
    (h : (Ty.tuple (t :: ts)).Reads d a) : ∃ c c' b as, d = c ++ c' ∧ a = .tuple (b :: as) ∧
      t.Reads c b ∧ (Ty.tuple ts).Reads c' (.tuple as) := by
  obtain ⟨as, rfl, hl, h⟩ := reads_tuple.1 h
  obtain ⟨c, c', b, bs, rfl, hb, hbs, rfl⟩ := Slice.Takes.unseq (f := t.load) (g := loadAll ts)
    (k := fun x y => (x.1 :: y.1, y.2)) (φ := List.cons) h (load_local t) (loadAll_local ts)
    (fun _ _ => rfl) (fun _ _ => rfl)
  exact ⟨c, c', b, bs, rfl, rfl, hb, reads_tuple.2 ⟨bs, rfl, Nat.succ.inj hl, hbs⟩⟩

theorem Writable.uncons {t : Ty} {ts : List Ty} {a : Value} {as : List Value}
    (h : (Ty.tuple (t :: ts)).Writable (.tuple (a :: as))) :
    t.Writable a ∧ (Ty.tuple ts).Writable (.tuple as) := by
  rcases h with ⟨ht, hts⟩ | ⟨b, b', hb⟩
  · exact ⟨.inl ht, .inl hts⟩
  · simp only [store, storeAll, Value.toTuple, pure_eq_ok, ok_bind, List.length_cons,
      Nat.add_right_cancel_iff] at hb
    split at hb
    · next hl =>
      obtain ⟨b1, h1, h2⟩ := bind_eq_ok.1 hb
      refine ⟨.inr ⟨b, b1, h1⟩, .inr ⟨b1, b', ?_⟩⟩
      simp only [store, Value.toTuple, pure_eq_ok, ok_bind, if_pos hl, h2]
    · cases hb

theorem image_nil : (Ty.tuple []).Image .empty (.tuple []) :=
  ⟨.ok, reads_tuple.2 ⟨[], rfl, rfl, .ok (fun _ => rfl) fun _ => rfl⟩, Nat.le_refl 0, Nat.le_refl 0⟩

theorem Image.cons {t : Ty} {ts : List Ty} {c c' : Cell} {a : Value} {as : List Value}
    (h : t.Image c a) (h' : (Ty.tuple ts).Image c' (.tuple as)) :
    (Ty.tuple (t :: ts)).Image (c ++ c') (.tuple (a :: as)) := by
  obtain ⟨bs, he, hl, hbs⟩ := reads_tuple.1 h'.reads
  obtain rfl := Value.tuple.inj he
  have hs : (Ty.tuple (t :: ts)).store (.tuple (a :: as)) =
      fun b => t.store a b >>= (Ty.tuple ts).store (.tuple as) := by
    funext b
    simp [store, storeAll, Value.toTuple, hl]
  refine ⟨?_, reads_tuple.2 ⟨a :: as, rfl, congrArg (· + 1) hl, ?_⟩, h.bounds.add h'.bounds⟩
  · rw [hs]
    exact h.writes.bind h'.writes
  · exact h.reads.seq hbs (φ := List.cons) (fun _ _ => rfl) (fun _ _ => rfl)

/-! ### Structures are tuples -/

section Struct

variable (x : String)

theorem loadFields_eq (fs : List (Field Ty)) (s : Slice) :
    loadFields fs s = loadAll (fs.map (·.type)) s := by
  induction fs generalizing s with
  | nil => rfl
  | cons f fs ih => simp only [loadFields, List.map_cons, loadAll, ih]

theorem storeFields_eq : ∀ (fs : List (Field Ty)) (vs : List Value) (b : Builder),
    storeFields fs vs b = storeAll (fs.map (·.type)) vs b
  | [], _, _ => by simp [storeFields, storeAll]
  | _ :: _, [], _ => rfl
  | ⟨_, t⟩ :: fs, v :: vs, b => by
    simp only [storeFields, List.map_cons, storeAll, storeFields_eq fs]

theorem load_struct (fs : List (Field Ty)) :
    (Ty.struct x fs).load = (Ty.tuple (fs.map (·.type))).load := by
  funext s
  simp only [load, loadFields_eq]

theorem store_struct (fs : List (Field Ty)) :
    (Ty.struct x fs).store = (Ty.tuple (fs.map (·.type))).store := by
  funext v b
  simp only [store, storeFields_eq, List.length_map]

theorem size_struct (fs : List (Field Ty)) :
    (Ty.struct x fs).size = (Ty.tuple (fs.map (·.type))).size := by
  rw [size, size]
  induction fs with
  | nil => rfl
  | cons f fs ih => rw [fieldsSize, List.map_cons, totalSize, ih]

theorem wordSize_struct (fs : List (Field Ty)) :
    (Ty.struct x fs).wordSize = (Ty.tuple (fs.map (·.type))).wordSize := by
  rw [wordSize, wordSize]
  induction fs with
  | nil => rfl
  | cons f fs ih => rw [fieldsWordSize, List.map_cons, totalWordSize, ih]

theorem oversized?_struct (fs : List (Field Ty)) :
    (Ty.struct x fs).oversized? = (Ty.tuple (fs.map (·.type))).oversized? := by
  rw [oversized?, oversized?]
  induction fs with
  | nil => rfl
  | cons f fs ih => rw [oversizedField?, List.map_cons, oversizedAmong?, ih]

theorem sumsFit_struct (fs : List (Field Ty)) :
    (Ty.struct x fs).sumsFit = (Ty.tuple (fs.map (·.type))).sumsFit := by
  have hfields : fieldSumsFit fs = allSumsFit (fs.map (·.type)) := by
    induction fs with
    | nil => rfl
    | cons f fs ih => rw [fieldSumsFit, List.map_cons, allSumsFit, ih]
  have hsize : fieldsSize fs = totalSize (fs.map (·.type)) := size_struct (x := x) fs
  rw [sumsFit, sumsFit, hfields, hsize]

theorem accepted_struct (fs : List (Field Ty)) :
    (Ty.struct x fs).Accepted ↔ (Ty.tuple (fs.map (·.type))).Accepted := by
  rw [Accepted, Accepted, oversized?_struct, sumsFit_struct]

theorem each_struct (p : Ty → Prop) (fs : List (Field Ty)) :
    (Ty.struct x fs).Each p ↔ (Ty.tuple (fs.map (·.type))).Each p := by
  rw [Each, Each]
  induction fs with
  | nil => rfl
  | cons f fs ih => rw [EachField, List.map_cons, EachItem, ih]

end Struct

/-! ### Leaves -/

theorem image_integral {t : Ty} {w : Nat} {signed : Bool} {c : Cell} {a : Value}
    (hl : t.load = Slice.readIntegral w signed)
    (hs : t.store = fun v b => b.writeIntegral w signed v) (hz : t.size.bits = w)
    (hw : signed = true → 1 ≤ w) (h : t.Reads c a) : t.Image c a := by
  have hr := h
  rw [Reads, hl] at hr
  obtain ⟨bs, rfl, rfl, rfl⟩ := hr.integral
  refine ⟨?_, h, Nat.le_of_eq hz.symm, Nat.zero_le _⟩
  rw [hs]
  exact Builder.writeIntegral_puts signed bs hw

/-- Two's complement has a bit at least where writing does not fail. -/
theorem Writable.one_le {bits : Nat} {signed : Bool} {k : Int}
    (h : (Ty.integer bits signed).Writable (.int k)) (hs : signed = true) : 1 ≤ bits := by
  rcases h with hp | ⟨b, b', hb⟩
  · exact hp hs
  · refine Nat.lt_of_not_le fun h0 => ?_
    obtain rfl : bits = 0 := by omega
    simp [store, Builder.writeIntegral, Value.toInt, hs, Builder.writeInt] at hb

theorem image_integer {bits : Nat} {signed : Bool} {c : Cell} {a : Value}
    (hw : (Ty.integer bits signed).Writable a) (h : (Ty.integer bits signed).Reads c a) :
    (Ty.integer bits signed).Image c a := by
  have hr : Slice.Takes Prod.snd (fun x => x.1.canon) (Slice.readIntegral bits signed) c a := h
  obtain ⟨bs, -, -, rfl⟩ := hr.integral
  exact image_integral rfl rfl rfl hw.one_le h

theorem image_cell {t : Ty} {c : Cell} {a : Value} (hl : t.load = Slice.readCell)
    (hs : t.store = fun v b => do b.writeRef (← v.toCell)) (hd : t.Documented)
    (h : t.Reads c a) : t.Image c a := by
  have hr := h
  rw [Reads, hl] at hr
  obtain ⟨r, rfl, rfl⟩ := hr.cell
  refine ⟨?_, h, h.bounds hd⟩
  rw [hs]
  exact Builder.writeRef_puts r

theorem image_dict {c : Cell} {a : Value}
    (h : Slice.Takes Prod.snd (fun x => x.1.canon) Slice.readDict c a) :
    Builder.Puts (Builder.writeDict a) c := by
  obtain ⟨rfl, rfl⟩ | ⟨root, rfl, rfl⟩ := h.dict
  · exact Builder.writeBits_puts [false]
  · exact (Builder.writeBits_puts [true]).bind (Builder.writeRef_puts root)

theorem image_mapping {k t : Ty} {c : Cell} {a : Value} (h : (Ty.mapping k t).Reads c a) :
    (Ty.mapping k t).Image c a :=
  ⟨image_dict h, h, h.bounds trivial⟩

theorem image_array {t : Ty} {n : Option Nat} {d : Cell} {a : Value}
    (h : (Ty.array t n).Reads d a) : (Ty.array t n).Image d a := by
  obtain ⟨c, c', k, b, rfl, hk, hb, rfl⟩ := Slice.Takes.unseq (f := Slice.readNat 32)
    (g := Slice.readDict) (k := fun x y => (Value.tuple [.int x.1, y.1], y.2))
    (φ := fun (k : Nat) b => Value.tuple [.int k, b]) h (Slice.readNat_local 32)
    Slice.readDict_local (fun _ _ => rfl) (fun _ _ => rfl)
  obtain ⟨rfl, hlt⟩ := hk.nat
  exact ⟨(Builder.writeNat_puts hlt).bind (image_dict hb), h, h.bounds trivial⟩

theorem image_address {t : Ty} {f : Slice → Except Trap Slice} {c : Cell} {a : Value}
    (hl : t.load = fun s => do
      let rest ← f s
      return (.slice (s.upTo rest), rest))
    (hw : t.size.Allows c.bits.length c.refs.length →
      t.store (.slice (.ofCell c)) = Builder.writeSlice (.ofCell c))
    (hr : t.size.refs = 0) (hd : t.Documented) (h : t.Reads c a) : t.Image c a := by
  have ha := h
  rw [Reads, hl] at ha
  obtain rfl := ha.upTo
  have hc : c = .ofBits c.bits := by
    have hle := h.spans.1.refs_le
    ext1
    · rfl
    · exact List.length_eq_zero_iff.1 (by omega)
  have hp := Builder.writeSlice_puts (Slice.valid_ofCell c)
  rw [Slice.toCell_ofCell, ← hw h.spans.1] at hp
  exact ⟨by rwa [← hc], h, h.bounds hd⟩

theorem image_addressStd {c : Cell} {a : Value} (h : Ty.addressStd.Reads c a) :
    Ty.addressStd.Image c a := by
  refine image_address (funext Slice.readStdAddress_eq) (fun ha => ?_) rfl trivial h
  have hl : c.bits.length = stdAddressBits := ha.bits_eq rfl
  funext b
  simp [store, Value.toSlice, Slice.bitCount, Slice.ofCell, hl]

/-! ### Writing again what was read -/

/-- The value that was read from the content `d` is written as `c`, which is not longer, and is `d`
again if values of the type have only one content. -/
structure Rewrites (t : Ty) (d c : Cell) (a : Value) : Prop extends t.Image c a where
  bits_le : c.bits.length ≤ d.bits.length
  refs_le : c.refs.length ≤ d.refs.length
  exact : t.Exact → c = d

theorem Image.rewrites {t : Ty} {c : Cell} {a : Value} (h : t.Image c a) : t.Rewrites c c a :=
  ⟨h, Nat.le_refl _, Nat.le_refl _, fun _ => rfl⟩

/-- A variable integer is written in the fewest bytes. -/
theorem rewrites_varInteger {n : Nat} {signed : Bool} {d : Cell} {a : Value}
    (hw : (Ty.varInteger n signed).Writable a) (h : (Ty.varInteger n signed).Reads d a) :
    ∃ c, (Ty.varInteger n signed).Rewrites d c a := by
  obtain ⟨e, e', length, rfl, hlength, hint⟩ := Slice.Takes.next h (Slice.readNat_local _)
    fun length => Slice.readIntegral_local (cutToWord (8 * length)) signed
  obtain ⟨rfl, hl⟩ := hlength.nat
  obtain ⟨bs, hbs, rfl, rfl⟩ := Slice.Takes.integral hint
  rw [cutToWord_eight_mul] at hbs
  have hk := bs.toInteger_range signed hbs
  generalize bs.toInteger signed = k at hk hw
  have hsign : signed = true ∨ 0 ≤ k := hk.signed_or
  have hle := (varByteLength_le_iff hsign).2 hk
  have hlt : varByteLength k signed < twoPow (varLengthBits n) :=
    Nat.lt_of_le_of_lt (Nat.le_trans hle (Nat.mod_le ..)) hl
  have hword : cutToWord (8 * varByteLength k signed) = 8 * varByteLength k signed := by
    rw [cutToWord_eight_mul, Nat.mod_eq_of_lt (Nat.lt_of_le_of_lt hle (Nat.mod_lt _ (by decide)))]
  have hn : varByteLength k signed < n := by
    rcases hw with hp | ⟨b, b', hb⟩
    · exact lt_of_varLength hp hlt
    · refine Nat.lt_of_not_le fun hn => ?_
      simp [store, Value.toInt, Builder.writeVarInt, hn] at hb
  obtain ⟨bs', hb', hk'⟩ := ((varByteLength_le_iff hsign).1 (Nat.le_refl _)).exists_bits
  have hput : Builder.Puts ((Ty.varInteger n signed).store (.int k)) _ :=
    Builder.writeVarInt_puts hsign hn hlt hb' hk'
  refine ⟨_, ⟨hput, ?_, ?_⟩, ?_, Nat.le_refl _, False.elim⟩
  · exact (Slice.readNat_takes hlt).bind
      (k := fun length s => s.readIntegral (cutToWord (8 * length)) signed)
      (by rw [hword, ← hb', ← hk']; exact Slice.readIntegral_takes signed bs') (fun _ => rfl)
  · simp only [Size.Bounds, size, Size.upTo, Cell.bits_append, Cell.refs_append, List.length_append,
      Cell.bits_ofBits, Cell.refs_ofBits, List.length_nil, Bits.length_ofNat, hb',
      predInWord_of_pos (show 1 ≤ n by omega)]
    omega
  · simp only [Cell.bits_append, Cell.bits_ofBits, List.length_append, Bits.length_ofNat, hb', hbs]
    omega

theorem Rewrites.inline {t : Ty} {d c : Cell} {a : Value} (h : t.Rewrites d c a)
    (hi : t.wordSize.StaysInline) (hn : t.mayBeNull = false → a ≠ .null) :
    (Ty.optional t).Rewrites (.ofBits [true] ++ d) (.ofBits [true] ++ c) (t.present a) :=
  ⟨h.toImage.inline hi hn, by simpa using h.bits_le, by simpa using h.refs_le,
    fun he => by rw [h.exact he.2]⟩

/-- What follows a payload in a cell of its own is lost. -/
theorem Rewrites.boxed {t : Ty} {d c e : Cell} {a : Value} (h : t.Rewrites d c a)
    (hi : ¬ t.wordSize.StaysInline) (hr : ({} : Builder).HasRoom c)
    (hn : t.mayBeNull = false → a ≠ .null) :
    (Ty.optional t).Rewrites (.ofBits [true] ++ .link (d ++ e)) (.ofBits [true] ++ .link c)
      (t.present a) :=
  ⟨h.toImage.boxed hi hr hn, Nat.le_refl _, Nat.le_refl _, fun he => absurd he.1 hi⟩

theorem Rewrites.cons {t : Ty} {ts : List Ty} {d d' c c' : Cell} {a : Value} {as : List Value}
    (h : t.Rewrites d c a) (h' : (Ty.tuple ts).Rewrites d' c' (.tuple as)) :
    (Ty.tuple (t :: ts)).Rewrites (d ++ d') (c ++ c') (.tuple (a :: as)) := by
  refine ⟨h.toImage.cons h'.toImage, ?_, ?_, fun he => by rw [h.exact he.1, h'.exact he.2]⟩
  · rw [Cell.bits_append, Cell.bits_append, List.length_append, List.length_append]
    exact Nat.add_le_add h.bits_le h'.bits_le
  · rw [Cell.refs_append, Cell.refs_append, List.length_append, List.length_append]
    exact Nat.add_le_add h.refs_le h'.refs_le

theorem Rewrites.struct {x : String} {fs : List (Field Ty)} {d c : Cell} {a : Value}
    (h : (Ty.tuple (fs.map (·.type))).Rewrites d c a) : (Ty.struct x fs).Rewrites d c a := by
  refine ⟨⟨?_, ?_, ?_⟩, h.bits_le, h.refs_le, fun he => h.exact ((each_struct x _ fs).1 he)⟩
  · rw [store_struct]
    exact h.writes
  · rw [Reads, load_struct]
    exact h.reads
  · rw [size_struct]
    exact h.bounds

/-- There is room for each payload in a cell of its own: the type is accepted, or the payload was
read from such a cell. -/
def Roomy (t : Ty) (d : Cell) : Prop := t.Accepted ∨ d.WithinLimits

theorem Roomy.inline {t : Ty} {d : Cell} (h : (Ty.optional t).Roomy (.ofBits [true] ++ d)) :
    t.Roomy d :=
  h.imp (fun ho => ho.payload.2) Cell.WithinLimits.right

theorem Roomy.boxed {t : Ty} {d e : Cell}
    (h : (Ty.optional t).Roomy (.ofBits [true] ++ .link (d ++ e))) : t.Roomy d :=
  h.imp (fun ho => ho.payload.2) fun hc => hc.right.linked.left

theorem Roomy.hasRoom {t : Ty} {d c e : Cell} {a : Value} (h : t.Rewrites d c a)
    (hi : ¬ t.wordSize.StaysInline)
    (hr : (Ty.optional t).Roomy (.ofBits [true] ++ .link (d ++ e))) :
    ({} : Builder).HasRoom c := by
  have hbits := h.bits_le
  have hrefs := h.refs_le
  rcases hr with ho | hc
  · obtain ⟨hb, hr⟩ := ho.payload.1.resolve_left hi
    exact ⟨by simpa using Nat.le_trans h.bounds.1 hb, by simpa using Nat.le_trans h.bounds.2 hr⟩
  · obtain ⟨hb, hr, -⟩ := (Cell.withinLimits_iff _).1 hc.right.linked.left
    exact ⟨by simpa using Nat.le_trans hbits hb, by simpa using Nat.le_trans hrefs hr⟩

theorem Roomy.uncons {t : Ty} {ts : List Ty} {d d' : Cell}
    (h : (Ty.tuple (t :: ts)).Roomy (d ++ d')) : t.Roomy d ∧ (Ty.tuple ts).Roomy d' := by
  rcases h with ho | hc
  · exact ⟨.inl ho.uncons.1, .inl ho.uncons.2⟩
  · exact ⟨.inr hc.left, .inr hc.right⟩

/-- Nothing is read as no items. -/
theorem Reads.rewrites_nil {d : Cell} {a : Value} (h : (Ty.tuple []).Reads d a) :
    (Ty.tuple []).Rewrites d .empty a := by
  obtain ⟨as, rfl, -, h⟩ := reads_tuple.1 h
  have h : Slice.Takes Prod.snd (fun x => Value.canonAll x.1) (fun s => .ok ([], s)) d as := h
  obtain ⟨rfl, rfl⟩ := h.unok (fun _ => rfl)
  exact image_nil.rewrites

mutual

/-- **Every value that was read and can be written is written in a content from which it is read
again,** not a longer one, and the same if there is no other. -/
theorem Reads.rewrites : ∀ (t : Ty) {d : Cell} {a : Value}, t.Writable a → t.Roomy d → t.Reads d a →
    ∃ c, t.Rewrites d c a
  | .integer .., _, _, hw, _, h => ⟨_, Image.rewrites (image_integer hw h)⟩
  | .bool, _, _, _, _, h =>
    ⟨_, Image.rewrites (image_integral rfl rfl rfl (fun _ => Nat.le_refl 1) h)⟩
  | .fixedBytes _, _, _, _, _, h => ⟨_, Image.rewrites (image_integral rfl rfl rfl nofun h)⟩
  | .function, _, _, _, _, h => ⟨_, Image.rewrites (image_integral rfl rfl rfl nofun h)⟩
  | .enumeration .., _, _, _, _, h => ⟨_, Image.rewrites (image_integral rfl rfl rfl nofun h)⟩
  | .address, _, _, _, _, h => ⟨_, Image.rewrites (image_address rfl (fun _ => rfl) rfl trivial h)⟩
  | .addressStd, _, _, _, _, h => ⟨_, Image.rewrites (image_addressStd h)⟩
  | .cell, _, _, _, _, h => ⟨_, Image.rewrites (image_cell rfl rfl trivial h)⟩
  | .bytes, _, _, _, _, h => ⟨_, Image.rewrites (image_cell rfl rfl trivial h)⟩
  | .string, _, _, _, _, h => ⟨_, Image.rewrites (image_cell rfl rfl trivial h)⟩
  | .mapping .., _, _, _, _, h => ⟨_, Image.rewrites (image_mapping h)⟩
  | .array .., _, _, _, _, h => ⟨_, Image.rewrites (image_array h)⟩
  | .varInteger .., _, _, hw, _, h => rewrites_varInteger hw h
  | .optional t, d, a, hw, hr, h => by
    obtain ⟨rfl, rfl⟩ | ⟨c, w, rfl, hc, rfl⟩ := h.optional
    · exact ⟨_, Image.rewrites (image_missing t)⟩
    by_cases hi : t.wordSize.StaysInline
    · rw [funext (loadPayload_inline hi)] at hc
      have hnull := Reads.ne_null hc
      obtain ⟨c', hc'⟩ := Reads.rewrites t (hw.payload hnull) (Roomy.inline hr) hc
      exact ⟨_, hc'.inline hi hnull⟩
    · obtain ⟨d, e, rfl, hd⟩ := Reads.box hi hc
      have hnull := hd.ne_null
      obtain ⟨c', hc'⟩ := Reads.rewrites t (hw.payload hnull) (Roomy.boxed hr) hd
      exact ⟨_, hc'.boxed hi (Roomy.hasRoom hc' hi hr) hnull⟩
  | .struct x fs, d, a, hw, hr, h => by
    rw [Writable, Proper, each_struct, store_struct] at hw
    rw [Roomy, accepted_struct] at hr
    rw [Reads, load_struct] at h
    obtain ⟨c, hc⟩ := Reads.rewritesFields fs hw hr h
    exact ⟨c, hc.struct⟩
  | .tuple ts, _, _, hw, hr, h => Reads.rewritesAll ts hw hr h
  | .alias _ t, _, _, hw, hr, h => by
    obtain ⟨c, hc⟩ := Reads.rewrites t hw hr h
    exact ⟨c, ⟨hc.writes, hc.reads, hc.bounds⟩, hc.bits_le, hc.refs_le, hc.exact⟩

theorem Reads.rewritesAll : ∀ (ts : List Ty) {d : Cell} {a : Value}, (Ty.tuple ts).Writable a →
    (Ty.tuple ts).Roomy d → (Ty.tuple ts).Reads d a → ∃ c, (Ty.tuple ts).Rewrites d c a
  | [], _, _, _, _, h => ⟨_, Reads.rewrites_nil h⟩
  | t :: ts, _, _, hw, hr, h => by
    obtain ⟨d, d', b, as, rfl, rfl, hb, has⟩ := h.uncons
    obtain ⟨hwb, hwas⟩ := hw.uncons
    obtain ⟨hrb, hras⟩ := Roomy.uncons hr
    obtain ⟨c, hc⟩ := Reads.rewrites t hwb hrb hb
    obtain ⟨c', hc'⟩ := Reads.rewritesAll ts hwas hras has
    exact ⟨_, hc.cons hc'⟩

theorem Reads.rewritesFields : ∀ (fs : List (Field Ty)) {d : Cell} {a : Value},
    (Ty.tuple (fs.map (·.type))).Writable a → (Ty.tuple (fs.map (·.type))).Roomy d →
    (Ty.tuple (fs.map (·.type))).Reads d a → ∃ c, (Ty.tuple (fs.map (·.type))).Rewrites d c a
  | [], _, _, _, _, h => ⟨_, Reads.rewrites_nil h⟩
  | ⟨x, t⟩ :: fs, _, _, hw, hr, h => by
    obtain ⟨d, d', b, as, rfl, rfl, hb, has⟩ := Reads.uncons h
    obtain ⟨hwb, hwas⟩ := Writable.uncons hw
    obtain ⟨hrb, hras⟩ := Roomy.uncons hr
    obtain ⟨c, hc⟩ := Reads.rewrites t hwb hrb hb
    obtain ⟨c', hc'⟩ := Reads.rewritesFields fs hwas hras has
    exact ⟨_, hc.cons hc'⟩

end

/-- Every value that can be read and written has an image. -/
theorem exists_image (t : Ty) {s s' : Slice} {v : Value} (hw : t.Writable v.canon)
    (ho : t.Accepted) (hs : s.Valid) (h : t.load s = .ok (v, s')) :
    ∃ c, t.Image c v.canon := by
  obtain ⟨d, -, -, -, hr, -⟩ := exists_reads hs h
  obtain ⟨c, hc⟩ := Reads.rewrites t hw (.inl ho) hr
  exact ⟨c, hc.toImage⟩

end Ty

end TypedCells
