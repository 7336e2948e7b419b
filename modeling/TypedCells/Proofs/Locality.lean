import TypedCells.Proofs.Reading

/-!
# Reading depends only on what is read

A reader is local if its result depends only on the content that it moves over: it reads every other
slice that shows this content first in the same way, whatever follows (`Slice.Local`). All reads of
values are local when values are seen up to what their slices show (`Ty.load_local`), and the values
read are again valid (`Ty.load_valid`). Reading fails with a cell underflow only
(`Ty.load_underflows`).
-/

namespace TypedCells

namespace Slice

/-! ### Local readers -/

section Local

variable {ρ ρ' ρ'' β β' β'' : Type}

/-- The reader takes the content `c` off every slice that shows it first, with the result `b`. What
a reader returns is seen as the slice `rest` that is left and the result `view`. -/
def Takes (rest : ρ → Slice) (view : ρ → β) (f : Slice → Except Trap ρ) (c : Cell) (b : β) :
    Prop :=
  ∀ ⦃s : Slice⦄ ⦃d : Cell⦄, s.Valid → s.toCell = c ++ d →
    ∃ x, f s = .ok x ∧ rest x = s.past c ∧ view x = b

/-- The result depends only on the content that the reader moves over. -/
def Local (rest : ρ → Slice) (view : ρ → β) (f : Slice → Except Trap ρ) : Prop :=
  ∀ ⦃s : Slice⦄ ⦃x : ρ⦄, s.Valid → f s = .ok x →
    ∃ c d, s.toCell = c ++ d ∧ rest x = s.past c ∧ Takes rest view f c (view x)

variable {rest : ρ → Slice} {view : ρ → β} {rest' : ρ' → Slice} {view' : ρ' → β'}
  {rest'' : ρ'' → Slice} {view'' : ρ'' → β''}

theorem Local.ok {k : Slice → ρ} (hr : ∀ s, rest (k s) = s)
    (hv : ∀ s s', view (k s) = view (k s')) : Local rest view fun s => .ok (k s) := by
  intro s x hs h
  obtain rfl := Except.ok.inj h
  refine ⟨.empty, s.toCell, by simp, hr s, fun s' d _ _ => ⟨k s', rfl, hr s', hv s' s⟩⟩

theorem Local.error (e : Trap) : Local rest view fun _ => .error e := by
  intro s x _ h
  simp at h

theorem Takes.ok {k : Slice → ρ} {b : β} (hr : ∀ s, rest (k s) = s) (hv : ∀ s, view (k s) = b) :
    Takes rest view (fun s => .ok (k s)) .empty b :=
  fun s _ _ _ => ⟨k s, rfl, hr s, hv s⟩

theorem Takes.bind {f : Slice → Except Trap ρ} {g : ρ → Except Trap ρ'}
    {k : β → Slice → Except Trap ρ'} {c c' : Cell} {b : β} {b' : β'} (hf : Takes rest view f c b)
    (hk : Takes rest' view' (k b) c' b') (hg : ∀ x, g x = k (view x) (rest x)) :
    Takes rest' view' (fun s => f s >>= g) (c ++ c') b' := by
  intro s e hs he
  rw [Cell.append_assoc] at he
  obtain ⟨x, h1, hr1, rfl⟩ := hf hs he
  obtain ⟨y, h2, hr2, hv2⟩ := hk (hs.past he) (toCell_past he)
  refine ⟨y, ?_, by rw [hr2, past_append], hv2⟩
  simp only [h1, ok_bind, hg x, hr1, h2]

theorem Takes.seq {f : Slice → Except Trap ρ} {g : Slice → Except Trap ρ'} {k : ρ → ρ' → ρ''}
    {φ : β → β' → β''} {c c' : Cell} {b : β} {b' : β'} (hf : Takes rest view f c b)
    (hg : Takes rest' view' g c' b') (hr : ∀ x y, rest'' (k x y) = rest' y)
    (hv : ∀ x y, view'' (k x y) = φ (view x) (view' y)) :
    Takes rest'' view'' (fun s => f s >>= fun x => g (rest x) >>= fun y => .ok (k x y))
      (c ++ c') (φ b b') := by
  intro s e hs he
  rw [Cell.append_assoc] at he
  obtain ⟨x, h1, hr1, rfl⟩ := hf hs he
  obtain ⟨y, h2, hr2, rfl⟩ := hg (hs.past he) (toCell_past he)
  refine ⟨k x y, ?_, by rw [hr, hr2, past_append], hv x y⟩
  simp only [h1, ok_bind, hr1, h2]

theorem Takes.map {f : Slice → Except Trap ρ} {k : ρ → ρ'} {φ : β → β'} {c : Cell} {b : β}
    (hf : Takes rest view f c b) (hr : ∀ x, rest' (k x) = rest x)
    (hv : ∀ x, view' (k x) = φ (view x)) :
    Takes rest' view' (fun s => f s >>= fun x => .ok (k x)) c (φ b) := by
  intro s e hs he
  obtain ⟨x, h1, hr1, rfl⟩ := hf hs he
  exact ⟨k x, by simp only [h1, ok_bind], by rw [hr, hr1], hv x⟩

/-- A reader followed by one that is told what the first has read. -/
theorem Local.bind {f : Slice → Except Trap ρ} {g : ρ → Except Trap ρ'}
    {k : β → Slice → Except Trap ρ'} (hf : Local rest view f) (hk : ∀ b, Local rest' view' (k b))
    (hg : ∀ x, g x = k (view x) (rest x)) : Local rest' view' fun s => f s >>= g := by
  intro s y hs h
  obtain ⟨x, h1, h2⟩ := bind_eq_ok.1 h
  obtain ⟨c, d, hc, hr, ht⟩ := hf hs h1
  rw [hg x, hr] at h2
  obtain ⟨c', d', hc', hr', ht'⟩ := hk _ (hs.past hc) h2
  rw [toCell_past hc] at hc'
  refine ⟨c ++ c', d', ?_, by rw [hr', past_append], ht.bind ht' hg⟩
  rw [hc, hc', Cell.append_assoc]

/-- A reader followed by one for each value that it may read. -/
theorem Local.next {f : Slice → Except Trap (β × Slice)} {g : β × Slice → Except Trap ρ'}
    (hf : Local Prod.snd Prod.fst f) (hg : ∀ b, Local rest' view' fun s => g (b, s)) :
    Local rest' view' fun s => f s >>= g :=
  hf.bind (k := fun b s => g (b, s)) hg fun _ => rfl

/-- Two readers in turn, with their results combined. -/
theorem Local.seq {f : Slice → Except Trap ρ} {g : Slice → Except Trap ρ'} {k : ρ → ρ' → ρ''}
    {φ : β → β' → β''} (hf : Local rest view f) (hg : Local rest' view' g)
    (hr : ∀ x y, rest'' (k x y) = rest' y) (hv : ∀ x y, view'' (k x y) = φ (view x) (view' y)) :
    Local rest'' view'' fun s => f s >>= fun x => g (rest x) >>= fun y => .ok (k x y) := by
  intro s z hs h
  obtain ⟨x, h1, h2⟩ := bind_eq_ok.1 h
  obtain ⟨y, h3, h4⟩ := bind_eq_ok.1 h2
  obtain rfl := Except.ok.inj h4
  obtain ⟨c, d, hc, hrx, ht⟩ := hf hs h1
  rw [hrx] at h3
  obtain ⟨c', d', hc', hry, ht'⟩ := hg (hs.past hc) h3
  rw [toCell_past hc] at hc'
  refine ⟨c ++ c', d', ?_, by rw [hr, hry, past_append], ?_⟩
  · rw [hc, hc', Cell.append_assoc]
  · rw [hv]; exact ht.seq ht' hr hv

/-- A reader whose result is put in another form. -/
theorem Local.map {f : Slice → Except Trap ρ} {k : ρ → ρ'} {φ : β → β'} (hf : Local rest view f)
    (hr : ∀ x, rest' (k x) = rest x) (hv : ∀ x, view' (k x) = φ (view x)) :
    Local rest' view' fun s => f s >>= fun x => .ok (k x) := by
  intro s y hs h
  obtain ⟨x, h1, h2⟩ := bind_eq_ok.1 h
  obtain rfl := Except.ok.inj h2
  obtain ⟨c, d, hc, hrx, ht⟩ := hf hs h1
  refine ⟨c, d, hc, by rw [hr, hrx], ?_⟩
  rw [hv]; exact ht.map hr hv

/-! What a reader takes falls apart into what its parts take. -/

theorem Takes.exists {f : Slice → Except Trap ρ} {c : Cell} {b : β} (h : Takes rest view f c b) :
    ∃ x, f (.ofCell c) = .ok x ∧ rest x = (Slice.ofCell c).past c ∧ view x = b :=
  h (valid_ofCell c) (d := .empty) (by simp)

/-- A content that is moved past together with all of a cell is all of the cell. -/
theorem eq_of_past {c d e : Cell} (h : d = c ++ e) (hp : (ofCell d).past d = (ofCell d).past c) :
    c = d := by
  have hb : d.bits.length = c.bits.length := by
    simpa [past, advance, ofCell] using congrArg bitStart hp
  have hr : d.refs.length = c.refs.length := by
    simpa [past, advance, ofCell] using congrArg refStart hp
  simp only [h, Cell.bits_append, Cell.refs_append, List.length_append] at hb hr
  have he : e = .empty := by
    ext1
    · exact List.length_eq_zero_iff.1 (by omega)
    · exact List.length_eq_zero_iff.1 (by omega)
  rw [h, he, Cell.append_empty]

theorem Takes.unbind {f : Slice → Except Trap ρ} {g : ρ → Except Trap ρ'}
    {k : β → Slice → Except Trap ρ'} {d : Cell} {b' : β'}
    (h : Takes rest' view' (fun s => f s >>= g) d b') (hf : Local rest view f)
    (hk : ∀ b, Local rest' view' (k b)) (hg : ∀ x, g x = k (view x) (rest x)) :
    ∃ c c' b, d = c ++ c' ∧ Takes rest view f c b ∧ Takes rest' view' (k b) c' b' := by
  obtain ⟨y, h0, hy, rfl⟩ := h.exists
  obtain ⟨x, h1, h2⟩ := bind_eq_ok.1 h0
  obtain ⟨c, e, hc, hr, ht⟩ := hf (valid_ofCell d) h1
  rw [hg x, hr] at h2
  obtain ⟨c', e', hc', hr', ht'⟩ := hk _ ((valid_ofCell d).past hc) h2
  rw [toCell_past hc] at hc'
  rw [toCell_ofCell, hc', ← Cell.append_assoc] at hc
  exact ⟨c, c', view x, (eq_of_past hc (by rw [← hy, hr', past_append])).symm, ht, ht'⟩

theorem Takes.next {f : Slice → Except Trap (β × Slice)} {g : β × Slice → Except Trap ρ'}
    {d : Cell} {b' : β'} (h : Takes rest' view' (fun s => f s >>= g) d b')
    (hf : Local Prod.snd Prod.fst f) (hg : ∀ b, Local rest' view' fun s => g (b, s)) :
    ∃ c c' b, d = c ++ c' ∧ Takes Prod.snd Prod.fst f c b ∧
      Takes rest' view' (fun s => g (b, s)) c' b' :=
  h.unbind (k := fun b s => g (b, s)) hf hg fun _ => rfl

theorem Takes.unseq {f : Slice → Except Trap ρ} {g : Slice → Except Trap ρ'} {k : ρ → ρ' → ρ''}
    {φ : β → β' → β''} {d : Cell} {b'' : β''}
    (h : Takes rest'' view'' (fun s => f s >>= fun x => g (rest x) >>= fun y => .ok (k x y)) d b'')
    (hf : Local rest view f) (hg : Local rest' view' g) (hr : ∀ x y, rest'' (k x y) = rest' y)
    (hv : ∀ x y, view'' (k x y) = φ (view x) (view' y)) :
    ∃ c c' b b', d = c ++ c' ∧ Takes rest view f c b ∧ Takes rest' view' g c' b' ∧
      b'' = φ b b' := by
  obtain ⟨z, h0, hz, rfl⟩ := h.exists
  obtain ⟨x, h1, h0⟩ := bind_eq_ok.1 h0
  obtain ⟨y, h2, h0⟩ := bind_eq_ok.1 h0
  obtain rfl := Except.ok.inj h0
  obtain ⟨c, e, hc, hx, ht⟩ := hf (valid_ofCell d) h1
  rw [hx] at h2
  obtain ⟨c', e', hc', hy, ht'⟩ := hg ((valid_ofCell d).past hc) h2
  rw [toCell_past hc] at hc'
  rw [toCell_ofCell, hc', ← Cell.append_assoc] at hc
  exact ⟨c, c', view x, view' y, (eq_of_past hc (by rw [← hz, hr, hy, past_append])).symm, ht, ht',
    hv x y⟩

theorem Takes.unmap {f : Slice → Except Trap ρ} {k : ρ → ρ'} {φ : β → β'} {c : Cell} {b' : β'}
    (h : Takes rest' view' (fun s => f s >>= fun x => .ok (k x)) c b') (hf : Local rest view f)
    (hr : ∀ x, rest' (k x) = rest x) (hv : ∀ x, view' (k x) = φ (view x)) :
    ∃ b, Takes rest view f c b ∧ b' = φ b := by
  obtain ⟨y, h0, hy, rfl⟩ := h.exists
  obtain ⟨x, h1, h0⟩ := bind_eq_ok.1 h0
  obtain rfl := Except.ok.inj h0
  obtain ⟨c', e, hc, hx, ht⟩ := hf (valid_ofCell c) h1
  rw [toCell_ofCell] at hc
  obtain rfl := eq_of_past hc (by rw [← hy, hr, hx])
  exact ⟨view x, ht, hv x⟩

theorem Takes.unok {k : Slice → ρ} {c : Cell} {b : β}
    (h : Takes rest view (fun s => .ok (k s)) c b) (hr : ∀ s, rest (k s) = s) :
    c = .empty ∧ view (k (.ofCell c)) = b := by
  obtain ⟨x, h1, hx, hb⟩ := h.exists
  obtain rfl := Except.ok.inj h1
  rw [hr] at hx
  exact ⟨(eq_of_past (c := .empty) (Cell.empty_append c).symm (by rw [← hx]; rfl)).symm, hb⟩

end Local

/-! ### The reads of slices -/

theorem readBits_takes (bs : Bits) :
    Takes Prod.snd Prod.fst (readBits bs.length) (.ofBits bs) bs :=
  fun s _ hs he => ⟨(bs, s.past (.ofBits bs)), readBits_of_shows hs he, rfl, rfl⟩

theorem readRef_takes (c : Cell) : Takes Prod.snd Prod.fst readRef (.link c) c :=
  fun s _ hs he => ⟨(c, s.past (.link c)), readRef_of_shows hs he, rfl, rfl⟩

theorem readBits_shows {n : Nat} {s s' : Slice} {bs : Bits} (hs : s.Valid)
    (h : s.readBits n = .ok (bs, s')) :
    bs.length = n ∧ ∃ d, s.toCell = .ofBits bs ++ d ∧ s' = s.past (.ofBits bs) := by
  have hm := readBits_moves h
  obtain ⟨h1, h2, -⟩ := readBits_eq_ok.1 h
  obtain ⟨c, hl, hr, hc, hp⟩ := exists_past hs hm.bits_le hm.refs_le
  have hb : bs = c.bits := by
    rw [h2, take_bits h1, show s.bits = c.bits ++ _ from congrArg Cell.bits hc, ← hl]
    simp
  have hc' : c = .ofBits bs := by
    ext1
    · exact hb.symm
    · simpa using hr
  rw [hc'] at hc hp
  exact ⟨by rw [hb, hl], _, hc, hm.eq.trans hp⟩

theorem readRef_shows {s s' : Slice} {r : Cell} (hs : s.Valid) (h : s.readRef = .ok (r, s')) :
    ∃ d, s.toCell = .link r ++ d ∧ s' = s.past (.link r) := by
  have hm := readRef_moves h
  obtain ⟨h1, h2, -⟩ := readRef_eq_ok.1 h
  obtain ⟨c, hl, hr, hc, hp⟩ := exists_past hs hm.bits_le hm.refs_le
  have hc' : c = .link r := by
    ext1
    · simpa using hl
    · have hg := getElem?_refs (s := s) (i := 0) (by omega)
      obtain ⟨r', hr'⟩ := List.length_eq_one_iff.1 hr
      rw [Nat.add_zero, h2, show s.refs = c.refs ++ _ from congrArg Cell.refs hc, hr'] at hg
      simpa [hr'] using hg
  rw [hc'] at hc hp
  exact ⟨_, hc, hm.eq.trans hp⟩

theorem readBits_local (n : Nat) : Local Prod.snd Prod.fst (readBits n) := by
  intro s ⟨bs, s'⟩ hs h
  obtain ⟨rfl, d, hc, hp⟩ := readBits_shows hs h
  exact ⟨_, d, hc, hp, readBits_takes bs⟩

theorem readBit_local : Local Prod.snd Prod.fst readBit :=
  (readBits_local 1).map (φ := fun bs => bs.headD false) (fun _ => rfl) (fun _ => rfl)

theorem readNat_local (w : Nat) : Local Prod.snd Prod.fst (readNat w) :=
  (readBits_local w).map (φ := Bits.toNat) (fun _ => rfl) (fun _ => rfl)

theorem readInt_local (w : Nat) : Local Prod.snd Prod.fst (readInt w) :=
  (readBits_local w).map (φ := Bits.toInt) (fun _ => rfl) (fun _ => rfl)

theorem readRef_local : Local Prod.snd Prod.fst readRef := by
  intro s ⟨r, s'⟩ hs h
  obtain ⟨d, hc, hp⟩ := readRef_shows hs h
  exact ⟨_, d, hc, hp, readRef_takes r⟩

/-- Skips an anycast prefix of the given depth. -/
def skipPrefix (depth : Nat) (s : Slice) : Except Trap Slice :=
  if depth = 0 ∨ depth > 30 then throw .cellUnderflow
  else do return (← s.readBits depth).2

theorem skipPrefix_local (depth : Nat) : Local id (fun _ => ()) (skipPrefix depth) := by
  unfold skipPrefix
  split
  · exact .error _
  · exact (readBits_local depth).map (φ := fun _ => ()) (fun _ => rfl) (fun _ => rfl)

theorem skipAnycast_eq (s : Slice) :
    s.skipAnycast = do
      let (present, s) ← s.readBit
      if present then
        let (depth, s) ← s.readNat 5
        s.skipPrefix depth
      else return s := by
  unfold skipAnycast
  rcases s.readBit with _ | ⟨b, r⟩
  · rfl
  cases b with
  | false => rfl
  | true =>
    simp only [ok_bind, if_true]
    rcases r.readNat 5 with _ | ⟨depth, r'⟩
    · rfl
    · simp only [ok_bind, skipPrefix]
      split <;> rfl

theorem skipAnycast_local : Local id (fun _ => ()) skipAnycast := by
  rw [funext skipAnycast_eq]
  refine readBit_local.next fun b => ?_
  cases b with
  | false => exact .ok (fun _ => rfl) (fun _ _ => rfl)
  | true => exact (readNat_local 5).next skipPrefix_local

theorem skipAddress_local : Local id (fun _ => ()) skipAddress := by
  have skip (n : Nat) : Local id (fun _ => ()) fun s => do return (← s.readBits n).2 :=
    (readBits_local n).map (φ := fun _ => ()) (fun _ => rfl) (fun _ => rfl)
  refine (readNat_local 2).next fun tag => ?_
  rcases tag with _ | _ | _ | tag
  · exact .ok (fun _ => rfl) (fun _ _ => rfl)
  · exact (readNat_local 9).next skip
  · exact skipAnycast_local.bind (fun _ => skip (8 + 256)) (fun _ => rfl)
  · exact skipAnycast_local.bind (fun _ => (readNat_local 9).next fun n => skip (32 + n))
      (fun _ => rfl)

theorem skipStdAddress_local : Local id (fun _ => ()) skipStdAddress := by
  refine (readBits_local 3).next fun tag => ?_
  by_cases ht : tag = [true, false, false]
  · simp only [ht, if_true]
    exact (readBits_local _).map (φ := fun _ => ()) (fun _ => rfl) (fun _ => rfl)
  · simp only [ht, if_false]
    exact .error _

/-- What lies between a slice and the same slice moved past `c`, without references. -/
theorem upTo_past {s : Slice} {c d : Cell} (hs : s.Valid) (h : s.toCell = c ++ d) :
    (s.upTo (s.past c)).Valid ∧ (s.upTo (s.past c)).toCell = .ofBits c.bits := by
  obtain ⟨h1, -⟩ := hs.count_le h
  have h2 := hs.bits_le
  have h3 := hs.bits_stop
  have h4 := hs.refs_le
  have h5 := hs.refs_stop
  have hb : s.bits = c.bits ++ d.bits := congrArg Cell.bits h
  rw [bitCount] at h1
  constructor
  · exact ⟨by simp [upTo, past, advance], by simp only [upTo, past, advance]; omega,
      by simp [upTo], by simp only [upTo]; omega⟩
  · ext1
    · rw [bits_toCell, Cell.bits_ofBits, bits, bitCount]
      simp only [upTo, past, advance, Nat.add_sub_cancel_left]
      rw [take_bits (by rw [bitCount]; omega), hb]
      simp
    · simp [upTo, refs, refCount]

/-- A reader that returns the bits that another one skips. -/
theorem upTo_takes {f : Slice → Except Trap Slice} {c : Cell}
    (hf : Takes id (fun _ => ()) f c ()) :
    Takes Prod.snd (fun x => x.1.canon)
      (fun s => do
        let rest ← f s
        return (Value.slice (s.upTo rest), rest))
      c (.slice (.ofCell (.ofBits c.bits))) := by
  intro s e hs he
  obtain ⟨r, h1, hr, -⟩ := hf hs he
  rw [id_eq] at hr
  refine ⟨(.slice (s.upTo r), r), by simp [h1], hr, ?_⟩
  simp only [Value.canon, hr, (upTo_past hs he).2]

theorem upTo_local {f : Slice → Except Trap Slice} (hf : Local id (fun _ => ()) f) :
    Local Prod.snd (fun x => x.1.canon) fun s => do
      let rest ← f s
      return (Value.slice (s.upTo rest), rest) := by
  intro s x hs h
  simp only [bind_eq_ok, pure_eq_ok, Except.ok.injEq] at h
  obtain ⟨r, h1, rfl⟩ := h
  obtain ⟨c, d, hc, hr, ht⟩ := hf hs h1
  rw [id_eq] at hr
  refine ⟨c, d, hc, hr, ?_⟩
  simp only [Value.canon, hr, (upTo_past hs hc).2]
  exact upTo_takes ht

theorem readIntegral_local (w : Nat) (signed : Bool) :
    Local Prod.snd (fun x => x.1.canon) (readIntegral w signed) := by
  cases signed with
  | false =>
    refine (readNat_local w).map (k := fun x : Nat × Slice => (Value.int x.1, x.2))
      (φ := fun n : Nat => Value.int n) ?_ ?_
    · exact fun _ => rfl
    · exact fun _ => rfl
  | true =>
    refine (readInt_local w).map (k := fun x : Int × Slice => (Value.int x.1, x.2))
      (φ := Value.int) ?_ ?_
    · exact fun _ => rfl
    · exact fun _ => rfl

theorem readCell_local : Local Prod.snd (fun x => x.1.canon) readCell :=
  readRef_local.map (φ := Value.cell) (fun _ => rfl) (fun _ => rfl)

/-- Reads a presence bit, and behind one that is set what `f` reads. -/
def readPresent (f : Slice → Except Trap (Value × Slice)) (s : Slice) :
    Except Trap (Value × Slice) := do
  let (present, s) ← s.readBit
  if present then f s else return (.null, s)

theorem readPresent_local {f : Slice → Except Trap (Value × Slice)}
    (hf : Local Prod.snd (fun x => x.1.canon) f) :
    Local Prod.snd (fun x => x.1.canon) (readPresent f) := by
  refine readBit_local.next fun b => ?_
  cases b with
  | false => exact .ok (fun _ => rfl) (fun _ _ => rfl)
  | true => exact hf

theorem readDict_eq : readDict = readPresent readCell := rfl

theorem readDict_local : Local Prod.snd (fun x => x.1.canon) readDict :=
  readPresent_local readCell_local

theorem readIntegral_int {w : Nat} {signed : Bool} {s s' : Slice} {v : Value}
    (h : s.readIntegral w signed = .ok (v, s')) : ∃ k, v = .int k := by
  unfold readIntegral at h
  split at h
  all_goals
    simp only [bind_eq_ok, pure_eq_ok, Except.ok.injEq, Prod.mk.injEq] at h
    obtain ⟨x, -, rfl, -⟩ := h
    exact ⟨_, rfl⟩

theorem readCell_cell {s s' : Slice} {v : Value} (h : s.readCell = .ok (v, s')) :
    ∃ c, v = .cell c := by
  simp only [readCell, bind_eq_ok, pure_eq_ok, Except.ok.injEq, Prod.mk.injEq] at h
  obtain ⟨x, -, rfl, -⟩ := h
  exact ⟨_, rfl⟩

theorem readDict_valid {s s' : Slice} {v : Value} (h : s.readDict = .ok (v, s')) : v.Valid := by
  simp only [readDict, bind_eq_ok] at h
  obtain ⟨⟨b, r⟩, -, h⟩ := h
  cases b with
  | false =>
    simp only [Bool.false_eq_true, if_false, pure_eq_ok, Except.ok.injEq, Prod.mk.injEq] at h
    obtain ⟨rfl, -⟩ := h
    trivial
  | true =>
    simp only [if_true, bind_eq_ok, pure_eq_ok, Except.ok.injEq, Prod.mk.injEq] at h
    obtain ⟨x, -, rfl, -⟩ := h
    trivial

end Slice

/-! ### Reading values -/

namespace Ty

/-- Reading a value of the type takes the content `c` off a slice, and the value is `a` up to what
its slices show. -/
def Reads (t : Ty) (c : Cell) (a : Value) : Prop :=
  Slice.Takes Prod.snd (fun x => x.1.canon) t.load c a

/-- The canonical form of an optional whose payload has the canonical form `a`. -/
def present (t : Ty) (a : Value) : Value := if t.mayBeNull then .tuple [a] else a

theorem canon_present (t : Ty) (v : Value) : (t.present v).canon = t.present v.canon := by
  unfold present
  split <;> rfl

/-- A payload behind a reference is read whole, so all that counts is that the same cell is read
again. -/
theorem loadPayload_local (t : Ty) (ht : Slice.Local Prod.snd (fun x => x.1.canon) t.load) :
    Slice.Local Prod.snd (fun x => x.1.canon) t.loadPayload := by
  by_cases hz : t.wordSize.StaysInline
  · rwa [funext (loadPayload_inline hz)]
  · rw [funext (loadPayload_boxed hz)]
    refine Slice.readRef_local.next fun box => ?_
    simp only
    rcases t.load (.ofCell box) with e | ⟨v, r⟩
    · exact .error e
    · exact .ok (fun _ => rfl) (fun _ _ => rfl)

/-- Reads the payload of an optional that is there. -/
def loadPresent (t : Ty) (s : Slice) : Except Trap (Value × Slice) := do
  let (v, s) ← t.loadPayload s
  return (t.present v, s)

theorem load_optional_eq (t : Ty) : (Ty.optional t).load = Slice.readPresent t.loadPresent :=
  funext (load_optional t)

theorem loadPresent_local (t : Ty) (ht : Slice.Local Prod.snd (fun x => x.1.canon) t.load) :
    Slice.Local Prod.snd (fun x => x.1.canon) t.loadPresent := by
  refine (loadPayload_local t ht).map (k := fun x => (t.present x.1, x.2)) (φ := t.present) ?_ ?_
  · exact fun _ => rfl
  · exact fun x => canon_present t x.1

mutual

/-- **What is read depends only on the content that is moved over.** -/
theorem load_local : ∀ t : Ty, Slice.Local Prod.snd (fun x => x.1.canon) t.load
  | .integer bits signed => Slice.readIntegral_local bits signed
  | .bool => Slice.readIntegral_local 1 true
  | .fixedBytes n => Slice.readIntegral_local (n * 8) false
  | .function => Slice.readIntegral_local 32 false
  | .enumeration _ n => Slice.readIntegral_local (enumBits n) false
  | .address => Slice.upTo_local Slice.skipAddress_local
  | .addressStd => by
    have h := Slice.upTo_local Slice.skipStdAddress_local
    rwa [← funext Slice.readStdAddress_eq] at h
  | .cell => Slice.readCell_local
  | .bytes => Slice.readCell_local
  | .string => Slice.readCell_local
  | .mapping _ _ => Slice.readDict_local
  | .array _ _ =>
    (Slice.readNat_local 32).seq Slice.readDict_local
      (φ := fun (n : Nat) d => .tuple [.int n, d]) (fun _ _ => rfl) (fun _ _ => rfl)
  | .varInteger n signed =>
    (Slice.readNat_local (varLengthBits n)).next fun length =>
      Slice.readIntegral_local (cutToWord (8 * length)) signed
  | .optional t => by
    rw [load_optional_eq]
    exact Slice.readPresent_local (loadPresent_local t (load_local t))
  | .struct _ fs => (loadFields_local fs).map (φ := Value.tuple) (fun _ => rfl) (fun _ => rfl)
  | .tuple ts => (loadAll_local ts).map (φ := Value.tuple) (fun _ => rfl) (fun _ => rfl)
  | .alias _ t => load_local t

theorem loadAll_local : ∀ ts : List Ty,
    Slice.Local Prod.snd (fun x => Value.canonAll x.1) (loadAll ts)
  | [] => .ok (fun _ => rfl) (fun _ _ => rfl)
  | t :: ts => (load_local t).seq (loadAll_local ts) (φ := List.cons) (fun _ _ => rfl)
      (fun _ _ => rfl)

theorem loadFields_local : ∀ fs : List (Field Ty),
    Slice.Local Prod.snd (fun x => Value.canonAll x.1) (loadFields fs)
  | [] => .ok (fun _ => rfl) (fun _ _ => rfl)
  | ⟨_, t⟩ :: fs => (load_local t).seq (loadFields_local fs) (φ := List.cons) (fun _ _ => rfl)
      (fun _ _ => rfl)

end

/-- A value that is read has taken a content off the slice, of a room that its size allows. -/
theorem exists_reads {t : Ty} {s s' : Slice} {v : Value} (hs : s.Valid)
    (h : t.load s = .ok (v, s')) :
    ∃ c d, s.toCell = c ++ d ∧ s' = s.past c ∧ t.Reads c v.canon ∧
      t.size.Allows c.bits.length c.refs.length ∧
      (t.PowerBytes → c.bits.length ≤ t.size.bits) := by
  obtain ⟨c, d, hc, hr, ht⟩ := load_local t hs h
  obtain ⟨n, m, hm, ha, hb⟩ := load_moves t h
  have he : s.advance n m = s.past c := hm.eq.symm.trans hr
  obtain rfl : n = c.bits.length := by
    have := congrArg Slice.bitStart he; simpa [Slice.advance, Slice.past] using this
  obtain rfl : m = c.refs.length := by
    have := congrArg Slice.refStart he; simpa [Slice.advance, Slice.past] using this
  exact ⟨c, d, hc, hr, ht, ha, hb⟩

/-! ### What can be read -/

mutual

/-- Values read from a slice that lies in its cell are valid. -/
theorem load_valid : ∀ (t : Ty) {s s' : Slice} {v : Value}, s.Valid → t.load s = .ok (v, s') →
    v.Valid
  | .integer _ _, _, _, _, _, h => by obtain ⟨k, rfl⟩ := Slice.readIntegral_int h; trivial
  | .bool, _, _, _, _, h => by obtain ⟨k, rfl⟩ := Slice.readIntegral_int h; trivial
  | .fixedBytes _, _, _, _, _, h => by obtain ⟨k, rfl⟩ := Slice.readIntegral_int h; trivial
  | .function, _, _, _, _, h => by obtain ⟨k, rfl⟩ := Slice.readIntegral_int h; trivial
  | .enumeration _ _, _, _, _, _, h => by obtain ⟨k, rfl⟩ := Slice.readIntegral_int h; trivial
  | .address, s, s', v, hs, h => by
    simp only [load, Slice.readAddress, bind_eq_ok, pure_eq_ok, Except.ok.injEq,
      Prod.mk.injEq] at h
    obtain ⟨r, h1, rfl, -⟩ := h
    obtain ⟨c, d, hc, rfl, -⟩ := Slice.skipAddress_local hs h1
    exact (Slice.upTo_past hs hc).1
  | .addressStd, s, s', v, hs, h => by
    simp only [load, Slice.readStdAddress_eq, bind_eq_ok, pure_eq_ok, Except.ok.injEq,
      Prod.mk.injEq] at h
    obtain ⟨r, h1, rfl, -⟩ := h
    obtain ⟨c, d, hc, rfl, -⟩ := Slice.skipStdAddress_local hs h1
    exact (Slice.upTo_past hs hc).1
  | .cell, _, _, _, _, h => by obtain ⟨c, rfl⟩ := Slice.readCell_cell h; trivial
  | .bytes, _, _, _, _, h => by obtain ⟨c, rfl⟩ := Slice.readCell_cell h; trivial
  | .string, _, _, _, _, h => by obtain ⟨c, rfl⟩ := Slice.readCell_cell h; trivial
  | .mapping _ _, _, _, _, _, h => Slice.readDict_valid h
  | .array _ _, s, s', v, _, h => by
    simp only [load, bind_eq_ok, pure_eq_ok, Except.ok.injEq, Prod.mk.injEq] at h
    obtain ⟨⟨n, r⟩, -, ⟨d, r'⟩, h2, rfl, -⟩ := h
    exact ⟨trivial, Slice.readDict_valid h2, trivial⟩
  | .varInteger _ _, s, s', v, _, h => by
    simp only [load, Slice.readVarInt, bind_eq_ok] at h
    obtain ⟨_, -, h⟩ := h
    obtain ⟨k, rfl⟩ := Slice.readIntegral_int h
    trivial
  | .optional t, s, s', v, hs, h => by
    have hpresent {w : Value} (hw : w.Valid) :
        (if t.mayBeNull then Value.tuple [w] else w).Valid := by
      split
      · exact ⟨hw, trivial⟩
      · exact hw
    cases loadsOptional h with
    | missing _ => trivial
    | inline hb _ hw => exact hpresent (load_valid t ((Slice.readBit_moves hb).valid hs) hw)
    | boxed _ _ _ hw => exact hpresent (load_valid t (Slice.valid_ofCell _) hw)
  | .struct _ fs, s, s', v, hs, h => by
    simp only [load, bind_eq_ok, pure_eq_ok, Except.ok.injEq, Prod.mk.injEq] at h
    obtain ⟨⟨vs, r⟩, h1, rfl, -⟩ := h
    exact loadFields_valid fs hs h1
  | .tuple ts, s, s', v, hs, h => by
    simp only [load, bind_eq_ok, pure_eq_ok, Except.ok.injEq, Prod.mk.injEq] at h
    obtain ⟨⟨vs, r⟩, h1, rfl, -⟩ := h
    exact loadAll_valid ts hs h1
  | .alias _ t, _, _, _, hs, h => load_valid t hs h

theorem loadAll_valid : ∀ (ts : List Ty) {s s' : Slice} {vs : List Value}, s.Valid →
    loadAll ts s = .ok (vs, s') → Value.ValidAll vs
  | [], s, s', vs, _, h => by
    simp only [loadAll, pure_eq_ok, Except.ok.injEq, Prod.mk.injEq] at h
    obtain ⟨rfl, -⟩ := h
    trivial
  | t :: ts, s, s', vs, hs, h => by
    simp only [loadAll, bind_eq_ok, pure_eq_ok, Except.ok.injEq, Prod.mk.injEq] at h
    obtain ⟨⟨v, r⟩, h1, ⟨ws, r'⟩, h2, rfl, -⟩ := h
    obtain ⟨n, m, hm, -⟩ := load_moves t h1
    exact ⟨load_valid t hs h1, loadAll_valid ts (hm.valid hs) h2⟩

theorem loadFields_valid : ∀ (fs : List (Field Ty)) {s s' : Slice} {vs : List Value}, s.Valid →
    loadFields fs s = .ok (vs, s') → Value.ValidAll vs
  | [], s, s', vs, _, h => by
    simp only [loadFields, pure_eq_ok, Except.ok.injEq, Prod.mk.injEq] at h
    obtain ⟨rfl, -⟩ := h
    trivial
  | ⟨_, t⟩ :: fs, s, s', vs, hs, h => by
    simp only [loadFields, bind_eq_ok, pure_eq_ok, Except.ok.injEq, Prod.mk.injEq] at h
    obtain ⟨⟨v, r⟩, h1, ⟨ws, r'⟩, h2, rfl, -⟩ := h
    obtain ⟨n, m, hm, -⟩ := load_moves t h1
    exact ⟨load_valid t hs h1, loadFields_valid fs (hm.valid hs) h2⟩

end

theorem mayBeNull_alias (x : String) (t : Ty) : (Ty.alias x t).mayBeNull = t.mayBeNull := by
  rw [mayBeNull, mayBeNull, resolve]

/-- Only a type that says so has null among its values. -/
theorem load_ne_null : ∀ (t : Ty) {s s' : Slice} {v : Value}, t.mayBeNull = false →
    t.load s = .ok (v, s') → v ≠ .null
  | .integer _ _, _, _, _, _, h => by obtain ⟨k, rfl⟩ := Slice.readIntegral_int h; nofun
  | .bool, _, _, _, _, h => by obtain ⟨k, rfl⟩ := Slice.readIntegral_int h; nofun
  | .fixedBytes _, _, _, _, _, h => by obtain ⟨k, rfl⟩ := Slice.readIntegral_int h; nofun
  | .function, _, _, _, _, h => by obtain ⟨k, rfl⟩ := Slice.readIntegral_int h; nofun
  | .enumeration _ _, _, _, _, _, h => by obtain ⟨k, rfl⟩ := Slice.readIntegral_int h; nofun
  | .address, s, s', v, _, h => by
    simp only [load, Slice.readAddress, bind_eq_ok, pure_eq_ok, Except.ok.injEq,
      Prod.mk.injEq] at h
    obtain ⟨_, -, rfl, -⟩ := h
    nofun
  | .addressStd, s, s', v, _, h => by
    simp only [load, Slice.readStdAddress_eq, bind_eq_ok, pure_eq_ok, Except.ok.injEq,
      Prod.mk.injEq] at h
    obtain ⟨_, -, rfl, -⟩ := h
    nofun
  | .cell, _, _, _, _, h => by obtain ⟨c, rfl⟩ := Slice.readCell_cell h; nofun
  | .bytes, _, _, _, _, h => by obtain ⟨c, rfl⟩ := Slice.readCell_cell h; nofun
  | .string, _, _, _, _, h => by obtain ⟨c, rfl⟩ := Slice.readCell_cell h; nofun
  | .mapping _ _, _, _, _, hn, _ => by simp [mayBeNull, resolve] at hn
  | .array _ _, s, s', v, _, h => by
    simp only [load, bind_eq_ok, pure_eq_ok, Except.ok.injEq, Prod.mk.injEq] at h
    obtain ⟨_, -, _, -, rfl, -⟩ := h
    nofun
  | .varInteger _ _, s, s', v, _, h => by
    simp only [load, Slice.readVarInt, bind_eq_ok] at h
    obtain ⟨_, -, h⟩ := h
    obtain ⟨k, rfl⟩ := Slice.readIntegral_int h
    nofun
  | .optional _, _, _, _, hn, _ => by simp [mayBeNull, resolve] at hn
  | .struct _ _, s, s', v, _, h => by
    simp only [load, bind_eq_ok, pure_eq_ok, Except.ok.injEq, Prod.mk.injEq] at h
    obtain ⟨_, -, rfl, -⟩ := h
    nofun
  | .tuple _, s, s', v, _, h => by
    simp only [load, bind_eq_ok, pure_eq_ok, Except.ok.injEq, Prod.mk.injEq] at h
    obtain ⟨_, -, rfl, -⟩ := h
    nofun
  | .alias x t, _, _, _, hn, h => load_ne_null t (by rwa [mayBeNull_alias] at hn) h

end Ty

/-! ### How reading fails -/

/-- The only failure is a cell underflow. -/
def Underflows {ρ : Type} (x : Except Trap ρ) : Prop := ∀ ⦃e⦄, x = .error e → e = .cellUnderflow

section Underflows

variable {ρ ρ' : Type}

theorem Underflows.ok (x : ρ) : Underflows (.ok x) := nofun

theorem Underflows.error : Underflows (.error .cellUnderflow : Except Trap ρ) :=
  fun _ h => (Except.error.inj h).symm

theorem Underflows.bind {x : Except Trap ρ} {f : ρ → Except Trap ρ'} (hx : Underflows x)
    (hf : ∀ a, Underflows (f a)) : Underflows (x >>= f) := by
  rcases x with e | a
  · intro e' h
    exact (Except.error.inj h) ▸ hx rfl
  · exact hf a

end Underflows

namespace Slice

theorem readBits_underflows (n : Nat) (s : Slice) : Underflows (s.readBits n) := by
  unfold readBits
  split
  · exact .error
  · exact .ok _

theorem readBit_underflows (s : Slice) : Underflows s.readBit :=
  (readBits_underflows 1 s).bind fun _ => .ok _

theorem readNat_underflows (w : Nat) (s : Slice) : Underflows (s.readNat w) :=
  (readBits_underflows w s).bind fun _ => .ok _

theorem readRef_underflows (s : Slice) : Underflows s.readRef := by
  unfold readRef
  split
  · exact .error
  · split
    · exact .ok _
    · exact .error

theorem readIntegral_underflows (w : Nat) (signed : Bool) (s : Slice) :
    Underflows (s.readIntegral w signed) := by
  cases signed with
  | false => exact (readNat_underflows w s).bind fun _ => .ok _
  | true => exact ((readBits_underflows w s).bind fun _ => .ok _).bind fun _ => .ok _

theorem readCell_underflows (s : Slice) : Underflows s.readCell :=
  (readRef_underflows s).bind fun _ => .ok _

theorem readDict_underflows (s : Slice) : Underflows s.readDict :=
  (readBit_underflows s).bind fun ⟨b, r⟩ => by
    cases b with
    | false => exact .ok _
    | true => exact (readRef_underflows r).bind fun _ => .ok _

theorem skipPrefix_underflows (depth : Nat) (s : Slice) : Underflows (s.skipPrefix depth) := by
  unfold skipPrefix
  split
  · exact .error
  · exact (readBits_underflows depth s).bind fun _ => .ok _

theorem skipAnycast_underflows (s : Slice) : Underflows s.skipAnycast := by
  rw [skipAnycast_eq]
  refine (readBit_underflows s).bind fun ⟨b, r⟩ => ?_
  cases b with
  | false => exact .ok _
  | true => exact (readNat_underflows 5 r).bind fun x => skipPrefix_underflows x.1 x.2

theorem skipAddress_underflows (s : Slice) : Underflows s.skipAddress := by
  refine (readNat_underflows 2 s).bind fun ⟨tag, r⟩ => ?_
  match tag with
  | 0 => exact .ok _
  | 1 =>
    exact (readNat_underflows 9 r).bind fun _ => (readBits_underflows _ _).bind fun _ => .ok _
  | 2 =>
    exact (skipAnycast_underflows r).bind fun _ => (readBits_underflows _ _).bind fun _ => .ok _
  | _ + 3 =>
    exact (skipAnycast_underflows r).bind fun _ => (readNat_underflows 9 _).bind fun _ =>
      (readBits_underflows _ _).bind fun _ => .ok _

theorem skipStdAddress_underflows (s : Slice) : Underflows s.skipStdAddress := by
  refine (readBits_underflows 3 s).bind fun ⟨tag, r⟩ => ?_
  by_cases ht : tag = [true, false, false]
  · simp only [ht, if_true]
    exact (readBits_underflows _ r).bind fun _ => .ok _
  · simp only [ht, if_false]
    exact .error

end Slice

namespace Ty

mutual

/-- **Reading a value fails with a cell underflow only.** -/
theorem load_underflows : ∀ (t : Ty) (s : Slice), Underflows (t.load s)
  | .integer bits signed, s => Slice.readIntegral_underflows bits signed s
  | .bool, s => Slice.readIntegral_underflows 1 true s
  | .fixedBytes n, s => Slice.readIntegral_underflows (n * 8) false s
  | .function, s => Slice.readIntegral_underflows 32 false s
  | .enumeration _ n, s => Slice.readIntegral_underflows (enumBits n) false s
  | .address, s => (Slice.skipAddress_underflows s).bind fun _ => .ok _
  | .addressStd, s => by
    rw [load, Slice.readStdAddress_eq]
    exact (Slice.skipStdAddress_underflows s).bind fun _ => .ok _
  | .cell, s => Slice.readCell_underflows s
  | .bytes, s => Slice.readCell_underflows s
  | .string, s => Slice.readCell_underflows s
  | .mapping _ _, s => Slice.readDict_underflows s
  | .array _ _, s =>
    (Slice.readNat_underflows 32 s).bind fun x =>
      (Slice.readDict_underflows x.2).bind fun _ => .ok _
  | .varInteger n signed, s =>
    (Slice.readNat_underflows _ s).bind fun x =>
      Slice.readIntegral_underflows (cutToWord (8 * x.1)) signed x.2
  | .optional t, s => by
    rw [load_optional]
    refine (Slice.readBit_underflows s).bind fun ⟨b, r⟩ => ?_
    cases b with
    | false => exact .ok _
    | true =>
      refine Underflows.bind ?_ fun _ => .ok _
      unfold loadPayload
      split
      · exact load_underflows t r
      · exact (Slice.readRef_underflows r).bind fun x =>
          (load_underflows t (.ofCell x.1)).bind fun _ => .ok _
  | .struct _ fs, s => (loadFields_underflows fs s).bind fun _ => .ok _
  | .tuple ts, s => (loadAll_underflows ts s).bind fun _ => .ok _
  | .alias _ t, s => load_underflows t s

theorem loadAll_underflows : ∀ (ts : List Ty) (s : Slice), Underflows (loadAll ts s)
  | [], _ => .ok _
  | t :: ts, s => (load_underflows t s).bind fun x =>
      (loadAll_underflows ts x.2).bind fun _ => .ok _

theorem loadFields_underflows : ∀ (fs : List (Field Ty)) (s : Slice), Underflows (loadFields fs s)
  | [], _ => .ok _
  | ⟨_, t⟩ :: fs, s => (load_underflows t s).bind fun x =>
      (loadFields_underflows fs x.2).bind fun _ => .ok _

end

end Ty

end TypedCells
