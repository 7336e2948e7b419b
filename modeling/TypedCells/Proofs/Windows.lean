import TypedCells.Proofs.WellFormed

/-!
# Cutting, reading and writing in place

A cut divides what a slice shows: the two parts in a row are the whole (`Slice.Cuttable`), for
windows on windows too, because the parts are windows on the same cell. What reads have taken off
the front of a slice is the part up to where they came (`Slice.ReadTo.upTo_append`).

In a program a slice and a builder are objects that are changed in place, and an operation could
fail when it has changed one already. `Slice.Read.inPlace` and `Builder.Write.inPlace` are the
operations as such sequences of steps. They end like `Slice.Read.run` and `Builder.Write.run`, and
when they fail the object is as it was (`Slice.Read.inPlace_eq`, `Builder.Write.inPlace_eq`).

* `Slice.Valid.divides_and_keeps`: all of this for a slice whose window lies in its cell.
-/

namespace TypedCells

/-! ### Operations in place -/

section InPlace

variable {σ α β : Type}

/-- How an operation on `x` ends that either succeeds or changes nothing. -/
def allOrNothing (x : σ) : Except Trap (α × σ) → EStateM.Result Trap σ α
  | .ok (a, y) => .ok a y
  | .error e => .error e x

theorem get_bind_apply (k : σ → EStateM Trap σ α) (x : σ) : (get >>= k) x = k x x := rfl

/-- A step that cannot fail may follow. -/
theorem bind_allOrNothing {op : EStateM Trap σ α} {x : σ} {r : Except Trap (α × σ)}
    (h : op x = allOrNothing x r) {k : α → EStateM Trap σ β} {f : α × σ → β × σ}
    (hk : ∀ a y, k a y = .ok (f (a, y)).1 (f (a, y)).2) :
    (op >>= k) x = allOrNothing x (f <$> r) := by
  change EStateM.bind op k x = _
  rw [EStateM.bind, h]
  cases r with
  | ok a => exact hk ..
  | error e => rfl

end InPlace

namespace Slice

variable {n m : Nat} {s t f r : Slice}

/-! ### Cuts -/

/-- How cuts divide what the slice shows. -/
structure Cuttable (s : Slice) : Prop where
  /-- A cut is possible within what is shown. -/
  isOk_split : ∀ n m, (s.split n m).isOk = true ↔ n ≤ s.bitCount ∧ m ≤ s.refCount
  /-- The parts are windows again, the first one of the size asked for. -/
  valid_split : ∀ {n m f r}, s.split n m = .ok (f, r) →
    f.Valid ∧ r.Valid ∧ f.bitCount = n ∧ f.refCount = m
  /-- The parts in a row are the whole. -/
  append_split : ∀ {n m f r}, s.split n m = .ok (f, r) → f.toCell ++ r.toCell = s.toCell
  /-- The parts are written in turn exactly as the whole is. -/
  write_split : ∀ {n m f r}, s.split n m = .ok (f, r) → ∀ b : Builder,
    (b.writeSlice f >>= fun b => b.writeSlice r) = b.writeSlice s
  /-- Skipping gives the second part. -/
  dropFront_eq : ∀ n m, s.dropFront n m = Prod.snd <$> s.split n m
  /-- The end of a given size is the second part of the cut in front of it. -/
  keepBack_eq : ∀ n m, s.keepBack n m =
    if n ≤ s.bitCount ∧ m ≤ s.refCount then
      Prod.snd <$> s.split (s.bitCount - n) (s.refCount - m)
    else .error .cellUnderflow

theorem isOk_split_iff (s : Slice) (n m : Nat) :
    (s.split n m).isOk = true ↔ n ≤ s.bitCount ∧ m ≤ s.refCount := by
  refine ⟨fun h => ?_, fun h => ?_⟩
  · obtain ⟨_, hr⟩ := exists_of_isOk h
    obtain ⟨hn, hm, -⟩ := split_eq_ok.1 hr
    exact ⟨hn, hm⟩
  · rw [split_eq_ok.2 ⟨h.1, h.2, rfl⟩]
    rfl

theorem count_of_split (h : s.split n m = .ok (f, r)) : f.bitCount = n ∧ f.refCount = m := by
  obtain ⟨-, -, he⟩ := split_eq_ok.1 h
  obtain ⟨rfl, -⟩ := Prod.mk.inj he
  exact ⟨Nat.add_sub_cancel_left .., Nat.add_sub_cancel_left ..⟩

theorem append_of_split (h : s.split n m = .ok (f, r)) : f.toCell ++ r.toCell = s.toCell := by
  obtain ⟨hf, hf'⟩ := count_of_split h
  obtain ⟨hn, hm, he⟩ := split_eq_ok.1 h
  obtain ⟨rfl, rfl⟩ := Prod.mk.inj he
  have hrefs : (s.cell.refs.drop s.refStart).take m = s.refs.take m := by
    rw [refs, List.take_take, Nat.min_eq_left hm]
  ext1
  · rw [Cell.bits_append, bits_toCell, bits_toCell, bits_advance, bits, hf, take_bits hn]
    exact List.take_append_drop ..
  · rw [Cell.refs_append, refs_toCell, refs_toCell, refs_advance, refs, hf', hrefs]
    exact List.take_append_drop ..

theorem Valid.writeSlice_overflow (hs : s.Valid) {b : Builder} (h : ¬ b.HasRoom s.toCell) :
    b.writeSlice s = .error .cellOverflow := by
  rw [Builder.HasRoom, bits_toCell, refs_toCell, hs.length_refs] at h
  unfold Builder.writeSlice Builder.writeBits
  split
  · rfl
  · rw [if_pos (by omega)]
    rfl

/-- The parts have room one behind the other exactly when the whole has room. -/
theorem Valid.write_of_split (hs : s.Valid) (h : s.split n m = .ok (f, r)) (b : Builder) :
    (b.writeSlice f >>= fun b => b.writeSlice r) = b.writeSlice s := by
  obtain ⟨hf, hr⟩ := hs.of_split h
  have hroom := Builder.HasRoom.append (b := b) (c := f.toCell) (d := r.toCell)
  rw [append_of_split h] at hroom
  by_cases h1 : b.HasRoom f.toCell
  · rw [Builder.writeSlice_add hf h1, ok_bind]
    by_cases h2 : (b.add f.toCell).HasRoom r.toCell
    · rw [Builder.writeSlice_add hr h2, Builder.writeSlice_add hs (hroom.2 ⟨h1, h2⟩),
        ← Builder.add_append, append_of_split h]
    · rw [hr.writeSlice_overflow h2, hs.writeSlice_overflow fun h => h2 (hroom.1 h).2]
  · rw [hf.writeSlice_overflow h1, hs.writeSlice_overflow fun h => h1 (hroom.1 h).1]
    rfl

theorem Valid.keepBack_eq (hs : s.Valid) (n m : Nat) : s.keepBack n m =
    if n ≤ s.bitCount ∧ m ≤ s.refCount then
      Prod.snd <$> s.split (s.bitCount - n) (s.refCount - m)
    else .error .cellUnderflow := by
  split
  · next h =>
    rw [hs.keepBack_eq_ok.2 ⟨h.1, h.2, rfl⟩,
      split_eq_ok.2 ⟨Nat.sub_le _ n, Nat.sub_le _ m, rfl⟩]
    rfl
  · next h =>
    rw [keepBack, if_pos (by omega)]
    rfl

theorem Valid.cuttable (hs : s.Valid) : s.Cuttable where
  isOk_split := isOk_split_iff s
  valid_split h := ⟨(hs.of_split h).1, (hs.of_split h).2, count_of_split h⟩
  append_split := append_of_split
  write_split := hs.write_of_split
  dropFront_eq n m := by
    rw [dropFront]
    cases s.split n m <;> rfl
  keepBack_eq := hs.keepBack_eq

/-! ### Reads -/

namespace InPlace

/-- Reads `n` bits. -/
def readBits (n : Nat) : EStateM Trap Slice Bits := do
  let s ← get
  if s.bitCount < n then throw .cellUnderflow
  set { s with bitStart := s.bitStart + n }
  return (s.cell.bits.drop s.bitStart).take n

/-- Reads one bit. -/
def readBit : EStateM Trap Slice Bool := do
  let bs ← readBits 1
  return bs.headD false

/-- Reads a natural number of `width` bits. -/
def readNat (width : Nat) : EStateM Trap Slice Nat := do
  let bs ← readBits width
  return bs.toNat

/-- Reads an integer of `width` bits, after a look at its sign. -/
def readInt (width : Nat) : EStateM Trap Slice Int := do
  let s ← get
  let negative := width ≤ s.bitCount ∧ 0 < width ∧ s.cell.bits[s.bitStart]? = some true
  let n ← readNat width
  return n - if negative then (twoPow width : Int) else 0

/-- Reads a reference. -/
def readRef : EStateM Trap Slice Cell := do
  let s ← get
  if s.refCount = 0 then throw .cellUnderflow
  match s.cell.refs[s.refStart]? with
  | some c =>
    set { s with refStart := s.refStart + 1 }
    return c
  | none => throw .cellUnderflow

theorem readBits_eq (n : Nat) (s : Slice) : readBits n s = allOrNothing s (s.readBits n) := by
  rw [readBits, get_bind_apply, Slice.readBits]
  split <;> rfl

theorem readNat_eq (width : Nat) (s : Slice) :
    readNat width s = allOrNothing s (s.readNat width) := by
  refine (bind_allOrNothing (f := fun x => (x.1.toNat, x.2)) (readBits_eq width s)
    fun _ _ => rfl).trans ?_
  rw [Slice.readNat]
  cases s.readBits width <;> rfl

theorem readBit_eq (s : Slice) : readBit s = allOrNothing s s.readBit := by
  refine (bind_allOrNothing (f := fun x => (x.1.headD false, x.2)) (readBits_eq 1 s)
    fun _ _ => rfl).trans ?_
  rw [Slice.readBit]
  cases s.readBits 1 <;> rfl

/-- The first of the bits that are read is the one that the look found. -/
theorem readInt_eq (hs : s.Valid) (width : Nat) :
    readInt width s = allOrNothing s (s.readInt width) := by
  rw [readInt, get_bind_apply]
  refine (bind_allOrNothing (f := fun x => ((x.1 : Int) - if width ≤ s.bitCount ∧ 0 < width ∧
    s.cell.bits[s.bitStart]? = some true then (twoPow width : Int) else 0, x.2))
    (readNat_eq width s) fun _ _ => rfl).trans (congrArg _ ?_)
  rw [Slice.readNat, Slice.readInt]
  rcases hb : s.readBits width with e | ⟨bs, t⟩
  · rfl
  · obtain ⟨hw, hbs, -⟩ := readBits_eq_ok.1 hb
    obtain ⟨hlen, -⟩ := readBits_shows hs hb
    have hsign : (0 < width ∧ s.cell.bits[s.bitStart]? = some true) ↔ bs.headD false = true := by
      rw [List.headD_eq_head?_getD, hbs, List.head?_take, List.head?_drop]
      rcases Nat.eq_zero_or_pos width with rfl | hpos
      · simp
      · rw [if_neg (by omega)]
        cases s.cell.bits[s.bitStart]? <;> simp [hpos]
    simp only [ok_bind, pure_eq_ok, Functor.map, Except.map, Bits.toInt_eq, hlen, hw, true_and,
      hsign]

theorem readRef_eq (s : Slice) : readRef s = allOrNothing s s.readRef := by
  rw [readRef, get_bind_apply, Slice.readRef]
  split
  · rfl
  · cases s.cell.refs[s.refStart]? <;> rfl

end InPlace

/-- A read from the front of a slice, with the type of what it gives. -/
inductive Read : Type → Type where
  | bits (n : Nat) : Read Bits
  | bit : Read Bool
  | nat (width : Nat) : Read Nat
  | int (width : Nat) : Read Int
  | ref : Read Cell

namespace Read

variable {α : Type}

/-- What a read gives, and the slice behind it. -/
def run : {α : Type} → Read α → Slice → Except Trap (α × Slice)
  | _, bits n => readBits n
  | _, bit => readBit
  | _, nat width => readNat width
  | _, int width => readInt width
  | _, ref => readRef

/-- The read as it changes a slice. -/
def inPlace : {α : Type} → Read α → EStateM Trap Slice α
  | _, bits n => InPlace.readBits n
  | _, bit => InPlace.readBit
  | _, nat width => InPlace.readNat width
  | _, int width => InPlace.readInt width
  | _, ref => InPlace.readRef

/-- **A read in place gives what the read gives, and one that fails leaves the slice as it was.** -/
theorem inPlace_eq (o : Read α) (hs : s.Valid) : o.inPlace s = allOrNothing s (o.run s) := by
  cases o with
  | bits n => exact InPlace.readBits_eq n s
  | bit => exact InPlace.readBit_eq s
  | nat width => exact InPlace.readNat_eq width s
  | int width => exact InPlace.readInt_eq hs width
  | ref => exact InPlace.readRef_eq s

theorem run_moves {o : Read α} {a : α} (h : o.run s = .ok (a, t)) : ∃ n m, s.Moves n m t := by
  cases o with
  | bits n => exact ⟨n, 0, readBits_moves h⟩
  | bit => exact ⟨1, 0, readBit_moves h⟩
  | nat width => exact ⟨width, 0, (readNat_moves h).1⟩
  | int width =>
    obtain ⟨⟨bs, u⟩, hb, he⟩ := bind_eq_ok.1 h
    obtain ⟨-, rfl⟩ := Prod.mk.inj (Except.ok.inj he)
    exact ⟨width, 0, readBits_moves hb⟩
  | ref => exact ⟨0, 1, readRef_moves h⟩

end Read

/-- What a slice becomes by reads that succeed in turn. -/
inductive ReadTo (s : Slice) : Slice → Prop
  | start : ReadTo s s
  | read {α : Type} {o : Read α} {a : α} {t u : Slice} (h : ReadTo s t)
    (ho : o.inPlace t = .ok a u) : ReadTo s u

theorem ReadTo.moves (h : s.ReadTo t) (hs : s.Valid) : ∃ n m, s.Moves n m t := by
  induction h with
  | start => exact ⟨0, 0, .refl s⟩
  | @read _ o _ t u _ ho ih =>
    obtain ⟨n, m, hm⟩ := ih
    rw [o.inPlace_eq (hm.valid hs)] at ho
    rcases hr : o.run t with e | ⟨b, v⟩
    · rw [hr] at ho
      cases ho
    · rw [hr] at ho
      obtain ⟨-, rfl⟩ := EStateM.Result.ok.inj ho
      obtain ⟨n', m', hm'⟩ := Read.run_moves hr
      exact ⟨_, _, hm.trans hm'⟩

/-- The part up to where reads came is the first part of a cut that leaves the references. -/
theorem Moves.split_upTo (h : s.Moves n m t) : s.split n 0 = .ok (s.upTo t, s.advance n 0) := by
  rw [split_eq_ok, h.eq]
  exact ⟨h.bits_le, Nat.zero_le _, rfl⟩

theorem Moves.upTo_append (h : s.Moves n m t) :
    (s.upTo t).bits ++ t.bits = s.bits ∧ (s.upTo t).refs = [] := by
  have hcut := append_of_split h.split_upTo
  obtain ⟨-, hrefs⟩ := count_of_split h.split_upTo
  refine ⟨?_, by rw [refs, hrefs, List.take_zero]⟩
  rw [h.eq, bits_advance, ← bits_advance n 0]
  rw [h.eq] at hcut
  exact congrArg Cell.bits hcut

end Slice

namespace Builder

/-! ### Writes -/

namespace InPlace

/-- Writes bits. -/
def writeBits (bs : Bits) : EStateM Trap Builder Unit := do
  let b ← get
  if b.bits.length + bs.length > maxBits then throw .cellOverflow
  set { b with bits := b.bits ++ bs }

/-- Writes one bit. -/
def writeBit (x : Bool) : EStateM Trap Builder Unit := writeBits [x]

/-- Writes a number that is not negative in `width` bits. -/
def writeNat (width : Nat) (v : Int) : EStateM Trap Builder Unit := do
  if v < 0 ∨ v ≥ twoPow width then throw .rangeCheck
  writeBits (.ofNat width v.toNat)

/-- Writes an integer in `width` bits of two's complement. -/
def writeInt (width : Nat) (v : Int) : EStateM Trap Builder Unit := do
  if width = 0 then throw .rangeCheck
  if v < -twoPow (width - 1) ∨ v ≥ twoPow (width - 1) then throw .rangeCheck
  writeBits (.ofInt width v)

/-- Writes a reference. -/
def writeRef (c : Cell) : EStateM Trap Builder Unit := do
  let b ← get
  if b.refs.length ≥ maxRefs then throw .cellOverflow
  set { b with refs := b.refs ++ [c] }

/-- Writes what a slice shows. There is room for the references before the bits are written. -/
def writeSlice (s : Slice) : EStateM Trap Builder Unit := do
  let b ← get
  if b.refs.length + s.refCount > maxRefs then throw .cellOverflow
  writeBits s.bits
  modify fun b => { b with refs := b.refs ++ s.refs }

variable {b : Builder}

theorem writeBits_eq (bs : Bits) (b : Builder) :
    writeBits bs b = allOrNothing b (Prod.mk () <$> b.writeBits bs) := by
  rw [writeBits, get_bind_apply, Builder.writeBits]
  split <;> rfl

theorem writeNat_eq (width : Nat) (v : Int) (b : Builder) :
    writeNat width v b = allOrNothing b (Prod.mk () <$> b.writeNat width v) := by
  unfold writeNat Builder.writeNat
  split
  · rfl
  · exact writeBits_eq ..

theorem writeInt_eq (width : Nat) (v : Int) (b : Builder) :
    writeInt width v b = allOrNothing b (Prod.mk () <$> b.writeInt width v) := by
  rw [Builder.writeInt]
  by_cases h0 : width = 0
  · rw [if_pos (.inl h0), writeInt, if_pos h0]
    rfl
  by_cases h : v < -twoPow (width - 1) ∨ v ≥ twoPow (width - 1)
  · rw [if_pos (.inr h), writeInt, if_neg h0, if_pos h]
    rfl
  · rw [if_neg fun h' => h'.elim h0 h, writeInt, if_neg h0, if_neg h]
    exact writeBits_eq ..

theorem writeRef_eq (c : Cell) (b : Builder) :
    writeRef c b = allOrNothing b (Prod.mk () <$> b.writeRef c) := by
  rw [writeRef, get_bind_apply, Builder.writeRef]
  split <;> rfl

theorem writeSlice_eq (s : Slice) (b : Builder) :
    writeSlice s b = allOrNothing b (Prod.mk () <$> b.writeSlice s) := by
  rw [writeSlice, get_bind_apply, Builder.writeSlice]
  split
  · rfl
  · refine (bind_allOrNothing (f := fun x => ((), { x.2 with refs := x.2.refs ++ s.refs }))
      (writeBits_eq s.bits b) fun _ _ => rfl).trans (congrArg _ ?_)
    cases b.writeBits s.bits <;> rfl

end InPlace

/-- A write to the end of a builder. -/
inductive Write where
  | bits (bs : Bits)
  | bit (x : Bool)
  | nat (width : Nat) (v : Int)
  | int (width : Nat) (v : Int)
  | ref (c : Cell)
  | slice (s : Slice)

namespace Write

/-- The builder after a write. -/
def run : Write → Builder → Except Trap Builder
  | bits bs => writeBits bs
  | bit x => writeBit x
  | nat width v => writeNat width v
  | int width v => writeInt width v
  | ref c => writeRef c
  | slice s => writeSlice s

/-- The write as it changes a builder. -/
def inPlace : Write → EStateM Trap Builder Unit
  | bits bs => InPlace.writeBits bs
  | bit x => InPlace.writeBit x
  | nat width v => InPlace.writeNat width v
  | int width v => InPlace.writeInt width v
  | ref c => InPlace.writeRef c
  | slice s => InPlace.writeSlice s

/-- **A write in place makes what the write makes, and one that fails leaves the builder as it
was.** -/
theorem inPlace_eq (o : Write) (b : Builder) :
    o.inPlace b = allOrNothing b (Prod.mk () <$> o.run b) := by
  cases o with
  | bits bs => exact InPlace.writeBits_eq bs b
  | bit x => exact InPlace.writeBits_eq [x] b
  | nat width v => exact InPlace.writeNat_eq width v b
  | int width v => exact InPlace.writeInt_eq width v b
  | ref c => exact InPlace.writeRef_eq c b
  | slice s => exact InPlace.writeSlice_eq s b

end Write

end Builder

namespace Slice

variable {s : Slice}

/-! ### Slices that are worked on -/

/-- **What a slice shows is divided by cuts and by reads, and what fails changes nothing.** The
parts of a cut are the whole, however they are got. After any reads in turn the bits up to the slice
and those that it still shows are the bits at first. No read that fails changes the slice, and no
write that fails changes the builder. -/
theorem Valid.divides_and_keeps (hs : s.Valid) :
    s.Cuttable ∧
    (∀ t, s.ReadTo t → t.Valid ∧ (s.upTo t).bits ++ t.bits = s.bits ∧ (s.upTo t).refs = []) ∧
    (∀ (α : Type) (o : Read α), o.inPlace s = allOrNothing s (o.run s)) ∧
    ∀ (o : Builder.Write) (b : Builder),
      o.inPlace b = allOrNothing b (Prod.mk () <$> o.run b) := by
  refine ⟨hs.cuttable, fun t ht => ?_, fun _ o => o.inPlace_eq hs, Builder.Write.inPlace_eq⟩
  obtain ⟨n, m, hm⟩ := ht.moves hs
  exact ⟨hm.valid hs, hm.upTo_append⟩

/-- A window that begins and ends inside its cell. -/
def innerWindow : Slice := ⟨⟨[true, true, false, true, true, false], [.empty, .empty]⟩, 1, 5, 0, 1⟩

/-- A builder that takes bits but no references. -/
def fullOfRefs : Builder := ⟨[], [.empty, .empty, .empty, .empty]⟩

/-- An integer and the reference are read; five bits are not there, and the reference has no
room. -/
theorem divides_and_keeps_inner :
    innerWindow.Valid ∧ innerWindow.keepBack 1 1 = Prod.snd <$> innerWindow.split 3 0 ∧
    innerWindow.ReadTo (innerWindow.advance 2 1) ∧
    (innerWindow.upTo (innerWindow.advance 2 1)).bits ++ (innerWindow.advance 2 1).bits =
      innerWindow.bits ∧
    (Read.nat 5).inPlace innerWindow = .error .cellUnderflow innerWindow ∧
    (Builder.Write.slice innerWindow).inPlace fullOfRefs = .error .cellOverflow fullOfRefs := by
  have hv : innerWindow.Valid := ⟨by decide, by decide, by decide, by decide⟩
  have hto : innerWindow.ReadTo (innerWindow.advance 2 1) :=
    .read (o := .ref) (.read (o := .int 2) .start rfl) rfl
  obtain ⟨hcut, hread, hkeep, hwrite⟩ := hv.divides_and_keeps
  exact ⟨hv, (hcut.keepBack_eq 1 1).trans (if_pos (by decide)), hto, (hread _ hto).2.1,
    (hkeep _ (.nat 5)).trans rfl, (hwrite (.slice innerWindow) fullOfRefs).trans rfl⟩

end Slice

end TypedCells
