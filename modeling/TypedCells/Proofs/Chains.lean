import Mathlib.Data.List.Forall2
import TypedCells.Proofs.Images
import TypedCells.Proofs.Leaves
import TypedCells.Proofs.Marks
import TypedCells.Proofs.WordPackings

/-!
# Chains of cells

The leaves of a packing are written to a chain of builders (`PackedLeaf.fillAll`), and at the end
each builder becomes the last reference of the one before (`Builder.nest`). What the first cell then
holds behind its old contents is `weave`: the contents of the leaves, those from a leaf that opens a
cell on being behind a link.

* `Packing.place_room`: a packing leaves room for the leaves and for the links.
* `Written.fillAll_grow`, `Written.nest_grow`: with that room, filling builders and nesting them
  succeeds and gives the woven content.
* `Written.putAll_weave`: what the writer of all leaves and of the rest of a slice gives, or when
  it overflows.
* `Written.fetchAll_weave`, `PackedLeaf.fetchAll_written`: fetching leaves reads woven contents, and
  reads nothing else.
-/

namespace TypedCells

/-! ### Room -/

namespace Packing

/-- Leaves behind `bits` bits and `refs` references fit their cells by the sizes of their types, and
a link fits in front of each that opens a cell. -/
def Room (bits refs : Nat) : List PackedLeaf → Prop
  | [] => bits ≤ maxBits ∧ refs ≤ maxRefs
  | l :: ls =>
    if l.opensCell then
      bits ≤ maxBits ∧ refs < maxRefs ∧ Room l.type.size.bits l.type.size.refs ls
    else Room (bits + l.type.size.bits) (refs + l.type.size.refs) ls

theorem Room.le : ∀ {ls : List PackedLeaf} {b r : Nat}, Room b r ls → b ≤ maxBits ∧ r ≤ maxRefs
  | [], _, _, h => h
  | l :: ls, b, r, h => by
    rw [Room] at h
    split at h
    · exact ⟨h.1, by omega⟩
    · have := h.le
      omega

theorem Room.mono : ∀ {ls : List PackedLeaf} {b r b' r' : Nat}, Room b r ls → b' ≤ b → r' ≤ r →
    Room b' r' ls
  | [], _, _, _, _, h, hb, hr => ⟨Nat.le_trans hb h.1, Nat.le_trans hr h.2⟩
  | l :: ls, b, r, b', r', h, hb, hr => by
    rw [Room] at h ⊢
    split at h
    · next ho => rw [if_pos ho]; exact ⟨by omega, by omega, h.2.2⟩
    · next ho => rw [if_neg ho]; exact h.mono (by omega) (by omega)

theorem Room.drop : ∀ {ls ls' : List PackedLeaf} {b r : Nat}, Room b r (ls ++ ls') → Room 0 0 ls'
  | [], _, _, _, h => h.mono (Nat.zero_le _) (Nat.zero_le _)
  | l :: ls, ls', b, r, h => by
    rw [List.cons_append, Room] at h
    split at h
    · exact h.2.2.drop
    · exact h.drop

theorem Room.left : ∀ {ls ls' : List PackedLeaf} {b r : Nat}, Room b r (ls ++ ls') → Room b r ls
  | [], _, _, _, h => h.le
  | l :: ls, ls', b, r, h => by
    rw [List.cons_append, Room] at h
    rw [Room]
    split at h
    · next ho => rw [if_pos ho]; exact ⟨h.1, h.2.1, h.2.2.left⟩
    · next ho => rw [if_neg ho]; exact h.left

/-- A leaf goes where the current cell has room for all that is left, or for the leaf and a link. -/
theorem place_cons {t : Ty} {ts : List Ty} {ls : List PackedLeaf} {b r : Nat}
    (h : place b r (t :: ts) = .ok ls) :
    ∃ ls', (ls = ⟨t, false⟩ :: ls' ∧ place (b + t.size.bits) (r + t.size.refs) ts = .ok ls' ∧
        (b + (t.size.bits + (Ty.totalSize ts).bits) ≤ maxBits ∧
            r + (t.size.refs + (Ty.totalSize ts).refs) ≤ maxRefs ∨
          b + t.size.bits ≤ maxBits ∧ r + t.size.refs < maxRefs)) ∨
      (ls = ⟨t, true⟩ :: ls' ∧ place t.size.bits t.size.refs ts = .ok ls' ∧
        (¬ (b + (t.size.bits + (Ty.totalSize ts).bits) ≤ maxBits ∧
            r + (t.size.refs + (Ty.totalSize ts).refs) ≤ maxRefs) ∧
          ¬ (b + t.size.bits ≤ maxBits ∧ r + t.size.refs < maxRefs)) ∧
          t.size.bits ≤ maxBits ∧ t.size.refs < maxRefs) := by
  have hall : (Ty.totalSize (t :: ts)).bits = t.size.bits + (Ty.totalSize ts).bits ∧
      (Ty.totalSize (t :: ts)).refs = t.size.refs + (Ty.totalSize ts).refs := by
    simp only [Ty.totalSize, Size.bits_add, Size.refs_add, and_self]
  rw [← hall.1, ← hall.2]
  simp only [place] at h
  by_cases h1 : b + (Ty.totalSize (t :: ts)).bits ≤ maxBits ∧
      r + (Ty.totalSize (t :: ts)).refs ≤ maxRefs
  · rw [if_pos h1] at h
    obtain ⟨ls', h, h'⟩ := bind_eq_ok.1 h
    exact ⟨ls', .inl ⟨(Except.ok.inj h').symm, h, .inl h1⟩⟩
  rw [if_neg h1] at h
  by_cases h2 : b + t.size.bits ≤ maxBits ∧ r + t.size.refs < maxRefs
  · rw [if_pos h2] at h
    obtain ⟨ls', h, h'⟩ := bind_eq_ok.1 h
    exact ⟨ls', .inl ⟨(Except.ok.inj h').symm, h, .inr h2⟩⟩
  rw [if_neg h2] at h
  by_cases h3 : t.size.bits ≤ maxBits ∧ t.size.refs < maxRefs
  · rw [if_pos h3] at h
    obtain ⟨ls', h, h'⟩ := bind_eq_ok.1 h
    exact ⟨ls', .inr ⟨(Except.ok.inj h').symm, h, ⟨h1, h2⟩, h3⟩⟩
  · rw [if_neg h3] at h
    cases h

/-- A packing that opens no cell is also one behind less. -/
theorem place_of_closed : ∀ {ts : List Ty} {ls : List PackedLeaf} {b r b' r' : Nat},
    place b r ts = .ok ls → ls.countP (·.opensCell) = 0 → b' ≤ b → r' ≤ r →
    place b' r' ts = .ok ls
  | [], _, _, _, _, _, h, _, _, _ => h
  | t :: ts, ls, b, r, b', r', h, hc, hb, hr => by
    obtain ⟨ls', ⟨rfl, h, hcond⟩ | ⟨rfl, -⟩⟩ := place_cons h
    · rw [List.countP_cons_of_neg Bool.false_ne_true] at hc
      have ih := place_of_closed h hc (show b' + t.size.bits ≤ b + t.size.bits by omega)
        (show r' + t.size.refs ≤ r + t.size.refs by omega)
      simp only [place, ih, Ty.totalSize, Size.bits_add, Size.refs_add]
      split
      · rfl
      · rw [if_pos (by omega)]
        rfl
    · simp at hc

/-- **A packing leaves room for its leaves and the links between its cells**, also behind fewer bits
and references than were counted. -/
theorem place_room : ∀ {ts : List Ty} {ls : List PackedLeaf} {b r b' r' : Nat},
    place b r ts = .ok ls → b' ≤ b → r' ≤ r → b' ≤ maxBits → r' ≤ maxRefs →
    (r' < maxRefs ∨
      b + (Ty.totalSize ts).bits ≤ maxBits ∧ r + (Ty.totalSize ts).refs ≤ maxRefs) →
    Room b' r' ls
  | [], ls, b, r, b', r', h, _, _, hb, hr, _ => by
    obtain rfl := Except.ok.inj h
    exact ⟨hb, hr⟩
  | t :: ts, ls, b, r, b', r', h, hb, hr, hb', hr', hl => by
    simp only [Ty.totalSize, Size.bits_add, Size.refs_add] at hl
    obtain ⟨ls', ⟨rfl, h, hc⟩ | ⟨rfl, h, hn, hz⟩⟩ := place_cons h
    · rw [Room, if_neg Bool.false_ne_true]
      rcases hc with hc | hc
      · exact place_room h (by simp only; omega) (by simp only; omega) (by simp only; omega)
          (by simp only; omega) (.inr (by omega))
      · exact place_room h (by simp only; omega) (by simp only; omega) (by simp only; omega)
          (by simp only; omega) (.inl (by simp only; omega))
    · rw [Room, if_pos rfl]
      exact ⟨hb', by omega, place_room h (Nat.le_refl _) (Nat.le_refl _) hz.1
        (Nat.le_of_lt hz.2) (.inl hz.2)⟩

theorem place_types : ∀ {ts : List Ty} {ls : List PackedLeaf} {b r : Nat},
    place b r ts = .ok ls → ls.map (·.type) = ts
  | [], ls, b, r, h => by
    obtain rfl := Except.ok.inj h
    rfl
  | t :: ts, ls, b, r, h => by
    obtain ⟨ls', ⟨rfl, h, -⟩ | ⟨rfl, h, -⟩⟩ := place_cons h
    · simp [place_types h]
    · simp [place_types h]

theorem ofTypes_of_closed {bits refs bits' refs' : Nat} {ts : List Ty} {p : Packing}
    (h : ofTypes bits refs ts = .ok p) (hc : p.newCells = 0) (hb : bits' ≤ bits)
    (hr : refs' ≤ refs) : ofTypes bits' refs' ts = .ok p := by
  obtain ⟨hfit, ho, hplace⟩ := ofTypes_eq_ok.1 h
  exact ofTypes_eq_ok.2 ⟨hfit.mono hb hr, ho, place_of_closed hplace hc hb hr⟩

theorem ofTypes_types {bits refs : Nat} {ts : List Ty} {p : Packing}
    (h : ofTypes bits refs ts = .ok p) : p.leaves.map (·.type) = Ty.allLeaves ts :=
  place_types (ofTypes_place h)

theorem ofTypes_room {bits refs : Nat} {ts : List Ty} {p : Packing}
    (h : ofTypes bits refs ts = .ok p) (hb : bits ≤ maxBits) (hr : refs < maxRefs) :
    Room bits refs p.leaves :=
  place_room (ofTypes_place h) (Nat.le_refl _) (Nat.le_refl _) hb (Nat.le_of_lt hr) (.inl hr)

/-- The leaves of a packing can also be laid out from the start of a cell. -/
theorem ofTypes_room_zero {bits refs : Nat} {ts : List Ty} {p : Packing}
    (h : ofTypes bits refs ts = .ok p) : Room 0 0 p.leaves :=
  place_room (ofTypes_place h) (Nat.zero_le _) (Nat.zero_le _) (Nat.zero_le _) (Nat.zero_le _)
    (.inl (by decide))

/-- The leaves passed from the start of the packing of the same types are all of its leaves. -/
theorem passAll_start {bits refs : Nat} {ts : List Ty} {p : Packing} {ls : List PackedLeaf}
    {q : Position} (h : ofTypes bits refs ts = .ok p)
    (hp : p.start.passAll (Ty.allLeaves ts) = .ok (ls, q)) : ls = p.leaves := by
  have hl := congrArg List.length (ofTypes_types h)
  rw [List.length_map] at hl
  rw [(Position.passAll_packed hp).2, List.drop_zero, ← hl, List.take_length]

end Packing

/-! ### Filling builders -/

/-- The first of a row of builders, the last of which is `b`, with each behind the last reference of
the one before. The builders before `b` are given from last to first. -/
def Builder.nest : List Builder → (b : Builder) → Except Trap Builder
  | [], b => .ok b
  | p :: bs, b => do nest bs (← p.writeRef b.toCell)

namespace PackedLeaf

/-- Writes a leaf to the last of a row of builders, or to a new one if the leaf opens a cell. -/
def fill (l : PackedLeaf) (v : Value) : List Builder × Builder →
    Except Trap (List Builder × Builder)
  | (bs, b) =>
    if l.opensCell then do return (b :: bs, ← l.type.store v {})
    else do return (bs, ← l.type.store v b)

/-- Writes leaves in turn. -/
def fillAll : List PackedLeaf → List Value → List Builder × Builder →
    Except Trap (List Builder × Builder)
  | l :: ls, v :: vs, r => do fillAll ls vs (← l.fill v r)
  | _, _, r => return r

theorem fillAll_singleton (l : PackedLeaf) (v : Value) (r : List Builder × Builder) :
    fillAll [l] [v] r = l.fill v r := by
  simp only [fillAll]
  rcases l.fill v r with e | r' <;> rfl

theorem fillAll_append : ∀ {ls ls' : List PackedLeaf} {xs ys : List Value}
    (r : List Builder × Builder), xs.length = ls.length →
    fillAll (ls ++ ls') (xs ++ ys) r = fillAll ls xs r >>= fillAll ls' ys
  | [], _, [], _, _, _ => rfl
  | l :: ls, ls', x :: xs, ys, r, h => by
    simp only [List.cons_append, fillAll]
    rcases l.fill x r with e | r'
    · rfl
    · exact fillAll_append r' (Nat.succ.inj h)

/-- A leaf that opens a cell adds a builder. -/
theorem length_fillAll : ∀ {ls : List PackedLeaf} {xs : List Value} {bs bs' : List Builder}
    {b b' : Builder}, xs.length = ls.length → fillAll ls xs (bs, b) = .ok (bs', b') →
    bs'.length = bs.length + ls.countP (·.opensCell)
  | [], [], bs, bs', b, b', _, h => by
    obtain ⟨rfl, rfl⟩ := Prod.mk.inj (Except.ok.inj h)
    rfl
  | l :: ls, x :: xs, bs, bs', b, b', hl, h => by
    simp only [fillAll, bind_eq_ok, Prod.exists] at h
    obtain ⟨bs1, b1, h1, h2⟩ := h
    have ih := length_fillAll (Nat.succ.inj hl) h2
    simp only [fill] at h1
    split at h1
    · next ho =>
      simp only [bind_eq_ok, pure_eq_ok, Except.ok.injEq, Prod.mk.injEq] at h1
      obtain ⟨_, -, rfl, rfl⟩ := h1
      rw [ih, List.countP_cons_of_pos ho, List.length_cons, Nat.add_right_comm]
      rfl
    · next ho =>
      simp only [bind_eq_ok, pure_eq_ok, Except.ok.injEq, Prod.mk.injEq] at h1
      obtain ⟨_, -, rfl, rfl⟩ := h1
      rw [ih, List.countP_cons_of_neg ho]

end PackedLeaf

/-- Adds the rest of a slice, if there is one. -/
def Builder.putRest : Option Slice → Builder → Except Trap Builder
  | none, b => return b
  | some s, b => b.writeSlice s

/-- What the rest of a slice adds. -/
def restContent (rest : Option Slice) : Cell := rest.elim .empty Slice.toCell

theorem Builder.putRest_puts {rest : Option Slice} (h : ∀ s ∈ rest, s.Valid) :
    Puts (putRest rest) (restContent rest) := by
  cases rest with
  | none => exact .ok
  | some s => exact writeSlice_puts (h s rfl)

/-- Writes leaves and then the rest of a slice, if there is one, in a chain of builders. -/
def PackedLeaf.putAll (ls : List PackedLeaf) (xs : List Value) (rest : Option Slice) (b : Builder) :
    Except Trap Builder := do
  let (bs, b) ← fillAll ls xs ([], b)
  Builder.nest bs (← b.putRest rest)

/-! ### Written leaves -/

/-- A leaf with the content that stands for it and its value. -/
structure Written where
  /-- The leaf and where it goes. -/
  leaf : PackedLeaf
  /-- What is written for it. -/
  content : Cell
  /-- The value, up to what its slices show. -/
  value : Value

namespace Written

/-- The leaf can be read. -/
structure Reads (w : Written) : Prop where
  reads : w.leaf.type.Reads w.content w.value
  inRange : w.leaf.type.inRange w.value = true

/-- The content fits the size of the type. -/
def Bounded (w : Written) : Prop := w.leaf.type.size.Bounds w.content

/-- The leaf is what writing its value gives. -/
structure Image (w : Written) : Prop extends w.Reads where
  writes : Builder.Puts (w.leaf.type.store w.value) w.content
  bounded : w.Bounded

theorem Reads.bounded {w : Written} (h : w.Reads) (hd : w.leaf.type.Documented) : w.Bounded :=
  h.reads.bounds hd

/-- Contents of leaves in a row with `e` behind them. From a leaf that opens a cell on, they are in
a cell behind a link. -/
def weave : List Written → (e : Cell) → Cell
  | [], e => e
  | w :: ws, e =>
    if w.leaf.opensCell then .link (w.content ++ weave ws e) else w.content ++ weave ws e

theorem weave_append (ws ws' : List Written) (e : Cell) :
    weave (ws ++ ws') e = weave ws (weave ws' e) := by
  induction ws with
  | nil => rfl
  | cons w ws ih => simp only [List.cons_append, weave, ih]

/-- The builders after contents have been added to the last of them in turn, each that opens a cell
to a new one. -/
def grow : List Written → List Builder × Builder → List Builder × Builder
  | [], r => r
  | w :: ws, (bs, b) =>
    if w.leaf.opensCell then grow ws (b :: bs, Builder.add {} w.content)
    else grow ws (bs, b.add w.content)

theorem grow_append (ws ws' : List Written) (r : List Builder × Builder) :
    grow (ws ++ ws') r = grow ws' (grow ws r) := by
  induction ws generalizing r with
  | nil => rfl
  | cons w ws ih =>
    simp only [List.cons_append, grow]
    split <;> rw [ih]

end Written

/-- The builder has room for leaves and for the links between their cells. -/
def Builder.Fits (b : Builder) (ls : List PackedLeaf) : Prop :=
  Packing.Room b.bits.length b.refs.length ls

section Fits

variable {b : Builder} {w : Written} {ws : List Written} {ls rest : List PackedLeaf}
  {bs : List Builder}

theorem Builder.Fits.add (h : b.Fits (w.leaf :: ls)) (ho : w.leaf.opensCell = false)
    (hw : w.Bounded) : b.HasRoom w.content ∧ (b.add w.content).Fits ls := by
  obtain ⟨hcb, hcr⟩ := hw
  rw [Fits, Packing.Room, if_neg (by simp [ho])] at h
  have hle := h.le
  refine ⟨⟨by omega, by omega⟩, h.mono ?_ ?_⟩
  · rw [bits_add, List.length_append]
    omega
  · rw [refs_add, List.length_append]
    omega

theorem Builder.Fits.open (h : b.Fits (w.leaf :: ls)) (ho : w.leaf.opensCell = true)
    (hw : w.Bounded) :
    b.refs.length < maxRefs ∧ Builder.HasRoom {} w.content ∧
      (Builder.add {} w.content).Fits ls := by
  obtain ⟨hcb, hcr⟩ := hw
  rw [Fits, Packing.Room, if_pos ho] at h
  have hle := h.2.2.le
  refine ⟨h.2.1, ⟨?_, ?_⟩, h.2.2.mono (by simpa using hcb) (by simpa using hcr)⟩
  · simp only [List.length_nil]
    omega
  · simp only [List.length_nil]
    omega

namespace Written

theorem fits_grow (bs : List Builder) (hw : ∀ w ∈ ws, w.Bounded)
    (h : b.Fits (ws.map (·.leaf) ++ rest)) : (grow ws (bs, b)).2.Fits rest := by
  induction ws generalizing bs b with
  | nil => exact h
  | cons w ws ih =>
    obtain ⟨hbound, hw⟩ := List.forall_mem_cons.1 hw
    rw [grow]
    split
    · next ho => exact ih _ hw (h.open ho hbound).2.2
    · next ho => exact ih _ hw (h.add (by simpa using ho) hbound).2

/-- Writing the values appends the contents, leaf by leaf, and these fit the sizes of the types. -/
def Stores (ws : List Written) (xs : List Value) : Prop :=
  List.Forall₂ (fun w x => w.Bounded ∧ Builder.Puts (w.leaf.type.store x) w.content) ws xs

theorem Stores.bounded {xs : List Value} (h : Stores ws xs) : ∀ w ∈ ws, w.Bounded := by
  induction h with
  | nil => simp
  | cons hw _ ih => exact List.forall_mem_cons.2 ⟨hw.1, ih⟩

/-- Contents that writing the values gives and reading takes off again, leaf by leaf. -/
structure Encodes (ws : List Written) (xs : List Value) : Prop where
  image : ∀ w ∈ ws, w.Image
  valid : Value.ValidAll xs
  value : Value.canonAll xs = ws.map (·.value)

variable {ws' : List Written} {xs : List Value}

theorem Encodes.length_eq (h : Encodes ws xs) : xs.length = ws.length := by
  rw [← Value.length_canonAll, h.value, List.length_map]

theorem Encodes.reads (h : Encodes ws xs) : ∀ w ∈ ws, w.Reads ∧ w.Bounded :=
  fun w hw => ⟨(h.image w hw).toReads, (h.image w hw).bounded⟩

theorem encodes_cons : Encodes (w :: ws) xs ↔ ∃ y ys, xs = y :: ys ∧ w.Image ∧ y.Valid ∧
    y.canon = w.value ∧ Encodes ws ys := by
  constructor
  · rintro ⟨hi, hx, hv⟩
    rcases xs with _ | ⟨y, ys⟩
    · simp [Value.canonAll] at hv
    obtain ⟨himage, hi⟩ := List.forall_mem_cons.1 hi
    obtain ⟨hyv, hv⟩ := List.cons.inj hv
    exact ⟨y, ys, rfl, himage, hx.1, hyv, hi, hx.2, hv⟩
  · rintro ⟨y, ys, rfl, himage, hy, hyv, hi, hx, hv⟩
    exact ⟨List.forall_mem_cons.2 ⟨himage, hi⟩, ⟨hy, hx⟩, congrArg₂ _ hyv hv⟩

theorem Encodes.stores (h : Encodes ws xs) : Stores ws xs := by
  induction ws generalizing xs with
  | nil =>
    obtain rfl := List.length_eq_zero_iff.1 h.length_eq
    exact .nil
  | cons w ws ih =>
    obtain ⟨y, ys, rfl, himage, hy, hyv, h⟩ := encodes_cons.1 h
    exact .cons ⟨himage.bounded, Ty.puts_of_canon himage.writes hy hyv⟩ (ih h)

theorem Encodes.replaced {ns : List Written} {ys : List Value} (h : Encodes ws xs)
    (marks : List Bool) (hn : Encodes ns ys) :
    Encodes (replaced marks ws ns) (replaced marks xs ys) where
  image w hw := (mem_replaced hw).elim (h.image w) (hn.image w)
  valid := by
    rw [Value.validAll_iff]
    exact fun x hx => (mem_replaced hx).elim ((Value.validAll_iff xs).1 h.valid x)
      ((Value.validAll_iff ys).1 hn.valid x)
  value := by
    rw [Value.canonAll_eq_map, replaced_map, replaced_map, ← Value.canonAll_eq_map,
      ← Value.canonAll_eq_map, h.value, hn.value]

/-- **Writing leaves grows the builders** by their contents, if these have room. -/
theorem fillAll_grow (bs : List Builder) (hw : Stores ws xs)
    (h : b.Fits (ws.map (·.leaf) ++ rest)) :
    PackedLeaf.fillAll (ws.map (·.leaf)) xs (bs, b) = .ok (grow ws (bs, b)) := by
  induction hw generalizing bs b with
  | nil => rfl
  | cons hx _ ih =>
    obtain ⟨hbound, hput⟩ := hx
    simp only [List.map_cons, PackedLeaf.fillAll, PackedLeaf.fill, grow]
    split
    · next ho =>
      obtain ⟨-, hroom, hfits⟩ := h.open ho hbound
      rw [hput.adds hroom, ok_bind, pure_eq_ok, ok_bind, ih _ hfits]
    · next ho =>
      obtain ⟨hroom, hfits⟩ := h.add (by simpa using ho) hbound
      rw [hput.adds hroom, ok_bind, pure_eq_ok, ok_bind, ih _ hfits]

/-- **Nesting the builders gives the woven content.** Whatever is added at last ends up behind
it. -/
theorem nest_grow (bs : List Builder) (hw : ∀ w ∈ ws, w.Bounded)
    (h : b.Fits (ws.map (·.leaf) ++ rest)) (e : Cell) :
    Builder.nest (grow ws (bs, b)).1 ((grow ws (bs, b)).2.add e) =
      Builder.nest bs (b.add (weave ws e)) := by
  induction ws generalizing bs b with
  | nil => rfl
  | cons w ws ih =>
    obtain ⟨hbound, hw⟩ := List.forall_mem_cons.1 hw
    rw [grow, weave]
    split
    · next ho =>
      obtain ⟨hlt, -, hfits⟩ := h.open ho hbound
      have hle := Packing.Room.le h
      have hlink : b.HasRoom (.link (w.content ++ weave ws e)) :=
        ⟨by simpa using hle.1, Nat.succ_le_of_lt hlt⟩
      have he : ((Builder.add {} w.content).add (weave ws e)).toCell =
          w.content ++ weave ws e := by
        rw [← Builder.add_append]
        exact Cell.empty_append _
      rw [ih _ hw hfits, Builder.nest, he, Builder.writeRef_add hlink, ok_bind]
    · next ho =>
      rw [ih _ hw (h.add (by simpa using ho) hbound).2, Builder.add_append]

/-- Where builders can be nested, this gives the woven content. -/
theorem nest_weave (bs : List Builder) {e : Cell} {c : Builder}
    (h : Builder.nest (grow ws (bs, b)).1 ((grow ws (bs, b)).2.add e) = .ok c) :
    Builder.nest bs (b.add (weave ws e)) = .ok c := by
  induction ws generalizing bs b with
  | nil => exact h
  | cons w ws ih =>
    rw [grow] at h
    rw [weave]
    split at h
    · next ho =>
      rw [if_pos ho]
      have hnest := ih _ h
      rw [← Builder.add_append, Builder.nest] at hnest
      obtain ⟨p, hp, hnest⟩ := bind_eq_ok.1 hnest
      rwa [Builder.eq_add_of_writeRef hp,
        show (Builder.add {} (w.content ++ weave ws e)).toCell = w.content ++ weave ws e from
          Cell.empty_append _] at hnest
    · next ho =>
      rw [if_neg ho, Builder.add_append]
      exact ih _ h

/-- There is room for the woven content of leaves that fit. -/
theorem hasRoom_weave (hw : ∀ w ∈ ws, w.Bounded) (h : b.Fits (ws.map (·.leaf))) :
    b.HasRoom (weave ws .empty) := by
  induction ws generalizing b with
  | nil => exact ⟨(Packing.Room.le h).1, (Packing.Room.le h).2⟩
  | cons w ws ih =>
    obtain ⟨hbound, hw⟩ := List.forall_mem_cons.1 hw
    rw [weave]
    split
    · next ho => exact ⟨(Packing.Room.le h).1, (h.open ho hbound).1⟩
    · next ho =>
      obtain ⟨hroom, hfits⟩ := h.add (by simpa using ho) hbound
      exact Builder.HasRoom.append.2 ⟨hroom, ih hw hfits⟩

theorem hasRoom_grow (hw : ∀ w ∈ ws, w.Bounded) (h : b.Fits (ws.map (·.leaf))) :
    (grow ws ([], b)).2.HasRoom .empty := by
  rw [← List.append_nil (ws.map _)] at h
  exact Packing.Room.le (fits_grow [] hw h)

/-- **Leaves that fit are woven** behind what the builder holds. The rest of a slice behind them
goes to the last builder, and overflows if that has no room for it. -/
theorem putAll_weave (tail : Option Slice) (hw : Stores ws xs) (h : b.Fits (ws.map (·.leaf)))
    (htail : ∀ s ∈ tail, s.Valid) :
    ((grow ws ([], b)).2.HasRoom (restContent tail) →
        PackedLeaf.putAll (ws.map (·.leaf)) xs tail b =
          .ok (b.add (weave ws (restContent tail)))) ∧
      (¬ (grow ws ([], b)).2.HasRoom (restContent tail) →
        PackedLeaf.putAll (ws.map (·.leaf)) xs tail b = .error .cellOverflow) := by
  have hput := Builder.putRest_puts htail
  have hroom := hasRoom_grow hw.bounded h
  rw [← List.append_nil (ws.map _)] at h
  simp only [PackedLeaf.putAll, fillAll_grow [] hw h, ok_bind]
  constructor
  · intro htail
    rw [hput.adds htail, ok_bind, nest_grow [] hw.bounded h, Builder.nest]
  · intro htail
    rw [hput.overflows hroom htail, error_bind]

/-- There is always room for no rest. -/
theorem putAll_weave_none (hw : Stores ws xs) (h : b.Fits (ws.map (·.leaf))) :
    PackedLeaf.putAll (ws.map (·.leaf)) xs none b = .ok (b.add (weave ws .empty)) :=
  (putAll_weave none hw h nofun).1 (hasRoom_grow hw.bounded h)

end Written

end Fits

namespace Written

/-! ### Fetching what is woven -/

/-- The first of woven contents is read off the slice that is entered for it. -/
theorem fetch_weave {w : Written} {ws : List Written} {s : Slice} {e : Cell} (hw : w.Reads)
    (hs : s.Valid) (he : s.toCell = weave (w :: ws) e) :
    ∃ r v, w.leaf.enter s = .ok r ∧ r.Valid ∧ r.toCell = w.content ++ weave ws e ∧
      w.leaf.fetch s = .ok (v, r.past w.content) ∧ v.canon = w.value := by
  obtain ⟨hreads, hrange⟩ := hw
  obtain ⟨r, hr, hrv, hrc⟩ : ∃ r, w.leaf.enter s = .ok r ∧ r.Valid ∧
      r.toCell = w.content ++ weave ws e := by
    rw [weave] at he
    unfold PackedLeaf.enter
    split at he
    · next ho =>
      rw [if_pos ho]
      have hl : s.toCell = .link (w.content ++ weave ws e) ++ .empty := by simpa using he
      refine ⟨_, ?_, Slice.valid_ofCell (w.content ++ weave ws e), Slice.toCell_ofCell _⟩
      have hemp := (hs.past hl).isEmpty_iff.2 (Slice.toCell_past hl)
      simp [Slice.follow, Slice.readRef_of_shows hs hl, hemp]
    · next ho =>
      rw [if_neg ho]
      exact ⟨s, rfl, hs, he⟩
  obtain ⟨⟨v, r'⟩, hload, hpast, hcanon⟩ := hreads hrv hrc
  simp only at hpast hcanon
  subst hpast
  rw [← hcanon, Ty.inRange_canon] at hrange
  exact ⟨r, v, hr, hrv, hrc, by simp [PackedLeaf.fetch, hr, hload, hrange], hcanon⟩

/-- **Woven contents are read again**, and what is left is what is behind them. -/
theorem fetchAll_weave : ∀ {ws : List Written} {s : Slice} {e : Cell},
    (∀ w ∈ ws, w.Reads) → s.Valid → s.toCell = weave ws e →
    ∃ vs s', PackedLeaf.fetchAll (ws.map (·.leaf)) s = .ok (vs, s') ∧
      Value.canonAll vs = ws.map (·.value) ∧ s'.Valid ∧ s'.toCell = e
  | [], s, e, _, hs, he => ⟨[], s, rfl, rfl, hs, he⟩
  | w :: ws, s, e, hw, hs, he => by
    obtain ⟨r, v, -, hrv, hrc, hv, hcanon⟩ := fetch_weave (hw w (List.mem_cons_self ..)) hs he
    obtain ⟨vs, s', hf, hc, hs', he'⟩ := fetchAll_weave
      (fun w h => hw w (List.mem_cons_of_mem _ h)) (hrv.past hrc) (Slice.toCell_past hrc)
    exact ⟨v :: vs, s', by simp [PackedLeaf.fetchAll, hv, hf], by simp [Value.canonAll, hcanon, hc],
      hs', he'⟩

end Written

/-- A leaf that is fetched has a content in the cell that it is read from, and the slice moves over
this content. -/
theorem PackedLeaf.fetch_written {l : PackedLeaf} {s s' : Slice} {v : Value} (hs : s.Valid)
    (h : l.fetch s = .ok (v, s')) :
    ∃ (c : Cell) (q : Slice), l.enter s = .ok q ∧ q.toCell = c ++ s'.toCell ∧ s' = q.past c ∧
      Written.Reads ⟨l, c, v.canon⟩ := by
  obtain ⟨q, hq, hl, hi⟩ := fetch_eq_ok h
  obtain ⟨c, d, hc, rfl, hreads, -⟩ := Ty.exists_reads (enter_valid hs hq) hl
  exact ⟨c, q, hq, by rw [Slice.toCell_past hc, hc], rfl, hreads, by rwa [Ty.inRange_canon]⟩

/-- **Only woven contents are read:** where fetching succeeds, the slice shows contents of the
leaves in a row, and then the rest. -/
theorem PackedLeaf.fetchAll_written : ∀ {ls : List PackedLeaf} {s s' : Slice} {vs : List Value},
    s.Valid → fetchAll ls s = .ok (vs, s') →
    ∃ ws : List Written, ws.map (·.leaf) = ls ∧ ws.map (·.value) = Value.canonAll vs ∧
      (∀ w ∈ ws, w.Reads) ∧ s.toCell = Written.weave ws s'.toCell
  | [], s, s', vs, _, h => by
    simp only [fetchAll, pure_eq_ok, Except.ok.injEq, Prod.mk.injEq] at h
    obtain ⟨rfl, rfl⟩ := h
    exact ⟨[], rfl, rfl, by simp, rfl⟩
  | l :: ls, s, s', vs, hs, h => by
    obtain ⟨v, vs', r, h1, h2, rfl⟩ := fetchAll_cons_eq_ok h
    obtain ⟨c, q, hq, hc, -, hw⟩ := fetch_written hs h1
    obtain ⟨ws, hls, hvs, hws, he⟩ := fetchAll_written (fetch_valid hs h1).2 h2
    refine ⟨⟨l, c, v.canon⟩ :: ws, by simp [hls], by simp [Value.canonAll, hvs],
      List.forall_mem_cons.2 ⟨hw, hws⟩, ?_⟩
    rw [Written.weave, ← he, ← hc]
    unfold enter at hq
    split at hq
    · next ho =>
      rw [if_pos ho]
      exact Slice.follow_shows hs hq
    · next ho =>
      rw [if_neg ho]
      exact congrArg Slice.toCell (Except.ok.inj hq)

end TypedCells
