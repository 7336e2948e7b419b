import TypedCells.Patch.Update
import TypedCells.Proofs.Admitted
import TypedCells.Proofs.Passing
import TypedCells.Proofs.Pieces

/-!
# What a patch holds on the stack

Between taking data apart and writing it again, the stack holds the pieces of the visited leaves in
order (`Patch.Holds`): a value for each picked variable, and slices and values that can be written
back for the leaves between them. A leaf that is held in a slice keeps its content; a leaf of
varying size that is held as a value gets the content that writing its value gives
(`Patch.Copied`). So the contents that all this will be written as are those of the data, with new
contents for the picked leaves and for those that are recoded (`Patch.Holds.renewed`).

Values of some types can be read and not be written. What is said of writing them is said under the
condition that they can be written, or that `safe` holds, in which case all of them can.
-/

namespace TypedCells

namespace Patch

variable {safe : Prop}

/-! ### Old and new contents -/

/-- A leaf that was read, of a type that packings have. -/
structure Stored (w : Written) : Prop where
  reads : w.Reads
  isLeaf : w.leaf.type.IsLeaf
  accepted : w.leaf.type.Accepted

/-- The contents of leaves, as read. -/
structure Olds (ls : List StoredLeaf) (ws : List Written) : Prop where
  leaf : ws.map (·.leaf) = rowOf ls
  stored : ∀ w ∈ ws, Stored w

/-- The contents of leaves with the given values. -/
structure News (safe : Prop) (ls : List StoredLeaf) (ns : List Written) (ys : List Value) :
    Prop where
  leaf : ns.map (·.leaf) = rowOf ls
  gives : List.Forall₂ (fun y n => n.Reads ∧ n.ImageIf safe ∧ y.Valid ∧ y.canon = n.value) ys ns

theorem Olds.append {ls ls' : List StoredLeaf} {ws : List Written}
    (h : Olds (ls ++ ls') ws) :
    ∃ us us', ws = us ++ us' ∧ Olds ls us ∧ Olds ls' us' := by
  obtain ⟨hl, hr⟩ := h
  rw [rowOf_append] at hl
  obtain ⟨us, us', rfl, h1, h2⟩ := List.map_eq_append_iff.1 hl
  exact ⟨us, us', rfl, ⟨h1, fun w hw => hr w (List.mem_append_left _ hw)⟩,
    ⟨h2, fun w hw => hr w (List.mem_append_right _ hw)⟩⟩

theorem Olds.length_eq {ls : List StoredLeaf} {ws : List Written} (h : Olds ls ws) :
    ws.length = ls.length := by
  have := congrArg List.length h.leaf
  simpa [rowOf] using this

theorem Olds.reads {ls : List StoredLeaf} {ws : List Written} (h : Olds ls ws) :
    ∀ w ∈ ws, w.Reads := fun w hw => (h.stored w hw).reads

/-- The leaves have types with documented widths. -/
def DocumentedRow (ls : List StoredLeaf) : Prop := ∀ l ∈ ls, l.type.Documented

theorem documentedRow_append {ls ls' : List StoredLeaf} :
    DocumentedRow (ls ++ ls') ↔ DocumentedRow ls ∧ DocumentedRow ls' := List.forall_mem_append

theorem DocumentedRow.written {ls : List StoredLeaf} {ws : List Written} (h : DocumentedRow ls)
    (hl : ws.map (·.leaf) = rowOf ls) : ∀ w ∈ ws, w.leaf.type.Documented := fun w hw => by
  have hmem := List.mem_map_of_mem (f := (·.leaf)) hw
  rw [hl] at hmem
  obtain ⟨l, hl, (he : l.toPackedLeaf = w.leaf)⟩ := List.mem_map.1 hmem
  exact he ▸ h l hl

theorem DocumentedRow.bounded {ls : List StoredLeaf} {ws : List Written} (h : DocumentedRow ls)
    (hl : ws.map (·.leaf) = rowOf ls) (hr : ∀ w ∈ ws, w.Reads) : ∀ w ∈ ws, w.Bounded :=
  fun w hw => (hr w hw).bounded (h.written hl w hw)

theorem News.length_eq {ls : List StoredLeaf} {ns : List Written} {ys : List Value}
    (h : News safe ls ns ys) : ns.length = ls.length ∧ ys.length = ls.length := by
  have h1 := congrArg List.length h.leaf
  simp only [rowOf, List.length_map] at h1
  exact ⟨h1, h.gives.length_eq.trans h1⟩

theorem News.append {ls ls' : List StoredLeaf} {ns : List Written} {ys : List Value}
    (h : News safe (ls ++ ls') ns ys) :
    ∃ ms ms' xs xs', ns = ms ++ ms' ∧ ys = xs ++ xs' ∧ News safe ls ms xs ∧
      News safe ls' ms' xs' := by
  obtain ⟨hl, hg⟩ := h
  rw [rowOf_append] at hl
  obtain ⟨ms, ms', rfl, h1, h2⟩ := List.map_eq_append_iff.1 hl
  have htake := List.forall₂_take_append _ _ _ hg
  have hdrop := List.forall₂_drop_append _ _ _ hg
  exact ⟨ms, ms', _, _, rfl, (List.take_append_drop _ ys).symm, ⟨h1, htake⟩, ⟨h2, hdrop⟩⟩

theorem News.cons {l : StoredLeaf} {ls : List StoredLeaf} {ns : List Written} {ys : List Value}
    (h : News safe (l :: ls) ns ys) :
    ∃ n ns' y ys', ns = n :: ns' ∧ ys = y :: ys' ∧ n.leaf = l.toPackedLeaf ∧ n.Reads ∧
      n.ImageIf safe ∧ y.Valid ∧ y.canon = n.value ∧ News safe ls ns' ys' := by
  obtain ⟨hl, hg⟩ := h
  cases hg with
  | nil => simp [rowOf] at hl
  | cons hn hg =>
    obtain ⟨hleaf, hl⟩ := List.cons.inj hl
    exact ⟨_, _, _, _, rfl, rfl, hleaf, hn.1, hn.2.1, hn.2.2.1, hn.2.2.2, hl, hg⟩

theorem News.reads {ls : List StoredLeaf} {ns : List Written} {ys : List Value}
    (h : News safe ls ns ys) : ∀ n ∈ ns, n.Reads := by
  intro n hn
  obtain ⟨i, hi, rfl⟩ := List.getElem_of_mem hn
  exact ((List.forall₂_iff_get.1 h.gives).2 i (h.gives.length_eq ▸ hi) hi).1

theorem News.value {ls : List StoredLeaf} {ns : List Written} {ys : List Value}
    (h : News safe ls ns ys) : Value.canonAll ys = ns.map (·.value) := by
  obtain ⟨-, hg⟩ := h
  induction hg with
  | nil => rfl
  | cons hn _ ih => rw [Value.canonAll, List.map_cons, hn.2.2.2, ih]

/-- Leaves with values that reading can give have contents. -/
theorem exists_news : ∀ {ls : List StoredLeaf} {ys : List Value},
    (∀ l ∈ ls, l.type.Accepted) → (safe → DocumentedRow ls) →
    List.Forall₂ Ty.Loadable (ls.map (·.type)) ys → ∃ ns, News safe ls ns ys
  | [], _, _, _, .nil => ⟨[], rfl, .nil⟩
  | l :: ls, y :: ys, ho, hd, .cons hy hys => by
    obtain ⟨ho, hos⟩ := List.forall_mem_cons.1 ho
    obtain ⟨ns, hl, hg⟩ := exists_news hos (fun hs => (List.forall_mem_cons.1 (hd hs)).2) hys
    obtain ⟨n, hleaf, hr, hi, hv⟩ :=
      Written.exists_imageIf hy ho fun hs => (List.forall_mem_cons.1 (hd hs)).1
    refine ⟨n :: ns, ?_, .cons ⟨hr, hi, hy.valid, hv⟩ hg⟩
    rw [List.map_cons, hleaf, hl]
    rfl

/-- What is written for a leaf that is not picked. It has the same value; it is the same content if
the leaf is not recoded, or else the content that writing the value gives. -/
structure Kept (recoded : Bool) (w w' : Written) : Prop where
  leaf : w'.leaf = w.leaf
  value : w'.value = w.value
  same : w.Image → w' = w
  unchanged : recoded = false → w' = w
  image : recoded = true → w'.Image

/-- The contents `ws'` are `ws` with the contents `ns` for the picked leaves; `marks` tells which of
the others are recoded. -/
inductive Renewed : List StoredLeaf → (marks : List Bool) → (ns ws ws' : List Written) → Prop where
  | nil : Renewed [] [] [] [] []
  | new {l : StoredLeaf} {ls : List StoredLeaf} {marks : List Bool} {n w : Written}
      {ns ws ws' : List Written} (hl : l.picked = true) (h : Renewed ls marks ns ws ws') :
      Renewed (l :: ls) (false :: marks) (n :: ns) (w :: ws) (n :: ws')
  | keep {l : StoredLeaf} {ls : List StoredLeaf} {m : Bool} {marks : List Bool} {w w' : Written}
      {ns ws ws' : List Written} (hl : l.picked = false) (hw : Kept m w w')
      (h : Renewed ls marks ns ws ws') :
      Renewed (l :: ls) (m :: marks) ns (w :: ws) (w' :: ws')

theorem Renewed.append {ls ls' : List StoredLeaf} {marks marks' : List Bool}
    {ns ms ws us ws' us' : List Written} (h : Renewed ls marks ns ws ws')
    (h' : Renewed ls' marks' ms us us') :
    Renewed (ls ++ ls') (marks ++ marks') (ns ++ ms) (ws ++ us) (ws' ++ us') := by
  induction h with
  | nil => exact h'
  | new hl _ ih => exact .new hl ih
  | keep hl hw _ ih => exact .keep hl hw ih

theorem Renewed.picked {f : StoredLeaf → Bool} : ∀ {ls : List StoredLeaf} {ns ws : List Written},
    (∀ l ∈ ls, l.picked = true ∧ f l = false) → ns.length = ls.length → ws.length = ls.length →
    Renewed ls (ls.map f) ns ws ns
  | [], [], [], _, _, _ => .nil
  | l :: ls, _ :: _, _ :: _, h, hn, hw => by
    obtain ⟨hl, hf⟩ := h l (List.mem_cons_self ..)
    rw [List.map_cons, hf]
    exact .new hl (Renewed.picked (fun l hl => h l (List.mem_cons_of_mem _ hl))
      (Nat.succ.inj hn) (Nat.succ.inj hw))

theorem Renewed.unpicked {f : StoredLeaf → Bool} {g : PackedLeaf → Bool} :
    ∀ {ls : List StoredLeaf} {ws ws' : List Written},
      (∀ l ∈ ls, l.picked = false ∧ f l = g l.toPackedLeaf) → ws.map (·.leaf) = rowOf ls →
      List.Forall₂ (fun w w' => Kept (g w.leaf) w w') ws ws' → Renewed ls (ls.map f) [] ws ws'
  | [], _, _, _, _, .nil => .nil
  | l :: ls, _, _, h, hl, .cons hw hws => by
    obtain ⟨hp, hf⟩ := h l (List.mem_cons_self ..)
    obtain ⟨hleaf, hl⟩ := List.cons.inj hl
    simp only at hleaf
    rw [List.map_cons, hf]
    exact .keep hp (hleaf ▸ hw) (Renewed.unpicked (fun l hl => h l (List.mem_cons_of_mem _ hl)) hl
      hws)

theorem Kept.refl (w : Written) : Kept false w w :=
  ⟨rfl, rfl, fun _ => rfl, fun _ => rfl, (absurd · Bool.false_ne_true)⟩

theorem Renewed.refl {ls : List StoredLeaf} {ws : List Written} (h : ∀ l ∈ ls, l.picked = false)
    (hold : Olds ls ws) : Renewed ls (ls.map fun _ => false) [] ws ws :=
  .unpicked (g := fun _ => false) (fun l hl => ⟨h l hl, rfl⟩) hold.leaf
    (List.forall₂_same.2 fun w _ => .refl w)

/-! ### What can be written back -/

/-- A leaf that has been read and a leaf with the same value in its place, which is what writing the
value gives if it can be written. -/
structure Recoded (safe : Prop) (w w' : Written) : Prop where
  reads : w'.Reads
  leaf : w'.leaf = w.leaf
  value : w'.value = w.value
  same : w.Image → w' = w
  image : w'.ImageIf safe

/-- Fragments of the leaves `ws` that are held on the stack, and the leaves that writing them back
adds. -/
inductive Copied (safe : Prop) : List Fragment → List Value → (ws ws' : List Written) → Prop where
  | nil : Copied safe [] [] [] []
  | raw {bits refs : Nat} {fs : List Fragment} {es : List Value} {us ws ws' : List Written}
      (x : Slice) (hx : x.Valid) (hu : x.toCell = Written.row us)
      (hfix : ∀ w ∈ us, w.leaf.type.size.fixed = true) (h : Copied safe fs es ws ws') :
      Copied safe (.raw bits refs :: fs) (.slice x :: es) (us ++ ws) (us ++ ws')
  | value {w w' : Written} {fs : List Fragment} {es : List Value} {ws ws' : List Written}
      (v : Value) (hv : v.Valid) (hc : v.canon = w.value) (hfix : w.leaf.type.size.fixed = false)
      (hw : Recoded safe w w') (h : Copied safe fs es ws ws') :
      Copied safe (.value w.leaf.type :: fs) (v :: es) (w :: ws) (w' :: ws')

/-- What is held for a fragment. -/
def heldAs : Fragment → Held
  | .raw _ _ => .raw
  | .value t => .value t

theorem heldOf_parts (ls : List StoredLeaf) : heldOf ls false = (fragments ls).map heldAs :=
  List.map_congr_left fun f _ => by cases f <;> rfl

section Copied

variable {fs : List Fragment} {es : List Value} {ws ws' : List Written}

theorem Copied.length_eq (h : Copied safe fs es ws ws') : es.length = fs.length := by
  induction h with
  | nil => rfl
  | raw _ _ _ _ _ ih => simp [ih]
  | value _ _ _ _ _ _ ih => simp [ih]

theorem Copied.leaf (h : Copied safe fs es ws ws') : ws'.map (·.leaf) = ws.map (·.leaf) := by
  induction h with
  | nil => rfl
  | raw _ _ _ _ _ ih => rw [List.map_append, List.map_append, ih]
  | value _ _ _ _ hw _ ih => rw [List.map_cons, List.map_cons, hw.leaf, ih]

theorem Copied.reads (h : Copied safe fs es ws ws') (hr : ∀ w ∈ ws, w.Reads) :
    ∀ w ∈ ws', w.Reads := by
  induction h with
  | nil => simp
  | raw _ _ _ _ _ ih =>
    obtain ⟨hu, hr⟩ := List.forall_mem_append.1 hr
    exact List.forall_mem_append.2 ⟨hu, ih hr⟩
  | value _ _ _ _ hw _ ih =>
    exact List.forall_mem_cons.2 ⟨hw.reads, ih (List.forall_mem_cons.1 hr).2⟩

/-- Leaves of fixed size keep their contents, and the others are recoded. -/
theorem Copied.kept (h : Copied True fs es ws ws') :
    List.Forall₂ (fun w w' => Kept (!w.leaf.type.size.fixed) w w') ws ws' := by
  induction h with
  | nil => exact .nil
  | raw _ _ _ hfix _ ih =>
    refine List.rel_append (List.forall₂_same.2 fun w hw => ?_) ih
    rw [hfix w hw]
    exact .refl w
  | value _ _ _ hfix hw _ ih =>
    refine .cons ?_ ih
    rw [hfix]
    exact ⟨hw.leaf, hw.value, hw.same, nofun, fun _ => hw.image (.inl trivial)⟩

end Copied

/-! ### Pieces on the stack -/

/-- The pieces of leaves with the contents `ws` as they are held on the stack, the first on top,
with the contents `ws'` that they will be written as, of which `ns` are those of picked leaves. -/
inductive Holds (safe : Prop) : List (List StoredLeaf) → (ns ws ws' : List Written) → List Held →
    List Value → Prop where
  | nil : Holds safe [] [] [] [] [] []
  | new {p : List StoredLeaf} {ps : List (List StoredLeaf)} {ms ns us ws ws' : List Written}
      {held : List Held} {es ys : List Value} {v : Variable} (hne : p ≠ [])
      (ho : ∀ l ∈ p, l.owner = some v) (ht : p.map (·.type) = v.type.leaves)
      (hold : Olds p us) (hn : News safe p ms ys) (h : Holds safe ps ns ws ws' held es) :
      Holds safe (p :: ps) (ms ++ ns) (us ++ ws) (ms ++ ws') (.value v.type :: held)
        (v.type.build ys :: es)
  | whole {p : List StoredLeaf} {ps : List (List StoredLeaf)} {ns us ws ws' : List Written}
      {held : List Held} {es : List Value} {x : Slice} (hne : p ≠ [])
      (ho : ∀ l ∈ p, l.owner = none) (hc : ∀ l ∈ p.tail, l.opensCell = false)
      (hnext : opensNext ps = true) (hold : Olds p us) (hx : x.Valid)
      (hu : x.toCell = Written.row us) (h : Holds safe ps ns ws ws' held es) :
      Holds safe (p :: ps) ns (us ++ ws) (us ++ ws') (.raw :: held) (.slice x :: es)
  | parts {p : List StoredLeaf} {ps : List (List StoredLeaf)} {ns us us' ws ws' : List Written}
      {held : List Held} {es es' : List Value} (hne : p ≠ []) (ho : ∀ l ∈ p, l.owner = none)
      (hc : ∀ l ∈ p.tail, l.opensCell = false) (hnext : opensNext ps = false)
      (hold : Olds p us) (hcopy : Copied safe (fragments p) es' us us')
      (h : Holds safe ps ns ws ws' held es) :
      Holds safe (p :: ps) ns (us ++ ws) (us' ++ ws') ((fragments p).map heldAs ++ held) (es' ++ es)

/-- For the leaves of pieces, whether they are written from their values although they are not
picked: those of varying size, unless a cell opens behind their piece. -/
def recoded : List (List StoredLeaf) → List Bool
  | [] => []
  | p :: ps =>
    p.map (fun l => !l.picked && !opensNext ps && !l.type.size.fixed) ++ recoded ps

section Holds

variable {ps : List (List StoredLeaf)} {ns ws ws' : List Written} {held : List Held}
  {es : List Value}

theorem Holds.length_eq (h : Holds safe ps ns ws ws' held es) : held.length = es.length := by
  induction h with
  | nil => rfl
  | new _ _ _ _ _ _ ih => simp [ih]
  | whole _ _ _ _ _ _ _ _ ih => simp [ih]
  | parts _ _ _ _ _ hcopy _ ih => simp [hcopy.length_eq, ih]

theorem Holds.leaf (h : Holds safe ps ns ws ws' held es) :
    ws'.map (·.leaf) = rowOf ps.flatten := by
  induction h with
  | nil => rfl
  | new _ _ _ _ hn _ ih => rw [List.map_append, hn.leaf, ih, List.flatten_cons, rowOf_append]
  | whole _ _ _ _ hold _ _ _ ih =>
    rw [List.map_append, hold.leaf, ih, List.flatten_cons, rowOf_append]
  | parts _ _ _ _ hold hcopy _ ih =>
    rw [List.map_append, hcopy.leaf, hold.leaf, ih, List.flatten_cons, rowOf_append]

theorem Holds.reads (h : Holds safe ps ns ws ws' held es) : ∀ w ∈ ws', w.Reads := by
  induction h with
  | nil => simp
  | new _ _ _ _ hn _ ih => exact List.forall_mem_append.2 ⟨hn.reads, ih⟩
  | whole _ _ _ _ hold _ _ _ ih => exact List.forall_mem_append.2 ⟨hold.reads, ih⟩
  | parts _ _ _ _ hold hcopy _ ih =>
    exact List.forall_mem_append.2 ⟨hcopy.reads hold.reads, ih⟩

/-- **What is held is the data with new contents for picked and recoded leaves.** -/
theorem Holds.renewed (h : Holds True ps ns ws ws' held es) :
    Renewed ps.flatten (recoded ps) ns ws ws' := by
  induction h with
  | nil => exact .nil
  | new _ ho _ hold hn _ ih =>
    refine Renewed.append (.picked (fun l hl => ?_) hn.length_eq.1 hold.length_eq) ih
    have hp := picked_of_owner ho l hl
    exact ⟨hp, by rw [hp]; rfl⟩
  | @whole p ps _ us _ _ _ _ _ _ ho _ hnext hold _ _ _ ih =>
    have hmarks : ∀ l : StoredLeaf, (!l.picked && !true && !l.type.size.fixed) = false := by simp
    have hp : Renewed p (p.map fun _ => false) [] us us := .refl (picked_of_owner ho) hold
    rw [recoded, hnext, funext hmarks]
    exact hp.append ih
  | @parts p ps _ us us' _ _ _ _ _ _ ho _ hnext hold hcopy _ ih =>
    have hp : Renewed p (p.map fun l => !l.picked && !opensNext ps && !l.type.size.fixed) []
        us us' :=
      .unpicked (g := fun l => !l.type.size.fixed)
        (fun l hl => ⟨picked_of_owner ho l hl, by rw [picked_of_owner ho l hl, hnext]; rfl⟩)
        hold.leaf hcopy.kept
    exact hp.append ih

end Holds

/-- Picked pieces with new values in front of other pieces. -/
theorem Holds.news {qs ps : List (List StoredLeaf)} {ns ws ws' : List Written} {held : List Held}
    {es : List Value} (h : Holds safe ps ns ws ws' held es) (hq : ∀ q ∈ qs, IsPiece q)
    (hpick : ∀ l ∈ qs.flatten, l.picked = true) : ∀ {ms us : List Written} {ys : List Value},
    Olds qs.flatten us → News safe qs.flatten ms ys →
    Holds safe (qs ++ ps) (ms ++ ns) (us ++ ws) (ms ++ ws')
      ((qs.filterMap ownerOf).map (fun v => .value v.type) ++ held)
      (Ty.buildAll ((qs.filterMap ownerOf).map (·.type)) ys ++ es) := by
  refine pickedInduction (P := fun qs => ∀ {ms us : List Written} {ys : List Value},
    Olds qs.flatten us → News safe qs.flatten ms ys →
    Holds safe (qs ++ ps) (ms ++ ns) (us ++ ws) (ms ++ ws')
      ((qs.filterMap ownerOf).map (fun v => .value v.type) ++ held)
      (Ty.buildAll ((qs.filterMap ownerOf).map (·.type)) ys ++ es))
    (fun {ms us ys} hold hn => ?nil) (fun {q qs v} hne ho ht ih ms us ys hold hn => ?cons) hq hpick
  case nil =>
    obtain rfl := List.length_eq_zero_iff.1 hold.length_eq
    obtain rfl := List.length_eq_zero_iff.1 hn.length_eq.1
    exact h
  case cons =>
    rw [List.flatten_cons] at hold hn
    obtain ⟨us, us', rfl, hold1, hold2⟩ := hold.append
    obtain ⟨ms, ms', xs, xs', rfl, rfl, h1, h2⟩ := hn.append
    have hx : xs.length = v.type.leaves.length := by
      rw [h1.length_eq.2, ← ht, List.length_map]
    rw [List.filterMap_cons, ownerOf_eq hne ho, List.map_cons, List.map_cons,
      Ty.buildAll_append hx, List.append_assoc, List.append_assoc, List.append_assoc]
    exact .new hne ho ht hold1 h1 (ih hold2 h2)

end Patch

end TypedCells
