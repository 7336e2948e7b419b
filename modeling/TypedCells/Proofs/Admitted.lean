import Mathlib.Data.List.Forall2
import TypedCells.Proofs.Chains

/-!
# Well-formed values

A value is admitted by a type if its leaves are values that reading can give (`Ty.Admits`): only
such values can be stored and read again. An admitted value is built from the values of its leaves
(`Ty.Admits.build`), and each of them has a content that stands for it (`Written.exists_encodes`),
whatever the types are if writing the values succeeds (`Written.exists_encodes_of_fillAll`).
-/

namespace TypedCells

namespace Ty

/-! ### Documented widths and leaves -/

theorem documented_of_mem_leaves (t : Ty) : t.Documented → ∀ l ∈ t.leaves, l.Documented := by
  refine leafInduction (P := fun t => t.Documented → ∀ l ∈ t.leaves, l.Documented)
    (Q := fun fs => DocumentedFields fs → ∀ l ∈ fieldLeaves fs, l.Documented)
    (fun t h hd => ?_) (fun x fs h hd => h hd) (fun x t h hd => h hd)
    (fun _ => by simp [fieldLeaves]) (fun x t fs ht hfs hd l hl => ?_) t
  · rw [leaves_leaf h]
    simpa using hd
  · rw [fieldLeaves, List.mem_append] at hl
    exact hl.elim (ht hd.1 l) (hfs hd.2 l)

theorem documented_of_mem_allLeaves : ∀ {ts : List Ty}, DocumentedAll ts →
    ∀ l ∈ allLeaves ts, l.Documented
  | [], _, l, hl => by simp [allLeaves] at hl
  | t :: ts, hd, l, hl => by
    rw [allLeaves, List.flatMap_cons, List.mem_append] at hl
    exact hl.elim (documented_of_mem_leaves t hd.1 l) (documented_of_mem_allLeaves hd.2 l)

/-! ### Admitted values -/

/-- Reading the type can give the value, and it is in range if it is an ordinal. -/
def Loadable (t : Ty) (v : Value) : Prop :=
  (∃ s s', s.Valid ∧ t.load s = .ok (v, s')) ∧ t.inRange v = true

mutual

/-- The value is well-formed: a structure is a tuple of well-formed members, and any other value is
one that reading can give. -/
def Admits : Ty → Value → Prop
  | .struct _ fs, v => ∃ vs, v = .tuple vs ∧ AdmitsFields fs vs
  | .alias _ t, v => t.Admits v
  | t, v => t.Loadable v

/-- The values are well-formed as members of a structure. -/
def AdmitsFields : List (Field Ty) → List Value → Prop
  | [], vs => vs = []
  | ⟨_, t⟩ :: fs, vs => ∃ w ws, vs = w :: ws ∧ t.Admits w ∧ AdmitsFields fs ws

end

/-- The values are well-formed values of the types. -/
def AdmitsAll (ts : List Ty) (vs : List Value) : Prop := List.Forall₂ Admits ts vs

theorem admits_leaf {t : Ty} (h : t.IsLeaf) (v : Value) : t.Admits v ↔ t.Loadable v := by
  cases t <;> first | exact h.elim | rfl

/-- An admitted value is built from values that reading its leaves can give. -/
theorem Admits.build (t : Ty) : ∀ {v : Value}, t.Admits v →
    ∃ xs, v = t.build xs ∧ List.Forall₂ Loadable t.leaves xs := by
  refine leafInduction
    (P := fun t => ∀ {v}, t.Admits v → ∃ xs, v = t.build xs ∧ List.Forall₂ Loadable t.leaves xs)
    (Q := fun fs => ∀ {vs}, AdmitsFields fs vs →
      ∃ xs, vs = buildFields fs xs ∧ List.Forall₂ Loadable (fieldLeaves fs) xs)
    (fun t h v hv => ?leaf) (fun x fs ih v hv => ?struct) (fun x t ih v hv => ih hv)
    (fun hv => ⟨[], hv, .nil⟩) (fun x t fs iht ihfs vs hv => ?cons) t
  case leaf =>
    refine ⟨[v], by rw [build_leaf h]; rfl, ?_⟩
    rw [leaves_leaf h]
    exact .cons ((admits_leaf h v).1 hv) .nil
  case struct =>
    obtain ⟨vs, rfl, hvs⟩ := hv
    obtain ⟨xs, rfl, hxs⟩ := ih hvs
    exact ⟨xs, rfl, hxs⟩
  case cons =>
    obtain ⟨w, ws, rfl, hw, hws⟩ := hv
    obtain ⟨xs, rfl, hxs⟩ := iht hw
    obtain ⟨ys, rfl, hys⟩ := ihfs hws
    exact ⟨xs ++ ys, (buildFields_append hxs.length_eq.symm).symm, List.rel_append hxs hys⟩

theorem AdmitsAll.build : ∀ {ts : List Ty} {vs : List Value}, AdmitsAll ts vs →
    ∃ xs, vs = buildAll ts xs ∧ List.Forall₂ Loadable (allLeaves ts) xs
  | [], _, .nil => ⟨[], rfl, .nil⟩
  | t :: ts, _, .cons hv hvs => by
    obtain ⟨xs, rfl, hxs⟩ := hv.build
    obtain ⟨ys, rfl, hys⟩ := AdmitsAll.build hvs
    exact ⟨xs ++ ys, (buildAll_append hxs.length_eq.symm).symm, List.rel_append hxs hys⟩

theorem Loadable.valid {t : Ty} {v : Value} (h : t.Loadable v) : v.Valid := by
  obtain ⟨⟨s, s', hs, hl⟩, -⟩ := h
  exact t.load_valid hs hl

end Ty

/-- A leaf with a value that reading can give and that can be written has a content that stands for
it. -/
theorem Written.exists_image {l : PackedLeaf} {x : Value} (hx : l.type.Loadable x)
    (ho : l.type.Accepted) (hw : l.type.Writable x.canon) :
    ∃ w : Written, w.leaf = l ∧ w.Image ∧ x.canon = w.value := by
  obtain ⟨⟨s, s', hs, hl⟩, hi⟩ := hx
  obtain ⟨c, hc⟩ := l.type.exists_image hw ho hs hl
  exact ⟨⟨l, c, x.canon⟩, rfl, ⟨⟨hc.reads, by rwa [Ty.inRange_canon]⟩, hc.writes, hc.bounds⟩, rfl⟩

/-- The leaf is what writing its value gives, if its value can be written, which it can if `safe`
holds. -/
def Written.ImageIf (safe : Prop) (w : Written) : Prop :=
  (safe ∨ ∃ b b', w.leaf.type.store w.value b = .ok b') → w.Image

/-- A leaf with a value that was read has a content from which the value is read, and which is what
writing the value gives if it can be written. -/
theorem Written.exists_imageIf {safe : Prop} {l : PackedLeaf} {x : Value} (hx : l.type.Loadable x)
    (ho : l.type.Accepted) (hd : safe → l.type.Documented) :
    ∃ w : Written, w.leaf = l ∧ w.Reads ∧ w.ImageIf safe ∧ x.canon = w.value := by
  by_cases hw : safe ∨ ∃ b b', l.type.store x.canon b = .ok b'
  · obtain ⟨w, rfl, hi, hv⟩ := exists_image hx ho
      (hw.imp_left fun hsafe => Ty.proper_of_documented _ (hd hsafe))
    exact ⟨w, rfl, hi.toReads, fun _ => hi, hv⟩
  · obtain ⟨⟨s, s', hs, hl⟩, hi⟩ := hx
    obtain ⟨c, -, -, -, hr, -⟩ := Ty.exists_reads hs hl
    exact ⟨⟨l, c, x.canon⟩, rfl, ⟨hr, by rwa [Ty.inRange_canon]⟩, fun h => absurd h hw, rfl⟩

/-- **Leaves with values that reading can give have contents that stand for them.** -/
theorem Written.exists_encodes : ∀ {ls : List PackedLeaf} {xs : List Value},
    (∀ t ∈ ls.map (·.type), t.Documented ∧ t.Accepted) →
    List.Forall₂ Ty.Loadable (ls.map (·.type)) xs →
    ∃ ws : List Written, ws.map (·.leaf) = ls ∧ Encodes ws xs
  | [], _, _, .nil => ⟨[], rfl, by simp, trivial, rfl⟩
  | l :: ls, x :: xs, ht, .cons hx hxs => by
    obtain ⟨⟨hd, ho⟩, ht⟩ := List.forall_mem_cons.1 ht
    obtain ⟨ws, rfl, hw⟩ := exists_encodes ht hxs
    obtain ⟨w, rfl, hi, hv⟩ := exists_image hx ho (.inl (Ty.proper_of_documented _ hd))
    exact ⟨w :: ws, rfl, encodes_cons.2 ⟨x, xs, rfl, hi, hx.valid, hv, hw⟩⟩

theorem PackedLeaf.fill_ok {l : PackedLeaf} {v : Value} {r r' : List Builder × Builder}
    (h : l.fill v r = .ok r') : ∃ b b', l.type.store v b = .ok b' := by
  obtain ⟨bs, b⟩ := r
  rw [fill] at h
  split at h
  · obtain ⟨b', h, -⟩ := bind_eq_ok.1 h
    exact ⟨{}, b', h⟩
  · obtain ⟨b', h, -⟩ := bind_eq_ok.1 h
    exact ⟨b, b', h⟩

/-- **Values that reading can give have contents where writing them succeeds,** whatever their
types are. -/
theorem Written.exists_encodes_of_fillAll : ∀ {ls : List PackedLeaf} {xs : List Value}
    {r r' : List Builder × Builder}, (∀ t ∈ ls.map (·.type), t.Accepted) →
    List.Forall₂ Ty.Loadable (ls.map (·.type)) xs → PackedLeaf.fillAll ls xs r = .ok r' →
    ∃ ws : List Written, ws.map (·.leaf) = ls ∧ Encodes ws xs
  | [], _, _, _, _, .nil, _ => ⟨[], rfl, by simp, trivial, rfl⟩
  | l :: ls, x :: xs, r, r', h', .cons hx hxs, h => by
    obtain ⟨ho, hos⟩ := List.forall_mem_cons.1 h'
    obtain ⟨r1, h1, h⟩ := bind_eq_ok.1 h
    obtain ⟨b, b', hstore⟩ := PackedLeaf.fill_ok h1
    rw [← l.type.store_canon hx.valid] at hstore
    obtain ⟨ws, rfl, hw⟩ := exists_encodes_of_fillAll hos hxs h
    obtain ⟨w, rfl, hi, hv⟩ := exists_image hx ho (.inr ⟨b, b', hstore⟩)
    exact ⟨w :: ws, rfl, encodes_cons.2 ⟨x, xs, rfl, hi, hx.valid, hv, hw⟩⟩

/-- The leaves of a packing have contents for all values of the types. -/
theorem Packing.exists_encodes {bits refs : Nat} {ts : List Ty} {k : Packing} {xs : List Value}
    (hd : Ty.DocumentedAll ts) (hk : Packing.ofTypes bits refs ts = .ok k)
    (hxs : List.Forall₂ Ty.Loadable (Ty.allLeaves ts) xs) :
    ∃ ws : List Written, ws.map (·.leaf) = k.leaves ∧ Written.Encodes ws xs := by
  rw [← Packing.ofTypes_types hk] at hxs
  refine Written.exists_encodes (fun t ht => ?_) hxs
  rw [Packing.ofTypes_types hk] at ht
  exact ⟨Ty.documented_of_mem_allLeaves hd t ht, Packing.ofTypes_accepted hk t ht⟩

end TypedCells
