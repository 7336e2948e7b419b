import TypedCells.Proofs.Alike
import TypedCells.Proofs.Yields

/-!
# What is left of new values

To write a new value, a patch takes it apart until its next leaf is under the builder. Members
without leaves go away when they stand in front of a leaf. Those behind the last leaf are left on
the stack, where only the code for a leaf of the next variable would take them away. If none are
left, then all that is held is used up, and the code for the update is given.

* `Patch.expose_yields`: the next leaf of values can be exposed.
* `Patch.update_yields`: an update that leaves nothing behind gives code.
-/

namespace TypedCells

namespace Ty

/-- The last of the types, if there is one, ends in a leaf. -/
def EndInLeaf (ts : List Ty) : Prop := ∀ t ∈ ts.getLast?, t.endsInLeaf = true

theorem leaves_ne_nil_of_endsInLeaf (t : Ty) : t.endsInLeaf = true → t.leaves ≠ [] := by
  refine leafInduction (P := fun t => t.endsInLeaf = true → t.leaves ≠ [])
    (Q := fun fs => fieldsEndInLeaf fs = true → fieldLeaves fs ≠ []) (fun t h _ => ?_)
    (fun x fs ih => ih) (fun x t ih => ih) nofun (fun x t fs iht ihfs h => ?_) t
  · simp [leaves_leaf h]
  · rw [fieldLeaves]
    cases fs with
    | nil => exact fun hnil => iht h (List.append_eq_nil_iff.1 hnil).1
    | cons f fs => exact fun hnil => ihfs h (List.append_eq_nil_iff.1 hnil).2

theorem endInLeaf_concat (ts : List Ty) {t : Ty} :
    EndInLeaf (ts ++ [t]) ↔ t.endsInLeaf = true := by
  simp [EndInLeaf]

/-- Without leaves, only no types at all end in a leaf. -/
theorem endInLeaf_iff_nil {ts : List Ty} (hl : allLeaves ts = []) : EndInLeaf ts ↔ ts = [] := by
  obtain rfl | ⟨ts, t, rfl⟩ := ts.eq_nil_or_concat'
  · exact ⟨fun _ => rfl, nofun⟩
  · rw [allLeaves_append, List.append_eq_nil_iff] at hl
    refine ⟨fun h => absurd ?_ (leaves_ne_nil_of_endsInLeaf t ((endInLeaf_concat ts).1 h)), by simp⟩
    simpa [allLeaves] using hl.2

/-- Types in front of others make no difference. -/
theorem endInLeaf_append (ts : List Ty) {us : List Ty} (h : us ≠ []) :
    EndInLeaf (ts ++ us) ↔ EndInLeaf us := by
  obtain rfl | ⟨us, u, rfl⟩ := us.eq_nil_or_concat'
  · exact absurd rfl h
  · rw [← List.append_assoc, endInLeaf_concat, endInLeaf_concat]

theorem endInLeaf_members : ∀ {fs : List (Field Ty)}, fs ≠ [] →
    (EndInLeaf (fs.map (·.type)) ↔ fieldsEndInLeaf fs = true)
  | [], h => absurd rfl h
  | [_], _ => endInLeaf_concat []
  | f :: g :: fs, _ => (endInLeaf_append [f.type] (List.cons_ne_nil _ _)).trans
    (endInLeaf_members (List.cons_ne_nil g fs))

end Ty

namespace Patch

open Gen

variable {α : Type} {frame : Option Frame} {d entry k : Nat}

/-! ### Exposing a leaf -/

/-- The leaf `t`, which is the first one of `us`, has been exposed over `k` entries: what is held
under it are values with the other leaves. They end in a leaf if `us` do. -/
def Exposed (t : Ty) (us : List Ty) (rest : List Held) (k : Nat) (held : List Held) (e : Nat) :
    Prop :=
  ∃ ts : List Ty, held = ts.map .value ++ rest ∧ Ty.allLeaves us = t :: Ty.allLeaves ts ∧
    (Ty.EndInLeaf us ↔ Ty.EndInLeaf ts) ∧ e = k + 1 + held.length

/-- The first leaf of `us` has been exposed, or there are no leaves and nothing is left of them. -/
def Reached (t : Ty) (us : List Ty) (rest : List Held) (k : Nat) (r : Option (List Held))
    (e : Nat) : Prop :=
  (r = none ∧ Ty.allLeaves us = [] ∧ e = k + rest.length) ∨
    ∃ held, r = some held ∧ Exposed t us rest k held e

/-- Of values of the types `us`, of which no other leaf than `t` is the first one, the code exposes
this leaf. -/
def Reaches (code : Gen (Option (List Held))) (t : Ty) (us : List Ty) (rest : List Held) : Prop :=
  ∀ ⦃frame : Option Frame⦄ ⦃k : Nat⦄, 1 ≤ k → (∀ l ∈ (Ty.allLeaves us).head?, l = t) →
    code.Yields frame (k + us.length + rest.length) (Reached t us rest k)

section Reaches

variable {code code' : Gen (Option (List Held))} {t u : Ty} {us us' : List Ty} {rest : List Held}

/-- Types with the same leaves that do not end otherwise. -/
theorem Reached.congr {r : Option (List Held)} {e : Nat} (h : Reached t us rest k r e)
    (hl : Ty.allLeaves us' = Ty.allLeaves us)
    (he : us ≠ [] → (Ty.EndInLeaf us' ↔ Ty.EndInLeaf us)) : Reached t us' rest k r e := by
  rcases h with ⟨rfl, hus, rfl⟩ | ⟨held, rfl, ts, rfl, hts, hend, rfl⟩
  · exact .inl ⟨rfl, hl.trans hus, rfl⟩
  · have hne : us ≠ [] := by
      rintro rfl
      cases hts
    exact .inr ⟨_, rfl, ts, rfl, hl.trans hts, (he hne).trans hend, rfl⟩

/-- What the code leaves of a value in front of others: the first leaf, or else the others. -/
theorem Reaches.front (h : Reaches code t [u] (us.map .value ++ rest)) (hk : 1 ≤ k)
    (hl : ∀ l ∈ (Ty.allLeaves (u :: us)).head?, l = t) :
    code.Yields frame (k + (u :: us).length + rest.length) fun r e =>
      (r = none ∧ Ty.allLeaves (u :: us) = Ty.allLeaves us ∧ e = k + us.length + rest.length) ∨
        ∃ held, r = some held ∧ Exposed t (u :: us) rest k held e := by
  have hu : Ty.allLeaves (u :: us) = Ty.allLeaves [u] ++ Ty.allLeaves us :=
    Ty.allLeaves_append [u] us
  have hd : k + (u :: us).length + rest.length =
      k + [u].length + (us.map Held.value ++ rest).length := by
    simp only [List.length_cons, List.length_nil, List.length_append, List.length_map]
    omega
  rw [hd]
  refine (h hk fun l hm => hl l ?_).mono fun r e hr => ?_
  · rw [hu, List.head?_append]
    rw [Option.mem_def] at hm ⊢
    rw [hm, Option.some_or]
  · rcases hr with ⟨rfl, hnil, rfl⟩ | ⟨held, rfl, ts, rfl, hts, hend, rfl⟩
    · refine .inl ⟨rfl, by rw [hu, hnil, List.nil_append], ?_⟩
      rw [List.length_append, List.length_map, Nat.add_assoc]
    · refine .inr ⟨_, rfl, ts ++ us, by simp, ?_, ?_, rfl⟩
      · rw [hu, hts, Ty.allLeaves_append, List.cons_append]
      · by_cases hnil : us = []
        · rwa [hnil, List.append_nil]
        · exact (Ty.endInLeaf_append [u] hnil).trans (Ty.endInLeaf_append ts hnil).symm

theorem Reaches.cons (h : Reaches code t [u] (us.map .value ++ rest))
    (h' : Reaches code' t us rest) :
    Reaches (do
      match ← code with
      | some held => return some held
      | none => code') t (u :: us) rest := by
  intro frame k hk hl
  refine (h.front hk hl).bind fun r e hr => ?_
  rcases hr with ⟨rfl, hus, rfl⟩ | ⟨held, rfl, hheld⟩
  · rw [hus] at hl
    exact (h' hk hl).mono fun r e hr => hr.congr hus (Ty.endInLeaf_append [u])
  · exact .pure (.inr ⟨held, rfl, hheld⟩)

end Reaches

theorem openStruct_moves {n : Nat} (h : 2 ≤ d) : (openStruct n).Moves frame d (d - 1 + n) := by
  have hreverse : (Gen.reverse (n + 1) 0).Moves frame (d - 1 + n) (d - 1 + n) :=
    .reverse (by omega)
  exact (Moves.xchg h).trans fun _ => (Moves.untuple (by omega)).trans fun _ => hreverse

theorem exposeIn_reaches (t u : Ty) :
    ∀ rest : List Held, Reaches (exposeIn t u rest) t [u] rest := by
  refine Ty.leafInduction (P := fun u => ∀ rest, Reaches (exposeIn t u rest) t [u] rest)
    (Q := fun fs => ∀ rest, Reaches (exposeAmong t fs rest) t (fs.map (·.type)) rest)
    (fun u hu rest frame k hk hl => ?leaf) (fun x fs ih rest frame k hk hl => ?struct)
    (fun x u ih rest frame k hk hl => ?named) (fun rest frame k hk hl => ?nil)
    (fun x u fs ihu ihfs rest => ?cons) u
  case leaf =>
    have hleaves : Ty.allLeaves [u] = [u] := by simp [Ty.allLeaves, Ty.leaves_leaf hu]
    rw [hleaves] at hl
    obtain rfl := hl u rfl
    rw [exposeIn_leaf hu, if_pos rfl]
    have hend : Ty.EndInLeaf [u] ↔ Ty.EndInLeaf [] :=
      iff_of_true ((Ty.endInLeaf_concat []).2 (Ty.endsInLeaf_leaf hu))
        ((Ty.endInLeaf_iff_nil rfl).2 rfl)
    exact .pure (.inr ⟨rest, rfl, [], rfl, hleaves, hend, rfl⟩)
  case struct =>
    have hmembers : Ty.allLeaves (fs.map (·.type)) = Ty.allLeaves [.struct x fs] := by
      rw [Ty.allLeaves_members, Ty.allLeaves, List.flatMap_singleton]
      rfl
    have hopen : (openStruct fs.length).Moves frame (k + 1 + rest.length)
        (k + (fs.map (·.type)).length + rest.length) := by
      have h : (openStruct fs.length).Moves frame (k + 1 + rest.length)
        (k + 1 + rest.length - 1 + fs.length) := openStruct_moves (by omega)
      rwa [show k + 1 + rest.length - 1 + fs.length =
        k + (fs.map (·.type)).length + rest.length by rw [List.length_map]; omega] at h
    refine hopen.bind fun _ => (ih rest hk (by rwa [hmembers])).mono fun r e hr =>
      hr.congr hmembers.symm fun hne => ?_
    rw [Ty.endInLeaf_members fun h => hne (by rw [h]; rfl)]
    exact Ty.endInLeaf_concat []
  case named =>
    have hend : (Ty.alias x u).endsInLeaf = true ↔ Ty.EndInLeaf [u] :=
      (Ty.endInLeaf_concat [] (t := u)).symm
    exact (ih rest hk hl).mono fun r e hr => hr.congr rfl fun _ =>
      (Ty.endInLeaf_concat []).trans hend
  case nil => exact .pure (.inl ⟨rfl, rfl, rfl⟩)
  case cons =>
    rw [List.map_cons, exposeAmong, show fs.map (fun f => Held.value f.type) =
      (fs.map (·.type)).map .value from (List.map_map ..).symm]
    exact (ihu _).cons (ihfs rest)

/-- **The first leaf of values can be exposed.** -/
theorem expose_yields {t : Ty} : ∀ {us ls : List Ty} (held : List Held) {k : Nat}, 1 ≤ k →
    Ty.allLeaves us = t :: ls →
    (expose t (us.map .value ++ held)).Yields frame (k + us.length + held.length)
      (Exposed t us held k)
  | [], _, _, _, _, hl => by cases hl
  | u :: us, ls, held, k, hk, hl => by
    have hfirst : ∀ l ∈ (Ty.allLeaves (u :: us)).head?, l = t := by simp [hl]
    refine ((exposeIn_reaches t u (us.map .value ++ held)).front hk hfirst).bind fun r e hr => ?_
    rcases hr with ⟨rfl, hus, rfl⟩ | ⟨held, rfl, hheld⟩
    · refine (expose_yields held hk (hus.symm.trans hl)).mono fun r e hr => ?_
      obtain ⟨ts, rfl, hts, hend, rfl⟩ := hr
      have hne : us ≠ [] := by
        rintro rfl
        cases hts
      exact ⟨ts, rfl, hus.trans hts, (Ty.endInLeaf_append [u] hne).trans hend, rfl⟩
    · exact .pure hheld

/-! ### Writing -/

/-- The stack has the builders and what is held over `entry` entries. -/
def Progress.At (entry : Nat) (r : Progress) (d : Nat) : Prop :=
  1 ≤ r.builders ∧ d = entry + r.held.length + r.builders

theorem openBuilderFor_yields (ls : List StoredLeaf) {r : Progress} (he : 1 ≤ entry)
    (hr : r.At entry d) : (openBuilderFor entry ls r).Yields frame d fun q e =>
      q.held = r.held ∧ q.At entry e := by
  obtain ⟨hb, hd⟩ := hr
  unfold openBuilderFor
  split
  · refine .depth_bind ?_
    have hswap : (Gen.blkSwap (d + 1 - entry - r.builders) 1).Moves frame d d := .blkSwap (by omega)
    have hnewc : (Gen.op .newc).Moves frame d (d + 1) := .op (Nat.zero_le d) rfl
    exact hswap.bind fun _ => hnewc.bind fun _ => .pure ⟨rfl, Nat.le_add_left .., by
      simp only
      omega⟩
  · exact .pure ⟨rfl, hb, hd⟩

/-- The leaves have been written. Values without leaves are left, but none of types that end in a
leaf. -/
def LeftAfter (entry : Nat) (us : List Ty) (held : List Held) (r : Progress) (e : Nat) : Prop :=
  ∃ ts : List Ty, r.held = ts.map .value ++ held ∧ Ty.allLeaves ts = [] ∧
    (Ty.EndInLeaf us ↔ ts = []) ∧ r.At entry e

theorem writeLeaves_yields (held : List Held) (he : 1 ≤ entry) : ∀ {ls : List StoredLeaf}
    {us : List Ty} {r : Progress} {d : Nat}, Ty.allLeaves us = ls.map (·.type) →
    r.held = us.map .value ++ held → r.At entry d →
    (writeLeaves entry ls r).Yields frame d (LeftAfter entry us held)
  | [], us, r, d, hu, hr, hd => .pure ⟨us, hr, hu, Ty.endInLeaf_iff_nil hu, hd⟩
  | l :: ls, us, r, d, hu, hr, hd => by
    refine (openBuilderFor_yields [l] he hd).bind fun q e hq => ?_
    obtain ⟨hheld, hb, rfl⟩ := hq
    rw [hheld, hr, List.length_append, List.length_map,
      show entry + (us.length + held.length) + q.builders =
        entry + q.builders + us.length + held.length by omega]
    refine (expose_yields held (by omega) hu).bind fun rest e hrest => ?_
    obtain ⟨ts, rfl, hts, hend, rfl⟩ := hrest
    have hstore : (Gen.op (.store l.type)).Moves frame
        (entry + q.builders + 1 + (ts.map Held.value ++ held).length)
        (entry + (ts.map Held.value ++ held).length + q.builders) :=
      .op (by simp only [Op.effect]; omega) (by simp only [Op.effect]; omega)
    refine hstore.bind fun _ => ?_
    have htypes : Ty.allLeaves ts = ls.map (·.type) := by
      rw [hu, List.map_cons] at hts
      exact (List.cons.inj hts).2.symm
    refine (writeLeaves_yields (r := ⟨_, q.builders⟩) held he htypes rfl ⟨hb, rfl⟩).mono
      fun r e hr => ?_
    obtain ⟨us', hus, hnil, hend', hd'⟩ := hr
    exact ⟨us', hus, hnil, hend.trans hend', hd'⟩

theorem copyFragments_yields (held : List Held) (hk : 1 ≤ k) : ∀ fs : List Fragment,
    (copyFragments fs (fs.map heldAs ++ held)).Yields frame (k + fs.length + held.length)
      fun r e => r = held ∧ e = k + held.length
  | [] => .pure ⟨rfl, rfl⟩
  | f :: fs => by
    have ih := copyFragments_yields held hk fs
    have hput {o : Op} (ho : o.effect = ⟨2, 1⟩) : (do Gen.op o; return fs.map heldAs ++ held :
        Gen (List Held)).Yields frame (k + (f :: fs).length + held.length) fun r e =>
          r = fs.map heldAs ++ held ∧ e = k + fs.length + held.length := by
      have hop : (Gen.op o).Moves frame (k + (f :: fs).length + held.length)
          (k + fs.length + held.length) := by
        refine .op ?_ ?_ <;> rw [ho] <;> simp only [List.length_cons] <;> omega
      exact hop.bind fun _ => .pure ⟨rfl, rfl⟩
    cases f with
    | raw bits refs =>
      refine (hput (o := .stSlice) rfl).bind fun r e hr => ?_
      obtain ⟨rfl, rfl⟩ := hr
      exact ih
    | value t =>
      rw [List.map_cons, List.cons_append, copyFragments, heldAs, copyValue, if_pos rfl]
      refine (hput (o := .store t) rfl).bind fun r e hr => ?_
      obtain ⟨rfl, rfl⟩ := hr
      exact ih

theorem copyPiece_yields (p : List StoredLeaf) (nextOpens : Bool) (held : List Held)
    (hk : 1 ≤ k) : (copyPiece p nextOpens (heldOf p nextOpens ++ held)).Yields frame
      (k + (heldOf p nextOpens).length + held.length) fun r e =>
        r = held ∧ e = k + held.length := by
  cases nextOpens with
  | true =>
    have hcopy : (Gen.op .stSlice).Moves frame (k + 1 + held.length) (k + held.length) :=
      .op (by simp only [Op.effect]; omega) (by simp only [Op.effect]; omega)
    exact hcopy.bind fun _ => .pure ⟨rfl, rfl⟩
  | false =>
    rw [heldOf_parts, List.length_map]
    exact copyFragments_yields held hk _

section Piece

variable {p : List StoredLeaf} {ps : List (List StoredLeaf)} {v : Variable} {us : List Ty}
  {r : Progress}

/-- What is held of a piece that is not picked is copied, and what is held of the others is left. -/
theorem copyHeld_yields (he : 1 ≤ entry)
    (hr : r.held = heldOf p (opensNext ps) ++ heldFor ps) (hd : r.At entry d) :
    (copyPiece p (opensNext ps) r.held).Yields frame d fun held e =>
      held = heldFor ps ∧ Progress.At entry ⟨held, r.builders⟩ e := by
  obtain ⟨hb, rfl⟩ := hd
  rw [hr, List.length_append,
    show entry + ((heldOf p (opensNext ps)).length + (heldFor ps).length) + r.builders =
      entry + r.builders + (heldOf p (opensNext ps)).length + (heldFor ps).length by omega]
  refine (copyPiece_yields p (opensNext ps) (heldFor ps) (by omega)).mono fun held e h => ?_
  obtain ⟨rfl, rfl⟩ := h
  exact ⟨rfl, hb, Nat.add_right_comm ..⟩

/-- The leaves of a picked piece are written, behind values without leaves. -/
theorem writePicked_yields (he : 1 ≤ entry) (hp : IsPiece p) (ho : ownerOf p = some v)
    (hu : Ty.allLeaves us = []) (hr : r.held = us.map .value ++ heldFor (p :: ps))
    (hd : r.At entry d) :
    (writeLeaves entry p r).Yields frame d (LeftAfter entry [v.type] (heldFor ps)) := by
  obtain ⟨-, htypes⟩ := hp.of_owner ho
  rw [heldFor_picked ho] at hr
  have hleaves : Ty.allLeaves (us ++ [v.type]) = p.map (·.type) := by
    rw [Ty.allLeaves_append, hu, htypes, Ty.allLeaves, List.flatMap_singleton, List.nil_append]
  refine (writeLeaves_yields (heldFor ps) he hleaves (by rw [hr]; simp) hd).mono fun r e h => ?_
  obtain ⟨ts, hts, hnil, hclean, hd'⟩ := h
  exact ⟨ts, hts, hnil, (Ty.endInLeaf_append us (List.cons_ne_nil _ _)).symm.trans hclean, hd'⟩

end Piece

/-- The first of the pieces is picked. -/
def PickedFirst : List (List StoredLeaf) → Prop
  | [] => False
  | p :: _ => ∃ v, ownerOf p = some v

/-- Each picked variable ends in a leaf, or another picked one comes next. -/
def EndsClean : List (List StoredLeaf) → Prop
  | [] => True
  | p :: ps => (∀ v, ownerOf p = some v → v.type.endsInLeaf = true ∨ PickedFirst ps) ∧ EndsClean ps

/-- **What is held of pieces that end clean is used up.** -/
theorem writePieces_yields (he : 1 ≤ entry) : ∀ {ps : List (List StoredLeaf)} {us : List Ty}
    {r : Progress} {d : Nat}, (∀ p ∈ ps, IsPiece p) → EndsClean ps → Ty.allLeaves us = [] →
    (us = [] ∨ PickedFirst ps) → r.held = us.map .value ++ heldFor ps → r.At entry d →
    (writePieces entry ps r).Yields frame d fun r e => r.held = [] ∧ r.At entry e
  | [], us, r, d, _, _, _, hnil, hr, hd => by
    obtain rfl := hnil.resolve_right id
    exact .pure ⟨hr, hd⟩
  | p :: ps, us, r, d, hps, hend, hu, hnil, hr, hd => by
    obtain ⟨hp, hps'⟩ := List.forall_mem_cons.1 hps
    rcases ho : ownerOf p with _ | v
    · obtain rfl := hnil.resolve_right fun ⟨w, hw⟩ => nomatch ho.symm.trans hw
      rw [heldFor_unpicked ho] at hr
      rw [writePieces_unpicked hp ho]
      refine (openBuilderFor_yields p he hd).bind fun q e hq => ?_
      obtain ⟨hheld, hd'⟩ := hq
      refine (copyHeld_yields he (hheld.trans hr) hd').bind fun held e hrest => ?_
      obtain ⟨rfl, hd'⟩ := hrest
      exact writePieces_yields he hps' hend.2 hu (.inl rfl) rfl hd'
    · rw [writePieces_picked hp ho]
      refine (writePicked_yields he hp ho hu hr hd).bind fun r e hr => ?_
      obtain ⟨ts, hts, hnil', hclean, hd'⟩ := hr
      refine writePieces_yields he hps' hend.2 hnil' ?_ hts hd'
      exact (hend.1 v ho).imp_left fun hv => hclean.1 ((Ty.endInLeaf_concat []).2 hv)

/-- If what is held is used up, then the pieces end clean. -/
theorem writePieces_ends (he : 1 ≤ entry) : ∀ {ps : List (List StoredLeaf)} {us : List Ty}
    {r : Progress} {d : Nat}, (∀ p ∈ ps, IsPiece p) → (∀ l ∈ ps.flatten, l.type.IsLeaf) →
    Ty.allLeaves us = [] → r.held = us.map .value ++ heldFor ps → r.At entry d →
    (writePieces entry ps r).Gives frame d fun q _ =>
      q.held = [] → EndsClean ps ∧ (us = [] ∨ PickedFirst ps)
  | [], us, r, d, _, _, _, hr, _ => Gen.Yields.gives <| .pure fun hnil => by
    rw [hnil] at hr
    exact ⟨trivial, .inl (by simpa [heldFor] using hr.symm)⟩
  | p :: ps, us, r, d, hps, hleaf, hu, hr, hd => by
    obtain ⟨hp, hps'⟩ := List.forall_mem_cons.1 hps
    obtain ⟨hleafp, hleaf'⟩ := List.forall_mem_append.1 hleaf
    rcases ho : ownerOf p with _ | v
    · rw [heldFor_unpicked ho] at hr
      rw [writePieces_unpicked hp ho]
      refine (openBuilderFor_yields p he hd).gives.bind fun q e hq => ?_
      obtain ⟨hheld, hd'⟩ := hq
      rcases us with _ | ⟨u, us⟩
      · refine (copyHeld_yields he (hheld.trans hr) hd').gives.bind fun held e hrest => ?_
        obtain ⟨rfl, hd'⟩ := hrest
        intro g hg hnil
        have hend := writePieces_ends he hps' hleaf' hu rfl hd' hg hnil
        have hnone : ∀ v, ownerOf p ≠ some v := fun v => by simp [ho]
        exact ⟨⟨fun v hv => absurd hv (hnone v), hend.1⟩, .inl rfl⟩
      · rw [hheld, hr]
        exact (copyPiece_fails hp.ne_nil hleafp (List.append_eq_nil_iff.1 hu).1 _ _).bind.gives
    · rw [writePieces_picked hp ho]
      refine (writePicked_yields he hp ho hu hr hd).gives.bind fun q e hq => ?_
      obtain ⟨ts, hts, hnil', hclean, hd'⟩ := hq
      intro g hg hnil
      obtain ⟨hend, hnext⟩ := writePieces_ends he hps' hleaf' hnil' hts hd' hg hnil
      refine ⟨⟨fun w hw => ?_, hend⟩, .inr ⟨v, ho⟩⟩
      obtain rfl := Option.some.inj (ho.symm.trans hw)
      exact hnext.imp_left fun h => (Ty.endInLeaf_concat []).1 (hclean.2 h)

/-! ### Taking data apart -/

theorem passRuns_moves (last : Bool) (h : 1 ≤ d) : ∀ rs : List (List StoredLeaf),
    (passRuns last rs).Moves frame d d
  | [] => .pure ()
  | r :: rs => (passRun_moves r _ h).trans fun _ => passRuns_moves last h rs

theorem takeFragments_moves : ∀ {fs : List Fragment} {d : Nat}, 1 ≤ d →
    (takeFragments fs).Moves frame d (d + fs.length)
  | [], _, _ => .pure ()
  | f :: fs, d, h => by
    have ih : (takeFragments fs).Moves frame (d + 1) (d + (f :: fs).length) := by
      rw [List.length_cons, show d + (fs.length + 1) = d + 1 + fs.length by omega]
      exact takeFragments_moves (by omega)
    cases f with
    | raw bits refs =>
      have hsplit : (Gen.op .split).Moves frame (d + 2) (d + 1) :=
        .op (by simp only [Op.effect]; omega) (by simp only [Op.effect]; omega)
      exact counts_moves _ _ (hsplit.trans fun _ => ih)
    | value t =>
      have hload : (Gen.op (.load t)).Moves frame d (d + 1) :=
        .op h (by simp only [Op.effect]; omega)
      exact hload.trans fun _ => ih

theorem takeCell_moves (ls : List StoredLeaf) (h : 1 ≤ d) :
    (takeCell ls).Moves frame d (d + 1) := by
  unfold takeCell
  split
  · exact .op h (by simp only [Op.effect]; omega)
  · have hrefs : (Gen.op .bitRefs).Moves frame (d + 1) (d + 2) :=
      .op (Nat.le_add_left ..) (by simp only [Op.effect]; omega)
    have hdec : (Gen.op .dec).Moves frame (d + 2) (d + 2) :=
      .op (by simp only [Op.effect]; omega) (by simp only [Op.effect]; omega)
    have hsplit : (Gen.op .split).Moves frame (d + 2) (d + 1) :=
      .op (by simp only [Op.effect]; omega) (by simp only [Op.effect]; omega)
    exact (Moves.push h).trans fun _ => hrefs.trans fun _ => hdec.trans fun _ =>
      hsplit.trans fun _ => enterLink_moves (by omega)

theorem takeStretch_moves (st : List StoredLeaf) (nextOpens : Bool) (h : 1 ≤ d) :
    (takeStretch st nextOpens).Moves frame d (d + (heldOf st nextOpens).length) := by
  rw [length_heldOf]
  cases nextOpens with
  | true => exact takeCell_moves st h
  | false => exact takeFragments_moves h

/-- The code for a new value leaves one entry, at each height from `entry` on. -/
def Provides (new : Nat → α → Gen α) (frame : Option Frame) (entry : Nat) : Prop :=
  ∀ i a d, entry ≤ d → (new i a).Moves frame d (d + 1)

section Gather

variable {new : Nat → α → Gen α}

theorem provide_moves (hnew : Provides new frame entry) (v : Variable) (a : α) (h : entry ≤ d) :
    (provide new v a).Moves frame d (d + 1) :=
  Gen.Yields.depth_bind <| (hnew v.index a d h).trans fun b =>
    (Moves.ensureDepth _ rfl).trans fun _ => .pure b

theorem provideEach_moves (hnew : Provides new frame entry) : ∀ (vs : List Variable) (a : α)
    {d : Nat}, entry ≤ d → (provideEach new vs a).Moves frame d (d + vs.length)
  | [], a, _, _ => .pure a
  | v :: vs, a, d, h => by
    rw [List.length_cons, show d + (vs.length + 1) = d + 1 + vs.length by omega]
    exact (provide_moves hnew v a h).trans fun b => provideEach_moves hnew vs b (by omega)

theorem replaceStretch_moves (hnew : Provides new frame entry) (st : List StoredLeaf)
    (nextOpens : Bool) (a : α) (h : entry ≤ d) (hd : 1 ≤ d) :
    (replaceStretch new st nextOpens a).Moves frame d (d + (pickedVariables st).length) := by
  by_cases hone : st.length = 1 ∧ (pickedVariables st).length = 1 ∧ nextOpens = false
  · obtain ⟨h1, h2, rfl⟩ := hone
    obtain ⟨l, rfl⟩ := List.length_eq_one_iff.1 h1
    obtain ⟨v, hv⟩ := List.length_eq_one_iff.1 h2
    rw [replaceStretch_leaf hv, hv, List.length_singleton]
    have hload : (Gen.op (.load l.type)).Moves frame d (d + 1) :=
      .op hd (by simp only [Op.effect]; omega)
    have hpop : (Gen.pop 2).Moves frame (d + 1 + 1) (d + 1) := .pop (by omega)
    exact hload.trans fun _ => (provide_moves hnew v a (by omega)).trans fun b =>
      hpop.trans fun _ => .pure b
  · rw [replaceStretch_apart hone]
    have hswap : (Gen.blkSwap 1 (pickedVariables st).length).Moves frame
        (d + (pickedVariables st).length) (d + (pickedVariables st).length) := .blkSwap (by omega)
    exact (passRuns_moves nextOpens hd _).trans fun _ => (provideEach_moves hnew _ a h).trans
      fun b => hswap.trans fun _ => .pure b

theorem gatherStretches_yields (hnew : Provides new frame entry) :
    ∀ (sts : List (List StoredLeaf)) (a : α) {d : Nat}, entry ≤ d → 1 ≤ d →
      (gatherStretches new sts a).Yields frame d fun r e => e = d + r.1.length
  | [], _, _, _, _ => .pure rfl
  | st :: sts, a, d, h, hd => by
    by_cases hpick : st.head?.any (·.picked) = true
    · rw [gatherStretches_picked hpick]
      refine (replaceStretch_moves hnew st _ a h hd).bind fun b =>
        (gatherStretches_yields hnew sts b (by omega) (by omega)).bind fun r e he => .pure ?_
      simp only [List.length_append, List.length_map]
      omega
    · rw [gatherStretches_unpicked hpick]
      refine (takeStretch_moves st _ hd).bind fun _ =>
        (gatherStretches_yields hnew sts a (by omega) (by omega)).bind fun r e he => .pure ?_
      simp only [List.length_append]
      omega

theorem gather_yields {p : Patch} (hps : ∀ q ∈ pieces p.visited, IsPiece q)
    (hnew : Provides new frame d) (a : α) (hd : 1 ≤ d) :
    (gather p new a).Yields frame d fun r e =>
      r.1 = heldFor (pieces p.visited) ∧ e = d + r.1.length := by
  obtain ⟨-, hpieces, hst⟩ := stretches_spec hps
  refine .depth_bind <| (enterFirst_moves p hd).bind fun _ => ?_
  refine ((gatherStretches_yields hnew (stretches p.visited) a (Nat.le_refl d) hd).and
    (p := fun r _ => r.1 = heldFor ((stretches p.visited).flatMap pieces))
    fun g hg => gatherStretches_held hst hg).bind fun r e hr => ?_
  obtain ⟨hheld, rfl⟩ := hr
  have hreverse : (Gen.reverse (r.1.length + 1) 0).Moves frame (d + r.1.length) (d + r.1.length) :=
    .reverse (by omega)
  exact (Moves.ensureDepth _ rfl).bind fun _ => hreverse.bind fun _ =>
    .pure ⟨by rw [hheld, hpieces], rfl⟩

end Gather

/-! ### The update -/

theorem linkBuilders_moves : ∀ {n d : Nat}, 1 ≤ n → (linkBuilders n).Moves frame (d + n) (d + 1)
  | 1, _, _ => .pure ()
  | n + 2, d, _ => by
    have hlink : (Gen.op .stBuilderRef).Moves frame (d + (n + 2)) (d + (n + 1)) :=
      .op (by simp only [Op.effect]; omega) (by simp only [Op.effect]; omega)
    exact hlink.trans fun _ => linkBuilders_moves (Nat.le_add_left 1 n)

/-- **An update that leaves nothing behind gives code,** as far as the operands of instructions
go. -/
theorem update_yields {p : Patch} {new : Nat → α → Gen α}
    (hps : ∀ q ∈ pieces p.visited, IsPiece q) (hend : EndsClean (pieces p.visited))
    (hnew : Provides new frame d) (a : α) (hd : 1 ≤ d) : (p.update new a).Moves frame d d := by
  refine Gen.Yields.depth_bind <| (Moves.require hd).bind fun _ =>
    (gather_yields hps hnew a hd).bind fun r e hr => ?_
  obtain ⟨held, b⟩ := r
  obtain ⟨rfl, rfl⟩ := hr
  have hnewc {e : Nat} : (Gen.op .newc).Moves frame e (e + 1) := .op (Nat.zero_le e) rfl
  have hnil : Ty.allLeaves [] = [] := rfl
  refine hnewc.bind fun _ => (writePieces_yields hd hps hend hnil (.inl rfl) rfl
    ⟨Nat.le_refl 1, rfl⟩).bind fun r e hr => ?_
  obtain ⟨hheld, hb, rfl⟩ := hr
  rw [hheld]
  have htail : (Gen.op .stSlice).Moves frame (d + 0 + r.builders) (d - 1 + r.builders) :=
    .op (by simp only [Op.effect]; omega) (by simp only [Op.effect]; omega)
  have hlink : (linkBuilders r.builders).Moves frame (d - 1 + r.builders) (d - 1 + 1) :=
    linkBuilders_moves hb
  rw [Nat.sub_add_cancel hd] at hlink
  have hendc : (Gen.op .endc).Moves frame d d := .op hd (by simp only [Op.effect]; omega)
  have hctos : (Gen.op .ctos).Moves frame d d := .op hd (by simp only [Op.effect]; omega)
  refine htail.bind fun _ => hlink.bind fun _ => hendc.bind fun _ => hctos.bind fun _ => ?_
  exact (Moves.ensureDepth _ rfl).bind fun _ => .pure rfl

/-- Code for an update is only given if nothing is left behind. -/
theorem update_ends {p : Patch} {new : Nat → α → Gen α} (hps : ∀ q ∈ pieces p.visited, IsPiece q)
    (hleaf : ∀ l ∈ p.visited, l.type.IsLeaf) (hnew : Provides new frame d) (a : α) (hd : 1 ≤ d) :
    (p.update new a).Gives frame d fun _ _ => EndsClean (pieces p.visited) := by
  have hflat : (pieces p.visited).flatten = p.visited := List.flatten_splitBy ..
  refine (Makes.depth d).yields.gives.bind fun _ _ h => ?_
  obtain ⟨rfl, rfl⟩ := h
  refine (Moves.require hd).gives.bind fun _ e he => ?_
  obtain rfl := he
  refine (gather_yields hps hnew a hd).gives.bind fun r e hr => ?_
  obtain ⟨held, b⟩ := r
  obtain ⟨rfl, rfl⟩ := hr
  have hnewc {e : Nat} : (Gen.op .newc).Moves frame e (e + 1) := .op (Nat.zero_le e) rfl
  refine hnewc.gives.bind fun _ e he => ?_
  obtain rfl := he
  have hnil : Ty.allLeaves [] = [] := rfl
  refine (writePieces_ends hd hps (by rwa [hflat]) hnil rfl ⟨Nat.le_refl 1, rfl⟩).bind
    fun r e hr => ?_
  rcases hheld : r.held with _ | ⟨h, held⟩
  · exact fun _ _ => (hr hheld).1
  · exact Fails.gives <| .of_bind fun _ => .of_bind fun _ => .of_bind fun _ => .of_bind fun _ =>
      (Fails.fail _).bind

end Patch

end TypedCells
