import TypedCells.Interface.Format
import TypedCells.Proofs.Grammar

/-!
# Reading descriptions back

Of the value of a record the record can be read again, whatever the library is that makes the one of
the other (`Param.Format.Documented.ofValue?_toValue`), and the value nests as deep as the record
(`Param.Format.Documented.nesting_toValue`). A record without a list of members and one with an
empty list are not the same, and neither are their values.

* `Param.Format.read?_write`: what is written is read back as the record if it nests no deeper than
  can be read, and is refused otherwise; no other record is written the same.
* `Param.library_documented`: the functions of `Param` are such a library.
-/

namespace TypedCells

open Json

namespace Param

mutual

/-- How many arrays and objects are inside each other in the value of a record. -/
def nesting : Param → Nat
  | ⟨_, _, none⟩ => 1
  | ⟨_, _, some ps⟩ => nestings ps + 2

/-- How many arrays and objects are inside each other in the values of several records. -/
def nestings : List Param → Nat
  | [] => 0
  | p :: ps => max (nesting p) (nestings ps)

end

/-! ### Any library -/

namespace Format

variable {f : Format}

namespace Documented

mutual

theorem nesting_toValue (hf : f.Documented) : ∀ p : Param, (f.toValue p).nesting = p.nesting
  | ⟨name, type, none⟩ => by
    rw [hf.toValue_none]
    rfl
  | ⟨name, type, some ps⟩ => by
    rw [hf.toValue_some]
    simp [Json.nesting, membersNesting, Param.nesting, hf.itemsNesting_map ps]

theorem itemsNesting_map (hf : f.Documented) : ∀ ps : List Param,
    itemsNesting (ps.map f.toValue) = nestings ps
  | [] => rfl
  | p :: ps => by
    rw [List.map_cons, itemsNesting, nestings, hf.nesting_toValue p, hf.itemsNesting_map ps]

end

mutual

/-- **The value of a record describes it.** -/
theorem ofValue?_toValue (hf : f.Documented) : ∀ p : Param, f.ofValue? (f.toValue p) = some p
  | ⟨name, type, none⟩ => by rw [hf.toValue_none, hf.ofValue?_none]
  | ⟨name, type, some ps⟩ => by
    rw [hf.toValue_some, hf.ofValue?_some, hf.mapM_ofValue? ps, Option.map_some]

theorem mapM_ofValue? (hf : f.Documented) : ∀ ps : List Param,
    (ps.map f.toValue).mapM f.ofValue? = some ps
  | [] => rfl
  | p :: ps => by
    rw [List.map_cons, List.mapM_cons, hf.ofValue?_toValue p, hf.mapM_ofValue? ps]
    rfl

end

/-- What is written is read back within the limit. -/
theorem read?_write_eq (hf : f.Documented) (p : Param) :
    f.read? (f.write p) = if p.nesting ≤ f.limit then some p else none := by
  have htext := hf.write_denotes p
  rw [← hf.nesting_toValue p]
  split
  · next h => rw [hf.read?_of_le htext h, hf.ofValue?_toValue]
  · next h => exact hf.read?_of_lt htext (Nat.lt_of_not_le h)

/-- Different records are written differently, since a text denotes one value at most. -/
theorem write_inj (hf : f.Documented) {p q : Param} : f.write p = f.write q ↔ p = q := by
  refine ⟨fun h => ?_, congrArg f.write⟩
  have hq := hf.write_denotes q
  rw [← h] at hq
  have hv : f.toValue p = f.toValue q := (hf.write_denotes p).unique hq
  have hp := hf.ofValue?_toValue p
  rw [hv, hf.ofValue?_toValue q] at hp
  exact (Option.some.inj hp).symm

end Documented

/-- **Records survive their texts.** What a library writes for a record it reads back as the same
record, unless arrays and objects are nested too deep in it, and then it is refused. At any depth
the text determines the record. -/
theorem read?_write (hf : f.Documented) (p : Param) :
    f.read? (f.write p) = (if p.nesting ≤ f.limit then some p else none) ∧
      ∀ q : Param, f.write q = f.write p ↔ q = p :=
  ⟨hf.read?_write_eq p, fun _ => hf.write_inj⟩

end Format

/-! ### The functions of this library -/

mutual

/-- The JSON value of a record. -/
def toJson : Param → Json
  | ⟨name, type, none⟩ =>
    .object [(some "name", .string (some name)), (some "type", .string (some type))]
  | ⟨name, type, some ps⟩ =>
    .object [(some "name", .string (some name)), (some "type", .string (some type)),
      (some "components", .array (toJsons ps))]

/-- The JSON values of several records. -/
def toJsons : List Param → List Json
  | [] => []
  | p :: ps => toJson p :: toJsons ps

end

theorem toJsons_eq : ∀ ps : List Param, toJsons ps = ps.map toJson
  | [] => rfl
  | p :: ps => by rw [toJsons, List.map_cons, toJsons_eq ps]

/-- The functions with which records are written and read here. -/
def library : Format where
  toValue := toJson
  ofValue? v := ofJson? v.nesting v
  write := toText
  read? := ofText?
  limit := maxNesting

end Param

/-! ### What is written -/

namespace Json

/-- The keys of a record are written as they are. -/
theorem key_literal : Literal ['n', 'a', 'm', 'e'] "name".toList ∧
    Literal ['t', 'y', 'p', 'e'] "type".toList ∧
    Literal ['c', 'o', 'm', 'p', 'o', 'n', 'e', 'n', 't', 's'] "components".toList :=
  ⟨escape_literal "name".toList, escape_literal "type".toList, escape_literal "components".toList⟩

end Json

namespace Param

/-- The JSON texts of several records with commas between them. -/
def itemsText (ps : List Param) : List Char := (String.intercalate "," (toTexts ps)).toList

theorem itemsText_singleton (p : Param) : itemsText [p] = p.toText.toList := by
  simp [itemsText, toTexts]

theorem itemsText_cons_cons (p q : Param) (ps : List Param) :
    itemsText (p :: q :: ps) = p.toText.toList ++ ',' :: itemsText (q :: ps) := by
  simp [itemsText, toTexts, String.toList_intercalate]

theorem toText_some_denotes (name type : String) {ps : List Param}
    (h : Denotes ('[' :: (itemsText ps ++ [']'])) (.array (toJsons ps))) :
    Denotes (toText ⟨name, type, some ps⟩).toList (toJson ⟨name, type, some ps⟩) := by
  have hmembers := DenotesMembers.cons key_literal.1 (quote_denotes name)
    (.cons key_literal.2.1 (quote_denotes type) (.last key_literal.2.2 h))
  simpa [toText, toJson, itemsText] using Denotes.object hmembers

mutual

/-- **The text of a record denotes its value.** -/
theorem toText_denotes : ∀ p : Param, Denotes p.toText.toList p.toJson
  | ⟨name, type, none⟩ => by
    have hmembers := DenotesMembers.cons key_literal.1 (quote_denotes name)
      (.last key_literal.2.1 (quote_denotes type))
    simpa [toText, toJson] using Denotes.object hmembers
  | ⟨name, type, some []⟩ => toText_some_denotes name type .noItems
  | ⟨name, type, some (p :: ps)⟩ =>
    toText_some_denotes name type (.array (itemsText_denotes (p :: ps) (List.cons_ne_nil p ps)))

theorem itemsText_denotes : ∀ ps : List Param, ps ≠ [] → DenotesItems (itemsText ps) (toJsons ps)
  | [], h => absurd rfl h
  | [p], _ => by
    rw [itemsText_singleton]
    exact .last (toText_denotes p)
  | p :: q :: ps, _ => by
    rw [itemsText_cons_cons]
    exact .cons (toText_denotes p) (itemsText_denotes (q :: ps) (List.cons_ne_nil q ps))

end

/-! ### What is read -/

/-- A value under a key is one of the members. -/
theorem mem_of_valueOf? {key : String} {members : List (Option String × Json)} {v : Json}
    (h : valueOf? key members = some (some v)) : ∃ k, (k, v) ∈ members := by
  rw [valueOf?] at h
  split at h
  · cases h
  · next m hm =>
    obtain rfl := Option.some.inj (Option.some.inj h)
    exact ⟨m.1, (List.mem_filter.1 (hm ▸ List.mem_singleton_self m)).1⟩
  · cases h

/-- The components of a value are inside it. -/
theorem nesting_components {v name type components : Json}
    (h : entriesOf? v = some (name, type, some components)) : components.nesting < v.nesting := by
  unfold entriesOf? at h
  split at h
  · next members =>
    split at h
    · cases h
    · simp only [Option.bind_eq_bind, Option.bind_eq_some_iff, Option.pure_def, Option.some.injEq,
        Prod.mk.injEq] at h
      obtain ⟨_, -, _, -, _, hc, _, -, _, -, -, -, rfl⟩ := h
      obtain ⟨k, hk⟩ := mem_of_valueOf? hc
      exact Nat.lt_succ_of_le (nesting_le_membersNesting hk)
  · cases h
  · next n t c =>
    have hc := (Prod.mk.inj (Prod.mk.inj (Option.some.inj h)).2).2
    obtain rfl : c = components := by simpa using hc
    exact Nat.lt_succ_of_le (nesting_le_itemsNesting (by simp))
  · cases h

/-- A value without arrays and objects describes no record. -/
theorem entriesOf?_of_nesting {v : Json} (h : v.nesting = 0) : entriesOf? v = none := by
  cases v with
  | array | object => cases h
  | _ => rfl

theorem mapM_congr {α β : Type} {f g : α → Option β} : ∀ {as : List α},
    (∀ a ∈ as, f a = g a) → as.mapM f = as.mapM g
  | [], _ => rfl
  | a :: as, h => by
    obtain ⟨ha, has⟩ := List.forall_mem_cons.1 h
    rw [List.mapM_cons, List.mapM_cons, ha, mapM_congr has]

/-- The bound on the nesting does not matter where it is enough. -/
theorem ofJson?_congr : ∀ (m n : Nat) (v : Json), v.nesting ≤ m → v.nesting ≤ n →
    ofJson? m v = ofJson? n v
  | 0, 0, _, _, _ => rfl
  | 0, n + 1, v, h, _ => by simp [ofJson?, entriesOf?_of_nesting (Nat.le_zero.1 h)]
  | m + 1, 0, v, _, h => by simp [ofJson?, entriesOf?_of_nesting (Nat.le_zero.1 h)]
  | m + 1, n + 1, v, hm, hn => by
    rcases he : entriesOf? v with _ | ⟨name, type, _ | components⟩
    · simp [ofJson?, he]
    · simp [ofJson?, he, membersOf?]
    · have hlt := nesting_components he
      have hmembers : membersOf? m (some components) = membersOf? n (some components) := by
        cases components with
        | array vs =>
          simp only [Json.nesting] at hlt
          obtain ⟨m, rfl⟩ : ∃ k, m = k + 1 := ⟨m - 1, by omega⟩
          obtain ⟨n, rfl⟩ : ∃ k, n = k + 1 := ⟨n - 1, by omega⟩
          have hvs : vs.mapM (ofJson? m) = vs.mapM (ofJson? n) := mapM_congr fun w hw => by
            have := nesting_le_itemsNesting hw
            exact ofJson?_congr m n w (by omega) (by omega)
          simp [membersOf?, hvs]
        | _ => simp [membersOf?]
      simp [ofJson?, he, hmembers]
termination_by m => m

theorem ofJson?_none (name type : String) (n : Nat) : ofJson? (n + 1)
    (.object [(some "name", .string (some name)), (some "type", .string (some type))]) =
      some ⟨name, type, none⟩ := by
  have he : entriesOf? (.object [(some "name", .string (some name)),
      (some "type", .string (some type))]) =
        some (.string (some name), .string (some type), none) := rfl
  simp [ofJson?, he, textOf?, membersOf?]

theorem ofJson?_some (name type : String) (vs : List Json) (n : Nat) : ofJson? (n + 2)
    (.object [(some "name", .string (some name)), (some "type", .string (some type)),
      (some "components", .array vs)]) =
        (vs.mapM (ofJson? n)).map fun ps => ⟨name, type, some ps⟩ := by
  have he : entriesOf? (.object [(some "name", .string (some name)),
      (some "type", .string (some type)), (some "components", .array vs)]) =
        some (.string (some name), .string (some type), some (.array vs)) := rfl
  rw [ofJson?, he]
  simp only [Option.bind_eq_bind, Option.bind_some, textOf?, membersOf?]
  cases vs.mapM (ofJson? n) <;> rfl

theorem nesting_toJson_some (name type : String) (ps : List Param) :
    (toJson ⟨name, type, some ps⟩).nesting = itemsNesting (toJsons ps) + 2 := by
  simp [toJson, Json.nesting, membersNesting]

mutual

/-- A record is read of its value just if its nesting is within the bound. -/
theorem ofJson?_toJson : ∀ (p : Param) (n : Nat),
    ofJson? n p.toJson = if p.toJson.nesting ≤ n then some p else none
  | ⟨name, type, none⟩, 0 => rfl
  | ⟨name, type, none⟩, n + 1 => by
    have hn : (toJson ⟨name, type, none⟩).nesting = 1 := rfl
    rw [hn, toJson, ofJson?_none, if_pos (Nat.le_add_left ..)]
  | ⟨name, type, some ps⟩, 0 | ⟨name, type, some ps⟩, 1 => by
    rw [nesting_toJson_some, if_neg (by omega)]
    rfl
  | ⟨name, type, some ps⟩, n + 2 => by
    rw [nesting_toJson_some, toJson, ofJson?_some, mapM_ofJson?_toJsons ps n]
    simp only [Nat.add_le_add_iff_right]
    split <;> rfl

theorem mapM_ofJson?_toJsons : ∀ (ps : List Param) (n : Nat),
    (toJsons ps).mapM (ofJson? n) = if itemsNesting (toJsons ps) ≤ n then some ps else none
  | [], n => by simp [toJsons, itemsNesting]
  | p :: ps, n => by
    have hp := ofJson?_toJson p n
    have hps := mapM_ofJson?_toJsons ps n
    simp only [toJsons, List.mapM_cons, hp, hps, itemsNesting, Nat.max_le]
    split <;> split <;> simp_all

end

/-- **The functions with which records are written and read here keep the promises.** -/
theorem library_documented : library.Documented where
  toValue_none _ _ := rfl
  toValue_some name type ps := by simp [library, toJson, toJsons_eq]
  ofValue?_none name type := ofJson?_none name type 0
  ofValue?_some name type vs := by
    have hn : (Json.object [(some "name", .string (some name)), (some "type", .string (some type)),
        (some "components", .array vs)]).nesting = itemsNesting vs + 2 := by
      simp [Json.nesting, membersNesting]
    have hvs : vs.mapM (ofJson? (itemsNesting vs)) = vs.mapM library.ofValue? :=
      mapM_congr fun v hv =>
        ofJson?_congr _ _ v (nesting_le_itemsNesting hv) (Nat.le_refl v.nesting)
    rw [← hvs, ← ofJson?_some, ← hn]
    rfl
  write_denotes := toText_denotes
  read?_of_le {text v} h hv := by
    show ofText? text = ofJson? v.nesting v
    rw [ofText?, h.parse?_eq]
    exact ofJson?_congr _ _ v hv (Nat.le_refl v.nesting)
  read?_of_lt {text p} h hp := by
    show ofText? text = none
    rw [ofText?, h.parse?_eq]
    exact (ofJson?_toJson p maxNesting).trans (if_neg (Nat.not_le.2 hp))

/-! ### A record that is nested too deep -/

/-- A record inside as many others. -/
def inside : Nat → Param → Param
  | 0, p => p
  | n + 1, p => ⟨"", "tuple", some [inside n p]⟩

theorem nesting_inside (p : Param) : ∀ n : Nat, (inside n p).nesting = p.nesting + 2 * n
  | 0 => rfl
  | n + 1 => by
    have := nesting_inside p n
    simp [inside, nesting, nestings, this]
    omega

/-- Inside 63 records, one without a list of members is read back. -/
theorem library_reads_inside : library.Documented ∧
    library.read? (library.write (inside 63 ⟨"\"a\\\n", "tuple", none⟩)) =
      some (inside 63 ⟨"\"a\\\n", "tuple", none⟩) := by
  refine ⟨library_documented, ?_⟩
  rw [(Format.read?_write library_documented _).1, nesting_inside]
  rfl

/-- One with an empty list is refused there, by every library with the same limit. -/
theorem library_refuses_inside :
    (∀ f : Format, f.Documented → f.limit = 127 →
      f.read? (f.write (inside 63 ⟨"", "tuple", some []⟩)) = none) ∧
    library.Documented ∧ library.limit = 127 := by
  refine ⟨fun f hf hlimit => ?_, library_documented, rfl⟩
  rw [hf.read?_write_eq, nesting_inside, hlimit]
  rfl

end Param

end TypedCells
