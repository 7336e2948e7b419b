import TypedCells.Text.Grammar

/-!
# Reading texts of the grammar

What stands for a character in a literal is read as one piece, or as the two units of a pair, and
the pieces are put together to the character (`Json.Spells.exists_pieces`). So a literal is read as
its text, and a text of the grammar as its value: by induction on the text, with as much fuel as it
has characters.

* `Json.Denotes.parse?_eq`: a text is read as the value that it is a text of.
* `Json.Denotes.unique`: it is a text of no other value.
* `Json.quote_denotes`: what is written for a text is a literal.
-/

namespace TypedCells

namespace Json

/-! ### Literals -/

theorem readPieces_char {c : Char} (hq : c ≠ '"') (hb : c ≠ '\\') (hc : ¬c.toNat < 32)
    (cs : List Char) :
    readPieces (c :: cs) = (readPieces cs).map fun r => (.char c :: r.1, r.2) := by
  rw [readPieces.eq_def]
  split
  case h_5 d ds _ _ h =>
    obtain ⟨rfl, rfl⟩ := List.cons.inj h
    simp only [hb, hc, or_self, if_false]
    cases readPieces cs <;> rfl
  all_goals simp_all

theorem readPieces_short {l c : Char} (h : unescape? l = some c) (cs : List Char) :
    readPieces ('\\' :: l :: cs) = (readPieces cs).map fun r => (.char c :: r.1, r.2) := by
  have hl : l ≠ 'u' := by
    rintro rfl
    cases h
  rw [readPieces.eq_def]
  split
  case h_4 _ d ds _ h' =>
    obtain ⟨rfl, rfl⟩ := List.cons.inj (List.cons.inj h').2
    simp only [h]
    cases readPieces cs <;> rfl
  case h_5 d ds _ hno h =>
    exact absurd (List.cons.inj h).2.symm (hno l cs (List.cons.inj h).1.symm)
  all_goals simp_all

theorem readPieces_unit {a b c d : Char} {n : Nat} (h : hexUnit? a b c d = some n)
    (cs : List Char) : readPieces ('\\' :: 'u' :: a :: b :: c :: d :: cs) =
      (readPieces cs).map fun r => (.unit n :: r.1, r.2) := by
  rw [readPieces, h]
  cases readPieces cs <;> rfl

/-- A unit that is no half of a pair is a character by itself. -/
theorem piecesText?_unit {n : Nat} (hh : isHighUnit n = false) (hl : isLowUnit n = false)
    (ps : List Piece) :
    piecesText? (.unit n :: ps) = (piecesText? ps).map (Char.ofNat n :: ·) := by
  rw [piecesText?.eq_def]
  split
  case h_3 heq =>
    obtain ⟨hn, rfl⟩ := List.cons.inj heq
    obtain rfl := Piece.unit.inj hn
    simp only [hh, hl, Bool.false_eq_true, if_false]
    cases piecesText? _ <;> rfl
  case h_4 heq =>
    obtain ⟨hn, rfl⟩ := List.cons.inj heq
    obtain rfl := Piece.unit.inj hn
    simp only [hh, hl, Bool.or_self, Bool.false_eq_true, if_false]
    cases piecesText? _ <;> rfl
  all_goals simp_all

/-- **What stands for a character is read as pieces** that are put together to it. -/
theorem Spells.exists_pieces {cs : List Char} {c : Char} (h : Spells cs c) : ∃ ps : List Piece,
    (∀ rest, readPieces (cs ++ rest) =
      (readPieces rest).map fun r => (ps ++ r.1, r.2)) ∧
    ∀ qs, piecesText? (ps ++ qs) = (piecesText? qs).map (c :: ·) := by
  cases h with
  | plain hq hb hc =>
    refine ⟨[.char c], fun rest => readPieces_char hq hb hc rest, fun qs => ?_⟩
    rw [List.singleton_append, piecesText?]
    cases piecesText? qs <;> rfl
  | short h =>
    refine ⟨[.char c], fun rest => readPieces_short h rest, fun qs => ?_⟩
    rw [List.singleton_append, piecesText?]
    cases piecesText? qs <;> rfl
  | unit h hh hl => exact ⟨[.unit _], fun rest => readPieces_unit h rest, piecesText?_unit hh hl⟩
  | @pair _ _ _ _ _ _ _ _ m n h h' hh hl =>
    refine ⟨[.unit m, .unit n], fun rest => ?_, fun qs => ?_⟩
    · simp only [List.cons_append, List.nil_append, readPieces_unit h, readPieces_unit h',
        Option.map_map]
      rfl
    · simp only [List.cons_append, List.nil_append, piecesText?, hh, hl, if_true]
      cases piecesText? qs <;> rfl

theorem Literal.exists_pieces {cs s : List Char} (h : Literal cs s) (rest : List Char) :
    ∃ ps : List Piece, readPieces (cs ++ '"' :: rest) = some (ps, rest) ∧
      piecesText? ps = some s := by
  induction h with
  | nil => exact ⟨[], rfl, rfl⟩
  | cons hc _ ih =>
    obtain ⟨qs, hqs, htext⟩ := ih
    obtain ⟨ps, hps, hc⟩ := hc.exists_pieces
    refine ⟨ps ++ qs, ?_, ?_⟩
    · rw [List.append_assoc, hps, hqs, Option.map_some]
    · rw [hc, htext, Option.map_some]

/-- **A literal is read as its text.** -/
theorem Literal.readLiteral_eq {cs : List Char} {s : String} (h : Literal cs s.toList)
    (rest : List Char) :
    readLiteral (cs ++ '"' :: rest) = some (some s, rest) := by
  obtain ⟨ps, hps, htext⟩ := h.exists_pieces rest
  simp [readLiteral, hps, htext]

/-! ### Values -/

/-- No text starts with a blank or a closing bracket. -/
theorem Denotes.start {cs : List Char} {v : Json} (h : Denotes cs v) :
    ∃ c ds, cs = c :: ds ∧ isBlank c = false ∧ c ≠ ']' := by
  cases h with
  | _ => exact ⟨_, _, rfl, by decide, by decide⟩

theorem DenotesItems.start {cs : List Char} {vs : List Json} (h : DenotesItems cs vs) :
    ∃ c ds, cs = c :: ds ∧ isBlank c = false ∧ c ≠ ']' := by
  cases h with
  | last h => exact h.start
  | cons h _ =>
    obtain ⟨c, ds, rfl, hc⟩ := h.start
    exact ⟨c, _, rfl, hc⟩

theorem DenotesMembers.start {cs : List Char} {ms : List (Option String × Json)}
    (h : DenotesMembers cs ms) : ∃ ds, cs = '"' :: ds := by
  cases h with
  | _ => exact ⟨_, rfl⟩

section Reading

variable {fuel : Nat} {cs ds rest : List Char} {v : Json}

theorem readValue_array {items : List Json}
    (hs : ∃ c ds, cs = c :: ds ∧ isBlank c = false ∧ c ≠ ']')
    (h : readItems fuel cs = some (items, rest)) :
    readValue (fuel + 1) ('[' :: cs) = some (.array items, rest) := by
  obtain ⟨c, ds, rfl, hb, hc⟩ := hs
  have hskip : skipBlanks (c :: ds) = c :: ds := by simp [skipBlanks, hb]
  have hopen : skipBlanks ('[' :: c :: ds) = '[' :: c :: ds := by simp [skipBlanks, isBlank]
  simp [readValue, hopen, hskip, hc, h]

theorem readValue_object {members : List (Option String × Json)} (hs : ∃ ds, cs = '"' :: ds)
    (h : readMembers fuel cs = some (members, rest)) :
    readValue (fuel + 1) ('{' :: cs) = some (.object members, rest) := by
  obtain ⟨ds, rfl⟩ := hs
  simp [readValue, skipBlanks, isBlank, h]

theorem readItems_last (h : readValue fuel cs = some (v, ']' :: rest)) :
    readItems (fuel + 1) cs = some ([v], rest) := by
  simp [readItems, skipBlanks, isBlank, h]

theorem readItems_cons {items : List Json} (h : readValue fuel cs = some (v, ',' :: ds))
    (h' : readItems fuel ds = some (items, rest)) :
    readItems (fuel + 1) cs = some (v :: items, rest) := by
  simp [readItems, skipBlanks, isBlank, h, h']

theorem readMembers_last {ks : List Char} {key : String} (hk : Literal ks key.toList)
    (h : readValue fuel cs = some (v, '}' :: rest)) :
    readMembers (fuel + 1) ('"' :: (ks ++ '"' :: ':' :: cs)) = some ([(some key, v)], rest) := by
  simp [readMembers, skipBlanks, isBlank, hk.readLiteral_eq, h]

theorem readMembers_cons {ks : List Char} {key : String} {members : List (Option String × Json)}
    (hk : Literal ks key.toList) (h : readValue fuel cs = some (v, ',' :: ds))
    (h' : readMembers fuel ds = some (members, rest)) :
    readMembers (fuel + 1) ('"' :: (ks ++ '"' :: ':' :: cs)) =
      some ((some key, v) :: members, rest) := by
  simp [readMembers, skipBlanks, isBlank, hk.readLiteral_eq, h, h']

end Reading

mutual

/-- A text is read as its value, with as much fuel as it has characters. -/
theorem Denotes.readValue_eq : ∀ {cs : List Char} {v : Json}, Denotes cs v →
    ∀ {fuel : Nat} (rest : List Char), cs.length ≤ fuel →
      readValue fuel (cs ++ rest) = some (v, rest)
  | _, _, .null, fuel + 1, rest, _ | _, _, .isTrue, fuel + 1, rest, _
  | _, _, .isFalse, fuel + 1, rest, _ | _, _, .noItems, fuel + 1, rest, _
  | _, _, .noMembers, fuel + 1, rest, _ => by
    simp [readValue, skipBlanks, isBlank]
  | _, _, .string h, fuel + 1, rest, _ => by
    simp [readValue, skipBlanks, isBlank, h.readLiteral_eq]
  | _, _, .array h, fuel + 1, rest, hf => by
    simp only [List.length_cons, List.length_append, List.length_nil] at hf
    rw [List.cons_append, List.append_assoc]
    refine readValue_array ?_ (h.readItems_eq rest (by omega))
    obtain ⟨c, ds, rfl, hc⟩ := h.start
    exact ⟨c, _, rfl, hc⟩
  | _, _, .object h, fuel + 1, rest, hf => by
    simp only [List.length_cons, List.length_append, List.length_nil] at hf
    rw [List.cons_append, List.append_assoc]
    refine readValue_object ?_ (h.readMembers_eq rest (by omega))
    obtain ⟨ds, rfl⟩ := h.start
    exact ⟨_, rfl⟩

theorem DenotesItems.readItems_eq : ∀ {cs : List Char} {vs : List Json}, DenotesItems cs vs →
    ∀ {fuel : Nat} (rest : List Char), cs.length < fuel →
      readItems fuel (cs ++ ']' :: rest) = some (vs, rest)
  | _, _, .last h, fuel + 1, rest, hf => readItems_last (h.readValue_eq _ (by omega))
  | _, _, .cons h h', fuel + 1, rest, hf => by
    simp only [List.length_append, List.length_cons] at hf
    rw [List.append_assoc, List.cons_append]
    exact readItems_cons (h.readValue_eq _ (by omega)) (h'.readItems_eq rest (by omega))

theorem DenotesMembers.readMembers_eq : ∀ {cs : List Char} {ms : List (Option String × Json)},
    DenotesMembers cs ms → ∀ {fuel : Nat} (rest : List Char), cs.length < fuel →
      readMembers fuel (cs ++ '}' :: rest) = some (ms, rest)
  | _, _, .last hk h, fuel + 1, rest, hf => by
    simp only [List.length_append, List.length_cons] at hf
    simp only [List.cons_append, List.append_assoc]
    exact readMembers_last hk (h.readValue_eq _ (by omega))
  | _, _, .cons hk h h', fuel + 1, rest, hf => by
    simp only [List.length_append, List.length_cons] at hf
    simp only [List.cons_append, List.append_assoc]
    exact readMembers_cons hk (h.readValue_eq _ (by omega)) (h'.readMembers_eq rest (by omega))

end

/-- **A text is read as the value that it is a text of.** -/
theorem Denotes.parse?_eq {text : String} {v : Json} (h : Denotes text.toList v) :
    parse? text = some v := by
  have hread : readValue (2 * text.toList.length + 1) (text.toList ++ []) = some (v, []) :=
    h.readValue_eq [] (by omega)
  rw [List.append_nil] at hread
  rw [parse?, hread]
  rfl

/-- A text denotes one value at most. -/
theorem Denotes.unique {text : String} {v w : Json} (hv : Denotes text.toList v)
    (hw : Denotes text.toList w) : v = w :=
  Option.some.inj (hv.parse?_eq.symm.trans hw.parse?_eq)

/-! ### Writing literals -/

theorem hexUnit?_control {n : Nat} (h : n < 32) :
    hexUnit? '0' '0' (Nat.digitChar (n / 16)) (Nat.digitChar (n % 16)) = some n := by
  have hdigit : ∀ d < 16, hexDigit? (Nat.digitChar d) = some d := by decide
  have hzero : hexDigit? '0' = some 0 := by decide
  simp only [hexUnit?, hzero, hdigit (n / 16) (by omega), hdigit (n % 16) (by omega)]
  exact congrArg some (by omega)

/-- A written character stands for itself. -/
theorem escape_spells (c : Char) : Spells (escape c) c := by
  by_cases h : c ∈ ['"', '\\', '\x08', '\t', '\n', '\x0c', '\r']
  · simp only [List.mem_cons, List.not_mem_nil, or_false] at h
    rcases h with rfl | rfl | rfl | rfl | rfl | rfl | rfl <;> exact .short rfl
  · simp only [List.mem_cons, List.not_mem_nil, or_false, not_or] at h
    simp only [escape, h, if_false]
    split
    · next hc =>
      have hhigh : isHighUnit c.toNat = false := by simp [isHighUnit]; omega
      have hlow : isLowUnit c.toNat = false := by simp [isLowUnit]; omega
      have hunit := Spells.unit (hexUnit?_control hc) hhigh hlow
      rwa [Char.ofNat_toNat] at hunit
    · next hc => exact .plain h.1 h.2.1 hc

theorem escape_literal : ∀ s : List Char, Literal (s.flatMap escape) s
  | [] => .nil
  | c :: s => .cons (escape_spells c) (escape_literal s)

theorem toList_quote (s : String) :
    (quote s).toList = '"' :: (s.toList.flatMap escape ++ ['"']) := by
  simp [quote]

theorem quote_denotes (s : String) : Denotes (quote s).toList (.string (some s)) := by
  rw [toList_quote]
  exact .string (escape_literal s.toList)

/-! ### Nesting -/

theorem nesting_le_membersNesting {k : Option String} {v : Json}
    {members : List (Option String × Json)} (h : (k, v) ∈ members) :
    v.nesting ≤ membersNesting members := by
  induction h with
  | head => exact Nat.le_max_left ..
  | tail _ _ ih => exact Nat.le_trans ih (Nat.le_max_right ..)

theorem nesting_le_itemsNesting {v : Json} {vs : List Json} (h : v ∈ vs) :
    v.nesting ≤ itemsNesting vs := by
  induction h with
  | head => exact Nat.le_max_left ..
  | tail _ _ ih => exact Nat.le_trans ih (Nat.le_max_right ..)

end Json

end TypedCells
