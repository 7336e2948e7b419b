import TypedCells.Proofs.Spelled

/-!
# Reading signatures back

A signature is read from left to right, a character at a time (`SignatureReader`). A bracket or a
comma ends a simple name, an opening bracket puts aside what stands in front of it, and the closing
one makes a composite type of what has been read since. What comes out for the signature of a type
is all that the signature tells of it (`SignatureReader.run_signature`), so nothing else can have
the same signature.

* `spellSignature_determines`: the signature of a function determines its name and the signatures of
  its types, and the signature of a type the form of its values.
-/

namespace TypedCells

/-! ### Simple names -/

/-- The type that has a simple name, by the letters of the name and the number behind them. The word
`tuple`, which stands in descriptions for any members, is read as a tuple of none. -/
def simpleType (letters : String) (n : Nat) : Ty :=
  match letters with
  | "uint" => .integer n false
  | "int" => .integer n true
  | "varuint" => .varInteger n false
  | "varint" => .varInteger n true
  | "fixedbytes" => .fixedBytes n
  | "bool" => .bool
  | "address" => .address
  | "address_std" => .addressStd
  | "cell" => .cell
  | "bytes" => .bytes
  | "tuple" => .tuple []
  | _ => .string

/-- The type that has a simple name. -/
def typeOfWord (word : List Char) : Ty :=
  simpleType (.ofList (word.takeWhile fun c => !c.isDigit))
    (Nat.ofDigitChars 10 (word.dropWhile fun c => !c.isDigit) 0)

/-- The type that is spelled as a word and a list of types in brackets. -/
def composite (word : List Char) (ts : List Ty) : Ty :=
  match String.ofList word, ts with
  | "map", [k, v] => .mapping k v
  | "optional", [t] => .optional t
  | _, ts => .tuple ts

theorem toList_toString (n : Nat) : (toString n).toList = Nat.toDigits 10 n := by
  rw [Nat.toString_eq_repr, Nat.repr, String.toList_ofList]

theorem typeOfWord_number (letters : String) (h : letters.toList.all fun c => !c.isDigit)
    (n : Nat) : typeOfWord (letters ++ toString n).toList = simpleType letters n := by
  have hd : ∀ c ∈ Nat.toDigits 10 n, (!c.isDigit) = false := fun c hc => by
    rw [Nat.isDigit_of_mem_toDigits (by decide) (by decide) hc]; rfl
  have h' : ∀ c ∈ letters.toList, (!c.isDigit) = true := List.all_eq_true.1 h
  have htake : (Nat.toDigits 10 n).takeWhile (fun c => !c.isDigit) = [] := by
    cases hc : Nat.toDigits 10 n with
    | nil => rfl
    | cons c cs => exact List.takeWhile_cons_of_neg (by simp [hd c (by simp [hc])])
  have hdrop : (Nat.toDigits 10 n).dropWhile (fun c => !c.isDigit) = Nat.toDigits 10 n := by
    cases hc : Nat.toDigits 10 n with
    | nil => rfl
    | cons c cs => exact List.dropWhile_cons_of_neg (by simp [hd c (by simp [hc])])
  rw [typeOfWord, String.toList_append, toList_toString, List.takeWhile_append_of_pos h',
    List.dropWhile_append_of_pos h', htake, hdrop, List.append_nil, String.ofList_toList,
    Nat.ofDigitChars_toDigits (by decide) (by decide)]

/-! ### The reader -/

/-- What has been read of a signature. -/
structure SignatureReader where
  /-- The characters of a name that has not ended. -/
  word : List Char
  /-- The types since the last bracket that is open, the last one first. -/
  types : List Ty
  /-- For each open bracket, from the inside out, the word in front of it and the types before. -/
  outer : List (List Char × List Ty)

namespace SignatureReader

/-- Ends a name. -/
def endWord (r : SignatureReader) : SignatureReader :=
  if r.word = [] then r else { r with word := [], types := typeOfWord r.word :: r.types }

/-- Opens a bracket. -/
def openBracket (r : SignatureReader) : SignatureReader := ⟨[], [], (r.word, r.types) :: r.outer⟩

/-- Closes a bracket. -/
def closeBracket (r : SignatureReader) : SignatureReader :=
  match r.outer with
  | [] => r
  | (word, types) :: outer => ⟨[], composite word r.types.reverse :: types, outer⟩

/-- Makes an array of the last type. -/
def makeArray (r : SignatureReader) : SignatureReader :=
  match r.types with
  | [] => r
  | t :: types => { r with types := .array t none :: types }

/-- Reads a character. -/
def step (r : SignatureReader) (c : Char) : SignatureReader :=
  match c with
  | '(' => r.openBracket
  | ')' => r.endWord.closeBracket
  | ',' | '[' => r.endWord
  | ']' => r.makeArray
  | c => { r with word := r.word ++ [c] }

/-- Reads characters in turn. -/
def run (r : SignatureReader) (cs : List Char) : SignatureReader := cs.foldl step r

theorem run_append (r : SignatureReader) (cs ds : List Char) :
    r.run (cs ++ ds) = (r.run cs).run ds := List.foldl_append

theorem run_cons (r : SignatureReader) (c : Char) (cs : List Char) :
    r.run (c :: cs) = (r.step c).run cs := rfl

theorem run_nil (r : SignatureReader) : r.run [] = r := rfl

/-- The character neither ends a name nor opens a bracket. -/
def InWord (c : Char) : Bool := c != '(' && c != ')' && c != ',' && c != '[' && c != ']'

theorem inWord_of_isDigit {c : Char} (h : c.isDigit = true) : InWord c = true := by
  simp only [InWord, Bool.and_eq_true, bne_iff_ne]
  refine ⟨⟨⟨⟨?_, ?_⟩, ?_⟩, ?_⟩, ?_⟩ <;> (rintro rfl; exact absurd h (by decide))

theorem step_inWord {r : SignatureReader} {c : Char} (h : InWord c = true) :
    r.step c = { r with word := r.word ++ [c] } := by
  simp only [InWord, Bool.and_eq_true, bne_iff_ne] at h
  obtain ⟨⟨⟨⟨h1, h2⟩, h3⟩, h4⟩, h5⟩ := h
  unfold step
  split <;> first | rfl | contradiction

theorem run_word : ∀ (cs : List Char) (r : SignatureReader), cs.all InWord = true →
    r.run cs = { r with word := r.word ++ cs }
  | [], r, _ => by simp [run_nil]
  | c :: cs, r, h => by
    rw [List.all_cons, Bool.and_eq_true] at h
    rw [run_cons, step_inWord h.1, run_word cs _ h.2]
    simp

/-! ### What is read for a type -/

/-- The characters are the spelling of types, separated by commas: read where a name may begin, they
put the types behind those before, once the last name in them has ended. -/
def Spells (cs : List Char) (ts : List Ty) : Prop :=
  ∀ types outer, (run ⟨[], types, outer⟩ cs).endWord = ⟨[], ts.reverse ++ types, outer⟩

theorem spells_nil : Spells [] [] := fun _ _ => rfl

theorem spells_word {cs : List Char} {t : Ty} (hcs : cs.all InWord = true)
    (hne : cs ≠ []) (ht : typeOfWord cs = t) : Spells cs [t] := by
  intro types outer
  rw [run_word cs _ hcs]
  simp [endWord, hne, ht]

theorem spells_number (letters : String)
    (h : letters.toList.all fun c => !c.isDigit && InWord c) (hne : letters ≠ "") (n : Nat) :
    Spells (letters ++ toString n).toList [simpleType letters n] := by
  have hd : letters.toList.all (fun c => !c.isDigit) = true := by grind
  have hw : letters.toList.all InWord = true := by grind
  refine spells_word ?_ (by simp [hne]) (typeOfWord_number letters hd n)
  rw [String.toList_append, List.all_append, hw, toList_toString, Bool.true_and, List.all_eq_true]
  exact fun c hc => inWord_of_isDigit (Nat.isDigit_of_mem_toDigits (by decide) (by decide) hc)

theorem Spells.array {cs : List Char} {t : Ty} (h : Spells cs [t]) :
    Spells (cs ++ ['[', ']']) [.array t none] := by
  intro types outer
  have hc : (run ⟨[], types, outer⟩ cs).step '[' = ⟨[], t :: types, outer⟩ := h types outer
  rw [run_append, run_cons, hc]
  rfl

theorem Spells.cons {cs ds : List Char} {t : Ty} {ts : List Ty} (h : Spells cs [t])
    (h' : Spells ds ts) : Spells (cs ++ ',' :: ds) (t :: ts) := by
  intro types outer
  have hc : (run ⟨[], types, outer⟩ cs).step ',' = ⟨[], t :: types, outer⟩ := h types outer
  rw [run_append, run_cons, hc, h' (t :: types) outer, List.reverse_cons, List.append_assoc]
  rfl

/-- Types in brackets and the word in front of them. -/
theorem Spells.run_brackets {cs : List Char} {ts : List Ty} (h : Spells cs ts) (word : List Char)
    (hw : word.all InWord = true) (types : List Ty) (outer : List (List Char × List Ty)) :
    run ⟨[], types, outer⟩ (word ++ '(' :: (cs ++ [')'])) =
      ⟨[], composite word ts :: types, outer⟩ := by
  have hc : (run ⟨[], [], (word, types) :: outer⟩ cs).step ')' =
      (⟨[], ts.reverse ++ [], (word, types) :: outer⟩ : SignatureReader).closeBracket :=
    congrArg closeBracket (h [] ((word, types) :: outer))
  rw [run_append, run_word word _ hw, List.nil_append, run_cons, run_append]
  show (run ⟨[], [], (word, types) :: outer⟩ cs).step ')' = _
  rw [hc, closeBracket]
  simp

theorem Spells.brackets {cs : List Char} {ts : List Ty} (h : Spells cs ts) (word : List Char)
    (hw : word.all InWord = true) : Spells (word ++ '(' :: (cs ++ [')'])) [composite word ts] :=
  fun types outer => by rw [h.run_brackets word hw]; rfl

/-- The reader takes what stands between two brackets. -/
theorem Spells.join {t : Ty} {ts : List Ty} {s : String} {l : List String}
    (h : Spells s.toList [t]) (h' : Spells (String.intercalate "," l).toList ts)
    (hl : l = [] → ts = []) : Spells (String.intercalate "," (s :: l)).toList (t :: ts) := by
  cases l with
  | nil =>
    rw [hl rfl]
    simpa [String.toList_intercalate] using h
  | cons s' l =>
    rw [String.toList_intercalate] at h' ⊢
    exact h.cons h'

mutual

/-- What the reader makes of the signature of a type. -/
theorem spells_signature : ∀ t : Ty, Spells t.signature.toList [t.spelled]
  | .integer bits false => spells_number "uint" (by decide) (by decide) bits
  | .integer bits true => spells_number "int" (by decide) (by decide) bits
  | .fixedBytes n => spells_number "fixedbytes" (by decide) (by decide) n
  | .varInteger n false => spells_number "varuint" (by decide) (by decide) n
  | .varInteger n true => spells_number "varint" (by decide) (by decide) n
  | .function => spells_number "uint" (by decide) (by decide) 32
  | .enumeration _ variants =>
    spells_number "uint" (by decide) (by decide) (enumBits variants)
  | .bool | .address | .addressStd | .cell | .bytes | .string =>
    spells_word (by decide) (by decide) (by decide)
  | .array t _ => by
    rw [Ty.signature, String.toList_append]
    exact (spells_signature t).array
  | .mapping k v => by
    have h := ((spells_signature k).cons (spells_signature v)).brackets "map".toList (by decide)
    simpa [Ty.signature, Ty.spelled, composite] using h
  | .optional t => by
    have h := (spells_signature t).brackets "optional".toList (by decide)
    simpa [Ty.signature, Ty.spelled, composite] using h
  | .struct _ fs => by
    have h := (spells_fieldSignatures fs).brackets [] (by decide)
    simpa [Ty.signature, Ty.spelled, composite] using h
  | .tuple ts => by
    have h := (spells_signatures ts).brackets [] (by decide)
    simpa [Ty.signature, Ty.spelled, composite] using h
  | .alias _ t => spells_signature t

theorem spells_signatures : ∀ ts : List Ty,
    Spells (String.intercalate "," (Ty.signatures ts)).toList (Ty.spelledAll ts)
  | [] => spells_nil
  | t :: ts => (spells_signature t).join (spells_signatures ts) <| by
    cases ts <;> simp [Ty.signatures, Ty.spelledAll]

theorem spells_fieldSignatures : ∀ fs : List (Field Ty),
    Spells (String.intercalate "," (Ty.fieldSignatures fs)).toList (Ty.spelledFields fs)
  | [] => spells_nil
  | ⟨_, t⟩ :: fs => (spells_signature t).join (spells_fieldSignatures fs) <| by
    cases fs <;> simp [Ty.fieldSignatures, Ty.spelledFields]

end

theorem run_spellTypes (ts types : List Ty) (outer : List (List Char × List Ty)) :
    run ⟨[], types, outer⟩ (spellTypes ts).toList =
      ⟨[], .tuple (Ty.spelledAll ts) :: types, outer⟩ := by
  have h := (spells_signatures ts).run_brackets [] (by decide) types outer
  simpa [spellTypes, composite] using h

/-- What the reader makes of a function's signature behind the name. -/
theorem run_spelled (inputs : List Ty) (outputs : Option (List Ty)) :
    run ⟨[], [], []⟩
        ((spellTypes inputs).toList ++ ((outputs.map spellTypes).getD "" ++ "v2").toList) =
      ⟨['v', '2'], (outputs.map fun ts => .tuple (Ty.spelledAll ts)).toList ++
        [.tuple (Ty.spelledAll inputs)], []⟩ := by
  rw [run_append, run_spellTypes]
  cases outputs with
  | none => rfl
  | some ts =>
    rw [Option.map_some, Option.getD_some, String.toList_append, run_append, run_spellTypes]
    rfl

end SignatureReader

/-! ### What a signature determines -/

theorem Ty.spelled_eq_of_signature {t u : Ty} (h : t.signature = u.signature) :
    t.spelled = u.spelled := by
  have ht := SignatureReader.spells_signature t [] []
  rw [h, SignatureReader.spells_signature u [] []] at ht
  simpa using ht.symm

theorem forall₂_signature : ∀ {ts us : List Ty}, Ty.spelledAll ts = Ty.spelledAll us →
    List.Forall₂ (fun t u => t.signature = u.signature) ts us
  | [], [], _ => .nil
  | t :: ts, u :: us, h => by
    obtain ⟨h1, h2⟩ := List.cons.inj h
    exact .cons (by rw [← Ty.signature_spelled t, h1, Ty.signature_spelled]) (forall₂_signature h2)

theorem toList_spellSignature (name : String) (inputs : List Ty) (outputs : Option (List Ty)) :
    ∃ cs, (spellSignature name inputs outputs).toList = name.toList ++ '(' :: cs ∧
      '(' :: cs =
        (spellTypes inputs).toList ++ ((outputs.map spellTypes).getD "" ++ "v2").toList := by
  refine ⟨_, ?_, by rw [spellTypes, String.append_assoc, String.toList_append]; rfl⟩
  simp [spellSignature, spellTypes, signatureVersion]

/-- **A signature determines a function's name and the form of its values.** Functions with names
without brackets that have the same signature have the same name, as many inputs with the same
signatures, and outputs of the same kind. And types with the same signature take the same room, and
their values are written and read in the same way. -/
theorem spellSignature_determines :
    (∀ ⦃name name' : String⦄ ⦃inputs inputs' : List Ty⦄ ⦃outputs outputs' : Option (List Ty)⦄,
      '(' ∉ name.toList → '(' ∉ name'.toList →
      spellSignature name inputs outputs = spellSignature name' inputs' outputs' →
      name = name' ∧ List.Forall₂ (fun t u => t.signature = u.signature) inputs inputs' ∧
        Option.Rel (List.Forall₂ fun t u => t.signature = u.signature) outputs outputs') ∧
    ∀ ⦃t u : Ty⦄, t.signature = u.signature → t.SameForm u := by
  constructor
  · intro name name' inputs inputs' outputs outputs' hn hn' h
    obtain ⟨cs, h1, h2⟩ := toList_spellSignature name inputs outputs
    obtain ⟨cs', h1', h2'⟩ := toList_spellSignature name' inputs' outputs'
    rw [h, h1'] at h1
    -- the names end where the first bracket opens
    have hl : name'.toList.length = name.toList.length := by
      have := congrArg (List.idxOf '(') h1
      rwa [List.idxOf_append_of_notMem hn', List.idxOf_append_of_notMem hn, List.idxOf_cons_self,
        List.idxOf_cons_self] at this
    obtain ⟨hname, hcs⟩ := List.append_inj h1 hl
    obtain rfl := (List.cons.inj hcs).2
    have hr := SignatureReader.run_spelled inputs outputs
    rw [← h2, h2', SignatureReader.run_spelled inputs' outputs'] at hr
    refine ⟨(String.toList_inj.1 hname).symm, ?_⟩
    cases outputs <;> cases outputs' <;> simp at hr
    · exact ⟨forall₂_signature hr.symm, .none⟩
    · exact ⟨forall₂_signature hr.2.symm, .some (forall₂_signature hr.1.symm)⟩
  · intro t u h
    have ht := Ty.sameForm_spelled t
    rw [Ty.spelled_eq_of_signature h] at ht
    exact ht.trans (Ty.sameForm_spelled u).symm

/-! ### A structure and a tuple -/

/-- A point with a color. -/
def pointType : Ty :=
  .struct "Point"
    [⟨"places", .array (.integer 16 true) (some 2)⟩, ⟨"color", .enumeration "Color" 3⟩]

/-- The values of a point without their names. -/
def pairType : Ty := .tuple [.array (.alias "Place" (.integer 16 true)) none, .integer 8 false]

theorem spellSignature_determines_point :
    spellSignature "draw" [pointType] (some [.function]) =
      spellSignature "draw" [pairType] (some [.integer 32 false]) ∧
    List.Forall₂ (fun t u : Ty => t.signature = u.signature) [pointType] [pairType] ∧
    Option.Rel (List.Forall₂ fun t u : Ty => t.signature = u.signature) (some [.function])
      (some [.integer 32 false]) ∧
    pointType.SameForm pairType := by
  have h : spellSignature "draw" [pointType] (some [.function]) =
      spellSignature "draw" [pairType] (some [.integer 32 false]) := by decide
  obtain ⟨-, hin, hout⟩ := spellSignature_determines.1 (by decide) (by decide) h
  exact ⟨h, hin, hout, spellSignature_determines.2 (by decide)⟩

end TypedCells
