import TypedCells.Text.Json

/-!
# The grammar of JSON texts

`Json.Denotes` relates a text to the value that it is a text of, by the standard grammar without
blanks. In a literal a character may stand as it is, or be escaped in any way that the grammar has
(`Json.Spells`), so a value has many texts. Numbers are left out.
-/

namespace TypedCells

namespace Json

/-- What may stand for a character in a string literal. -/
inductive Spells : List Char → Char → Prop
  /-- The character itself. -/
  | plain {c : Char} (hq : c ≠ '"') (hb : c ≠ '\\') (hc : ¬c.toNat < 32) : Spells [c] c
  /-- A letter behind a backslash. -/
  | short {l c : Char} (h : unescape? l = some c) : Spells ['\\', l] c
  /-- Its UTF-16 unit. -/
  | unit {a b c d : Char} {n : Nat} (h : hexUnit? a b c d = some n) (hh : isHighUnit n = false)
    (hl : isLowUnit n = false) : Spells ['\\', 'u', a, b, c, d] (Char.ofNat n)
  /-- A pair of units, for a character beyond the basic plane. -/
  | pair {a b c d a' b' c' d' : Char} {m n : Nat} (h : hexUnit? a b c d = some m)
    (h' : hexUnit? a' b' c' d' = some n) (hh : isHighUnit m = true) (hl : isLowUnit n = true) :
    Spells ['\\', 'u', a, b, c, d, '\\', 'u', a', b', c', d']
      (Char.ofNat ((m - 0xD800) * 0x400 + (n - 0xDC00) + 0x10000))

/-- What may stand between the quotes of a string literal. -/
inductive Literal : List Char → List Char → Prop
  | nil : Literal [] []
  | cons {cs ds s : List Char} {c : Char} (h : Spells cs c) (h' : Literal ds s) :
    Literal (cs ++ ds) (c :: s)

mutual

/-- The text is one of the value. -/
inductive Denotes : List Char → Json → Prop
  | null : Denotes ['n', 'u', 'l', 'l'] .null
  | isTrue : Denotes ['t', 'r', 'u', 'e'] (.bool true)
  | isFalse : Denotes ['f', 'a', 'l', 's', 'e'] (.bool false)
  | string {cs : List Char} {s : String} (h : Literal cs s.toList) :
    Denotes ('"' :: (cs ++ ['"'])) (.string (some s))
  | noItems : Denotes ['[', ']'] (.array [])
  | array {cs : List Char} {vs : List Json} (h : DenotesItems cs vs) :
    Denotes ('[' :: (cs ++ [']'])) (.array vs)
  | noMembers : Denotes ['{', '}'] (.object [])
  | object {cs : List Char} {ms : List (Option String × Json)} (h : DenotesMembers cs ms) :
    Denotes ('{' :: (cs ++ ['}'])) (.object ms)

/-- The text is one of the items of an array, with commas between them. -/
inductive DenotesItems : List Char → List Json → Prop
  | last {cs : List Char} {v : Json} (h : Denotes cs v) : DenotesItems cs [v]
  | cons {cs ds : List Char} {v : Json} {vs : List Json} (h : Denotes cs v)
    (h' : DenotesItems ds vs) : DenotesItems (cs ++ ',' :: ds) (v :: vs)

/-- The text is one of the members of an object, with commas between them. -/
inductive DenotesMembers : List Char → List (Option String × Json) → Prop
  | last {ks cs : List Char} {key : String} {v : Json} (hk : Literal ks key.toList)
    (h : Denotes cs v) : DenotesMembers ('"' :: (ks ++ '"' :: ':' :: cs)) [(some key, v)]
  | cons {ks cs ds : List Char} {key : String} {v : Json} {ms : List (Option String × Json)}
    (hk : Literal ks key.toList) (h : Denotes cs v) (h' : DenotesMembers ds ms) :
    DenotesMembers ('"' :: (ks ++ '"' :: ':' :: (cs ++ ',' :: ds))) ((some key, v) :: ms)

end

/-! ### Nesting -/

mutual

/-- How many arrays and objects are inside each other in a value. -/
def nesting : Json → Nat
  | .array vs => itemsNesting vs + 1
  | .object ms => membersNesting ms + 1
  | _ => 0

/-- How many arrays and objects are inside each other in the items of an array. -/
def itemsNesting : List Json → Nat
  | [] => 0
  | v :: vs => max (nesting v) (itemsNesting vs)

/-- How many arrays and objects are inside each other in the members of an object. -/
def membersNesting : List (Option String × Json) → Nat
  | [] => 0
  | (_, v) :: ms => max (nesting v) (membersNesting ms)

end

end Json

end TypedCells
