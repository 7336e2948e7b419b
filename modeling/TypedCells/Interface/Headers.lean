import TypedCells.Text.Json

/-!
# Where arguments start

A message from outside carries an optional signature of the sender and the header fields that its
contract asks for, then the id of the function and, if the function answers, the id of the answer.
A message from another contract carries the ids only. The arguments are packed behind that, so that
their place depends on the contract's `Headers`.
-/

namespace TypedCells

/-- The bits of a function id, and of an answer id. -/
def idBits : Nat := 32

/-- The header fields that a contract asks for. -/
structure Headers where
  /-- The public key of the sender. -/
  pubkey : Bool := false
  /-- The time of sending. -/
  time : Bool := false
  /-- The time up to which the message is valid. -/
  expire : Bool := false
deriving DecidableEq, Repr

namespace Headers

/-- The bits of the ids in front of the arguments. -/
def internalOffset (answers : Bool) : Nat := idBits + if answers then idBits else 0

/-- The most bits that stand in front of the arguments of a call from outside. -/
def externalOffset (h : Headers) (answers : Bool) : Nat :=
  (1 + 512) + (if h.pubkey then 1 + 256 else 0) + (if h.time then 64 else 0)
    + (if h.expire then 32 else 0) + internalOffset answers

/-- The truth value that a JSON value is. -/
def flag? : Json → Option Bool
  | .bool b => some b
  | _ => none

/-- Takes the members of an object into account, each key at most once. -/
def addMembers (h : Headers) (seen : List String) : List (Option String × Json) → Option Headers
  | [] => some h
  | (none, _) :: _ => none
  | (some key, v) :: members => do
    if key ∈ seen then none
    let b ← flag? v
    match key with
    | "pubkey" => addMembers { h with pubkey := b } (key :: seen) members
    | "time" => addMembers { h with time := b } (key :: seen) members
    | "expire" => addMembers { h with expire := b } (key :: seen) members
    | _ => none

/-- The fields that a JSON value asks for: an object of truth values under their names, where a
missing one is false, or an array of the first of them in order. -/
def ofJson? : Json → Option Headers
  | .object members => addMembers {} [] members
  | .array vs => do
    match ← vs.mapM flag? with
    | [] => return {}
    | [pubkey] => return { pubkey }
    | [pubkey, time] => return { pubkey, time }
    | [pubkey, time, expire] => return { pubkey, time, expire }
    | _ => none
  | _ => none

/-- The fields that a text asks for. -/
def ofText? (text : String) : Option Headers := do ofJson? (← Json.parse? text)

end Headers

end TypedCells
