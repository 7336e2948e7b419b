import TypedCells.Bits
import TypedCells.Text.Json
import TypedCells.Text.Sha256
import TypedCells.Ty.Name

/-!
# Function ids

A function is called by a 32-bit id: the first word of the hash of its signature, which spells its
name and its types. The highest bit of an id tells answers from calls. A function may have its id
pinned, and then that is used as it is.
-/

namespace TypedCells

/-- What the id of a function depends on. -/
structure Signature where
  /-- The name of the function. -/
  name : String
  /-- The declared inputs. -/
  inputs : List Ty
  /-- The declared outputs, if the function declares any list of them. -/
  outputs : Option (List Ty)
  /-- The function takes the id of its answer first. -/
  answers : Bool
  /-- The pinned id. -/
  pinned : Option UInt32

/-- Why a message goes out. -/
inductive Reason where
  /-- An event is emitted. -/
  | event
  /-- A call from outside is answered. -/
  | answer
  /-- Another contract is called. -/
  | call
deriving DecidableEq, Repr

/-- The first word of the hash of a text. -/
def hashWord (s : String) : UInt32 := (Sha256.hash s.toUTF8.toList).a

/-- The bit that tells answers from calls. -/
def answerBit : UInt32 := 0x80000000

/-- The end of every spelled signature: the version of the spelling. -/
def signatureVersion : String := "v2"

/-- A list of types as a signature spells it. -/
def spellTypes (ts : List Ty) : String :=
  "(" ++ String.intercalate "," (Ty.signatures ts) ++ ")"

/-- The spelled signature of a function. -/
def spellSignature (name : String) (inputs : List Ty) (outputs : Option (List Ty)) : String :=
  name ++ spellTypes inputs ++ (outputs.map spellTypes).getD "" ++ signatureVersion

/-- The id of the constructor without arguments. -/
def constructorId : UInt32 := hashWord ("constructor()()" ++ signatureVersion) &&& ~~~answerBit

namespace Signature

/-- The inputs that are spelled and stored: a function that answers takes the answer's id first. -/
def allInputs (f : Signature) : List Ty :=
  if f.answers then .integer 32 false :: f.inputs else f.inputs

/-- The spelled signature. -/
def spell (f : Signature) : String := spellSignature f.name f.allInputs f.outputs

/-- The id that comes from the spelled signature, before any bit of it is changed. -/
def rawId (f : Signature) : UInt32 := hashWord f.spell

/-- The id that a call coming in carries. -/
def inboundId (f : Signature) : UInt32 := f.pinned.getD f.rawId

/-- The id that a message going out carries. -/
def outboundId (f : Signature) (reason : Reason) : UInt32 :=
  f.pinned.getD <|
    match reason with
    | .answer => f.rawId ||| answerBit
    | .event | .call => f.rawId &&& ~~~answerBit

/-- Puts an entry into a table sorted by key, in place of an entry with the same key. -/
def insertSorted (key value : String) : List (String × String) → List (String × String)
  | [] => [(key, value)]
  | (k, v) :: table =>
    if key < k then (key, value) :: (k, v) :: table
    else if key = k then (key, value) :: table
    else (k, v) :: insertSorted key value table

/-- The ids of calls to the functions as a JSON object, an entry on a line, sorted by name. Of
functions with the same name the last one counts. -/
def idsText (fs : List Signature) : String :=
  let table := fs.foldl (fun t f => insertSorted f.name ("0x" ++ hexWord (f.outboundId .call)) t) []
  if table.isEmpty then "\x7b\x7d"
  else "\x7b\n" ++ String.intercalate ",\n"
    (table.map fun (k, v) => "  " ++ Json.quote k ++ ": " ++ Json.quote v) ++ "\n\x7d"

end Signature

end TypedCells
