import TypedCells.Machine.Instr
import TypedCells.Ty.Size

/-!
# Listings

`Instr.listing` writes a program as assembler text, one instruction on a line. The programs inside
an instruction come before it, each between `PUSHCONT {` and `}` and indented by a tab.
-/

namespace TypedCells

namespace Ty

/-- The mnemonic for writing or reading an integer of an integral type. -/
def integralMnemonic (verb : String) (width : Nat) (signed : Bool) (quiet : String) : String :=
  verb ++ (if signed then "I" else "U") ++ quiet ++ " " ++ toString width

/-- The mnemonic for writing or reading a variable integer. -/
def varIntegerMnemonic (verb : String) (bytes : Nat) (signed : Bool) (quiet : String) : String :=
  verb ++ "VAR" ++ (if signed then "" else "U") ++ "INT" ++ toString bytes ++ quiet

/-- The mnemonic for writing a value of the type. -/
def storeMnemonic : Ty → String
  | .integer bits signed => integralMnemonic "ST" bits signed ""
  | .bool => integralMnemonic "ST" 1 true ""
  | .fixedBytes n => integralMnemonic "ST" (n * 8) false ""
  | .function => integralMnemonic "ST" 32 false ""
  | .enumeration _ variants => integralMnemonic "ST" (enumBits variants) false ""
  | .address | .addressStd => "STSLICE"
  | .cell | .bytes | .string => "STREF"
  | .mapping _ _ => "STDICT"
  | .array _ _ => "UNPAIR; XCHG s2; STU 32; STDICT"
  | .varInteger n signed => varIntegerMnemonic "ST" n signed ""
  | .optional t =>
    (if t.wordSize.StaysInline then "STOPTIONAL" else "STOPTIONALREF")
      ++ " \x7b " ++ t.storeMnemonic ++ " \x7d"
  | .struct _ fs => "STTUPLE " ++ toString fs.length
  | .tuple ts => "STTUPLE " ++ toString ts.length
  | .alias _ t => t.storeMnemonic

/-- The mnemonic for reading a value of the type; `quiet` is `Q` for a quiet load, else empty. -/
def loadMnemonic (quiet : String) : Ty → String
  | .integer bits signed => integralMnemonic "LD" bits signed quiet
  | .bool => integralMnemonic "LD" 1 true quiet
  | .fixedBytes n => integralMnemonic "LD" (n * 8) false quiet
  | .function => integralMnemonic "LD" 32 false quiet
  | .enumeration _ variants => integralMnemonic "LD" (enumBits variants) false quiet
  | .address | .addressStd => "LDMSGADDR" ++ quiet
  | .cell | .bytes | .string => "LDREF" ++ quiet
  | .mapping _ _ => "LDDICT" ++ quiet
  | .array _ _ => "LDU" ++ quiet ++ " 32; LDDICT" ++ quiet ++ "; ROTREV; PAIR; SWAP"
  | .varInteger n signed => varIntegerMnemonic "LD" n signed quiet
  | .optional t => "LDOPTIONAL" ++ quiet ++ " \x7b " ++ t.loadMnemonic "" ++ " \x7d"
  | .struct _ fs => "LDTUPLE" ++ quiet ++ " " ++ toString fs.length
  | .tuple ts => "LDTUPLE" ++ quiet ++ " " ++ toString ts.length
  | .alias _ t => t.loadMnemonic quiet

end Ty

/-- The line of an instruction without a program in it. -/
def Op.mnemonic : Op → String
  | .push i => "PUSH s" ++ toString i
  | .pop i => "POP s" ++ toString i
  | .xchg i => "XCHG s" ++ toString i
  | .blkSwap i j => "BLKSWAP " ++ toString i ++ ", " ++ toString j
  | .reverse n j => "REVERSE " ++ toString n ++ ", " ++ toString j
  | .blkDrop n m => "BLKDROP2 " ++ toString n ++ ", " ++ toString m
  | .drop => "DROP"
  | .pushInt v => "PUSHINT " ++ toString v
  | .pushNull => "NULL"
  | .tuple n => "TUPLE " ++ toString n
  | .untuple n => "UNTUPLE " ++ toString n
  | .geq => "GEQ"
  | .equal => "EQUAL"
  | .and => "AND"
  | .dec => "DEC"
  | .throwIf code => "THROWIF " ++ toString code
  | .newc => "NEWC"
  | .endc => "ENDC"
  | .ctos => "CTOS"
  | .ends => "ENDS"
  | .stBuilderRef => "STBREFR"
  | .stSlice => "STSLICE"
  | .stConst word => "STSLICECONST x" ++ hexWord word
  | .stBit bit => "STSLICECONST " ++ (if bit then "1" else "0")
  | .stNat width => "STUR " ++ toString width
  | .ldRef => "LDREF"
  | .ldRefRest => "LDREFRTOS"
  | .split => "SPLIT"
  | .skipFirst => "SSKIPFIRST"
  | .cutLast => "SCUTLAST"
  | .bitRefs => "SBITREFS"
  | .peekRef i => "PLDREFIDX " ++ toString i
  | .store t => t.storeMnemonic
  | .load t => t.loadMnemonic ""
  | .loadQuiet t => t.loadMnemonic "Q"

namespace Instr

/-- The line of an instruction itself, without those of the programs in it. -/
def mnemonic : Instr → String
  | .op o => o.mnemonic
  | .ifElse _ _ => "IFELSE"
  | .call _ _ _ => "CALLX"
  | .jumpIf _ => "IFJMP"
  | .jumpUnless _ => "IFNOTJMP"

/-- The lines of a program inside an instruction. -/
def blockLines (body : List String) : List String :=
  "PUSHCONT \x7b" :: body.map ("\t" ++ ·) ++ ["\x7d"]

mutual

/-- The lines of an instruction. -/
def lines : Instr → List String
  | .op o => [o.mnemonic]
  | .ifElse a b => blockLines (codeLines a) ++ blockLines (codeLines b) ++ ["IFELSE"]
  | .call body _ _ => blockLines (codeLines body) ++ ["CALLX"]
  | .jumpIf body => blockLines (codeLines body) ++ ["IFJMP"]
  | .jumpUnless body => blockLines (codeLines body) ++ ["IFNOTJMP"]

/-- The lines of a program. -/
def codeLines : List Instr → List String
  | [] => []
  | i :: is => lines i ++ codeLines is

end

/-- The listing of a program: its lines, each ended by a line break. -/
def listing (code : List Instr) : String := String.join ((codeLines code).map (· ++ "\n"))

/-- One instruction as a text without a line break at its end. -/
def text (i : Instr) : String := String.intercalate "\n" i.lines

end Instr

end TypedCells
