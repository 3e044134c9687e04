import Assembler.Isa.Range
import Assembler.Program.Operand
import Assembler.Text.Digits

/-! # Machine descriptions

A description says how registers are named, how each instruction is laid out in bits, which macro
instructions stand for others, how memory is shaped and how far the program counter has advanced
when an instruction executes. Data directives are described beside it, since dialects of one
machine differ in them.
-/

namespace Assembler

/-- An inclusive range of bits of a word. -/
structure BitRange where
  /-- The highest bit. -/
  hi : Nat
  /-- The lowest bit. -/
  lo : Nat
  deriving Repr, DecidableEq

namespace BitRange

/-- The number of bits. -/
def width (r : BitRange) : Nat := r.hi - r.lo + 1

/-- The word with exactly these bits set. -/
def mask (r : BitRange) : UInt32 :=
  lowMask r.width <<< UInt32.ofNat r.lo

/-- The low bits of a value moved into the range. -/
def place (r : BitRange) (value : UInt32) : UInt32 :=
  (value &&& lowMask r.width) <<< UInt32.ofNat r.lo

/-- The bits of a word in the range, as a number. -/
def extract (r : BitRange) (word : UInt32) : UInt32 :=
  (word >>> UInt32.ofNat r.lo) &&& lowMask r.width

end BitRange

/-- What an operand of an instruction must be. -/
inductive Slot where
  /-- A register of the file with this mark. -/
  | register (sigil : Char)
  /-- An integer or a label. -/
  | immediate
  deriving Repr, DecidableEq

/-- Whether an operand can fill a slot. -/
def Slot.accepts : Slot → Operand → Bool
  | .register wanted, .register sigil _ => wanted == sigil
  | .immediate, .integer _ => true
  | .immediate, .label _ => true
  | _, _ => false

/-- Whether operands fill a list of slots one by one. -/
def Slot.acceptAll (slots : List Slot) (operands : List Operand) : Bool :=
  slots.length == operands.length && (slots.zip operands).all fun pair => pair.1.accepts pair.2

/-- One field of an encoding. -/
inductive Field where
  /-- Fixed bits, such as an opcode. -/
  | const (bits : BitRange) (value : UInt32)
  /-- The number of a register of the file with this mark. -/
  | register (bits : BitRange) (sigil : Char)
  /-- An integer or the distance to a label, sign-extended by the machine or not. -/
  | immediate (bits : BitRange) (signed : Bool)
  deriving Repr, DecidableEq

namespace Field

/-- The bits of a field. -/
def bits : Field → BitRange
  | .const bits _ => bits
  | .register bits _ => bits
  | .immediate bits _ => bits

/-- The slot that a field is filled from; fixed bits have none. -/
def slot? : Field → Option Slot
  | .const _ _ => none
  | .register _ sigil => some (.register sigil)
  | .immediate _ _ => some .immediate

/-- Whether a field is fixed. -/
def isConst : Field → Bool
  | .const _ _ => true
  | _ => false

end Field

/-- One way to encode a mnemonic. The fields that are not fixed are filled by the operands in
    order. -/
structure Encoding where
  /-- The mnemonic in lower case. -/
  op : String
  /-- The fields from the high bits down. -/
  fields : List Field
  deriving Repr, DecidableEq

namespace Encoding

/-- The slots of the operands. -/
def slots (e : Encoding) : List Slot := e.fields.filterMap Field.slot?

/-- Whether operands fit the encoding. -/
def accepts (e : Encoding) (operands : List Operand) : Bool :=
  Slot.acceptAll e.slots operands

/-- The number of fixed bits. -/
def constBits (e : Encoding) : Nat :=
  (e.fields.filter Field.isConst).foldr (fun f n => f.bits.width + n) 0

end Encoding

/-- An operand in the expansion of a macro instruction. -/
inductive Argument where
  /-- The macro's own operand at a position. -/
  | operand (index : Nat)
  /-- A fixed register. -/
  | register (sigil : Char) (num : Nat)
  /-- A fixed integer. -/
  | integer (value : Int)
  deriving Repr, DecidableEq

/-- The operand that an argument stands for; a position without operand gives none. -/
def Argument.resolve? (operands : List Operand) : Argument → Option Operand
  | .operand index => operands[index]?
  | .register sigil num => some (.register sigil num)
  | .integer value => some (.integer value)

/-- A macro instruction. -/
structure Alias where
  /-- The mnemonic in lower case. -/
  op : String
  /-- The slots of the operands. -/
  slots : List Slot
  /-- The number of words it occupies. -/
  size : Nat
  /-- The mnemonics it stands for, with their arguments. -/
  expansion : List (String × List Argument)
  deriving Repr, DecidableEq

namespace Alias

/-- Whether operands fit the macro. -/
def accepts (a : Alias) (operands : List Operand) : Bool :=
  Slot.acceptAll a.slots operands

/-- The mnemonics with their operands. -/
def expand (a : Alias) (operands : List Operand) : List (String × List Operand) :=
  a.expansion.map fun part => (part.1, part.2.filterMap (Argument.resolve? operands))

end Alias

/-- Registers that share a mark. -/
structure RegisterFile where
  /-- The mark in lower case. -/
  sigil : Char
  /-- The number of registers. -/
  count : Nat
  /-- Names of registers without the mark. -/
  names : List (String × Nat)
  deriving Repr, DecidableEq

/-- A machine. -/
structure Isa where
  /-- The name of the machine. -/
  name : String
  /-- How far the program counter is ahead of an instruction that executes. -/
  increment : Nat
  /-- The number of bits of a word. -/
  wordBits : Nat
  /-- The number of bits at an address. -/
  addressability : Nat
  /-- The number of addresses. -/
  space : Nat
  /-- The register files. -/
  registers : List RegisterFile
  /-- The encodings; a mnemonic may have several, for different operands. -/
  encodings : List Encoding
  /-- The macro instructions. -/
  aliases : List Alias
  deriving Repr, DecidableEq

namespace Isa

/-- The encodings of a mnemonic. -/
def encodingsOf (isa : Isa) (op : String) : List Encoding :=
  isa.encodings.filter (·.op == op)

/-- The macro instructions of a name. -/
def aliasesOf (isa : Isa) (op : String) : List Alias :=
  isa.aliases.filter (·.op == op)

/-- Whether a word names an instruction or a macro instruction, in any case. -/
def isMnemonic (isa : Isa) (word : String) : Bool :=
  let op := word.toLower
  isa.encodings.any (·.op == op) || isa.aliases.any (·.op == op)

/-- The number of a register from its mark and the text after it. A text that is a number of 32 bits
    must be in range; any other is looked up among the names without regard to case. -/
def registerNumber? (isa : Isa) (sigil : Char) (name : String) : Option Nat :=
  match isa.registers.find? (·.sigil == sigil.toLower) with
  | none => none
  | some file =>
      match Text.unsigned? 10 UInt32.size name.toList with
      | some n => if n < file.count then some n else none
      | none => (file.names.find? (·.1.toLower == name.toLower)).map (·.2)

/-- The last address. -/
def lastAddress (isa : Isa) : Nat := isa.space - 1

end Isa

/-- What a data directive emits. -/
inductive DataAction where
  /-- One word with the value of an integer or the address of a label. -/
  | word
  /-- As many zero words as an integer says. -/
  | block
  /-- A word for each character of a string, and a zero word. -/
  | stringz
  deriving Repr, DecidableEq

/-- A data directive for one kind of operand. -/
structure DirectiveSpec where
  /-- The name in lower case, without its dot. -/
  op : String
  /-- The kind of operand. -/
  operand : OperandKind
  /-- What it emits. -/
  action : DataAction
  deriving Repr, DecidableEq

end Assembler
