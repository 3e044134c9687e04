import Assembler.Isa.Basic
import Assembler.Program.Assembly

/-! # Disassembly

A word is read by the encoding whose fixed bits match it and are the most, so that a special case
wins over the general one. Labels come back as distances, and macro instructions never do.
-/

namespace Assembler

namespace Encoding

/-- Whether the fixed fields of an encoding have their values in a word. -/
def fixedBitsMatch (e : Encoding) (word : UInt32) : Bool :=
  e.fields.all fun f =>
    match f with
    | .const bits value => bits.extract word == value
    | _ => true

/-- The operand that a field holds in a word. -/
def operandOf? (word : UInt32) : Field → Option Operand
  | .const _ _ => none
  | .register bits sigil => some (.register sigil (bits.extract word).toNat)
  | .immediate bits true => some (.integer (signExtend (bits.extract word) bits.width))
  | .immediate bits false => some (.integer (bits.extract word).toNat)

/-- The operands that a word holds. -/
def operandsOf (e : Encoding) (word : UInt32) : List Operand :=
  e.fields.filterMap (operandOf? word)

/-- The first of the encodings with the most fixed bits. -/
def mostSpecific : List Encoding → Option Encoding
  | [] => none
  | e :: es => some (es.foldl (fun best e => if best.constBits < e.constBits then e else best) e)

end Encoding

/-- The instruction that a word encodes, without a line. -/
def Isa.disassemble? (isa : Isa) (word : UInt32) : Option Instruction :=
  (Encoding.mostSpecific (isa.encodings.filter (·.fixedBitsMatch word))).map fun e =>
    ⟨e.op, e.operandsOf word, 0⟩

end Assembler
