import Assembler.Codegen.Error
import Assembler.Isa.Basic
import Assembler.Object.Basic
import Assembler.Program.Assembly

/-! # Encoding one statement

A statement is first resolved to what it emits, which decides its size, and then encoded at its
address under a symbol table. Encoding stops at the first label that the table does not have, so
that the same function serves while labels are still being bound and afterwards.
-/

namespace Assembler

/-- What a generator is built for: a machine and the data directives of a dialect. -/
structure Target where
  /-- The machine. -/
  isa : Isa
  /-- The data directives. -/
  directives : List DirectiveSpec
  deriving Repr, DecidableEq

/-- What a statement emits. -/
inductive Payload where
  /-- An instruction in one of its encodings. -/
  | instruction (encoding : Encoding) (operands : List Operand)
  /-- The expansion of a macro instruction. -/
  | expansion (used : Alias) (operands : List Operand)
  /-- One word with a value. -/
  | word (value : Int)
  /-- One word with the address of a label. -/
  | address (label : String)
  /-- A number of zero words. -/
  | block (count : Int)
  /-- The characters of a string and a zero word. -/
  | text (content : String)
  deriving Repr, DecidableEq

/-- Why encoding stops. -/
inductive EncodeStop where
  /-- A label has no address yet. -/
  | unbound (label : String)
  /-- The statement cannot be encoded. -/
  | failed (e : CodegenError)
  deriving Repr, DecidableEq

namespace Target

/-- What a directive of a description emits for an operand. -/
def payloadOf (action : DataAction) (operand : Operand) : Except CodegenError Payload :=
  match action, operand with
  | .word, .integer value => .ok (.word value)
  | .word, .label label => .ok (.address label)
  | .block, .integer count => .ok (.block count)
  | .stringz, .string content => .ok (.text content)
  | _, _ => .error (.fault .operandMismatch)

/-- Resolve an instruction. Encodings come before macro instructions, each in order. -/
def resolveInstruction (t : Target) (i : Instruction) : Except CodegenError Payload :=
  match (t.isa.encodingsOf i.op).find? (·.accepts i.operands) with
  | some encoding => .ok (.instruction encoding i.operands)
  | none =>
      match (t.isa.aliasesOf i.op).find? (·.accepts i.operands) with
      | some used => .ok (.expansion used i.operands)
      | none => .error (.unknownInstruction i.op (Operand.kindsText i.operands) i.line)

/-- Resolve a directive by its name and the kind of its operand. -/
def resolveDirective (t : Target) (d : Directive) : Except CodegenError Payload :=
  match d.operand? with
  | none => .error (.unknownDirective d.op "no" d.line)
  | some operand =>
      match t.directives.find? (fun spec => spec.op == d.op && spec.operand == operand.kind) with
      | some spec => payloadOf spec.action operand
      | none => .error (.unknownDirective d.op operand.kind.name d.line)

/-- What a statement emits. -/
def resolve (t : Target) : Statement → Except CodegenError Payload
  | .instruction i => t.resolveInstruction i
  | .directive d => t.resolveDirective d

end Target

/-- An error of range at a line. -/
def rangeFailure {α : Type} (target : String) (line : Nat) :
    Except RangeError α → Except CodegenError α
  | .ok value => .ok value
  | .error cause => .error (.outOfRange target line cause)

/-- The number of words that a payload occupies. -/
def Payload.size (line : Nat) : Payload → Except CodegenError Nat
  | .instruction _ _ => .ok 1
  | .expansion used _ => .ok used.size
  | .word _ => .ok 1
  | .address _ => .ok 1
  | .block count => do
      let words ← rangeFailure (toString count) line (fit count 32 false)
      return words.toNat
  | .text content => .ok (content.toList.length + 1)

/-- Where a statement stands and what is known about labels there. -/
structure Context where
  /-- The machine. -/
  isa : Isa
  /-- The labels that have an address. -/
  symbols : SymbolTable
  /-- The source line. -/
  line : Nat

namespace Context

/-- A failure as a reason to stop. -/
def check {α : Type} : Except CodegenError α → Except EncodeStop α
  | .ok value => .ok value
  | .error e => .error (.failed e)

/-- The address of a label. -/
def address (ctx : Context) (label : String) : Except EncodeStop UInt32 :=
  match ctx.symbols.get? label with
  | some address => .ok address
  | none => .error (.unbound label)

/-- The value of an immediate operand at an address, with the text that names it in errors. A label
    denotes the distance to it from where the program counter will be. -/
def immediate (ctx : Context) (pc : Nat) : Operand → Except EncodeStop (String × Int)
  | .integer value => .ok (toString value, value)
  | .label label => do
      let address ← ctx.address label
      return (label, (address.toNat : Int) - ((pc + ctx.isa.increment : Nat) : Int))
  | _ => .error (.failed (.fault .operandMismatch))

/-- The bits of one field and the operands left for the fields after it. -/
def field (ctx : Context) (pc : Nat) (operands : List Operand) :
    Field → Except EncodeStop (UInt32 × List Operand)
  | .const bits value => .ok (bits.place value, operands)
  | .register bits _ =>
      match operands with
      | .register sigil num :: rest => do
          let text := (Operand.register sigil num).render
          let value ← check (rangeFailure text ctx.line (fit num bits.width false))
          return (bits.place value, rest)
      | _ => .error (.failed (.fault .operandMismatch))
  | .immediate bits signed =>
      match operands with
      | operand :: rest => do
          let (text, distance) ← ctx.immediate pc operand
          let value ← check (rangeFailure text ctx.line (fit distance bits.width signed))
          return (bits.place value, rest)
      | [] => .error (.failed (.fault .operandMismatch))

/-- The word of a list of fields filled from operands at an address. -/
def fields (ctx : Context) (pc : Nat) : List Field → List Operand → Except EncodeStop UInt32
  | [], _ => .ok 0
  | f :: fs, operands => do
      let (bits, rest) ← ctx.field pc operands f
      return bits ||| (← ctx.fields pc fs rest)

/-- The word of an instruction at an address. -/
def instruction (ctx : Context) (pc : Nat) (encoding : Encoding) (operands : List Operand) :
    Except EncodeStop UInt32 :=
  ctx.fields pc encoding.fields operands

/-- The words of expanded instructions at consecutive addresses. -/
def expansion (ctx : Context) : (pc : Nat) → List (String × List Operand) →
    Except EncodeStop (List UInt32)
  | _, [] => .ok []
  | pc, (op, operands) :: rest =>
      match (ctx.isa.encodingsOf op).find? (·.accepts operands) with
      | none => .error (.failed (.unknownInstruction op (Operand.kindsText operands) ctx.line))
      | some encoding => do
          let word ← ctx.instruction pc encoding operands
          return word :: (← ctx.expansion (pc + 1) rest)

/-- A data word. -/
def dataWord (ctx : Context) (text : String) (value : Int) : Except EncodeStop UInt32 :=
  check (rangeFailure text ctx.line (fitWord value ctx.isa.wordBits))

/-- The words of a payload at an address. -/
def payload (ctx : Context) (pc : Nat) : Payload → Except EncodeStop (List UInt32)
  | .instruction encoding operands => do return [← ctx.instruction pc encoding operands]
  | .expansion used operands => ctx.expansion pc (used.expand operands)
  | .word value => do return [← ctx.dataWord (toString value) value]
  | .address label => do
      let address ← ctx.address label
      return [← ctx.dataWord label address.toNat]
  | .block count => .ok (List.replicate count.toNat 0)
  | .text content => do
      let words ← content.toList.mapM fun c => ctx.dataWord c.toString c.toNat
      return words ++ [0]

end Context

end Assembler
