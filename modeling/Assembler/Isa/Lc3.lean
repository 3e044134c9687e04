import Assembler.Isa.Basic

/-! # The LC-3

Words and addresses of 16 bits and eight registers. Every encoding has its opcode in the four
highest bits; offsets count from the next instruction.
-/

namespace Assembler.Lc3

/-- The opcode field. -/
def opcode (value : UInt32) : Field := .const ⟨15, 12⟩ value

/-- A fixed field. -/
def fixed (hi lo : Nat) (value : UInt32) : Field := .const ⟨hi, lo⟩ value

/-- A signed immediate field. -/
def signedImm (hi lo : Nat) : Field := .immediate ⟨hi, lo⟩ true

/-- The destination register, which stores use for their source. -/
def dr : Field := .register ⟨11, 9⟩ 'r'

/-- The first source register, or a base register. -/
def sr1 : Field := .register ⟨8, 6⟩ 'r'

/-- The second source register. -/
def sr2 : Field := .register ⟨2, 0⟩ 'r'

/-- The distance from the next instruction. -/
def pcOffset : Field := signedImm 8 0

/-- A branch on condition codes. -/
def branch (op : String) (codes : UInt32) : Encoding :=
  ⟨op, [opcode 0b0000, fixed 11 9 codes, pcOffset]⟩

/-- A system call. -/
def trap (op : String) (vector : UInt32) : Encoding :=
  ⟨op, [opcode 0b1111, fixed 11 8 0, fixed 7 0 vector]⟩

/-- The encodings of the machine. -/
def encodings : List Encoding := [
  ⟨"add", [opcode 0b0001, dr, sr1, fixed 5 3 0b000, sr2]⟩,
  ⟨"add", [opcode 0b0001, dr, sr1, fixed 5 5 1, signedImm 4 0]⟩,
  ⟨"and", [opcode 0b0101, dr, sr1, fixed 5 3 0b000, sr2]⟩,
  ⟨"and", [opcode 0b0101, dr, sr1, fixed 5 5 1, signedImm 4 0]⟩,
  branch "br" 0b111,
  branch "brn" 0b100,
  branch "brz" 0b010,
  branch "brp" 0b001,
  branch "brnz" 0b110,
  branch "brnp" 0b101,
  branch "brzp" 0b011,
  branch "brnzp" 0b111,
  ⟨"jmp", [opcode 0b1100, fixed 11 9 0, sr1, fixed 5 0 0]⟩,
  ⟨"jsr", [opcode 0b0100, fixed 11 11 1, signedImm 10 0]⟩,
  ⟨"jsrr", [opcode 0b0100, fixed 11 9 0, sr1, fixed 5 0 0]⟩,
  ⟨"ld", [opcode 0b0010, dr, pcOffset]⟩,
  ⟨"ldi", [opcode 0b1010, dr, pcOffset]⟩,
  ⟨"ldr", [opcode 0b0110, dr, sr1, signedImm 5 0]⟩,
  ⟨"lea", [opcode 0b1110, dr, pcOffset]⟩,
  ⟨"not", [opcode 0b1001, dr, sr1, fixed 5 0 0b111111]⟩,
  ⟨"rti", [opcode 0b1000, fixed 11 0 0]⟩,
  ⟨"st", [opcode 0b0011, dr, pcOffset]⟩,
  ⟨"sti", [opcode 0b1011, dr, pcOffset]⟩,
  ⟨"str", [opcode 0b0111, dr, sr1, signedImm 5 0]⟩,
  ⟨"trap", [opcode 0b1111, fixed 11 8 0, .immediate ⟨7, 0⟩ false]⟩,
  ⟨"nop", [fixed 15 0 0]⟩,
  trap "getc" 0x20,
  trap "out" 0x21,
  trap "putc" 0x21,
  trap "puts" 0x22,
  trap "in" 0x23,
  trap "putsp" 0x24,
  trap "halt" 0x25]

/-- The machine. -/
def isa : Isa where
  name := "lc3"
  increment := 1
  wordBits := 16
  addressability := 16
  space := UInt16.size
  registers := [⟨'r', 8, []⟩]
  encodings := encodings
  aliases := [⟨"ret", [], 1, [("jmp", [.register 'r' 7])]⟩]

end Assembler.Lc3
