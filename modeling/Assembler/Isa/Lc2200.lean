import Assembler.Isa.Basic

/-! # The LC-2200

Words of 32 bits, one at each address, and sixteen registers, which are also known by names. Every
encoding has its opcode in the four highest bits and its first two registers below it.
-/

namespace Assembler.Lc2200

/-- The opcode field. -/
def opcode (value : UInt32) : Field := .const ⟨31, 28⟩ value

/-- A field of zeros. -/
def zeros (hi lo : Nat) : Field := .const ⟨hi, lo⟩ 0

/-- The first register. -/
def rx : Field := .register ⟨27, 24⟩ '$'

/-- The second register. -/
def ry : Field := .register ⟨23, 20⟩ '$'

/-- The third register. -/
def rz : Field := .register ⟨3, 0⟩ '$'

/-- The signed immediate. -/
def imm20 : Field := .immediate ⟨19, 0⟩ true

/-- The stack pointer. -/
def sp : Argument := .register '$' 13

/-- The register that is always zero. -/
def zero : Argument := .register '$' 0

/-- The names of the registers. -/
def registerNames : List (String × Nat) :=
  [("zero", 0), ("at", 1), ("v0", 2), ("a0", 3), ("a1", 4), ("a2", 5), ("t0", 6), ("t1", 7),
   ("t2", 8), ("s0", 9), ("s1", 10), ("s2", 11), ("k0", 12), ("sp", 13), ("fp", 14), ("ra", 15)]

/-- The encodings of the machine. -/
def encodings : List Encoding := [
  ⟨"add", [opcode 0b0000, rx, ry, zeros 19 4, rz]⟩,
  ⟨"nand", [opcode 0b0001, rx, ry, zeros 19 4, rz]⟩,
  ⟨"addi", [opcode 0b0010, rx, ry, imm20]⟩,
  ⟨"lw", [opcode 0b0011, rx, ry, imm20]⟩,
  ⟨"sw", [opcode 0b0100, rx, ry, imm20]⟩,
  ⟨"beq", [opcode 0b0101, rx, ry, imm20]⟩,
  ⟨"jalr", [opcode 0b0110, rx, ry, zeros 19 0]⟩,
  ⟨"halt", [opcode 0b0111, zeros 27 0]⟩,
  ⟨"lea", [opcode 0b1000, rx, zeros 23 20, imm20]⟩]

/-- The macro instructions of the machine. -/
def aliases : List Alias := [
  ⟨"nop", [], 1, [("add", [zero, zero, zero])]⟩,
  ⟨"la", [.register '$', .immediate], 1, [("lea", [.operand 0, .operand 1])]⟩,
  ⟨"push", [.register '$'], 2,
    [("addi", [sp, sp, .integer (-1)]), ("sw", [.operand 0, sp, .integer 0])]⟩,
  ⟨"pop", [.register '$'], 2,
    [("lw", [.operand 0, sp, .integer 0]), ("addi", [sp, sp, .integer 1])]⟩]

/-- The machine. -/
def isa : Isa where
  name := "lc2200"
  increment := 1
  wordBits := 32
  addressability := 32
  space := UInt32.size
  registers := [⟨'$', 16, registerNames⟩]
  encodings := encodings
  aliases := aliases

end Assembler.Lc2200
