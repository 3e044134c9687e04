import Assembler.Collections.SortedMap

/-! # Object files: symbols and sections of words -/

namespace Assembler

/-- The address of every label, sorted by label. -/
abbrev SymbolTable := SortedMap String UInt32

/-- The first label, by name, at an address. -/
def SymbolTable.labelAt? (symbols : SymbolTable) (address : UInt32) : Option String :=
  (symbols.toList.find? (·.2 == address)).map (·.1)

/-- Words at consecutive addresses. -/
structure ObjectSection where
  /-- The address of the first word. -/
  start : UInt32
  /-- The words in the order of their addresses. -/
  words : List UInt32
  deriving Repr, DecidableEq

/-- The address after the last word. -/
def ObjectSection.stop (s : ObjectSection) : Nat :=
  s.start.toNat + s.words.length

/-- Whether a section holds no words. -/
def ObjectSection.isEmpty (s : ObjectSection) : Bool :=
  s.words.isEmpty

/-- An assembled program. -/
structure Object where
  /-- The addresses of the labels. -/
  symbols : SymbolTable
  /-- The sections in source order. -/
  sections : List ObjectSection
  deriving DecidableEq

namespace Object

/-- The object without symbols and sections. -/
def empty : Object := ⟨.empty, []⟩

/-- Every word with its address. -/
def cells (o : Object) : List (Nat × UInt32) :=
  o.sections.flatMap fun s => s.words.zipIdx.map fun cell => (s.start.toNat + cell.2, cell.1)

end Object

end Assembler
