import Assembler.Codegen.Encode
import Assembler.Codegen.Overlap

/-! # Generating an object

The first pass walks the statements in order, binds each label to the address of the statement it
stands before, and encodes what it can; a statement that needs a label bound later leaves zero words
of its size. The second pass encodes those statements again under the complete symbol table and
writes their words over the zeros. At last sections are checked for overlap.
-/

namespace Assembler

/-- The most words an object may have. -/
def maxOutputWords : Nat := 1 <<< 24

/-- A statement that waits for a label. -/
structure Deferred where
  /-- The position of its section. -/
  sectionIndex : Nat
  /-- The position of its first word in that section. -/
  offset : Nat
  /-- Its address. -/
  pc : Nat
  /-- Its source line. -/
  line : Nat
  /-- What it emits. -/
  payload : Payload
  deriving Repr, DecidableEq

/-- What the first pass has found, over all sections. -/
structure Draft where
  /-- The labels bound so far. -/
  symbols : SymbolTable
  /-- The sum of the sizes of all statements so far. -/
  total : Nat
  /-- The statements that wait for a label, in order. -/
  deferred : List Deferred
  deriving DecidableEq

/-- The state of the first pass inside a section. -/
structure Placement where
  /-- What has been found in all. -/
  draft : Draft
  /-- The address of the next statement. -/
  pc : Nat
  /-- The words of the section so far. -/
  words : List UInt32
  deriving DecidableEq

/-- Write words over those of a list from a position on; what does not fit is dropped. -/
def overwrite (offset : Nat) (new old : List UInt32) : List UInt32 :=
  let behind := old.drop offset
  old.take offset ++ new.take behind.length ++ behind.drop new.length

/-- The place of a section in the source. -/
structure Place where
  /-- The whole assembly, for its labels. -/
  assembly : Assembly
  /-- The position of the section. -/
  sectionIndex : Nat
  /-- The address at which it starts. -/
  start : UInt32
  /-- The line that opened it. -/
  line : Nat

namespace Place

/-- The error of a section that does not fit in memory. -/
def pastEnd (place : Place) : CodegenError :=
  .pastEndOfMemory place.start place.line

/-- Bind the labels in front of a statement to its address. -/
def bind (place : Place) (index pc : Nat) (symbols : SymbolTable) :
    Except CodegenError SymbolTable :=
  match place.assembly.labelsAt ⟨place.sectionIndex, index⟩ with
  | [] => .ok symbols
  | labels =>
      if pc < UInt32.size then
        .ok (labels.foldl (fun symbols label => symbols.insert label (UInt32.ofNat pc)) symbols)
      else .error place.pastEnd

end Place

namespace Target

/-- Place one statement: bind its labels, check its size and encode it or leave it for later. -/
def placeStatement (t : Target) (place : Place) (index : Nat) (s : Statement) (p : Placement) :
    Except CodegenError Placement := do
  let symbols ← place.bind index p.pc p.draft.symbols
  let payload ← t.resolve s
  let size ← payload.size s.line
  if t.isa.space < p.pc + size then
    throw place.pastEnd
  let total := p.draft.total + size
  if maxOutputWords < total then
    throw (.outputTooLarge maxOutputWords s.line)
  match (Context.mk t.isa symbols s.line).payload p.pc payload with
  | .ok words =>
      return ⟨⟨symbols, total, p.draft.deferred⟩, p.pc + size, p.words ++ words⟩
  | .error (.unbound _) =>
      let waiting : Deferred := ⟨place.sectionIndex, p.words.length, p.pc, s.line, payload⟩
      return ⟨⟨symbols, total, p.draft.deferred ++ [waiting]⟩, p.pc + size,
        p.words ++ List.replicate size 0⟩
  | .error (.failed e) => throw e

/-- Place statements from a position on, and bind the labels after the last one. -/
def placeStatements (t : Target) (place : Place) :
    (index : Nat) → List Statement → Placement → Except CodegenError Placement
  | index, [], p => do
      let symbols ← place.bind index p.pc p.draft.symbols
      return { p with draft := { p.draft with symbols := symbols } }
  | index, s :: rest, p => do
      t.placeStatements place (index + 1) rest (← t.placeStatement place index s p)

/-- The first pass over sections from a position on. -/
def firstPass (t : Target) (asm : Assembly) :
    (index : Nat) → List Section → Draft → Except CodegenError (Draft × List ObjectSection)
  | _, [], draft => .ok (draft, [])
  | index, s :: rest, draft => do
      let place : Place := ⟨asm, index, s.start, s.line⟩
      let placed ← t.placeStatements place 0 s.statements ⟨draft, s.start.toNat, []⟩
      let (draft, sections) ← t.firstPass asm (index + 1) rest placed.draft
      return (draft, ⟨s.start, placed.words⟩ :: sections)

/-- Encode a statement that waited, under the complete symbol table, and write its words. -/
def complete (t : Target) (symbols : SymbolTable) (sections : List ObjectSection) (d : Deferred) :
    Except CodegenError (List ObjectSection) :=
  match (Context.mk t.isa symbols d.line).payload d.pc d.payload with
  | .ok words =>
      .ok (sections.modify d.sectionIndex fun s =>
        { s with words := overwrite d.offset words s.words })
  | .error (.unbound label) => .error (.unknownLabel label d.line)
  | .error (.failed e) => .error e

/-- The object of an assembly. -/
def generate (t : Target) (asm : Assembly) : Except CodegenError Object := do
  let (draft, sections) ← t.firstPass asm 0 asm.sections ⟨.empty, 0, []⟩
  let sections ← draft.deferred.foldlM (t.complete draft.symbols) sections
  checkOverlap (sections.zip (asm.sections.map (·.line)))
  return ⟨draft.symbols, sections⟩

end Target

end Assembler
