import Assembler.Codegen.Error
import Assembler.Object.Basic

/-! # Overlapping sections

Sections are visited in the order of their start addresses, and each is compared with the one before
it that reaches furthest: if it does not overlap that one, it overlaps none before it. Sections
without words occupy nothing.
-/

namespace Assembler

/-- The addresses of a section and the line that opened it. -/
structure Extent where
  /-- The first address. -/
  start : UInt32
  /-- The address after the last one. -/
  stop : Nat
  /-- The line. -/
  line : Nat
  deriving Repr, DecidableEq

namespace Extent

/-- Whether two extents share an address. -/
def overlaps (a b : Extent) : Bool :=
  a.start.toNat < b.stop && b.start.toNat < a.stop

/-- Compare each extent, in order, with the one before it that reaches furthest. -/
def sweep (furthest : Extent) : List Extent → Except CodegenError Unit
  | [] => .ok ()
  | e :: rest =>
      if furthest.overlaps e then .error (.overlappingSections furthest.start e.start e.line)
      else sweep (if furthest.stop < e.stop then e else furthest) rest

/-- Check that no two extents share an address. -/
def checkAll (extents : List Extent) : Except CodegenError Unit :=
  match extents.mergeSort (fun a b => a.start ≤ b.start) with
  | [] => .ok ()
  | first :: rest => sweep first rest

end Extent

/-- Check that no two sections share an address; each section comes with its line. -/
def checkOverlap (sections : List (ObjectSection × Nat)) : Except CodegenError Unit :=
  Extent.checkAll
    ((sections.filter (!·.1.isEmpty)).map fun s => ⟨s.1.start, s.1.stop, s.2⟩)

end Assembler
