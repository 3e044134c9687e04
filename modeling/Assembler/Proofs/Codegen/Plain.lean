import Assembler.Codegen.Generate
import Assembler.Proofs.Codegen.Overlap
import Assembler.Proofs.Collections.SortedMap
import Assembler.Proofs.Outcome
import Mathlib

/-! # The plain assembler

Everything in its natural order: sizes first, then addresses, then the complete symbol table, then
all words. Nothing is left open and nothing is written twice. The generator is measured against
this.
-/

namespace Assembler

/-- A statement with what it emits and the number of words that takes. -/
structure Sized where
  payload : Payload
  size : Nat
  line : Nat
  deriving DecidableEq

/-- A section of statements that have sizes. -/
structure Layout where
  start : UInt32
  items : List Sized
  deriving DecidableEq

def Sized.total (items : List Sized) : Nat := (items.map (·.size)).sum

/-- Whether no statement of a row that starts at an address ends past the memory. -/
def Sized.fit (space : Nat) : (pc : Nat) → List Sized → Bool
  | _, [] => true
  | pc, item :: rest => pc + item.size ≤ space && Sized.fit space (pc + item.size) rest

/-- The words of a row of statements that starts at an address. -/
def Sized.encode (isa : Isa) (symbols : SymbolTable) :
    (pc : Nat) → List Sized → Except EncodeStop (List UInt32)
  | _, [] => .ok []
  | pc, item :: rest => do
      let words ← (Context.mk isa symbols item.line).payload pc item.payload
      return words ++ (← Sized.encode isa symbols (pc + item.size) rest)

namespace Layout

/-- The address of the statement at a position: the start and the sizes of the statements before
    it. -/
def address (l : Layout) (i : Nat) : Nat := l.start.toNat + Sized.total (l.items.take i)

/-- The address of a site, if there is such a place in the sections. -/
def siteAddress? (layouts : List Layout) (site : Site) : Option Nat :=
  match layouts[site.sectionIndex]? with
  | some l => if site.index ≤ l.items.length then some (l.address site.index) else none
  | none => none

def addresses (layouts : List Layout) (labels : SortedMap String Site) : List (String × Nat) :=
  labels.toList.filterMap fun entry => (siteAddress? layouts entry.2).map (entry.1, ·)

def symbols (layouts : List Layout) (labels : SortedMap String Site) : SymbolTable :=
  .ofList ((addresses layouts labels).map fun entry => (entry.1, UInt32.ofNat entry.2))

def encode (isa : Isa) (symbols : SymbolTable) (l : Layout) : Except EncodeStop ObjectSection := do
  return ⟨l.start, ← Sized.encode isa symbols l.start.toNat l.items⟩

end Layout

namespace Target

def measure (t : Target) (s : Statement) : Except CodegenError Sized := do
  let payload ← t.resolve s
  return ⟨payload, ← payload.size s.line, s.line⟩

def layout (t : Target) (s : Section) : Except CodegenError Layout := do
  return ⟨s.start, ← s.statements.mapM t.measure⟩

/-- The object of an assembly, if it has one. -/
def plain (t : Target) (asm : Assembly) : Option Object := do
  let layouts ← (asm.sections.mapM t.layout).toOption
  guard (layouts.all fun l => Sized.fit t.isa.space l.start.toNat l.items)
  guard ((layouts.map fun l => Sized.total l.items).sum ≤ maxOutputWords)
  guard ((Layout.addresses layouts asm.labels).all (·.2 < UInt32.size))
  let symbols := Layout.symbols layouts asm.labels
  let sections ← (layouts.mapM (Layout.encode t.isa symbols)).toOption
  guard (sections.Pairwise ObjectSection.Disjoint)
  return ⟨symbols, sections⟩

end Target

namespace Layout

variable {layouts : List Layout} {labels : SortedMap String Site}

/-- Every label that has a place in the sections has an address of 32 bits. -/
def Addressable (layouts : List Layout) (labels : SortedMap String Site) : Prop :=
  ∀ label site address, labels.get? label = some site →
    siteAddress? layouts site = some address → address < UInt32.size

theorem mem_addresses {label : String} {a : Nat} : (label, a) ∈ addresses layouts labels ↔
    ∃ site, labels.get? label = some site ∧ siteAddress? layouts site = some a := by
  simp only [addresses, List.mem_filterMap, Option.map_eq_some_iff, Prod.mk.injEq]
  constructor
  · rintro ⟨⟨name, site⟩, member, b, found, rfl, rfl⟩
    exact ⟨site, SortedMap.get?_eq_some_iff.2 member, found⟩
  · rintro ⟨site, entry, found⟩
    exact ⟨(label, site), SortedMap.get?_eq_some_iff.1 entry, a, found, rfl, rfl⟩

theorem nodup_addresses : ((addresses layouts labels).map (·.1)).Nodup := by
  refine List.Nodup.sublist ?_ labels.nodup_keys
  rw [addresses]
  induction labels.toList with
  | nil => exact .slnil
  | cons entry rest ih =>
      simp only [List.filterMap_cons]
      cases siteAddress? layouts entry.2 with
      | none => exact ih.cons _
      | some a => exact ih.cons_cons _

theorem get?_symbols {label : String} {a : UInt32} : (symbols layouts labels).get? label = some a ↔
    ∃ site address, labels.get? label = some site ∧
      siteAddress? layouts site = some address ∧ a = UInt32.ofNat address := by
  have distinct : (((addresses layouts labels).map fun entry =>
      (entry.1, UInt32.ofNat entry.2)).map (·.1)).Nodup := by
    simpa [Function.comp_def] using nodup_addresses
  rw [symbols, SortedMap.get?_ofList distinct]
  simp only [List.mem_map, Prod.mk.injEq, Prod.exists, mem_addresses]
  constructor
  · rintro ⟨_, address, ⟨site, entry, found⟩, rfl, rfl⟩
    exact ⟨site, address, entry, found, rfl⟩
  · rintro ⟨site, address, entry, found, rfl⟩
    exact ⟨label, address, ⟨site, entry, found⟩, rfl, rfl⟩

end Layout

namespace Target

theorem measure_eq_ok {t : Target} {s : Statement} {item : Sized} : t.measure s = .ok item ↔
    t.resolve s = .ok item.payload ∧ item.payload.size s.line = .ok item.size ∧
      item.line = s.line := by
  simp only [measure, bind_eq_ok, pure_eq_ok]
  constructor
  · rintro ⟨payload, resolved, size, sized, rfl⟩
    exact ⟨resolved, sized, rfl⟩
  · rintro ⟨resolved, sized, line⟩
    exact ⟨_, resolved, _, sized, by rw [← line]⟩

theorem layout_eq_ok {t : Target} {s : Section} {l : Layout} : t.layout s = .ok l ↔
    l.start = s.start ∧
      List.Forall₂ (fun statement item => t.measure statement = .ok item) s.statements l.items := by
  simp only [layout, bind_eq_ok, pure_eq_ok, mapM_eq_ok]
  constructor
  · rintro ⟨items, measured, rfl⟩
    exact ⟨rfl, measured⟩
  · rintro ⟨start, measured⟩
    exact ⟨l.items, measured, by rw [← start]⟩

end Target

/-- An object, the layout of its sections, and all that is checked of them. -/
structure Target.Laid (t : Target) (asm : Assembly) (layouts : List Layout) (obj : Object) :
    Prop where
  measured : List.Forall₂ (fun s l => t.layout s = .ok l) asm.sections layouts
  fits : ∀ l ∈ layouts, Sized.fit t.isa.space l.start.toNat l.items = true
  room : (layouts.map fun l => Sized.total l.items).sum ≤ maxOutputWords
  near : Layout.Addressable layouts asm.labels
  encoded : List.Forall₂ (fun l s => l.encode t.isa obj.symbols = .ok s) layouts obj.sections
  apart : obj.sections.Pairwise ObjectSection.Disjoint
  symbols : obj.symbols = Layout.symbols layouts asm.labels

theorem Target.plain_eq_some_iff {t : Target} {asm : Assembly} {obj : Object} :
    t.plain asm = some obj ↔ ∃ layouts, t.Laid asm layouts obj := by
  simp only [plain, Option.bind_eq_bind, Option.bind_eq_some_iff, toOption_eq_some, mapM_eq_ok,
    Option.guard_eq_some', Option.pure_def, Option.some.injEq, exists_const, List.all_eq_true,
    decide_eq_true_eq]
  constructor
  · rintro ⟨layouts, measured, fits, room, near, sections, encoded, apart, rfl⟩
    refine ⟨layouts, measured, fits, room, ?_, encoded, apart, rfl⟩
    intro label site address entry found
    exact near _ (Layout.mem_addresses.2 ⟨site, entry, found⟩)
  · rintro ⟨layouts, measured, fits, room, near, encoded, apart, symbols⟩
    refine ⟨layouts, measured, fits, room, ?_, obj.sections, symbols ▸ encoded, apart, ?_⟩
    · rintro ⟨label, address⟩ member
      obtain ⟨site, entry, found⟩ := Layout.mem_addresses.1 member
      exact near label site address entry found
    · rw [← symbols]

end Assembler
