import Assembler.Proofs.Codegen.Faults

/-! # The arithmetic of code generation stays within 64 bits

Addresses, sizes and offsets are kept in 64 bits by a machine, while the generator here calculates
with numbers of any size. What has to fit is said for each place at which a number is formed, under
the state that the generator has there, also where the result is rejected a moment later. Before a
statement the address is at most the size of the memory and the words so far are those between the
start of the section and that address, so only the size of the statement itself can be large, and
that of a string is bounded by the length of the source.
-/

namespace Assembler

/-- A number of 64 bits without a sign. -/
def Unsigned64 (n : Nat) : Prop := n < 2 ^ 64

/-- A number of 64 bits with a sign. -/
def Signed64 (n : Int) : Prop := -2 ^ 63 ≤ n ∧ n < 2 ^ 63

/-- The position of the program counter for an instruction at an address, and the distances from it
    to labels. -/
def Isa.OffsetsFit (isa : Isa) (pc : Nat) : Prop :=
  Signed64 ((pc + isa.increment : Nat) : Int) ∧ ∀ symbols line label text distance,
    (Context.mk isa symbols line).immediate pc (.label label) = .ok (text, distance) →
      Signed64 distance

namespace Target

variable {t : Target}

/-- What is added up to place a statement: its end and the words in all, which are checked, and
    behind the checks the words of the section and the offsets of its instructions. -/
def StatementFits (t : Target) (s : Statement) (p : Placement) : Prop :=
  ∀ payload size, t.resolve s = .ok payload → payload.size s.line = .ok size →
    Unsigned64 (p.pc + size) ∧ Unsigned64 (p.draft.total + size) ∧
      (p.pc + size ≤ t.isa.space → Unsigned64 (p.words.length + size) ∧
        ∀ j ≤ size, t.isa.OffsetsFit (p.pc + j))

/-- All statements that the first pass comes to in a section. -/
def StatementsFit (t : Target) (place : Place) : (index : Nat) → List Statement → Placement → Prop
  | _, [], _ => True
  | index, s :: rest, p => t.StatementFits s p ∧
      ∀ p', t.placeStatement place index s p = .ok p' → t.StatementsFit place (index + 1) rest p'

/-- All statements that the first pass comes to. -/
def SectionsFit (t : Target) (asm : Assembly) : (index : Nat) → List Section → Draft → Prop
  | _, [], _ => True
  | index, s :: rest, draft =>
      t.StatementsFit ⟨asm, index, s.start, s.line⟩ 0 s.statements ⟨draft, s.start.toNat, []⟩ ∧
        ∀ placed, t.placeStatements ⟨asm, index, s.start, s.line⟩ 0 s.statements
            ⟨draft, s.start.toNat, []⟩ = .ok placed →
          t.SectionsFit asm (index + 1) rest placed.draft

/-- All statements that the second pass comes to: the section and the words to be replaced are
    there, and offsets fit as before. -/
def CompletionsFit (t : Target) (symbols : SymbolTable) : List Deferred → List ObjectSection → Prop
  | [], _ => True
  | d :: rest, sections =>
      (∃ s size, sections[d.sectionIndex]? = some s ∧ d.payload.size d.line = .ok size ∧
        d.offset + size ≤ s.words.length ∧ ∀ j ≤ size, t.isa.OffsetsFit (d.pc + j)) ∧
      ∀ sections', t.complete symbols sections d = .ok sections' →
        t.CompletionsFit symbols rest sections'

/-- The arithmetic of generating an object, up to where it succeeds or fails. -/
structure GenerateFits (t : Target) (asm : Assembly) : Prop where
  first : t.SectionsFit asm 0 asm.sections ⟨.empty, 0, []⟩
  second : ∀ draft sections,
    t.firstPass asm 0 asm.sections ⟨.empty, 0, []⟩ = .ok (draft, sections) →
      t.CompletionsFit draft.symbols draft.deferred sections
  stops : ∀ draft sections done,
    t.firstPass asm 0 asm.sections ⟨.empty, 0, []⟩ = .ok (draft, sections) →
      draft.deferred.foldlM (t.complete draft.symbols) sections = .ok done →
        ∀ s ∈ done, Unsigned64 s.stop

/-- A machine whose addresses have 32 bits. -/
structure Roomy (t : Target) : Prop where
  space : t.isa.space ≤ 2 ^ 32
  increment : t.isa.increment ≤ 2 ^ 32
  exact : ∀ a ∈ t.isa.aliases, a.size = a.expansion.length
  aliases : ∀ a ∈ t.isa.aliases, a.size ≤ 2 ^ 32

theorem offsetsFit (roomy : t.Roomy) {pc : Nat} (h : pc ≤ 2 ^ 32) : t.isa.OffsetsFit pc := by
  have increment := roomy.increment
  refine ⟨⟨by omega, by omega⟩, ?_⟩
  intro symbols line label text distance found
  obtain ⟨-, address, -, rfl⟩ := Context.immediate_label_eq_ok.1 found
  have small := address.toNat_lt
  dsimp only
  exact ⟨by omega, by omega⟩

theorem string_of_resolve {s : Statement} {content : String}
    (h : t.resolve s = .ok (.text content)) : .string content ∈ s.operands := by
  cases resolves h with
  | text given => simp [Statement.operands, given]

/-- Only strings have a size that the machine does not bound. -/
theorem size_le (roomy : t.Roomy) {s : Statement} {payload : Payload} {n size : Nat}
    (strings : ∀ text, .string text ∈ s.operands → text.length ≤ n)
    (resolved : t.resolve s = .ok payload) (sized : payload.size s.line = .ok size) :
    size ≤ n + 2 ^ 32 := by
  cases payload with
  | expansion used operands =>
      cases sized
      have bound := roomy.aliases used (mem_aliases_of_resolve resolved)
      omega
  | block count =>
      simp only [Payload.size, bind_eq_ok, pure_eq_ok] at sized
      obtain ⟨words, -, rfl⟩ := sized
      have bound := words.toNat_lt
      omega
  | text content =>
      cases sized
      have bound := strings content (string_of_resolve resolved)
      rw [String.length_toList]
      omega
  | _ =>
      cases sized
      omega

end Target

/-- The first pass in the middle of a section that starts at an address. -/
structure Placement.Near (start : UInt32) (p : Placement) : Prop where
  pc : p.pc = start.toNat + p.words.length
  space : p.pc ≤ 2 ^ 32
  total : p.draft.total ≤ maxOutputWords

namespace Target

variable {t : Target} {start : UInt32} {s : Statement} {p p' : Placement} {n : Nat}

theorem maxOutputWords_eq : maxOutputWords = 2 ^ 24 := by decide

theorem statementFits (roomy : t.Roomy) (small : n < 2 ^ 63)
    (strings : ∀ text, .string text ∈ s.operands → text.length ≤ n) (near : p.Near start) :
    t.StatementFits s p := by
  intro payload size resolved sized
  have bound := size_le roomy strings resolved sized
  have pc := near.pc
  have space := near.space
  have total := near.total
  rw [maxOutputWords_eq] at total
  unfold Unsigned64
  refine ⟨by omega, by omega, fun fits => ⟨by omega, fun j inside => ?_⟩⟩
  have memory := roomy.space
  exact offsetsFit roomy (by omega)

theorem near_of_placeStatement (roomy : t.Roomy) {place : Place} {index : Nat} (near : p.Near start)
    (placed : t.placeStatement place index s p = .ok p') : p'.Near start := by
  obtain ⟨item, symbols, measured, -, space, room, words⟩ := placeStatement_eq_ok.1 placed
  have memory := roomy.space
  have pc := near.pc
  have size : p'.pc = p.pc + item.size ∧ p'.words.length = p.words.length + item.size ∧
      p'.draft.total = p.draft.total + item.size := by
    rcases words with ⟨words, encoded, rfl⟩ | ⟨label, -, rfl⟩
    · have length := exact_of_measure roomy.exact measured _ _ _ encoded
      exact ⟨rfl, by rw [List.length_append, length], rfl⟩
    · exact ⟨rfl, by rw [List.length_append, List.length_replicate], rfl⟩
  exact ⟨by omega, by omega, by omega⟩

theorem statementsFit (roomy : t.Roomy) (small : n < 2 ^ 63) (place : Place) (index : Nat)
    {statements : List Statement}
    (strings : ∀ s ∈ statements, ∀ text, .string text ∈ s.operands → text.length ≤ n)
    (near : p.Near start) : t.StatementsFit place index statements p ∧
      ∀ p', t.placeStatements place index statements p = .ok p' → p'.Near start := by
  induction statements generalizing index p with
  | nil =>
      refine ⟨trivial, fun p' placed => ?_⟩
      simp only [placeStatements, bind_eq_ok, pure_eq_ok] at placed
      obtain ⟨symbols, -, rfl⟩ := placed
      exact ⟨near.pc, near.space, near.total⟩
  | cons s statements ih =>
      obtain ⟨first, others⟩ := List.forall_mem_cons.1 strings
      refine ⟨⟨statementFits roomy small first near, fun p' placed => ?_⟩, fun p'' placed => ?_⟩
      · exact (ih (index + 1) others (near_of_placeStatement roomy near placed)).1
      · obtain ⟨p', here, behind⟩ := bind_eq_ok.1 placed
        exact (ih (index + 1) others (near_of_placeStatement roomy near here)).2 p'' behind

theorem sectionsFit (roomy : t.Roomy) (small : n < 2 ^ 63) (asm : Assembly) (index : Nat)
    {sections : List Section} {draft : Draft}
    (strings : ∀ section' ∈ sections, ∀ s ∈ section'.statements, ∀ text,
      .string text ∈ s.operands → text.length ≤ n) (room : draft.total ≤ maxOutputWords) :
    t.SectionsFit asm index sections draft ∧ ∀ draft' objects,
      t.firstPass asm index sections draft = .ok (draft', objects) →
        ∀ object ∈ objects, object.stop ≤ 2 ^ 32 := by
  induction sections generalizing index draft with
  | nil =>
      refine ⟨trivial, fun draft' objects passed => ?_⟩
      cases passed
      simp
  | cons s sections ih =>
      obtain ⟨first, others⟩ := List.forall_mem_cons.1 strings
      have start : Placement.Near s.start ⟨draft, s.start.toNat, []⟩ :=
        ⟨rfl, Nat.le_of_lt s.start.toNat_lt, room⟩
      obtain ⟨fits, run⟩ :=
        statementsFit roomy small ⟨asm, index, s.start, s.line⟩ 0 first start
      refine ⟨⟨fits, fun placed here => (ih (index + 1) others (run placed here).total).1⟩, ?_⟩
      intro draft' objects passed
      simp only [firstPass, bind_eq_ok, pure_eq_ok, Prod.mk.injEq] at passed
      obtain ⟨placed, here, ⟨later, objects⟩, behind, rfl, rfl⟩ := passed
      have near := run placed here
      refine List.forall_mem_cons.2 ⟨?_, (ih (index + 1) others near.total).2 _ _ behind⟩
      have space := near.space
      rwa [near.pc] at space

/-- What the second pass leaves as it is. -/
def outline (sections : List ObjectSection) : List (UInt32 × Nat) :=
  sections.map fun s => (s.start, s.words.length)

theorem length_overwrite (offset : Nat) (new old : List UInt32) :
    (overwrite offset new old).length = old.length := by
  simp only [overwrite, List.length_append, List.length_take, List.length_drop]
  omega

theorem outline_of_complete {symbols : SymbolTable} {sections sections' : List ObjectSection}
    {d : Deferred} (h : t.complete symbols sections d = .ok sections') :
    outline sections' = outline sections := by
  obtain ⟨words, -, rfl⟩ := complete_eq_ok.1 h
  apply List.ext_getElem?
  intro i
  simp only [outline, List.getElem?_map, List.getElem?_modify]
  cases sections[i]? with
  | none => rfl
  | some s =>
      by_cases here : d.sectionIndex = i
      · simp [here, length_overwrite]
      · simp [here]

theorem outline_of_foldlM {symbols : SymbolTable} {deferred : List Deferred}
    {sections done : List ObjectSection}
    (h : deferred.foldlM (t.complete symbols) sections = .ok done) :
    outline done = outline sections := by
  induction deferred generalizing sections with
  | nil =>
      cases h
      rfl
  | cons d deferred ih =>
      obtain ⟨next, first, rest⟩ := foldlM_cons_eq_ok.1 h
      rw [ih rest, outline_of_complete first]

theorem completionsFit (roomy : t.Roomy) {symbols : SymbolTable} {deferred : List Deferred}
    {sections : List ObjectSection} (h : ∀ d ∈ deferred, ∃ size cell,
      d.payload.size d.line = .ok size ∧ d.pc + size ≤ t.isa.space ∧
        (outline sections)[d.sectionIndex]? = some cell ∧ d.offset + size ≤ cell.2) :
    t.CompletionsFit symbols deferred sections := by
  induction deferred generalizing sections with
  | nil => trivial
  | cons d deferred ih =>
      obtain ⟨first, others⟩ := List.forall_mem_cons.1 h
      obtain ⟨size, cell, sized, space, found, inside⟩ := first
      constructor
      · rw [outline, List.getElem?_map] at found
        obtain ⟨s, held, rfl⟩ := Option.map_eq_some_iff.1 found
        refine ⟨s, size, held, sized, inside, fun j bound => ?_⟩
        have memory := roomy.space
        exact offsetsFit roomy (by omega)
      · intro sections' completed
        apply ih
        rwa [outline_of_complete completed]

/-- Nothing overflows while an object is generated, if the strings are no longer than a source can
    be. -/
theorem generateFits (roomy : t.Roomy) {asm : Assembly} (small : n < 2 ^ 63)
    (strings : ∀ section' ∈ asm.sections, ∀ s ∈ section'.statements, ∀ text,
      .string text ∈ s.operands → text.length ≤ n) : t.GenerateFits asm := by
  have empty : (⟨.empty, 0, []⟩ : Draft).total ≤ maxOutputWords := Nat.zero_le _
  obtain ⟨fits, stops⟩ := sectionsFit roomy small asm 0 strings empty
  refine ⟨fits, ?_, ?_⟩
  · intro draft sections first
    apply completionsFit roomy
    intro d member
    obtain ⟨-, -, -, -, object, size, -, -, sized, space, found, inside⟩ :=
      deferred_of_firstPass roomy.exact first d member
    exact ⟨size, (object.start, object.words.length), sized, space,
      by rw [outline, List.getElem?_map, found]; rfl, inside⟩
  · intro draft sections done first second object member
    have known : (object.start, object.words.length) ∈ outline sections := by
      rw [← outline_of_foldlM second]
      exact List.mem_map_of_mem member
    obtain ⟨before, listed, same⟩ := List.mem_map.1 known
    obtain ⟨start, length⟩ := Prod.mk.inj same
    have bound := stops draft sections first before listed
    rw [ObjectSection.stop, start, length] at bound
    exact Nat.lt_of_le_of_lt bound (by decide)

end Target

end Assembler
