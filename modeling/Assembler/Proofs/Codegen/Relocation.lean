import Assembler.Proofs.Codegen.Reassembly

/-! # Code does not know where it stands

A label in an instruction is encoded as the distance to it, and a distance stays when everything
moves together. Only a directive that stores the address of a label can tell. So an assembly without
such directives is encoded by the same words wherever its sections are moved to, as long as none of
them leaves the memory.
-/

namespace Assembler

def moveAddress (d : Int) (address : UInt32) : UInt32 := wordOfInt (address.toNat + d)

def Section.move (d : Int) (s : Section) : Section := { s with start := moveAddress d s.start }

/-- The assembly with all its sections moved by a distance. Labels stay in front of their
    statements. -/
def Assembly.move (d : Int) (asm : Assembly) : Assembly :=
  { asm with sections := asm.sections.map (Section.move d) }

def Layout.move (d : Int) (l : Layout) : Layout := { l with start := moveAddress d l.start }

def ObjectSection.move (d : Int) (s : ObjectSection) : ObjectSection :=
  { s with start := moveAddress d s.start }

/-- The same labels have addresses in both tables, in the second one further by a distance. -/
def SymbolTable.Moves (d : Int) (symbols symbols' : SymbolTable) : Prop :=
  ∀ label, (symbols'.get? label).map (fun address => (address.toNat : Int)) =
    (symbols.get? label).map fun address => (address.toNat : Int) + d

theorem toNat_moveAddress {d : Int} {address : UInt32} (low : 0 ≤ (address.toNat : Int) + d)
    (high : (address.toNat : Int) + d ≤ 2 ^ 32 - 1) :
    ((moveAddress d address).toNat : Int) = address.toNat + d := by
  rw [moveAddress, toNat_wordOfInt, Int.emod_eq_of_lt low (by omega)]

/-! ### Words that are encoded as before -/

namespace Context

variable {isa : Isa} {symbols symbols' : SymbolTable} {line pc pc' : Nat} {d : Int}

/-- The distance to a label stays. -/
theorem immediate_move (moves : symbols.Moves d symbols') (ahead : (pc' : Int) = pc + d)
    (operand : Operand) : (Context.mk isa symbols' line).immediate pc' operand =
      (Context.mk isa symbols line).immediate pc operand := by
  cases operand with
  | label label =>
      have found := moves label
      simp only [immediate, address]
      cases before : symbols.get? label with
      | none =>
          rw [before, Option.map_none, Option.map_eq_none_iff] at found
          rw [found]
          rfl
      | some a =>
          rw [before, Option.map_some, Option.map_eq_some_iff] at found
          obtain ⟨a', after, further⟩ := found
          have distance : (a'.toNat : Int) - ((pc' + isa.increment : Nat) : Int) =
              a.toNat - ((pc + isa.increment : Nat) : Int) := by
            push_cast
            omega
          rw [after]
          exact congrArg (fun distance => Except.ok (label, distance)) distance
  | _ => rfl

theorem field_move (moves : symbols.Moves d symbols') (ahead : (pc' : Int) = pc + d)
    (operands : List Operand) (f : Field) :
    (Context.mk isa symbols' line).field pc' operands f =
      (Context.mk isa symbols line).field pc operands f := by
  cases f with
  | const bits value => rfl
  | register bits sigil => rfl
  | immediate bits signed =>
      cases operands with
      | nil => rfl
      | cons operand rest => simp only [field, immediate_move moves ahead]

theorem fields_move (moves : symbols.Moves d symbols') (ahead : (pc' : Int) = pc + d)
    (fs : List Field) (operands : List Operand) :
    (Context.mk isa symbols' line).fields pc' fs operands =
      (Context.mk isa symbols line).fields pc fs operands := by
  induction fs generalizing operands with
  | nil => rfl
  | cons f fs ih => simp only [fields, field_move moves ahead, ih]

theorem expansion_move (moves : symbols.Moves d symbols') (ahead : (pc' : Int) = pc + d)
    (parts : List (String × List Operand)) :
    (Context.mk isa symbols' line).expansion pc' parts =
      (Context.mk isa symbols line).expansion pc parts := by
  induction parts generalizing pc pc' with
  | nil => rfl
  | cons part parts ih =>
      have next : ((pc' + 1 : Nat) : Int) = (pc + 1 : Nat) + d := by
        push_cast
        omega
      simp only [expansion, instruction, fields_move moves ahead, ih next]

theorem payload_move (moves : symbols.Moves d symbols') (ahead : (pc' : Int) = pc + d)
    {p : Payload} (relative : ∀ label, p ≠ .address label) :
    (Context.mk isa symbols' line).payload pc' p =
      (Context.mk isa symbols line).payload pc p := by
  cases p with
  | instruction encoding operands => simp only [payload, instruction, fields_move moves ahead]
  | expansion used operands => exact expansion_move moves ahead _
  | address label => exact absurd rfl (relative label)
  | _ => rfl

end Context

namespace Sized

theorem encode_move {isa : Isa} {symbols symbols' : SymbolTable} {d : Int}
    (moves : symbols.Moves d symbols') {items : List Sized}
    (relative : ∀ item ∈ items, ∀ label, item.payload ≠ .address label) {pc pc' : Nat}
    (ahead : (pc' : Int) = pc + d) :
    encode isa symbols' pc' items = encode isa symbols pc items := by
  induction items generalizing pc pc' with
  | nil => rfl
  | cons item items ih =>
      obtain ⟨first, others⟩ := List.forall_mem_cons.1 relative
      have next : ((pc' + item.size : Nat) : Int) = (pc + item.size : Nat) + d := by
        push_cast
        omega
      simp only [encode, Context.payload_move moves ahead first, ih others next]

end Sized

/-! ### Layouts moved as a whole -/

/-- When the section is moved, it stays where 32 bits address it and ends inside the memory. -/
structure ObjectSection.Movable (space : Nat) (d : Int) (s : ObjectSection) : Prop where
  low : 0 ≤ (s.start.toNat : Int) + d
  fits : (s.stop : Int) + d ≤ space
  near : (s.stop : Int) + d ≤ 2 ^ 32 - 1

instance (space : Nat) (d : Int) (s : ObjectSection) : Decidable (s.Movable space d) :=
  decidable_of_iff (0 ≤ (s.start.toNat : Int) + d ∧ (s.stop : Int) + d ≤ space ∧
      (s.stop : Int) + d ≤ 2 ^ 32 - 1)
    ⟨fun h => ⟨h.1, h.2.1, h.2.2⟩, fun h => ⟨h.low, h.fits, h.near⟩⟩

theorem ObjectSection.Movable.start {space : Nat} {d : Int} {s : ObjectSection}
    (h : s.Movable space d) : ((s.move d).start.toNat : Int) = s.start.toNat + d := by
  have near := h.near
  rw [stop] at near
  exact toNat_moveAddress h.low (by omega)

theorem ObjectSection.Disjoint.move {space : Nat} {d : Int} {a b : ObjectSection}
    (apart : a.Disjoint b) (ha : a.Movable space d) (hb : b.Movable space d) :
    (a.move d).Disjoint (b.move d) := by
  have first := ha.start
  have second := hb.start
  simp only [ObjectSection.Disjoint, stop, ObjectSection.move] at *
  omega

namespace Layout

/-- The same of a layout, which has not been encoded yet. -/
structure Movable (space : Nat) (d : Int) (l : Layout) : Prop where
  low : 0 ≤ (l.start.toNat : Int) + d
  fits : (l.start.toNat : Int) + Sized.total l.items + d ≤ space
  near : (l.start.toNat : Int) + Sized.total l.items + d ≤ 2 ^ 32 - 1

variable {space : Nat} {d : Int} {l : Layout} {layouts : List Layout}
  {labels : SortedMap String Site}

theorem Movable.start (h : l.Movable space d) :
    ((l.move d).start.toNat : Int) = l.start.toNat + d := by
  have near := h.near
  exact toNat_moveAddress h.low (by omega)

theorem address_le (l : Layout) (i : Nat) : l.address i ≤ l.start.toNat + Sized.total l.items := by
  have whole : Sized.total (l.items.take i) + Sized.total (l.items.drop i) =
      Sized.total l.items := by
    rw [Sized.total, Sized.total, Sized.total, ← List.sum_append, ← List.map_append,
      List.take_append_drop]
  rw [address]
  omega

theorem siteAddress?_eq_some_iff {site : Site} {a : Nat} : siteAddress? layouts site = some a ↔
    ∃ l, layouts[site.sectionIndex]? = some l ∧ site.index ≤ l.items.length ∧
      a = l.address site.index := by
  simp only [siteAddress?]
  cases layouts[site.sectionIndex]? with
  | none => simp
  | some l =>
      simp only [Option.ite_none_right_eq_some, Option.some.injEq, exists_eq_left',
        eq_comm (a := a)]

theorem siteAddress?_move (movable : ∀ l ∈ layouts, l.Movable space d) (site : Site) :
    siteAddress? (layouts.map (move d)) site =
      (siteAddress? layouts site).map fun a : Nat => ((a : Int) + d).toNat := by
  ext a
  simp only [Option.map_eq_some_iff, siteAddress?_eq_some_iff, List.getElem?_map]
  have ahead : ∀ l ∈ layouts, (l.move d).address site.index =
      ((l.address site.index : Int) + d).toNat := by
    intro l member
    have start := (movable l member).start
    simp only [address]
    simp only [move] at start ⊢
    omega
  constructor
  · rintro ⟨_, ⟨l, found, rfl⟩, inside, rfl⟩
    exact ⟨_, ⟨l, found, inside, rfl⟩, (ahead l (List.mem_of_getElem? found)).symm⟩
  · rintro ⟨_, ⟨l, found, inside, rfl⟩, rfl⟩
    exact ⟨_, ⟨l, found, rfl⟩, inside, (ahead l (List.mem_of_getElem? found)).symm⟩

theorem get?_symbols_eq (label : String) : (symbols layouts labels).get? label =
    ((labels.get? label).bind (siteAddress? layouts)).map UInt32.ofNat := by
  ext a
  simp only [get?_symbols, Option.map_eq_some_iff, Option.bind_eq_some_iff]
  constructor
  · rintro ⟨site, address, entry, found, rfl⟩
    exact ⟨address, ⟨site, entry, found⟩, rfl⟩
  · rintro ⟨address, ⟨site, entry, found⟩, rfl⟩
    exact ⟨site, address, entry, found, rfl⟩

theorem symbols_move (movable : ∀ l ∈ layouts, l.Movable space d)
    (near : Addressable layouts labels) :
    (symbols layouts labels).Moves d (symbols (layouts.map (move d)) labels) := by
  intro label
  simp only [get?_symbols_eq]
  cases entry : labels.get? label with
  | none => rfl
  | some site =>
      simp only [Option.bind_some, siteAddress?_move movable]
      cases found : siteAddress? layouts site with
      | none => rfl
      | some a =>
          obtain ⟨l, layout, -, rfl⟩ := siteAddress?_eq_some_iff.1 found
          obtain ⟨low, -, high⟩ := movable l (List.mem_of_getElem? layout)
          have inside := near label site _ entry found
          have above : l.start.toNat ≤ l.address site.index := Nat.le_add_right _ _
          have below := l.address_le site.index
          simp only [Option.map_some, UInt32.toNat_ofNat', Option.some.injEq]
          simp only [UInt32.size] at inside
          omega

theorem Movable.fit_move (h : l.Movable space d) :
    Sized.fit space (l.move d).start.toNat (l.move d).items = true := by
  have start := h.start
  have inside := h.fits
  refine Sized.fit_of_total_le ?_
  simp only [move] at start ⊢
  omega

theorem addressable_move (movable : ∀ l ∈ layouts, l.Movable space d) :
    Addressable (layouts.map (move d)) labels := by
  intro label site address entry found
  rw [siteAddress?_move movable] at found
  obtain ⟨a, place, rfl⟩ := Option.map_eq_some_iff.1 found
  obtain ⟨l, layout, -, rfl⟩ := siteAddress?_eq_some_iff.1 place
  have near := (movable l (List.mem_of_getElem? layout)).near
  have below := l.address_le site.index
  simp only [UInt32.size]
  omega

theorem encode_move {isa : Isa} {symbols symbols' : SymbolTable} {placed : ObjectSection}
    (moves : symbols.Moves d symbols') (movable : l.Movable space d)
    (relative : ∀ item ∈ l.items, ∀ label, item.payload ≠ .address label)
    (encoded : l.encode isa symbols = .ok placed) :
    (l.move d).encode isa symbols' = .ok (placed.move d) := by
  obtain ⟨words, filled, rfl⟩ := encode_eq_ok.1 encoded
  refine encode_eq_ok.2 ⟨words, ?_, rfl⟩
  exact (Sized.encode_move moves relative movable.start).trans filled

end Layout

namespace Target

variable {t : Target} {asm : Assembly} {layouts : List Layout} {obj : Object} {d : Int}

/-- Instructions refer to labels by distances only. -/
theorem resolve_instruction_ne_address (t : Target) (i : Instruction) (label : String) :
    t.resolve (.instruction i) ≠ .ok (.address label) := by
  intro h
  cases resolves h

theorem Laid.relative (h : t.Laid asm layouts obj)
    (unaddressed : ∀ s ∈ asm.sections, ∀ statement ∈ s.statements, ∀ label,
      t.resolve statement ≠ .ok (.address label)) {l : Layout} (member : l ∈ layouts)
    {item : Sized} (inside : item ∈ l.items) (label : String) : item.payload ≠ .address label := by
  obtain ⟨s, section', measured⟩ := exists_mem_of_forall₂ h.measured member
  obtain ⟨statement, held, sized⟩ := exists_mem_of_forall₂ (layout_eq_ok.1 measured).2 inside
  intro same
  exact unaddressed s section' statement held label (same ▸ (measure_eq_ok.1 sized).1)

theorem Laid.movable (h : t.Laid asm layouts obj)
    (exact : ∀ a ∈ t.isa.aliases, a.size = a.expansion.length)
    (inside : ∀ placed ∈ obj.sections, placed.Movable t.isa.space d) :
    ∀ l ∈ layouts, l.Movable t.isa.space d := by
  intro l member
  obtain ⟨placed, section', start, length, -⟩ :=
    exists_mem_of_forall₂ (h.filled exact).flip member
  obtain ⟨low, fits, near⟩ := inside placed section'
  rw [start] at low
  rw [ObjectSection.stop, start, length, Nat.cast_add] at fits near
  exact ⟨low, fits, near⟩

theorem layout_move {s : Section} {l : Layout} (measured : t.layout s = .ok l) :
    t.layout (s.move d) = .ok (l.move d) := by
  obtain ⟨start, items⟩ := layout_eq_ok.1 measured
  exact layout_eq_ok.2 ⟨congrArg (moveAddress d) start, items⟩

/-- A layout that passes all checks passes them where it is moved, and gives the same words. -/
theorem Laid.move (h : t.Laid asm layouts obj)
    (exact : ∀ a ∈ t.isa.aliases, a.size = a.expansion.length)
    (relative : ∀ l ∈ layouts, ∀ item ∈ l.items, ∀ label, item.payload ≠ .address label)
    (inside : ∀ placed ∈ obj.sections, placed.Movable t.isa.space d) :
    t.Laid (asm.move d) (layouts.map (Layout.move d))
      ⟨Layout.symbols (layouts.map (Layout.move d)) asm.labels,
        obj.sections.map (ObjectSection.move d)⟩ := by
  have movable := h.movable exact inside
  have moves := Layout.symbols_move movable h.near
  rw [← h.symbols] at moves
  constructor
  case measured =>
    rw [Assembly.move, List.forall₂_map_left_iff, List.forall₂_map_right_iff]
    exact h.measured.imp fun _ _ => layout_move
  case fits => exact List.forall_mem_map.2 fun l member => (movable l member).fit_move
  case room =>
    rw [List.map_map]
    exact h.room
  case near => exact Layout.addressable_move movable
  case encoded =>
    rw [List.forall₂_map_left_iff, List.forall₂_map_right_iff]
    refine ((List.forall₂_and_left _ _).2 ⟨fun l member => member, h.encoded⟩).imp ?_
    rintro l placed ⟨member, encoded⟩
    exact Layout.encode_move moves (movable l member) (relative l member) encoded
  case apart =>
    rw [List.pairwise_map]
    exact h.apart.imp_of_mem fun ha hb apart => apart.move (inside _ ha) (inside _ hb)
  case symbols => rfl

/-- An assembly that stores no address of a label is generated wherever its sections can be moved
    to: with the same words, and all its sections and labels moved by the distance. -/
theorem generate_move (t : Target) (exact : ∀ a ∈ t.isa.aliases, a.size = a.expansion.length)
    (asm : Assembly) (obj : Object) (d : Int)
    (unaddressed : ∀ s ∈ asm.sections, ∀ statement ∈ s.statements, ∀ label,
      t.resolve statement ≠ .ok (.address label))
    (inside : ∀ placed ∈ obj.sections, placed.Movable t.isa.space d)
    (ok : t.generate asm = .ok obj) :
    ∃ moved, t.generate (asm.move d) = .ok moved ∧
      List.Forall₂ (fun s s' => (s'.start.toNat : Int) = s.start.toNat + d ∧ s'.words = s.words)
        obj.sections moved.sections ∧
      obj.symbols.Moves d moved.symbols := by
  obtain ⟨layouts, laid⟩ := (generate_eq_ok_iff_laid exact).1 ok
  have relative : ∀ l ∈ layouts, ∀ item ∈ l.items, ∀ label, item.payload ≠ .address label :=
    fun _ member _ held => laid.relative unaddressed member held
  refine ⟨_, (generate_eq_ok_iff_laid exact).2 ⟨_, laid.move exact relative inside⟩, ?_, ?_⟩
  · rw [List.forall₂_map_right_iff, List.forall₂_same]
    exact fun s member => ⟨(inside s member).start, rfl⟩
  · have moves := Layout.symbols_move (laid.movable exact inside) laid.near
    rwa [← laid.symbols] at moves

end Target

namespace Lc2200

/-- References forward and back, within a section and from one to the other. -/
def loops : Assembly where
  sections :=
    [⟨16, [.instruction ⟨"la", [.register '$' 3, .label "data"], 1⟩,
        .instruction ⟨"push", [.register '$' 15], 2⟩,
        .instruction ⟨"beq", [.register '$' 0, .register '$' 0, .label "loop"], 3⟩], 0⟩,
      ⟨64, [.instruction ⟨"beq", [.register '$' 0, .register '$' 0, .label "loop"], 5⟩], 4⟩]
  labels := .ofList [("loop", ⟨0, 1⟩), ("data", ⟨1, 0⟩)]

def loopsObject : Object where
  symbols := .ofList [("loop", 17), ("data", 64)]
  sections :=
    [⟨16, [0x8300002F, 0x2DDFFFFF, 0x4FD00000, 0x500FFFFD]⟩, ⟨64, [0x500FFFD0]⟩]

end Lc2200

open Lc2200 in
theorem Target.generate_move_loops : ∃ moved, sampleTarget.generate (loops.move (-16)) = .ok moved ∧
    List.Forall₂ (fun s s' => (s'.start.toNat : Int) = s.start.toNat - 16 ∧ s'.words = s.words)
      loopsObject.sections moved.sections ∧
    (moved.symbols.get? "loop").map (fun address : UInt32 => (address.toNat : Int)) = some 1 := by
  have ok : sampleTarget.generate loops = .ok loopsObject :=
    generate_of_apart (by decide +kernel) rfl (by decide)
  have instructions : ∀ s ∈ loops.sections, ∀ statement ∈ s.statements,
      ∃ i, statement = .instruction i := by
    simp [loops]
  have unaddressed : ∀ s ∈ loops.sections, ∀ statement ∈ s.statements, ∀ label,
      sampleTarget.resolve statement ≠ .ok (.address label) := by
    intro s section' statement member
    obtain ⟨i, rfl⟩ := instructions s section' statement member
    exact sampleTarget.resolve_instruction_ne_address i
  obtain ⟨moved, generated, sections, symbols⟩ :=
    Target.generate_move sampleTarget (by decide) loops loopsObject (-16) unaddressed (by decide) ok
  exact ⟨moved, generated, sections, (symbols "loop").trans (by decide +kernel)⟩

end Assembler
