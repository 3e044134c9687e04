import Assembler.Proofs.Codegen.Decode
import Assembler.Proofs.Codegen.References

/-! # Disassembling and assembling again

What an instruction emits can be disassembled, whichever encodings it went through, and what is
disassembled assembles to the word that it was read from. A program of instructions comes back word
by word; its labels are gone, since distances have taken their place.
-/

namespace Assembler

/-- A section of source that is read off the words of a section of an object. -/
structure Isa.Reads (isa : Isa) (placed : ObjectSection) (s : Section) : Prop where
  start : s.start = placed.start
  statements : List.Forall₂
    (fun word statement => ∃ i, isa.disassemble? word = some i ∧ statement = .instruction i)
    placed.words s.statements

theorem Sized.fit_of_le {space pc : Nat} {items : List Sized}
    (positive : ∀ item ∈ items, 0 < item.size)
    (h : 0 < total items → pc + total items ≤ space) : fit space pc items = true := by
  cases items with
  | nil => rfl
  | cons item items =>
      have first := positive item List.mem_cons_self
      refine fit_of_total_le (h ?_)
      rw [total_cons]
      omega

namespace Context

variable {ctx : Context} (reversible : ctx.isa.Reversible)
include reversible

theorem exists_disassemble?_of_instruction {pc : Nat} {e : Encoding} {operands : List Operand}
    {word : UInt32} (member : e ∈ ctx.isa.encodings)
    (h : ctx.instruction pc e operands = .ok word) : ∃ i, ctx.isa.disassemble? word = some i :=
  Isa.exists_disassemble? member
    (fixedBitsMatch_of_instruction (reversible.separate e member) (reversible.holds e member) h)

theorem exists_disassemble?_of_expansion {pc : Nat} {parts : List (String × List Operand)}
    {words : List UInt32} (h : ctx.expansion pc parts = .ok words) :
    ∀ word ∈ words, ∃ i, ctx.isa.disassemble? word = some i := by
  intro word member
  obtain ⟨e, known, pc, operands, encoded⟩ := exists_instruction_of_expansion h word member
  exact exists_disassemble?_of_instruction reversible known encoded

end Context

namespace Target

variable {t : Target} {asm : Assembly} {layouts : List Layout} {obj : Object}

theorem exists_disassemble?_of_payload (reversible : t.isa.Reversible) {i : Instruction}
    {p : Payload} (resolved : t.resolve (.instruction i) = .ok p) {symbols : SymbolTable}
    {line pc : Nat} {words : List UInt32}
    (h : (Context.mk t.isa symbols line).payload pc p = .ok words) :
    ∀ word ∈ words, ∃ i, t.isa.disassemble? word = some i := by
  cases resolves resolved with
  | instruction chosen =>
      simp only [Context.payload, bind_eq_ok, pure_eq_ok] at h
      obtain ⟨word, encoded, rfl⟩ := h
      intro other member
      obtain rfl := List.mem_singleton.1 member
      exact Context.exists_disassemble?_of_instruction reversible (Isa.mem_of_find? chosen) encoded
  | expansion _ => exact Context.exists_disassemble?_of_expansion reversible h

theorem measure_disassemble? (reversible : t.isa.Reversible) {word : UInt32} {i : Instruction}
    (small : word.toNat < 2 ^ t.isa.wordBits) (read : t.isa.disassemble? word = some i) :
    ∃ item, t.measure (.instruction i) = .ok item ∧ item.size = 1 ∧ ∀ symbols pc,
      (Context.mk t.isa symbols item.line).payload pc item.payload = .ok [word] := by
  obtain ⟨e, member, matching, rfl⟩ := Isa.disassemble?_eq_some read
  refine ⟨⟨.instruction e (e.operandsOf word), 1, 0⟩, ?_, rfl, ?_⟩
  · apply measure_eq_ok.2
    have resolved : t.resolve (.instruction ⟨e.op, e.operandsOf word, 0⟩) =
        .ok (.instruction e (e.operandsOf word)) := by
      simp only [resolve, resolveInstruction, reversible.find?_accepts member word]
    exact ⟨resolved, rfl, rfl⟩
  · intro symbols pc
    simp only [Context.payload, bind_eq_ok, pure_eq_ok]
    exact ⟨word, Context.instruction_operandsOf (reversible.separate e member)
      (reversible.covers e member) small matching, rfl⟩

/-- Words that are read have a layout that gives them back. -/
theorem exists_items_of_reads (reversible : t.isa.Reversible) {words : List UInt32}
    {statements : List Statement} (small : ∀ word ∈ words, word.toNat < 2 ^ t.isa.wordBits)
    (read : List.Forall₂
      (fun word statement => ∃ i, t.isa.disassemble? word = some i ∧ statement = .instruction i)
      words statements) :
    ∃ items, List.Forall₂ (fun s item => t.measure s = .ok item) statements items ∧
      (∀ item ∈ items, 0 < item.size) ∧ Sized.total items = words.length ∧
      ∀ symbols pc, Sized.encode t.isa symbols pc items = .ok words := by
  induction read with
  | nil => exact ⟨[], .nil, by simp, rfl, fun _ _ => rfl⟩
  | @cons word statement words statements head tail ih =>
      obtain ⟨i, found, rfl⟩ := head
      obtain ⟨item, measured, size, encoded⟩ :=
        measure_disassemble? reversible (small word List.mem_cons_self) found
      obtain ⟨items, others, positive, total, behind⟩ :=
        ih fun w member => small w (List.mem_cons_of_mem _ member)
      refine ⟨item :: items, .cons measured others, ?_, ?_, ?_⟩
      · exact List.forall_mem_cons.2 ⟨by omega, positive⟩
      · rw [Sized.total_cons, size, total, List.length_cons, Nat.add_comm]
      · intro symbols pc
        exact Sized.encode_cons_eq_ok.2 ⟨[word], words, encoded symbols pc, behind _ _, rfl⟩

/-- A layout that gives the words of a section back. -/
structure Restores (t : Target) (l : Layout) (placed : ObjectSection) : Prop where
  start : l.start = placed.start
  positive : ∀ item ∈ l.items, 0 < item.size
  total : Sized.total l.items = placed.words.length
  encoded : ∀ symbols, l.encode t.isa symbols = .ok placed

theorem exists_layout_of_reads (reversible : t.isa.Reversible) {placed : ObjectSection}
    {s : Section} (small : ∀ word ∈ placed.words, word.toNat < 2 ^ t.isa.wordBits)
    (read : t.isa.Reads placed s) : ∃ l, t.layout s = .ok l ∧ t.Restores l placed := by
  obtain ⟨items, measured, positive, total, encoded⟩ :=
    exists_items_of_reads reversible small read.statements
  have laid : t.layout s = .ok ⟨placed.start, items⟩ :=
    layout_eq_ok.2 ⟨read.start.symm, measured⟩
  refine ⟨_, laid, rfl, positive, total, ?_⟩
  intro symbols
  exact Layout.encode_eq_ok.2 ⟨placed.words, encoded symbols _, rfl⟩

theorem exists_layouts_of_reads (reversible : t.isa.Reversible) {objects : List ObjectSection}
    {sections : List Section}
    (small : ∀ s ∈ objects, ∀ word ∈ s.words, word.toNat < 2 ^ t.isa.wordBits)
    (read : List.Forall₂ t.isa.Reads objects sections) :
    ∃ layouts, List.Forall₂ (fun s l => t.layout s = .ok l) sections layouts ∧
      List.Forall₂ t.Restores layouts objects := by
  induction read with
  | nil => exact ⟨[], .nil, .nil⟩
  | cons head tail ih =>
      obtain ⟨first, others⟩ := List.forall_mem_cons.1 small
      obtain ⟨l, measured, restores⟩ := exists_layout_of_reads reversible first head
      obtain ⟨layouts, more, behind⟩ := ih others
      exact ⟨l :: layouts, .cons measured more, .cons restores behind⟩

theorem generate_of_reads (reversible : t.isa.Reversible) {objects : List ObjectSection}
    {sections : List Section}
    (small : ∀ s ∈ objects, ∀ word ∈ s.words, word.toNat < 2 ^ t.isa.wordBits)
    (inside : ∀ s ∈ objects, 0 < s.words.length → s.stop ≤ t.isa.space)
    (room : (objects.map (·.words.length)).sum ≤ maxOutputWords)
    (apart : objects.Pairwise ObjectSection.Disjoint)
    (read : List.Forall₂ t.isa.Reads objects sections) :
    t.generate ⟨sections, .empty⟩ = .ok ⟨.empty, objects⟩ := by
  obtain ⟨layouts, measured, restores⟩ := exists_layouts_of_reads reversible small read
  have sizes : layouts.map (fun l => Sized.total l.items) = objects.map (·.words.length) := by
    rw [← List.forall₂_eq_eq_eq, List.forall₂_map_left_iff, List.forall₂_map_right_iff]
    exact restores.imp fun l s h => h.total
  have laid : t.Laid ⟨sections, .empty⟩ layouts ⟨.empty, objects⟩ :=
    { measured := measured
      fits := by
        intro l member
        obtain ⟨placed, found, h⟩ := exists_mem_of_forall₂ restores.flip member
        apply Sized.fit_of_le h.positive
        intro positive
        rw [h.total] at positive ⊢
        rw [h.start]
        exact inside placed found positive
      room := sizes ▸ room
      near := by
        intro label site address bound
        simp at bound
      encoded := restores.imp fun l s h => h.encoded _
      apart := apart
      symbols := rfl }
  exact (generate_eq_ok_iff_laid reversible.exact).2 ⟨layouts, laid⟩

theorem Laid.exists_reads (h : t.Laid asm layouts obj) (reversible : t.isa.Reversible)
    (instructions : ∀ s ∈ asm.sections, ∀ statement ∈ s.statements,
      ∃ i, statement = .instruction i) :
    ∃ sections, List.Forall₂ t.isa.Reads obj.sections sections := by
  apply exists_forall₂
  intro placed member
  have readable : ∀ word ∈ placed.words, ∃ statement : Statement, ∃ i,
      t.isa.disassemble? word = some i ∧ statement = .instruction i := by
    intro word held
    obtain ⟨l, layout, encoded⟩ := exists_mem_of_forall₂ h.encoded member
    obtain ⟨words, filled, rfl⟩ := Layout.encode_eq_ok.1 encoded
    obtain ⟨item, inside, pc, part, emitted, found⟩ :=
      Sized.exists_payload_of_mem_encode filled held
    obtain ⟨s, source, measured⟩ := exists_mem_of_forall₂ h.measured layout
    obtain ⟨statement, listed, sized⟩ :=
      exists_mem_of_forall₂ (layout_eq_ok.1 measured).2 inside
    obtain ⟨i, rfl⟩ := instructions s source statement listed
    obtain ⟨read, decoded⟩ := exists_disassemble?_of_payload reversible
      (measure_eq_ok.1 sized).1 emitted word found
    exact ⟨_, read, decoded, rfl⟩
  obtain ⟨statements, read⟩ := exists_forall₂ readable
  exact ⟨⟨placed.start, statements, 0⟩, rfl, read⟩

theorem Laid.instruction (h : t.Laid asm layouts obj) (reversible : t.isa.Reversible) {k n : Nat}
    {s : Section} {i : Instruction} (found : asm.sections[k]? = some s)
    (here : s.statements[n]? = some (.instruction i)) : ∃ offset size,
      t.wordCount (s.statements.take n) = .ok offset ∧
      t.wordCount [.instruction i] = .ok size ∧
      ∀ j < size, ∃ word read,
        obj.cell? k (offset + j) = some (s.start.toNat + (offset + j), word) ∧
          t.isa.disassemble? word = some read := by
  obtain ⟨l, -, -, -, -, -, measured, -⟩ := h.exists_section found
  obtain ⟨item, -, sized⟩ := exists_getElem?_of_forall₂ measured here
  obtain ⟨offset, p, line, words, count, resolved, encoded, stands⟩ :=
    h.statement reversible.exact found here
  cases resolved.symm.trans (measure_eq_ok.1 sized).1
  have length := exact_of_measure reversible.exact sized _ _ _ encoded
  refine ⟨offset, item.size, count, ?_, ?_⟩
  · rw [wordCount_of_measured (.cons sized .nil)]
    simp [Sized.total]
  · intro j inside
    have held : words[j]? = some words[j] := List.getElem?_eq_getElem (length ▸ inside)
    obtain ⟨read, decoded⟩ := exists_disassemble?_of_payload reversible resolved encoded words[j]
      (List.getElem_mem _)
    exact ⟨words[j], read, stands j _ held, decoded⟩

/-- Disassembly is inverse to code generation on both machines: a word that is read assembles to
    itself, the words of instructions are read, and so a program of instructions comes back. -/
theorem generate_disassemble (t : Target) (machine : t.isa = Lc3.isa ∨ t.isa = Lc2200.isa) :
    (∀ (word : UInt32) (i : Instruction) (start : UInt32) (line : Nat),
      word.toNat < 2 ^ t.isa.wordBits → t.isa.disassemble? word = some i →
      start.toNat < t.isa.space →
        t.generate ⟨[⟨start, [.instruction i], line⟩], .empty⟩ = .ok ⟨.empty, [⟨start, [word]⟩]⟩) ∧
    ∀ asm obj, t.generate asm = .ok obj →
      (∀ k n s i, asm.sections[k]? = some s → s.statements[n]? = some (.instruction i) →
        ∃ offset size, t.wordCount (s.statements.take n) = .ok offset ∧
          t.wordCount [.instruction i] = .ok size ∧
          ∀ j < size, ∃ word read,
            obj.cell? k (offset + j) = some (s.start.toNat + (offset + j), word) ∧
              t.isa.disassemble? word = some read) ∧
      ((∀ s ∈ asm.sections, ∀ statement ∈ s.statements, ∃ i, statement = .instruction i) →
        (∃ sections, List.Forall₂ t.isa.Reads obj.sections sections) ∧
        ∀ sections, List.Forall₂ t.isa.Reads obj.sections sections →
          t.generate ⟨sections, .empty⟩ = .ok ⟨.empty, obj.sections⟩) := by
  have reversible : t.isa.Reversible := by
    rcases machine with same | same
    · exact same ▸ Lc3.reversible
    · exact same ▸ Lc2200.reversible
  constructor
  · intro word i start line small read inside
    apply generate_of_reads reversible
    · simpa using small
    · simpa [ObjectSection.stop] using inside
    · simp [maxOutputWords]
    · exact List.pairwise_singleton _ _
    · exact .cons ⟨rfl, .cons ⟨i, read, rfl⟩ .nil⟩ .nil
  · intro asm obj ok
    obtain ⟨layouts, laid⟩ := (generate_eq_ok_iff_laid reversible.exact).1 ok
    refine ⟨fun k n s i => laid.instruction reversible, ?_⟩
    intro instructions
    refine ⟨laid.exists_reads reversible instructions, ?_⟩
    intro sections read
    have room := laid.length_cells_le reversible.exact
    rw [Object.length_cells] at room
    exact generate_of_reads reversible
      (fun s member word held => laid.toNat_lt reversible.narrow reversible.below member held)
      (fun s member => laid.stop_le reversible.exact member) room laid.apart read

end Target

open Lc2200 in
/-- A branch back, and the second word of a macro of the sample. -/
theorem Target.generate_disassemble_beq :
    sampleTarget.generate ⟨[⟨16, [.instruction
        ⟨"beq", [.register '$' 0, .register '$' 0, .integer (-3)], 0⟩], 0⟩], .empty⟩ =
      .ok ⟨.empty, [⟨16, [0x500FFFFD]⟩]⟩ ∧
    ∃ read, Lc2200.isa.disassemble? 0x4FD00000 = some read := by
  have ok : sampleTarget.generate sample = .ok sampleObject :=
    generate_of_apart (by decide +kernel) rfl (by decide)
  obtain ⟨back, all⟩ := Target.generate_disassemble sampleTarget (.inr rfl)
  obtain ⟨offset, size, before, count, words⟩ := (all sample sampleObject ok).1 0 1 _ _ rfl rfl
  obtain rfl : offset = 1 := Except.ok.inj (before.symm.trans (by decide +kernel))
  obtain rfl : size = 2 := Except.ok.inj (count.symm.trans (by decide +kernel))
  obtain ⟨word, read, cell, decoded⟩ := words 1 (by decide)
  have stored : sampleObject.cell? 0 2 = some (18, 0x4FD00000) := by decide +kernel
  have same : word = 0x4FD00000 :=
    congrArg Prod.snd (Option.some.inj (cell.symm.trans stored))
  exact ⟨back _ _ _ _ (by decide) (by decide +kernel) (by decide), read, same ▸ decoded⟩

end Assembler
