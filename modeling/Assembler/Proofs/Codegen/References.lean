import Assembler.Proofs.Codegen.Fields
import Assembler.Proofs.Codegen.Positions

/-! # References reach their labels

The distance that an instruction holds was computed from the address at which that very word ends
up, in whichever pass it was encoded, and every label has the address of its site. So a machine that
adds what it reads to its program counter arrives at the label.
-/

namespace Assembler

/-- The word at a position of a payload is an instruction in an encoding. -/
inductive Payload.Emits (isa : Isa) : Payload → Nat → Encoding → List Operand → Prop where
  | instruction {e : Encoding} {operands : List Operand} :
      Emits isa (.instruction e operands) 0 e operands
  | expansion {used : Alias} {given operands : List Operand} {j : Nat} {op : String} {e : Encoding}
      (part : (used.expand given)[j]? = some (op, operands))
      (chosen : (isa.encodingsOf op).find? (·.accepts operands) = some e) :
      Emits isa (.expansion used given) j e operands

theorem Target.mem_encodings_of_emits {t : Target} {s : Statement} {p : Payload} {j : Nat}
    {e : Encoding} {operands : List Operand} (h : t.resolve s = .ok p)
    (emits : p.Emits t.isa j e operands) : e ∈ t.isa.encodings := by
  cases emits with
  | instruction => exact mem_encodings_of_resolve h
  | expansion _ chosen => exact Isa.mem_of_find? chosen

namespace Context

variable {ctx : Context}

theorem exists_word_of_expansion {pc : Nat} {parts : List (String × List Operand)}
    {words : List UInt32} (h : ctx.expansion pc parts = .ok words) {j : Nat} {op : String}
    {operands : List Operand} {e : Encoding} (part : parts[j]? = some (op, operands))
    (chosen : (ctx.isa.encodingsOf op).find? (·.accepts operands) = some e) :
    ∃ word, words[j]? = some word ∧ ctx.instruction (pc + j) e operands = .ok word := by
  induction parts generalizing pc words j with
  | nil => cases part
  | cons first parts ih =>
      obtain ⟨name, given⟩ := first
      obtain ⟨found, word, rest, same, here, behind, rfl⟩ := expansion_cons_eq_ok.1 h
      cases j with
      | zero =>
          cases part
          cases chosen.symm.trans same
          exact ⟨word, rfl, here⟩
      | succ j =>
          obtain ⟨other, held, encoded⟩ := ih behind part
          refine ⟨other, held, ?_⟩
          rw [Nat.add_assoc, Nat.add_comm 1 j] at encoded
          exact encoded

theorem exists_word_of_emits {pc : Nat} {p : Payload} {words : List UInt32}
    (h : ctx.payload pc p = .ok words) {j : Nat} {e : Encoding} {operands : List Operand}
    (emits : p.Emits ctx.isa j e operands) :
    ∃ word, words[j]? = some word ∧ ctx.instruction (pc + j) e operands = .ok word := by
  cases emits with
  | instruction =>
      simp only [payload, bind_eq_ok, pure_eq_ok] at h
      obtain ⟨word, encoded, rfl⟩ := h
      exact ⟨word, rfl, encoded⟩
  | expansion part chosen => exact exists_word_of_expansion h part chosen

theorem payload_address_eq_ok {pc : Nat} {label : String} {words : List UInt32}
    (h : ctx.payload pc (.address label) = .ok words) :
    ∃ a, ctx.symbols.get? label = some a ∧ words = [a] := by
  simp only [payload, dataWord, bind_eq_ok, address_eq_ok, check_rangeFailure_eq_ok,
    pure_eq_ok] at h
  obtain ⟨a, bound, word, fits, rfl⟩ := h
  exact ⟨a, bound, by rw [eq_of_fitWord_toNat fits]⟩

end Context

namespace Target

variable {t : Target} {asm : Assembly} {obj : Object} {layouts : List Layout}

theorem Laid.symbol (h : t.Laid asm layouts obj) {label : String} {k i : Nat} {s : Section}
    (site : asm.labels.get? label = some ⟨k, i⟩) (found : asm.sections[k]? = some s)
    (inside : i ≤ s.statements.length) : ∃ n a, t.wordCount (s.statements.take i) = .ok n ∧
      obj.symbols.get? label = some a ∧ a.toNat = s.start.toNat + n := by
  obtain ⟨l, -, layout, -, start, -, measured, -⟩ := h.exists_section found
  have place : Layout.siteAddress? layouts ⟨k, i⟩ = some (l.address i) := by
    simp [Layout.siteAddress?, layout, measured.length_eq ▸ inside]
  have bound := h.near label ⟨k, i⟩ _ site place
  have count := wordCount_of_measured (List.forall₂_take i measured)
  refine ⟨_, UInt32.ofNat (l.address i), count, ?_, ?_⟩
  · rw [h.symbols]
    exact Layout.get?_symbols.2 ⟨_, _, site, place, rfl⟩
  · rw [UInt32.toNat_ofNat', Nat.mod_eq_of_lt bound, Layout.address, start]

/-- A statement of a section is encoded at its address, and its words stand there. -/
theorem Laid.statement (h : t.Laid asm layouts obj)
    (exact : ∀ a ∈ t.isa.aliases, a.size = a.expansion.length) {k i : Nat} {s : Section}
    {statement : Statement} (found : asm.sections[k]? = some s)
    (here : s.statements[i]? = some statement) : ∃ n p line words,
      t.wordCount (s.statements.take i) = .ok n ∧ t.resolve statement = .ok p ∧
      (Context.mk t.isa obj.symbols line).payload (s.start.toNat + n) p = .ok words ∧
      ∀ j word, words[j]? = some word →
        obj.cell? k (n + j) = some (s.start.toNat + (n + j), word) := by
  obtain ⟨l, placed, -, section', -, start, measured, encoded⟩ := h.exists_section found
  obtain ⟨item, held, sized⟩ := exists_getElem?_of_forall₂ measured here
  obtain ⟨words, filled, stands⟩ := Sized.exists_words_of_encode
    (exact_of_measured exact measured) encoded held
  refine ⟨_, item.payload, item.line, words, wordCount_of_measured (List.forall₂_take i measured),
    (measure_eq_ok.1 sized).1, filled, ?_⟩
  intro j word found
  exact Object.cell?_eq_some_iff.2 ⟨placed, section', stands j word found, by rw [start]⟩

end Target

/-- Every immediate that a label fills holds the distance to it from an address. -/
def Encoding.Reaches (e : Encoding) (symbols : SymbolTable) (origin : Nat) (operands : List Operand)
    (word : UInt32) : Prop :=
  ∀ (index : Nat) (bits : BitRange) (signed : Bool) (label : String),
    e.fields[index]? = some (.immediate bits signed) →
      e.operandAt? operands index = some (.label label) →
        ∃ a, symbols.get? label = some a ∧ Encoding.operandOf? word (.immediate bits signed) =
          some (.integer ((a.toNat : Int) - (origin : Int)))

/-- Labels have the addresses of their sites, immediates filled by a label hold the distance to it
    from behind the word, and directives on a label emit its address. -/
theorem Target.generate_references (t : Target)
    (exact : ∀ a ∈ t.isa.aliases, a.size = a.expansion.length)
    (separate : ∀ e ∈ t.isa.encodings, e.Separate) (asm : Assembly) (obj : Object)
    (ok : t.generate asm = .ok obj) :
    (∀ label k i s, asm.labels.get? label = some ⟨k, i⟩ → asm.sections[k]? = some s →
      i ≤ s.statements.length → ∃ n a, t.wordCount (s.statements.take i) = .ok n ∧
        obj.symbols.get? label = some a ∧ a.toNat = s.start.toNat + n) ∧
    ∀ k i s statement, asm.sections[k]? = some s → s.statements[i]? = some statement →
      ∃ n p, t.wordCount (s.statements.take i) = .ok n ∧ t.resolve statement = .ok p ∧
        (∀ j e operands, p.Emits t.isa j e operands → ∃ word,
          obj.cell? k (n + j) = some (s.start.toNat + (n + j), word) ∧
          e.Reaches obj.symbols (s.start.toNat + (n + j) + t.isa.increment) operands word) ∧
        ∀ label, p = .address label → ∃ a, obj.symbols.get? label = some a ∧
          obj.cell? k n = some (s.start.toNat + n, a) := by
  obtain ⟨layouts, laid⟩ := (generate_eq_ok_iff_laid exact).1 ok
  refine ⟨fun label k i s => laid.symbol, ?_⟩
  intro k i s statement found here
  obtain ⟨n, p, line, words, count, resolved, encoded, stands⟩ := laid.statement exact found here
  refine ⟨n, p, count, resolved, ?_, ?_⟩
  · intro j e operands emits
    obtain ⟨word, held, filled⟩ := Context.exists_word_of_emits encoded emits
    refine ⟨word, stands j word held, ?_⟩
    intro index bits signed label field operand
    have distance := Context.operandOf?_of_label
      (separate e (mem_encodings_of_emits resolved emits)) filled field operand
    rw [Nat.add_assoc (s.start.toNat) n j] at distance
    exact distance
  · rintro label rfl
    obtain ⟨a, bound, rfl⟩ := Context.payload_address_eq_ok encoded
    exact ⟨a, bound, stands 0 a rfl⟩

open Lc2200 in
/-- The first word of the sample, expanded from a macro, refers forward into the second section, and
    the word there refers back. -/
theorem Target.generate_references_sample : ∃ word,
    sampleObject.cell? 0 0 = some (16, word) ∧
      Encoding.operandOf? word imm20 = some (.integer (64 - (16 + 1))) ∧
      sampleObject.cell? 1 0 = some (64, 17) := by
  have ok : sampleTarget.generate sample = .ok sampleObject :=
    generate_of_apart (by decide +kernel) rfl (by decide)
  have words := (Target.generate_references sampleTarget (by decide) (by decide) sample sampleObject
    ok).2
  obtain ⟨n, p, count, resolved, emitted, -⟩ := words 0 0 _ _ rfl rfl
  obtain ⟨m, q, count', resolved', -, stored⟩ := words 1 0 _ _ rfl rfl
  obtain rfl : n = 0 := Except.ok.inj count.symm
  obtain rfl : m = 0 := Except.ok.inj count'.symm
  have forward : sampleTarget.resolve (.instruction ⟨"la", [.register '$' 3, .label "data"], 1⟩) =
      .ok (.expansion
        ⟨"la", [.register '$', .immediate], 1, [("lea", [.operand 0, .operand 1])]⟩
        [.register '$' 3, .label "data"]) := by decide +kernel
  have back : sampleTarget.resolve (.directive ⟨"word", some (.label "loop"), 5⟩) =
      .ok (.address "loop") := by decide +kernel
  obtain rfl := Except.ok.inj (resolved.symm.trans forward)
  obtain ⟨word, cell, reads⟩ := emitted 0 ⟨"lea", [opcode 0b1000, rx, zeros 23 20, imm20]⟩ _
    (.expansion rfl (by decide +kernel))
  obtain ⟨a, bound, distance⟩ := reads 3 ⟨19, 0⟩ true "data" rfl rfl
  obtain ⟨b, bound', cell'⟩ := stored "loop" (Except.ok.inj (resolved'.symm.trans back))
  obtain rfl : a = 64 := Option.some.inj (bound.symm.trans (by decide +kernel))
  obtain rfl : b = 17 := Option.some.inj (bound'.symm.trans (by decide +kernel))
  exact ⟨word, cell, distance, cell'⟩

end Assembler
