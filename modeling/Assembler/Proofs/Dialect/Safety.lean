import Assembler.Proofs.Codegen.Overflow
import Assembler.Proofs.Dialect.Reports

/-! # No source leads to a fault

Each stage relies on what the stage before it never produces, so the proof crosses all of them: the
tokens of a scanned line are terminals other than the end mark, its tree is a derivation, what is
read off the tree is no longer than the source, and an assembly of that can be generated or rejected
without leaving the integers of a machine.
-/

namespace Assembler

namespace Dialect

variable {d : Dialect}

theorem faultless_parse (d : Dialect) (source : String) :
    Faultless Diagnostic.fault? (d.parse source) :=
  (d.raisesOnly_parse source).imp fun _ reported => reported.fault?

theorem bounded_of_parse {source : String} {asm : Assembly} (parsed : d.parse source = .ok asm) :
    ∀ placed ∈ asm.sections, ∀ s ∈ placed.statements, ∀ o ∈ s.operands,
      o.Bounded source.length := by
  intro placed member s listed
  obtain ⟨_, -, stands⟩ := (placed_of_parse parsed placed member).2 s listed
  exact stands.operands

theorem roomy (d : Dialect) : d.target.Roomy := by
  cases d with
  | complx => exact ⟨by decide, by decide, by decide, by decide⟩
  | lc2200 => exact ⟨by decide, by decide, by decide, by decide⟩

/-- The numbers that are formed on the way from a source to an object are integers of a machine:
    literals and their negations, the widths of fields, and all that generating code adds up. -/
structure Fits (d : Dialect) (source : String) : Prop where
  literals : ∀ base digits n, Literal.magnitude? base digits = some n →
    Signed64 n ∧ Signed64 (-(n : Int))
  fields : ∀ e ∈ d.isa.encodings, ∀ f ∈ e.fields, f.bits.Within 32
  words : 0 < d.isa.wordBits ∧ d.isa.wordBits ≤ 32
  integers : ∀ asm, d.parse source = .ok asm → ∀ placed ∈ asm.sections, ∀ s ∈ placed.statements,
    ∀ value, .integer value ∈ s.operands → Signed64 value
  generate : ∀ asm, d.parse source = .ok asm → d.target.GenerateFits asm

theorem fits (d : Dialect) {source : String} (short : source.length < 2 ^ 63) : d.Fits source where
  literals base digits n found := by
    have small := Literal.lt_of_magnitude? found
    unfold Signed64
    omega
  fields := by cases d <;> decide
  words := by cases d <;> decide
  integers asm parsed placed member s listed value operand := by
    have small : value.natAbs < 2 ^ 63 := bounded_of_parse parsed placed member s listed _ operand
    unfold Signed64
    omega
  generate asm parsed := by
    refine Target.generateFits d.roomy short fun placed member s listed text operand => ?_
    exact bounded_of_parse parsed placed member s listed _ operand

end Dialect

/-- Every source is assembled or rejected without a fault, no node lacks a name, no token is cut off
    that is not there, and no number is too large for a machine with 64 bits, on which a source
    cannot be longer either. -/
theorem assemble_safe (d : Dialect) (source : String) :
    (∀ e, assemble d source = .error e → e.fault? = none) ∧
    (∃ t, d.table = .ok t ∧ ∀ production ∈ t.grammar.productions,
      production.lhs < t.grammar.nonterminals.length) ∧
    (Scanner.ofConfig d.config).ScanFits source.toList ∧
    (source.length < 2 ^ 63 → d.Fits source) := by
  refine ⟨?_, ?_, Scanner.scanFits_ofClasses _ _, d.fits⟩
  · refine (d.faultless_parse source).bind fun asm _ => ?_
    split
    · next e failed =>
        have faultless := Target.faultless_generate d.roomy.exact d.coherent asm e failed
        exact faultless_throw.2 (Diagnostic.fault?_codegen.trans faultless)
    · exact faultless_pure _
  · obtain ⟨t, ofGrammar, table⟩ := d.exists_table
    obtain ⟨grammar, -⟩ := Table.ofGrammar_eq_ok ofGrammar
    exact ⟨t, table, grammar ▸ d.wellFormed_grammar.lhs_lt⟩

/-- A label with a colon, a reference forward and a string. -/
theorem assemble_safe_lea : Dialect.complx.Fits
    ".orig x3000\nstart: lea r0, text\nputs\nhalt\ntext .stringz \"hi\"\n.end" :=
  (assemble_safe .complx _).2.2.2 (by decide)

end Assembler
