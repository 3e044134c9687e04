import Assembler.Dialect.Basic
import Assembler.Proofs.Grammar.BnfRules
import Assembler.Proofs.Parsing.Completeness

/-! # The line grammars of the dialects

The grammar texts spelled out as rules and as grammars, and the facts about them that are computed
once: both have a table, so a line is parsed as soon as a derivation of it is known.
-/

namespace Assembler

namespace Complx

def rules : List Rule :=
  [⟨"line", ["words"]⟩, ⟨"line", ["words", ",", "oplist"]⟩, ⟨"line", ["words", "arg"]⟩,
   ⟨"line", ["words", "arg", ",", "oplist"]⟩, ⟨"line", ["words", "pseudo"]⟩, ⟨"line", ["pseudo"]⟩,
   ⟨"words", ["word"]⟩, ⟨"words", ["word", ":"]⟩, ⟨"words", ["word", "word"]⟩,
   ⟨"words", ["word", ":", "word"]⟩, ⟨"words", ["word", "word", "word"]⟩,
   ⟨"words", ["word", ":", "word", "word"]⟩,
   ⟨"pseudo", ["pseudoop"]⟩, ⟨"pseudo", ["pseudoop", "operand"]⟩,
   ⟨"oplist", ["operand"]⟩, ⟨"oplist", ["oplist", ",", "operand"]⟩,
   ⟨"operand", ["word"]⟩, ⟨"operand", ["arg"]⟩,
   ⟨"arg", ["reg"]⟩, ⟨"arg", ["int"]⟩, ⟨"arg", ["string"]⟩, ⟨"arg", ["char"]⟩]

def grammar : Grammar where
  nonterminals := ["line", "words", "pseudo", "oplist", "operand", "arg"]
  terminals := [",", "word", ":", "pseudoop", "reg", "int", "string", "char"]
  productions :=
    [⟨0, [.nonterminal 1]⟩, ⟨0, [.nonterminal 1, .terminal 0, .nonterminal 3]⟩,
     ⟨0, [.nonterminal 1, .nonterminal 5]⟩,
     ⟨0, [.nonterminal 1, .nonterminal 5, .terminal 0, .nonterminal 3]⟩,
     ⟨0, [.nonterminal 1, .nonterminal 2]⟩, ⟨0, [.nonterminal 2]⟩,
     ⟨1, [.terminal 1]⟩, ⟨1, [.terminal 1, .terminal 2]⟩, ⟨1, [.terminal 1, .terminal 1]⟩,
     ⟨1, [.terminal 1, .terminal 2, .terminal 1]⟩, ⟨1, [.terminal 1, .terminal 1, .terminal 1]⟩,
     ⟨1, [.terminal 1, .terminal 2, .terminal 1, .terminal 1]⟩,
     ⟨2, [.terminal 3]⟩, ⟨2, [.terminal 3, .nonterminal 4]⟩,
     ⟨3, [.nonterminal 4]⟩, ⟨3, [.nonterminal 3, .terminal 0, .nonterminal 4]⟩,
     ⟨4, [.terminal 1]⟩, ⟨4, [.nonterminal 5]⟩,
     ⟨5, [.terminal 4]⟩, ⟨5, [.terminal 5]⟩, ⟨5, [.terminal 6]⟩, ⟨5, [.terminal 7]⟩]
  goal := 0

end Complx

namespace Lc2200

def rules : List Rule :=
  [⟨"line", ["label"]⟩, ⟨"line", ["label", "stmt"]⟩, ⟨"line", ["stmt"]⟩,
   ⟨"label", ["word", ":"]⟩, ⟨"stmt", ["instr"]⟩, ⟨"stmt", ["pseudo"]⟩,
   ⟨"instr", ["word"]⟩, ⟨"instr", ["word", "operands"]⟩,
   ⟨"operands", ["operand"]⟩, ⟨"operands", ["operands", ",", "operand"]⟩,
   ⟨"operand", ["reg"]⟩, ⟨"operand", ["int"]⟩, ⟨"operand", ["word"]⟩,
   ⟨"operand", ["int", "(", "reg", ")"]⟩, ⟨"operand", ["word", "(", "reg", ")"]⟩,
   ⟨"pseudo", ["pseudoop"]⟩, ⟨"pseudo", ["pseudoop", "operand"]⟩]

def grammar : Grammar where
  nonterminals := ["line", "label", "stmt", "instr", "operands", "operand", "pseudo"]
  terminals := ["word", ":", ",", "reg", "int", "(", ")", "pseudoop"]
  productions :=
    [⟨0, [.nonterminal 1]⟩, ⟨0, [.nonterminal 1, .nonterminal 2]⟩, ⟨0, [.nonterminal 2]⟩,
     ⟨1, [.terminal 0, .terminal 1]⟩, ⟨2, [.nonterminal 3]⟩, ⟨2, [.nonterminal 6]⟩,
     ⟨3, [.terminal 0]⟩, ⟨3, [.terminal 0, .nonterminal 4]⟩,
     ⟨4, [.nonterminal 5]⟩, ⟨4, [.nonterminal 4, .terminal 2, .nonterminal 5]⟩,
     ⟨5, [.terminal 3]⟩, ⟨5, [.terminal 4]⟩, ⟨5, [.terminal 0]⟩,
     ⟨5, [.terminal 4, .terminal 5, .terminal 3, .terminal 6]⟩,
     ⟨5, [.terminal 0, .terminal 5, .terminal 3, .terminal 6]⟩,
     ⟨6, [.terminal 7]⟩, ⟨6, [.terminal 7, .nonterminal 5]⟩]
  goal := 0

end Lc2200

namespace Dialect

def grammar : Dialect → Grammar
  | .complx => Complx.grammar
  | .lc2200 => Lc2200.grammar

def rules : Dialect → List Rule
  | .complx => Complx.rules
  | .lc2200 => Lc2200.rules

set_option maxRecDepth 4000 in
theorem rules_grammarText (d : Dialect) : Bnf.rules d.grammarText = .ok d.rules := by
  cases d with
  | complx =>
      unfold grammarText Complx.grammarText
      exact (Bnf.rules_ofList _).trans (by decide +kernel)
  | lc2200 =>
      unfold grammarText Lc2200.grammarText
      exact (Bnf.rules_ofList _).trans (by decide +kernel)

theorem ofRules_rules (d : Dialect) :
    Grammar.ofRules "line" d.rules d.grammar.nonterminals d.grammar.terminals = .ok d.grammar := by
  cases d <;> decide +kernel

theorem wellFormed_grammar (d : Dialect) : d.grammar.WellFormed :=
  Grammar.ofRules_wellFormed d.ofRules_rules

theorem ofBnf_grammarText (d : Dialect) : Grammar.ofBnf d.grammarText = .ok d.grammar := by
  have read := d.rules_grammarText
  have made := d.ofRules_rules
  cases d <;> exact (Grammar.ofBnf_of_rules read).trans made

theorem isOk_ofGrammar (d : Dialect) : (Table.ofGrammar d.grammar).isOk = true := by
  cases d <;> decide +kernel

theorem exists_table (d : Dialect) :
    ∃ t, Table.ofGrammar d.grammar = .ok t ∧ d.table = .ok t := by
  have isOk := d.isOk_ofGrammar
  obtain ⟨t, table⟩ : ∃ t, Table.ofGrammar d.grammar = .ok t := by
    cases result : Table.ofGrammar d.grammar with
    | error e => simp [result, Except.isOk, Except.toBool] at isOk
    | ok t => exact ⟨t, rfl⟩
  refine ⟨t, table, ?_⟩
  have text : d.table = tableOfText d.grammarText := by cases d <;> rfl
  rw [text, tableOfText, d.ofBnf_grammarText]
  simp only [table]

theorem name_ne_endName {d : Dialect} {kind : TokenKind}
    (symbol : ∀ c, kind = .symbol c → c ∈ d.config.symbols) : kind.name ≠ Table.endName := by
  cases kind with
  | symbol c =>
      intro marked
      have same : c = '$' := by
        have chars := congrArg String.toList marked
        simpa [TokenKind.name, Table.endName] using chars
      have listed := symbol c rfl
      rw [same] at listed
      cases d <;> revert listed <;> decide
  | _ => simp [TokenKind.name, Table.endName]

end Dialect

end Assembler
