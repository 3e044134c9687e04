import Assembler.Codegen.Encode
import Assembler.Codegen.Error
import Assembler.Codegen.Generate
import Assembler.Codegen.Overlap
import Assembler.Collections.Fixpoint
import Assembler.Collections.SortedMap
import Assembler.Collections.SortedSet
import Assembler.Diagnostic
import Assembler.Dialect.Basic
import Assembler.Dialect.Complx
import Assembler.Dialect.Lc2200
import Assembler.Dialect.Leaf
import Assembler.Dialect.Literal
import Assembler.Disassembly
import Assembler.Fault
import Assembler.Grammar.Basic
import Assembler.Grammar.Bnf
import Assembler.Grammar.Collection
import Assembler.Grammar.First
import Assembler.Grammar.Item
import Assembler.Grammar.Rules
import Assembler.Grammar.Table
import Assembler.Isa.Basic
import Assembler.Isa.Lc2200
import Assembler.Isa.Lc3
import Assembler.Isa.Range
import Assembler.Lexical.Automaton
import Assembler.Lexical.Config
import Assembler.Lexical.Recognizer
import Assembler.Lexical.Scanner
import Assembler.Lexical.Token
import Assembler.Object.Basic
import Assembler.Object.Binary
import Assembler.Object.SymbolText
import Assembler.Parsing.ShiftReduce
import Assembler.Parsing.Tree
import Assembler.Pipeline
import Assembler.Program.Assembly
import Assembler.Program.Builder
import Assembler.Program.Error
import Assembler.Program.Operand
import Assembler.Proofs.Codegen.Bounds
import Assembler.Proofs.Codegen.Decode
import Assembler.Proofs.Codegen.Encode
import Assembler.Proofs.Codegen.Faults
import Assembler.Proofs.Codegen.Fields
import Assembler.Proofs.Codegen.FirstPass
import Assembler.Proofs.Codegen.Labels
import Assembler.Proofs.Codegen.Overflow
import Assembler.Proofs.Codegen.Overlap
import Assembler.Proofs.Codegen.Packing
import Assembler.Proofs.Codegen.Plain
import Assembler.Proofs.Codegen.Positions
import Assembler.Proofs.Codegen.Reassembly
import Assembler.Proofs.Codegen.References
import Assembler.Proofs.Codegen.Refinement
import Assembler.Proofs.Codegen.Relocation
import Assembler.Proofs.Codegen.Reordering
import Assembler.Proofs.Codegen.SecondPass
import Assembler.Proofs.Collections.Fixpoint
import Assembler.Proofs.Collections.SortedMap
import Assembler.Proofs.Collections.SortedSet
import Assembler.Proofs.Dialect.ComplxLines
import Assembler.Proofs.Dialect.Contents
import Assembler.Proofs.Dialect.Grammars
import Assembler.Proofs.Dialect.IntegerLiterals
import Assembler.Proofs.Dialect.Labels
import Assembler.Proofs.Dialect.Layout
import Assembler.Proofs.Dialect.Lc2200Lines
import Assembler.Proofs.Dialect.Lines
import Assembler.Proofs.Dialect.Printing
import Assembler.Proofs.Dialect.QuotedLiterals
import Assembler.Proofs.Dialect.Reports
import Assembler.Proofs.Dialect.Safety
import Assembler.Proofs.Dialect.Shapes
import Assembler.Proofs.Dialect.Spelling
import Assembler.Proofs.Faults
import Assembler.Proofs.Grammar.Automaton
import Assembler.Proofs.Grammar.BnfRules
import Assembler.Proofs.Grammar.BnfTokens
import Assembler.Proofs.Grammar.Closure
import Assembler.Proofs.Grammar.Collection
import Assembler.Proofs.Grammar.Conflicts
import Assembler.Proofs.Grammar.First
import Assembler.Proofs.Grammar.LeastClosure
import Assembler.Proofs.Grammar.Reachability
import Assembler.Proofs.Grammar.Rules
import Assembler.Proofs.Grammar.Table
import Assembler.Proofs.Grammar.WellFormed
import Assembler.Proofs.Isa.Bits
import Assembler.Proofs.Isa.MachineArithmetic
import Assembler.Proofs.Isa.Range
import Assembler.Proofs.Lexical.Classes
import Assembler.Proofs.Lexical.Errors
import Assembler.Proofs.Lexical.Layout
import Assembler.Proofs.Lexical.Lexemes
import Assembler.Proofs.Lexical.Munch
import Assembler.Proofs.Lexical.Patterns
import Assembler.Proofs.Lexical.Places
import Assembler.Proofs.Lexical.Recognition
import Assembler.Proofs.Lexical.Scanner
import Assembler.Proofs.Lexical.Tokens
import Assembler.Proofs.Lexical.Words
import Assembler.Proofs.Object.Binary
import Assembler.Proofs.Object.SymbolText
import Assembler.Proofs.Outcome
import Assembler.Proofs.Parsing.Columns
import Assembler.Proofs.Parsing.Completeness
import Assembler.Proofs.Parsing.Derivation
import Assembler.Proofs.Parsing.ErrorPosition
import Assembler.Proofs.Parsing.Inversion
import Assembler.Proofs.Parsing.Leading
import Assembler.Proofs.Parsing.Run
import Assembler.Proofs.Parsing.SententialForms
import Assembler.Proofs.Parsing.Soundness
import Assembler.Proofs.Parsing.Stack
import Assembler.Proofs.Parsing.Termination
import Assembler.Proofs.Parsing.TwoStacks
import Assembler.Proofs.Parsing.UnknownTokens
import Assembler.Proofs.Parsing.Viable
import Assembler.Proofs.Program.Refusals
import Assembler.Proofs.Program.Sections
import Assembler.Proofs.Text.Literals
import Assembler.Proofs.Text.Numerals
import Assembler.Text.Blank
import Assembler.Text.Digits
import Assembler.Text.Escape
import Assembler.Text.Hidden
import Assembler.Text.Quoted
