import Assembler.Codegen.Generate
import Assembler.Dialect.Basic
import Assembler.Lexical.Scanner

/-! # From source text to object -/

namespace Assembler

namespace Dialect

/-- Parse a line of tokens into its labels and statement. -/
def lineContents (d : Dialect) (t : Table) (line : Line) : Except Diagnostic LineContents :=
  match t.parse line with
  | .error e => .error (.parse e)
  | .ok tree =>
      match d.contents tree with
      | .error e => .error (.semantic e)
      | .ok contents => .ok contents

/-- Parse lines of tokens one by one into a builder. -/
def pushLines (d : Dialect) (t : Table) : List Line → Builder → Except Diagnostic Builder
  | [], b => .ok b
  | line :: rest, b => do
      let contents ← d.lineContents t line
      match b.push line.number contents with
      | .error e _ => throw (.semantic e)
      | .ok () b => d.pushLines t rest b

/-- The assembly of lines of tokens. -/
def parseLines (d : Dialect) (lines : List Line) : Except Diagnostic Assembly := do
  let t ← d.table
  let b ← d.pushLines t lines (.start d.sections)
  match b.finish with
  | .error e => throw (.semantic e)
  | .ok asm => return asm

/-- The assembly of a source text. -/
def parse (d : Dialect) (source : String) : Except Diagnostic Assembly :=
  match scan d.config source with
  | .error e => .error (.lexical e)
  | .ok lines => d.parseLines lines

end Dialect

/-- The object of a source text. -/
def assemble (d : Dialect) (source : String) : Except Diagnostic Object := do
  let asm ← d.parse source
  match d.target.generate asm with
  | .error e => throw (.codegen e)
  | .ok o => return o

end Assembler
