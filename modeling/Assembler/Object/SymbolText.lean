import Assembler.Object.Basic
import Assembler.Text.Blank
import Assembler.Text.Digits

/-! # The symbol file

Each label has a line of its own: the label, a tab and its address in hexadecimal. Reading skips
blank lines and refuses a label that occurs twice.
-/

namespace Assembler.SymbolText

/-- The line of a label. -/
def entryText (entry : String × UInt32) : String :=
  entry.1 ++ "\t" ++ Text.upperHex 4 entry.2.toNat ++ "\n"

/-- The symbol file of an object. -/
def write (o : Object) : String :=
  String.join (o.symbols.toList.map entryText)

/-- The label and the address of a line. -/
def entry? (line : List Char) : Option (String × UInt32) :=
  let label := line.takeWhile (· != '\t')
  match line.drop label.length with
  | [] => none
  | _ :: address =>
      if label.isEmpty then none
      else
        (Text.unsigned? 16 UInt32.size (Text.trim address)).map fun n =>
          (String.ofList label, UInt32.ofNat n)

/-- Add the entries of lines to a symbol table. -/
def readLines (symbols : SymbolTable) : List (List Char) → Option SymbolTable
  | [] => some symbols
  | line :: rest =>
      if line.all Text.isBlank then readLines symbols rest
      else
        match entry? line with
        | none => none
        | some (label, address) =>
            if symbols.contains label then none
            else readLines (symbols.insert label address) rest

/-- The object, without sections, of a symbol file. -/
def read? (text : String) : Option Object :=
  (readLines .empty (Text.lines text.toList)).map fun symbols => ⟨symbols, []⟩

end Assembler.SymbolText
