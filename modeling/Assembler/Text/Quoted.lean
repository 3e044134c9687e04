import Assembler.Text.Hidden

/-! # Quoted text for display

Displayed trees quote the text of a token so that it stands on one line and shows every character:
what is not shown as itself appears as its code point.
-/

namespace Assembler.Text

/-- A character by its code point in lower-case hexadecimal. -/
def codePointText (c : Char) : List Char :=
  ['\\', 'u', '\x7b'] ++ Nat.toDigits 16 c.toNat ++ ['\x7d']

/-- One character inside display quotes. -/
def quotedChar : Char → List Char
  | '\x00' => ['\\', '0']
  | '\t' => ['\\', 't']
  | '\r' => ['\\', 'r']
  | '\n' => ['\\', 'n']
  | '"' => ['\\', '"']
  | '\\' => ['\\', '\\']
  | c => if isHidden c then codePointText c else [c]

/-- A text between double quotes, on one line. -/
def quoted (text : String) : String :=
  String.ofList ('"' :: text.toList.flatMap quotedChar ++ ['"'])

end Assembler.Text
