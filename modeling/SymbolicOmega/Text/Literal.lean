import SymbolicOmega.Text.Visible

/-!
# Text literals

A text as a literal that can be read on one line: between double quotes, with the
quote, the backslash and every character that does not show written as an escape.
-/

namespace SymbolicOmega

namespace Text

/-- The escape of a code point by number. -/
def numberEscape (c : Char) : List Char :=
  ['\\', 'u', '\x7b'] ++ Nat.toDigits 16 c.toNat ++ ['\x7d']

/-- A character as it stands in a literal. -/
def literalChar (c : Char) : List Char :=
  match c with
  | '\x00' => ['\\', '0']
  | '\t' => ['\\', 't']
  | '\r' => ['\\', 'r']
  | '\n' => ['\\', 'n']
  | '"' => ['\\', '"']
  | '\\' => ['\\', '\\']
  | c => if shows c then [c] else numberEscape c

def literal (text : String) : String :=
  String.ofList ('"' :: text.toList.flatMap literalChar ++ ['"'])

end Text

end SymbolicOmega
