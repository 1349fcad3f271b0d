/-!
# Quoted text

A quoted text stands between double quotes; a double quote or a backslash inside it
is preceded by a backslash.
-/

namespace SymbolicOmega

namespace Text

/-- The characters of a text with every quote and backslash preceded by a backslash. -/
def escapeQuotes : List Char → List Char
  | [] => []
  | c :: rest =>
      if c = '"' ∨ c = '\\' then '\\' :: c :: escapeQuotes rest else c :: escapeQuotes rest

/-- The text between quotes. -/
def quoted (text : String) : String :=
  String.ofList ('"' :: escapeQuotes text.toList ++ ['"'])

end Text

end SymbolicOmega
