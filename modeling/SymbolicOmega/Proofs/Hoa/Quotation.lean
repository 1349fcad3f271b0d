import SymbolicOmega.Hoa.Output

/-!
# Quoted texts are read back

A reader that knows only where a string begins and ends, and that a backslash stands for
the character after it, gets from a line of quoted texts the texts themselves, whatever
quotes and backslashes they have.  So no two lists of texts are written alike.
-/

namespace SymbolicOmega

namespace Text

/-! ## Reading -/

/-- What stands before the first quote that no backslash makes literal, and what follows that
quote. -/
def readString : List Char → Option (List Char × List Char)
  | [] => none
  | '"' :: later => some ([], later)
  | ['\\'] => none
  | '\\' :: c :: rest => (readString rest).map (Prod.map (c :: ·) id)
  | c :: rest => (readString rest).map (Prod.map (c :: ·) id)

theorem length_readString {text string later : List Char}
    (h : readString text = some (string, later)) : later.length < text.length := by
  fun_induction readString text generalizing string later with
  | case1 => cases h
  | case2 => cases h; exact Nat.lt_succ_self _
  | case3 => cases h
  | case4 c rest ih =>
      obtain ⟨⟨string', later'⟩, hread, hpair⟩ := Option.map_eq_some_iff.1 h
      cases hpair
      exact Nat.lt_succ_of_lt (Nat.lt_succ_of_lt (ih hread))
  | case5 c rest _ _ _ ih =>
      obtain ⟨⟨string', later'⟩, hread, hpair⟩ := Option.map_eq_some_iff.1 h
      cases hpair
      exact Nat.lt_succ_of_lt (ih hread)

/-- The strings of a text that has nothing else but blanks between them.  A string begins at a
quote. -/
def readStrings : List Char → Option (List String)
  | [] => some []
  | ' ' :: rest => readStrings rest
  | '"' :: rest =>
      match _hread : readString rest with
      | none => none
      | some (string, later) => (readStrings later).map (String.ofList string :: ·)
  | _ => none
termination_by text => text.length
decreasing_by
  · exact Nat.lt_succ_self _
  · exact Nat.lt_succ_of_lt (length_readString _hread)

/-! ## Escaping -/

/-- The text with `substitute` in place of every `c`. -/
def replaceChar (c : Char) (substitute : List Char) (text : List Char) : List Char :=
  text.flatMap fun d => if d = c then substitute else [d]

/-- To escape a text is to double its backslashes first and to escape its quotes then. -/
theorem escapeQuotes_eq_replaceChar (text : List Char) :
    escapeQuotes text =
      replaceChar '"' ['\\', '"'] (replaceChar '\\' ['\\', '\\'] text) := by
  induction text with
  | nil => rfl
  | cons c rest ih =>
      rw [escapeQuotes, ih]
      by_cases hquote : c = '"'
      · simp [hquote, replaceChar]
      · by_cases hbackslash : c = '\\' <;> simp [hquote, hbackslash, replaceChar]

theorem readString_escapeQuotes (text later : List Char) :
    readString (escapeQuotes text ++ '"' :: later) = some (text, later) := by
  induction text with
  | nil => rfl
  | cons c rest ih =>
      rw [escapeQuotes]
      by_cases hescaped : c = '"' ∨ c = '\\'
      · rw [if_pos hescaped, List.cons_append, List.cons_append, readString, ih]
        rfl
      · rw [if_neg hescaped, List.cons_append]
        rw [not_or] at hescaped
        simp [readString, hescaped, ih]

/-- A quoted text is read whole, whatever follows it. -/
theorem readStrings_quoted_append (text : String) (later : List Char) :
    readStrings ((quoted text).toList ++ later) = (readStrings later).map (text :: ·) := by
  have hquoted : (quoted text).toList ++ later =
      '"' :: (escapeQuotes text.toList ++ '"' :: later) := by
    simp [quoted]
  rw [hquoted, readStrings, readString_escapeQuotes]
  simp

theorem readStrings_quoted (text : String) :
    readStrings (quoted text).toList = some [text] := by
  simpa [readStrings] using readStrings_quoted_append text []

theorem quoted_injective : Function.Injective quoted := by
  intro left right heq
  have hread := readStrings_quoted left
  rw [heq, readStrings_quoted] at hread
  cases hread
  rfl

/-- Quoted texts in a line, with single blanks between them. -/
def quotedLine (texts : List String) : String :=
  " ".intercalate (texts.map quoted)

theorem readStrings_quotedLine (texts : List String) :
    readStrings (quotedLine texts).toList = some texts := by
  induction texts with
  | nil => simp [quotedLine, readStrings]
  | cons first rest ih =>
      cases rest with
      | nil => simpa [quotedLine] using readStrings_quoted first
      | cons second others =>
          have hsplit : quotedLine (first :: second :: others) =
              quoted first ++ " " ++ quotedLine (second :: others) := by
            rw [quotedLine, List.map_cons, List.map_cons, String.intercalate_cons_cons]
            rfl
          rw [hsplit, String.append_assoc, String.toList_append, readStrings_quoted_append,
            String.toList_append]
          simpa [readStrings] using ih

/-- Texts that are quoted in a line are read back from it.  A text is quoted by doubling its
backslashes, escaping its quotes and enclosing it in quotes, and no two lists of texts give the
same line. -/
theorem quotedLine_decodable :
    (∀ text, (quoted text).toList = '"' ::
        replaceChar '"' ['\\', '"'] (replaceChar '\\' ['\\', '\\'] text.toList) ++ ['"']) ∧
      (∀ texts, readStrings (quotedLine texts).toList = some texts) ∧
      Function.Injective quotedLine := by
  refine ⟨fun text => ?_, readStrings_quotedLine, fun left right heq => ?_⟩
  · rw [quoted, escapeQuotes_eq_replaceChar, String.toList_ofList]
  · have hread := readStrings_quotedLine left
    rw [heq, readStrings_quotedLine] at hread
    exact (Option.some.inj hread).symm

end Text

namespace Hoa.Document

open Text

/-- The strings of a header are read back from its lines: the tool with its version, the name of
the automaton and the names of the propositions. -/
theorem headerLines_strings (d : Document) :
    ∃ tool name propositions : String,
      d.headerLines[1]? = some ["tool: " ++ tool] ∧
      readStrings tool.toList = some (d.tool :: d.version.toList) ∧
      d.headerLines[2]? = some ["name: " ++ name] ∧ readStrings name.toList = some [d.name] ∧
      [s!"AP: {d.propositions.length}" ++ propositions] ∈ d.headerLines ∧
      readStrings propositions.toList = some d.propositions := by
  have hpropositions : ∃ propositions : String,
      renderPropositions d.propositions = s!"AP: {d.propositions.length}" ++ propositions ∧
        readStrings propositions.toList = some d.propositions := by
    cases hnames : d.propositions with
    | nil => exact ⟨"", rfl, by simp [readStrings]⟩
    | cons first rest =>
        refine ⟨" " ++ quotedLine (first :: rest), ?_, ?_⟩
        · rw [renderPropositions, if_neg (by simp), quotedLine, ← String.append_assoc]
          rfl
        · rw [String.toList_append]
          simpa [readStrings] using readStrings_quotedLine (first :: rest)
  obtain ⟨propositions, hline, hread⟩ := hpropositions
  refine ⟨quotedLine (d.tool :: d.version.toList), quoted d.name, propositions, ?_,
    readStrings_quotedLine _, ?_, readStrings_quoted d.name, ?_, hread⟩
  · simp [headerLines, quotedLine]
  · simp [headerLines]
  · rw [← hline]
    simp [headerLines]

end Hoa.Document

end SymbolicOmega
