import SymbolicOmega.Formula.Printer

/-!
# Tokens of formulas

A text is cut into tokens from left to right: a symbol is one by itself, a word is taken whole,
and blanks count for nothing.  Texts that are joined by a symbol give their tokens joined, since
no word goes on over a symbol.
-/

namespace SymbolicOmega

inductive Token where
  | word (text : List Char)
  | not
  | and
  | or
  | opening
  | closing
deriving DecidableEq, Repr

namespace Token

/-- The characters of names and numbers. -/
def isWordChar (c : Char) : Bool :=
  c.isAlphanum || c = '_' || c = '-'

/-- The token of the word under way, if there is one. -/
def ofBegun (begun : List Char) : List Token :=
  if begun = [] then [] else [.word begun]

def symbol? : Char → Option Token
  | '!' => some .not
  | '&' => some .and
  | '|' => some .or
  | '(' => some .opening
  | ')' => some .closing
  | _ => none

/-- The tokens of a text after the word under way.  A word is taken whole, and `@` begins one. -/
def scan : (begun : List Char) → List Char → Option (List Token)
  | begun, [] => some (ofBegun begun)
  | begun, c :: rest =>
      if isWordChar c then scan (begun ++ [c]) rest
      else if c = '@' then (scan [c] rest).map (ofBegun begun ++ ·)
      else if c.isWhitespace then (scan [] rest).map (ofBegun begun ++ ·)
      else (symbol? c).bind fun token => (scan [] rest).map (ofBegun begun ++ token :: ·)

/-- No word goes on here. -/
def Ends (rest : List Char) : Prop :=
  ∀ c ∈ rest.head?, isWordChar c = false

/-- Wherever no word goes on after it, a text gives these tokens. -/
def Spells (text : List Char) (tokens : List Token) : Prop :=
  ∀ rest, Ends rest → scan [] (text ++ rest) = (scan [] rest).map (tokens ++ ·)

theorem scan_ends {rest : List Char} (h : Ends rest) (begun : List Char) :
    scan begun rest = (scan [] rest).map (ofBegun begun ++ ·) := by
  cases rest with
  | nil => simp [scan, ofBegun]
  | cons c rest =>
      have hc : isWordChar c = false := h c rfl
      by_cases hat : c = '@'
      · subst hat
        simp [scan, hc, ofBegun]
      by_cases hblank : c.isWhitespace = true
      · simp [scan, hc, hat, hblank, ofBegun]
      · cases hsymbol : symbol? c <;>
          simp [scan, hc, hat, hblank, hsymbol, ofBegun, Function.comp_def]

theorem scan_word {text rest : List Char} (htext : ∀ c ∈ text, isWordChar c = true)
    (hrest : Ends rest) (begun : List Char) :
    scan begun (text ++ rest) = (scan [] rest).map (ofBegun (begun ++ text) ++ ·) := by
  induction text generalizing begun with
  | nil => simpa using scan_ends hrest begun
  | cons c text ih =>
      obtain ⟨hc, hmore⟩ := List.forall_mem_cons.1 htext
      rw [List.cons_append, scan, if_pos hc, ih hmore]
      simp

section Symbol
variable {c : Char} {token : Token} (hc : symbol? c = some token)
include hc

theorem symbol_plain : isWordChar c = false ∧ c ≠ '@' ∧ c.isWhitespace = false := by
  unfold symbol? at hc
  split at hc <;> first | decide | cases hc

theorem ends_symbol (rest : List Char) : Ends (c :: rest) := by
  intro d hd
  cases hd
  exact (symbol_plain hc).1

theorem scan_symbol (rest : List Char) :
    scan [] (c :: rest) = (scan [] rest).map (token :: ·) := by
  obtain ⟨hword, hat, hblank⟩ := symbol_plain hc
  simp [scan, hword, hat, hblank, hc, ofBegun]

end Symbol

theorem ends_blank (rest : List Char) : Ends (' ' :: rest) := by
  intro d hd
  cases hd
  decide

theorem scan_blank (rest : List Char) : scan [] (' ' :: rest) = scan [] rest := by
  have hword : isWordChar ' ' = false := by decide
  have hblank : (' ' : Char).isWhitespace = true := by decide
  have hat : (' ' : Char) ≠ '@' := by decide
  simp [scan, hword, hat, hblank, ofBegun]

namespace Spells

variable {text text' : List Char} {tokens tokens' : List Token} {c : Char} {token : Token}

theorem word (hne : text ≠ []) (htext : ∀ c ∈ text, isWordChar c = true) :
    Spells text [.word text] := by
  intro rest hrest
  rw [scan_word htext hrest, List.nil_append, ofBegun, if_neg hne]

/-- A name is one word with the `@` before it. -/
theorem name (htext : ∀ c ∈ text, isWordChar c = true) :
    Spells ('@' :: text) [.word ('@' :: text)] := by
  intro rest hrest
  have hat : isWordChar '@' = false := by decide
  rw [List.cons_append, scan, if_neg (by simp [hat]), if_pos rfl, scan_word htext hrest]
  simp [ofBegun, Function.comp_def]

theorem append (h : Spells text tokens) (h' : Spells text' tokens')
    (hends : ∀ rest, Ends rest → Ends (text' ++ rest)) :
    Spells (text ++ text') (tokens ++ tokens') := by
  intro rest hrest
  rw [List.append_assoc, h _ (hends rest hrest), h' rest hrest]
  simp [Function.comp_def]

/-- A symbol ends a word, and nothing that follows changes it. -/
theorem cons (hc : symbol? c = some token) (h : Spells text tokens) :
    Spells (c :: text) (token :: tokens) := by
  intro rest hrest
  rw [List.cons_append, scan_symbol hc, h rest hrest]
  simp [Function.comp_def]

theorem appendSymbol (h : Spells text tokens) (hc : symbol? c = some token)
    (h' : Spells text' tokens') :
    Spells (text ++ c :: text') (tokens ++ token :: tokens') :=
  h.append (h'.cons hc) fun rest _ => ends_symbol hc (text' ++ rest)

theorem blank (h : Spells text tokens) : Spells (' ' :: text) tokens := by
  intro rest hrest
  rw [List.cons_append, scan_blank, h rest hrest]

/-- Two texts with a symbol between them, set off by blanks. -/
theorem joined (h : Spells text tokens) (hc : symbol? c = some token)
    (h' : Spells text' tokens') :
    Spells (text ++ ' ' :: c :: ' ' :: text') (tokens ++ token :: tokens') :=
  h.append (h'.blank.cons hc).blank fun rest _ => ends_blank (c :: ' ' :: text' ++ rest)

theorem enclosed (h : Spells text tokens) :
    Spells ('(' :: text ++ [')']) (.opening :: tokens ++ [.closing]) :=
  (h.appendSymbol rfl (fun rest _ => by simp : Spells [] [])).cons rfl

theorem scan_eq (h : Spells text tokens) : scan [] text = some tokens := by
  have hscan := h [] (by simp [Ends])
  simpa [scan, ofBegun] using hscan

end Spells

end Token

end SymbolicOmega
