import Mathlib.Logic.Function.Iterate
import SymbolicOmega.Proofs.Formula.Tokens

/-!
# The grammar of formulas

`!` binds tighter than `&` and `&` tighter than `|`, and `&` and `|` nest to the left.  The grammar
is a relation between tokens and formulas; the reader goes over the tokens once, with a frame for
each open parenthesis, and finds the one formula that the grammar gives.
-/

namespace SymbolicOmega

/-- What a word can stand for in a formula over atoms of type `α`. -/
inductive Meaning (α : Type) where
  /-- It is an operand by itself. -/
  | operand (e : Formula α)
  /-- Applied to a number, it is an atom. -/
  | applied (apply : Nat → α)

/-- The words of a language of formulas. -/
abbrev Vocabulary (α : Type) := List Char → Option (Meaning α)

/-- The number that is written so in decimal digits, without a zero in front. -/
def number? (digits : List Char) : Option Nat :=
  let n := Nat.ofDigitChars 10 digits 0
  if (toString n).toList = digits then some n else none

namespace Formula

variable {α : Type}

/-- How much of a formula a derivation is for: operands are joined by `&`, and what comes of
that is joined by `|`. -/
inductive Level where
  | disjunction
  | conjunction
  | operand

/-- The level of the formulas whose outermost operator binds at least so tightly. -/
def Level.of : (precedence : Nat) → Level
  | 0 => .disjunction
  | 1 => .disjunction
  | 2 => .conjunction
  | _ => .operand

/-- The grammar of formulas with the words of a vocabulary. -/
inductive Derives (v : Vocabulary α) : Level → List Token → Formula α → Prop
  | word {text : List Char} {e : Formula α} :
      v text = some (.operand e) → Derives v .operand [.word text] e
  | applied {text digits : List Char} {apply : Nat → α} {n : Nat} :
      v text = some (.applied apply) → number? digits = some n →
      Derives v .operand [.word text, .opening, .word digits, .closing] (.atom (apply n))
  | not {tokens : List Token} {e : Formula α} :
      Derives v .operand tokens e → Derives v .operand (.not :: tokens) (.not e)
  | group {tokens : List Token} {e : Formula α} :
      Derives v .disjunction tokens e →
      Derives v .operand (.opening :: tokens ++ [.closing]) e
  | conjunct {tokens : List Token} {e : Formula α} :
      Derives v .operand tokens e → Derives v .conjunction tokens e
  | and {tokens tokens' : List Token} {e e' : Formula α} :
      Derives v .conjunction tokens e → Derives v .operand tokens' e' →
      Derives v .conjunction (tokens ++ .and :: tokens') (.and e e')
  | disjunct {tokens : List Token} {e : Formula α} :
      Derives v .conjunction tokens e → Derives v .disjunction tokens e
  | or {tokens tokens' : List Token} {e e' : Formula α} :
      Derives v .disjunction tokens e → Derives v .conjunction tokens' e' →
      Derives v .disjunction (tokens ++ .or :: tokens') (.or e e')

/-! ## The reader -/

/-- What has been read at one depth of parentheses. -/
structure Frame (α : Type) where
  /-- The disjuncts that are complete. -/
  disjunction : Option (Formula α)
  /-- The conjuncts of the disjunct under way. -/
  conjunction : Option (Formula α)
  /-- How many negations wait for their operand. -/
  negations : Nat

namespace Frame

def empty : Frame α := ⟨none, none, 0⟩

def negate (frame : Frame α) : Frame α :=
  { frame with negations := frame.negations + 1 }

/-- Read one more operand. -/
def add (frame : Frame α) (e : Formula α) : Frame α :=
  let operand := Formula.not^[frame.negations] e
  match frame.conjunction with
  | none => ⟨frame.disjunction, some operand, 0⟩
  | some conjunction => ⟨frame.disjunction, some (.and conjunction operand), 0⟩

/-- All that was read, if it ends with a conjunction. -/
def whole (frame : Frame α) : Option (Formula α) :=
  match frame.disjunction, frame.conjunction with
  | none, conjunction => conjunction
  | some disjunction, some conjunction => some (.or disjunction conjunction)
  | some _, none => none

end Frame

/-- What may come next. -/
inductive Awaits (α : Type) where
  | operand
  | operator
  | opening (apply : Nat → α)
  | number (apply : Nat → α)
  | closing (a : α)

structure Reader (α : Type) where
  frame : Frame α
  /-- The frames of the open parentheses, the innermost first. -/
  outer : List (Frame α)
  awaits : Awaits α

namespace Reader

def start : Reader α := ⟨.empty, [], .operand⟩

/-- The reader after one more operand. -/
def take (reader : Reader α) (e : Formula α) : Reader α :=
  { reader with frame := reader.frame.add e, awaits := .operator }

def step (v : Vocabulary α) (reader : Reader α) (token : Token) : Option (Reader α) :=
  match reader.awaits, token with
  | .operand, .not => some { reader with frame := reader.frame.negate }
  | .operand, .opening => some ⟨.empty, reader.frame :: reader.outer, .operand⟩
  | .operand, .word text =>
      match v text with
      | some (.operand e) => some (reader.take e)
      | some (.applied apply) => some { reader with awaits := .opening apply }
      | none => none
  | .opening apply, .opening => some { reader with awaits := .number apply }
  | .number apply, .word digits =>
      (number? digits).map fun n => { reader with awaits := .closing (apply n) }
  | .closing a, .closing => some (reader.take (.atom a))
  | .operator, .and => some { reader with awaits := .operand }
  | .operator, .or =>
      reader.frame.whole.map fun e => ⟨⟨some e, none, 0⟩, reader.outer, .operand⟩
  | .operator, .closing =>
      match reader.frame.whole, reader.outer with
      | some e, frame :: outer => some ⟨frame.add e, outer, .operator⟩
      | _, _ => none
  | _, _ => none

def run (v : Vocabulary α) (reader : Reader α) (tokens : List Token) : Option (Reader α) :=
  tokens.foldlM (step v) reader

/-- The formula, if the text may end here. -/
def result (reader : Reader α) : Option (Formula α) :=
  match reader.awaits, reader.outer with
  | .operator, [] => reader.frame.whole
  | _, _ => none

end Reader

/-- The formula that all tokens together make. -/
def ofTokens (v : Vocabulary α) (tokens : List Token) : Option (Formula α) :=
  (Reader.start.run v tokens).bind Reader.result

/-- The formula that a text is read as. -/
def read (v : Vocabulary α) (text : String) : Option (Formula α) :=
  (Token.scan [] text.toList).bind (ofTokens v)

namespace Reader

variable {v : Vocabulary α} {tokens tokens' : List Token}

theorem run_cons {reader reader' : Reader α} {token : Token}
    (hstep : reader.step v token = some reader') :
    reader.run v (token :: tokens) = reader'.run v tokens := by
  simp only [run, List.foldlM_cons, hstep]
  rfl

theorem run_append {reader reader' : Reader α} (hrun : reader.run v tokens = some reader') :
    reader.run v (tokens ++ tokens') = reader'.run v tokens' := by
  simp only [run] at hrun
  simp only [run, List.foldlM_append, hrun]
  rfl

/-- What the reader makes of the tokens of a derivation. -/
def Reads (v : Vocabulary α) : Level → List Token → Formula α → Prop
  | .operand, tokens, e => ∀ frame outer,
      run v ⟨frame, outer, .operand⟩ tokens = some ⟨frame.add e, outer, .operator⟩
  | .conjunction, tokens, e => ∀ disjunction outer,
      run v ⟨⟨disjunction, none, 0⟩, outer, .operand⟩ tokens =
        some ⟨⟨disjunction, some e, 0⟩, outer, .operator⟩
  | .disjunction, tokens, e => ∀ outer, ∃ frame,
      run v ⟨.empty, outer, .operand⟩ tokens = some ⟨frame, outer, .operator⟩ ∧
        frame.whole = some e

/-- The reader finds what the grammar gives. -/
theorem reads_of_derives {level : Level} {e : Formula α} (h : Derives v level tokens e) :
    Reads v level tokens e := by
  induction h with
  | word hword =>
      intro frame outer
      simp [run, step, hword, take]
  | applied hword hnumber =>
      intro frame outer
      simp [run, step, hword, hnumber, take]
  | not h ih =>
      intro frame outer
      rw [run_cons rfl]
      exact ih frame.negate outer
  | group h ih =>
      intro frame outer
      obtain ⟨inner, hrun, hwhole⟩ := ih (frame :: outer)
      rw [List.cons_append, run_cons rfl, run_append hrun]
      simp [run, step, hwhole]
  | conjunct h ih => exact fun disjunction outer => ih _ _
  | and h h' ih ih' =>
      intro disjunction outer
      rw [run_append (ih disjunction outer), run_cons rfl]
      exact ih' _ _
  | disjunct h ih => exact fun outer => ⟨_, ih none outer, rfl⟩
  | @or _ _ e e' h h' ih ih' =>
      intro outer
      obtain ⟨frame, hrun, hwhole⟩ := ih outer
      refine ⟨⟨some e, some e', 0⟩, ?_, rfl⟩
      have hstep : step v ⟨frame, outer, .operator⟩ .or =
          some ⟨⟨some e, none, 0⟩, outer, .operand⟩ := by simp [step, hwhole]
      rw [run_append hrun, run_cons hstep]
      exact ih' _ _

end Reader

theorem ofTokens_of_derives {v : Vocabulary α} {tokens : List Token} {e : Formula α}
    (h : Derives v .disjunction tokens e) : ofTokens v tokens = some e := by
  obtain ⟨frame, hrun, hwhole⟩ := Reader.reads_of_derives h []
  have hstart : Reader.start.run v tokens = some ⟨frame, [], .operator⟩ := hrun
  rw [ofTokens, hstart, Option.bind_some]
  exact hwhole

/-- The grammar is not ambiguous. -/
theorem Derives.unique {v : Vocabulary α} {tokens : List Token} {e e' : Formula α}
    (h : Derives v .disjunction tokens e) (h' : Derives v .disjunction tokens e') : e = e' := by
  have heq : some e = some e' := by rw [← ofTokens_of_derives h, ← ofTokens_of_derives h']
  exact Option.some.inj heq

/-! ## Formulas up to nesting -/

/-- Two formulas list the same atoms and have the same value everywhere. -/
structure Agrees (e e' : Formula α) : Prop where
  atoms : e.atoms = e'.atoms
  value : ∀ valuation, e.evaluate valuation = e'.evaluate valuation

namespace Agrees

variable {e e' e'' f f' : Formula α}

theorem refl (e : Formula α) : Agrees e e := ⟨rfl, fun _ => rfl⟩

theorem trans (h : Agrees e e') (h' : Agrees e' e'') : Agrees e e'' :=
  ⟨h.atoms.trans h'.atoms, fun valuation => (h.value valuation).trans (h'.value valuation)⟩

theorem not (h : Agrees e e') : Agrees (.not e) (.not e') :=
  ⟨h.atoms, fun valuation => by simp only [evaluate, h.value]⟩

theorem and (h : Agrees e e') (h' : Agrees f f') : Agrees (.and e f) (.and e' f') :=
  ⟨by simp only [Formula.atoms, h.atoms, h'.atoms], fun valuation => by
    simp only [evaluate, h.value, h'.value]⟩

theorem or (h : Agrees e e') (h' : Agrees f f') : Agrees (.or e f) (.or e' f') :=
  ⟨by simp only [Formula.atoms, h.atoms, h'.atoms], fun valuation => by
    simp only [evaluate, h.value, h'.value]⟩

theorem and_assoc (e e' e'' : Formula α) :
    Agrees (.and (.and e e') e'') (.and e (.and e' e'')) :=
  ⟨by simp only [Formula.atoms, List.append_assoc], fun valuation => by
    simp only [evaluate, Bool.and_assoc]⟩

theorem or_assoc (e e' e'' : Formula α) : Agrees (.or (.or e e') e'') (.or e (.or e' e'')) :=
  ⟨by simp only [Formula.atoms, List.append_assoc], fun valuation => by
    simp only [evaluate, Bool.or_assoc]⟩

end Agrees

/-- Some tokens derive a formula up to nesting. -/
def Gives (v : Vocabulary α) (level : Level) (tokens : List Token) (e : Formula α) : Prop :=
  ∃ e', Derives v level tokens e' ∧ Agrees e' e

namespace Gives

variable {v : Vocabulary α} {tokens tokens' : List Token} {e e' : Formula α}

/-- Chains of conjunctions are joined, whatever is on the right. -/
theorem and (h : Gives v .conjunction tokens e) (h' : Gives v .conjunction tokens' e') :
    Gives v .conjunction (tokens ++ .and :: tokens') (.and e e') := by
  obtain ⟨f, hf, hagrees⟩ := h
  obtain ⟨f', hf', hagrees'⟩ := h'
  suffices hjoin : Gives v .conjunction (tokens ++ .and :: tokens') (.and f f') by
    obtain ⟨g, hg, hgf⟩ := hjoin
    exact ⟨g, hg, hgf.trans (hagrees.and hagrees')⟩
  clear hagrees hagrees'
  -- The derivation on the right grows at its end, where one conjunct after the other is added.
  generalize hlevel : Level.conjunction = level at hf'
  induction hf' with
  | conjunct h => exact ⟨_, hf.and h, .refl _⟩
  | @and us us' g g' h h' ih =>
      obtain ⟨joined, hjoined, hagrees⟩ := ih rfl
      refine ⟨.and joined g', ?_, (hagrees.and (.refl g')).trans (.and_assoc f g g')⟩
      simpa using hjoined.and h'
  | _ => cases hlevel

/-- Chains of disjunctions are joined, whatever is on the right. -/
theorem or (h : Gives v .disjunction tokens e) (h' : Gives v .disjunction tokens' e') :
    Gives v .disjunction (tokens ++ .or :: tokens') (.or e e') := by
  obtain ⟨f, hf, hagrees⟩ := h
  obtain ⟨f', hf', hagrees'⟩ := h'
  suffices hjoin : Gives v .disjunction (tokens ++ .or :: tokens') (.or f f') by
    obtain ⟨g, hg, hgf⟩ := hjoin
    exact ⟨g, hg, hgf.trans (hagrees.or hagrees')⟩
  clear hagrees hagrees'
  generalize hlevel : Level.disjunction = level at hf'
  induction hf' with
  | disjunct h => exact ⟨_, hf.or h, .refl _⟩
  | @or us us' g g' h h' ih =>
      obtain ⟨joined, hjoined, hagrees⟩ := ih rfl
      refine ⟨.or joined g', ?_, (hagrees.or (.refl g')).trans (.or_assoc f g g')⟩
      simpa using hjoined.or h'
  | _ => cases hlevel

end Gives

end Formula

end SymbolicOmega
