import SymbolicOmega.Formula.Atom
import SymbolicOmega.Proofs.Formula.Grammar

/-!
# Reading formulas back

What is read from the text of a formula may be nested otherwise than the formula, since a right
operand with the same operator is not enclosed, but it has the same atoms in the same order and
the same value.
-/

namespace SymbolicOmega

namespace Formula

variable {α : Type}

theorem precedence_pos (e : Formula α) : 1 ≤ e.precedence := by
  cases e <;> simp [precedence]

/-- The pieces spell tokens that derive the formula up to nesting. -/
def Written (v : Vocabulary α) (level : Level) (pieces : List String) (e : Formula α) : Prop :=
  ∃ tokens, Token.Spells (String.join pieces).toList tokens ∧ Gives v level tokens e

namespace Written

variable {v : Vocabulary α} {pieces pieces' : List String} {e e' : Formula α}

/-- A piece that is an operand by itself. -/
theorem operand {piece : String} {tokens : List Token}
    (hspells : Token.Spells piece.toList tokens) (hderives : Derives v .operand tokens e) :
    Written v .operand [piece] e :=
  ⟨tokens, by simpa using hspells, e, hderives, .refl e⟩

theorem conjunct (h : Written v .operand pieces e) : Written v .conjunction pieces e := by
  obtain ⟨tokens, hspells, f, hf, hagrees⟩ := h
  exact ⟨tokens, hspells, f, hf.conjunct, hagrees⟩

theorem disjunct (h : Written v .conjunction pieces e) : Written v .disjunction pieces e := by
  obtain ⟨tokens, hspells, f, hf, hagrees⟩ := h
  exact ⟨tokens, hspells, f, hf.disjunct, hagrees⟩

theorem of_operand (h : Written v .operand pieces e) : ∀ precedence,
    Written v (Level.of precedence) pieces e
  | 0 => h.conjunct.disjunct
  | 1 => h.conjunct.disjunct
  | 2 => h.conjunct
  | _ + 3 => h

theorem loosen : ∀ {p q : Nat}, Written v (Level.of p) pieces e → q ≤ p →
    Written v (Level.of q) pieces e
  | 0, 0, h, _ => h
  | 1, 0, h, _ => h
  | 1, 1, h, _ => h
  | 2, 0, h, _ => h.disjunct
  | 2, 1, h, _ => h.disjunct
  | 2, 2, h, _ => h
  | _ + 3, q, h, _ => of_operand h q

theorem not (h : Written v .operand pieces e) : Written v .operand ("!" :: pieces) (.not e) := by
  obtain ⟨tokens, hspells, f, hf, hagrees⟩ := h
  exact ⟨.not :: tokens, by simpa using hspells.cons rfl, .not f, hf.not, hagrees.not⟩

theorem group (h : Written v .disjunction pieces e) :
    Written v .operand ("(" :: pieces ++ [")"]) e := by
  obtain ⟨tokens, hspells, f, hf, hagrees⟩ := h
  exact ⟨_, by simpa using hspells.enclosed, f, hf.group, hagrees⟩

theorem and (h : Written v .conjunction pieces e) (h' : Written v .conjunction pieces' e') :
    Written v .conjunction (pieces ++ " & " :: pieces') (.and e e') := by
  obtain ⟨tokens, hspells, hgives⟩ := h
  obtain ⟨tokens', hspells', hgives'⟩ := h'
  exact ⟨_, by simpa using hspells.joined rfl hspells', hgives.and hgives'⟩

theorem or (h : Written v .disjunction pieces e) (h' : Written v .disjunction pieces' e') :
    Written v .disjunction (pieces ++ " | " :: pieces') (.or e e') := by
  obtain ⟨tokens, hspells, hgives⟩ := h
  obtain ⟨tokens', hspells', hgives'⟩ := h'
  exact ⟨_, by simpa using hspells.joined rfl hspells', hgives.or hgives'⟩

/-- An operand is written in parentheses only where its own operator would not be taken whole. -/
theorem enclose (h : Written v (Level.of e.precedence) pieces e) (parent : Nat) :
    Written v (Level.of parent) (e.enclose parent pieces) e := by
  have hdisjunction : Written v .disjunction pieces e := by
    revert h
    cases e <;> intro h
    case or => exact h
    case and => exact h.disjunct
    all_goals exact h.conjunct.disjunct
  by_cases hloose : e.precedence < parent
  · have hgroup : Written v .operand (e.enclose parent pieces) e := by
      rw [Formula.enclose, if_pos hloose]
      exact hdisjunction.group
    exact hgroup.of_operand parent
  · rw [Formula.enclose, if_neg hloose]
    exact h.loosen (Nat.le_of_not_lt hloose)

/-- The text of a formula is read back up to nesting, if the words for its atoms are. -/
theorem pieces_written {shown : α → String} (htop : v ['t'] = some (.operand .top))
    (hbot : v ['f'] = some (.operand .bot)) (e : Formula α)
    (hatoms : ∀ a ∈ e.atoms, Written v .operand [shown a] (.atom a)) :
    Written v (Level.of e.precedence) (e.pieces shown) e := by
  induction e with
  | top => exact .operand (.word (by simp) (List.all_eq_true.1 (by decide))) (.word htop)
  | bot => exact .operand (.word (by simp) (List.all_eq_true.1 (by decide))) (.word hbot)
  | atom a => exact hatoms a (List.mem_singleton_self a)
  | not e ih => exact ((ih hatoms).enclose 3).not
  | and lhs rhs ihl ihr =>
      have hl := ihl fun a ha => hatoms a (List.mem_append_left _ ha)
      have hr := ihr fun a ha => hatoms a (List.mem_append_right _ ha)
      exact (hl.enclose 2).and (hr.enclose 2)
  | or lhs rhs ihl ihr =>
      have hl := ihl fun a ha => hatoms a (List.mem_append_left _ ha)
      have hr := ihr fun a ha => hatoms a (List.mem_append_right _ ha)
      exact (hl.enclose 1).or (hr.enclose 1)

end Written

/-- The text is cut into tokens with nothing left over, the grammar and the reader make one and
the same formula of them, and that has the atoms of `e` in their order and the value of `e` under
every valuation. -/
def ReadsBack [ToString α] (v : Vocabulary α) (e : Formula α) : Prop :=
  ∃ tokens e', Token.scan [] (toString e).toList = some tokens ∧
    (∀ f, Derives v .disjunction tokens f ↔ f = e') ∧ read v (toString e) = some e' ∧
    Agrees e' e

theorem Written.readsBack [ToString α] {v : Vocabulary α} {e : Formula α}
    (h : Written v .disjunction (e.pieces toString) e) : ReadsBack v e := by
  obtain ⟨tokens, hspells, e', hderives, hagrees⟩ := h
  have hscan : Token.scan [] (toString e).toList = some tokens := hspells.scan_eq
  refine ⟨tokens, e', hscan, fun f => ⟨fun hf => hf.unique hderives, ?_⟩, ?_, hagrees⟩
  · rintro rfl
    exact hderives
  · rw [read, hscan, Option.bind_some, ofTokens_of_derives hderives]

end Formula

/-! ## Labels and acceptance conditions -/

section Numbers
variable (n : Nat)

theorem number?_toString : number? (toString n).toList = some n := by
  have hvalue : Nat.ofDigitChars 10 (toString n).toList 0 = n := by
    rw [Nat.toString_eq_repr, Nat.toList_repr]
    exact Nat.ofDigitChars_ten_toDigits
  simp only [number?, hvalue, if_true]

theorem isDigit_of_mem_toString {c : Char} (hc : c ∈ (toString n).toList) : c.isDigit = true := by
  rw [Nat.toString_eq_repr, Nat.toList_repr] at hc
  exact Nat.isDigit_of_mem_toDigits (by decide) (by decide) hc

theorem spells_number : Token.Spells (toString n).toList [.word (toString n).toList] := by
  apply Token.Spells.word
  · rw [Nat.toString_eq_repr, Nat.toList_repr]
    exact Nat.toDigits_ne_nil
  · intro c hc
    simp [Token.isWordChar, Char.isAlphanum, isDigit_of_mem_toString n hc]

end Numbers

/-- In labels a number is a proposition, and a name after `@` an alias. -/
def labelWords : Vocabulary LabelAtom
  | ['t'] => some (.operand .top)
  | ['f'] => some (.operand .bot)
  | '@' :: name =>
      if name = [] then none else some (.operand (.atom (.alias (String.ofList name))))
  | digits => (number? digits).map fun i => .operand (.atom (.proposition i))

/-- In acceptance conditions `Fin` and `Inf` are applied to the number of a set. -/
def acceptanceWords : Vocabulary AcceptanceAtom
  | ['t'] => some (.operand .top)
  | ['f'] => some (.operand .bot)
  | ['F', 'i', 'n'] => some (.applied .fin)
  | ['I', 'n', 'f'] => some (.applied .inf)
  | _ => none

/-- The name of an alias is not empty and has letters, digits, `_` and `-` only. -/
def LabelAtom.WellNamed : LabelAtom → Prop
  | .proposition _ => True
  | .alias name => name ≠ "" ∧ ∀ c ∈ name.toList, Token.isWordChar c = true

theorem labelWords_number (i : Nat) :
    labelWords (toString i).toList = some (.operand (.atom (.proposition i))) := by
  have hdigit := fun c => isDigit_of_mem_toString i (c := c)
  have hnumber := number?_toString i
  generalize (toString i).toList = digits at hdigit hnumber
  unfold labelWords
  split
  · exact absurd (hdigit 't' (by simp)) (by decide)
  · exact absurd (hdigit 'f' (by simp)) (by decide)
  · exact absurd (hdigit '@' (by simp)) (by decide)
  · rw [hnumber, Option.map_some]

theorem LabelAtom.written {a : LabelAtom} (h : a.WellNamed) :
    Formula.Written labelWords .operand [toString a] (.atom a) := by
  cases a with
  | proposition i => exact .operand (spells_number i) (.word (labelWords_number i))
  | «alias» name =>
      obtain ⟨hne, hname⟩ := h
      have hspells : Token.Spells (toString (LabelAtom.alias name)).toList
          [.word ('@' :: name.toList)] := by
        simpa [toString] using Token.Spells.name hname
      refine .operand hspells (.word ?_)
      simp [labelWords, hne]

theorem AcceptanceAtom.written (a : AcceptanceAtom) :
    Formula.Written acceptanceWords .operand [toString a] (.atom a) := by
  have hshown : ∀ (head : List Char) (i : Nat), head ≠ [] →
      (∀ c ∈ head, Token.isWordChar c = true) →
      Token.Spells (head ++ '(' :: ((toString i).toList ++ [')']))
        [.word head, .opening, .word (toString i).toList, .closing] := fun head i hne hhead =>
    (Token.Spells.word hne hhead).appendSymbol rfl
      ((spells_number i).appendSymbol rfl (fun rest _ => by simp : Token.Spells [] []))
  cases a with
  | fin i =>
      have hfin : acceptanceWords ['F', 'i', 'n'] = some (.applied .fin) := rfl
      refine .operand ?_ (.applied hfin (number?_toString i))
      simpa [toString] using hshown ['F', 'i', 'n'] i (by simp) (List.all_eq_true.1 (by decide))
  | inf i =>
      have hinf : acceptanceWords ['I', 'n', 'f'] = some (.applied .inf) := rfl
      refine .operand ?_ (.applied hinf (number?_toString i))
      simpa [toString] using hshown ['I', 'n', 'f'] i (by simp) (List.all_eq_true.1 (by decide))

/-- The text of every label and of every acceptance condition is read back, nested to the left
where it was nested otherwise. -/
theorem Formula.text_readsBack :
    (∀ e : Formula LabelAtom, (∀ a ∈ e.atoms, a.WellNamed) → e.ReadsBack labelWords) ∧
      ∀ e : Formula AcceptanceAtom, e.ReadsBack acceptanceWords := by
  refine ⟨fun e hatoms => ?_, fun e => ?_⟩
  · have hpieces : Written labelWords (Level.of e.precedence) (e.pieces toString) e :=
      Written.pieces_written rfl rfl e fun a ha => LabelAtom.written (hatoms a ha)
    exact (hpieces.loosen e.precedence_pos).readsBack
  · have hpieces : Written acceptanceWords (Level.of e.precedence) (e.pieces toString) e :=
      Written.pieces_written rfl rfl e fun a _ => AcceptanceAtom.written a
    exact (hpieces.loosen e.precedence_pos).readsBack

/-- A conjunction nested to the right, below which there are a disjunction, a negated constant
and a double negation. -/
def Formula.nestedLabel : Formula LabelAtom :=
  .and (.or (.atom (.proposition 10)) (.not .top))
    (.and (.not (.not (.atom (.alias "go-1")))) (.atom (.proposition 0)))

theorem Formula.nestedLabel_readsBack : nestedLabel.ReadsBack labelWords := by
  apply text_readsBack.1 nestedLabel
  have hname : ∀ c ∈ "go-1".toList, Token.isWordChar c = true :=
    List.all_eq_true.1 (by decide)
  simp [nestedLabel, atoms, LabelAtom.WellNamed, hname]

example : Formula.nestedLabel.render toString = "(10 | !t) & !!@go-1 & 0" := by decide

example : Formula.read labelWords "(10 | !t) & !!@go-1 & 0" =
    some (.and (.and (.or (.atom (.proposition 10)) (.not .top))
      (.not (.not (.atom (.alias "go-1"))))) (.atom (.proposition 0))) := by decide

end SymbolicOmega
