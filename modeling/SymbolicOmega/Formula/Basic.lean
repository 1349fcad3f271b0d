/-!
# Boolean formulas

The same tree carries edge labels, whose atoms are propositions, and acceptance
conditions, whose atoms speak about acceptance sets.  The functions `neg`, `conj`
and `disj` fold constants away; the constructors build the tree as given.
-/

namespace SymbolicOmega

inductive Formula (α : Type) where
  | top
  | bot
  | atom (a : α)
  | not (e : Formula α)
  | and (lhs rhs : Formula α)
  | or (lhs rhs : Formula α)
deriving DecidableEq, Repr

namespace Formula

variable {α : Type}

def constant (value : Bool) : Formula α :=
  if value then top else bot

/-- Negation that folds constants and lifts an outermost `not`. -/
def neg : Formula α → Formula α
  | top => bot
  | bot => top
  | not e => e
  | e => not e

/-- Conjunction without constants: `bot` absorbs and `top` disappears. -/
def conj : Formula α → Formula α → Formula α
  | bot, _ => bot
  | _, bot => bot
  | top, e => e
  | e, top => e
  | lhs, rhs => and lhs rhs

/-- Disjunction without constants: `top` absorbs and `bot` disappears. -/
def disj : Formula α → Formula α → Formula α
  | top, _ => top
  | _, top => top
  | bot, e => e
  | e, bot => e
  | lhs, rhs => or lhs rhs

/-- Conjunction of a list, nested to the left; `top` for no formulas. -/
def conjAll (es : List (Formula α)) : Formula α :=
  es.foldl conj top

/-- Disjunction of a list, nested to the left; `bot` for no formulas. -/
def disjAll (es : List (Formula α)) : Formula α :=
  es.foldl disj bot

def isTop : Formula α → Bool
  | top => true
  | _ => false

def isBot : Formula α → Bool
  | bot => true
  | _ => false

/-- Truth value when exactly the atoms with `valuation a = true` hold. -/
def evaluate (valuation : α → Bool) : Formula α → Bool
  | top => true
  | bot => false
  | atom a => valuation a
  | not e => !e.evaluate valuation
  | and lhs rhs => lhs.evaluate valuation && rhs.evaluate valuation
  | or lhs rhs => lhs.evaluate valuation || rhs.evaluate valuation

def atoms : Formula α → List α
  | top => []
  | bot => []
  | atom a => [a]
  | not e => e.atoms
  | and lhs rhs => lhs.atoms ++ rhs.atoms
  | or lhs rhs => lhs.atoms ++ rhs.atoms

/-! ## Folding constants keeps the value -/

@[simp]
theorem evaluate_neg (valuation : α → Bool) (e : Formula α) :
    e.neg.evaluate valuation = !e.evaluate valuation := by
  cases e <;> simp [neg, evaluate]

@[simp]
theorem evaluate_conj (valuation : α → Bool) (lhs rhs : Formula α) :
    (conj lhs rhs).evaluate valuation = (lhs.evaluate valuation && rhs.evaluate valuation) := by
  cases lhs <;> cases rhs <;> simp [conj, evaluate]

@[simp]
theorem evaluate_disj (valuation : α → Bool) (lhs rhs : Formula α) :
    (disj lhs rhs).evaluate valuation = (lhs.evaluate valuation || rhs.evaluate valuation) := by
  cases lhs <;> cases rhs <;> simp [disj, evaluate]

@[simp]
theorem evaluate_conjAll (valuation : α → Bool) (es : List (Formula α)) :
    (conjAll es).evaluate valuation = es.all (·.evaluate valuation) := by
  have hfold : ∀ e : Formula α, (es.foldl conj e).evaluate valuation =
      (e.evaluate valuation && es.all (·.evaluate valuation)) := by
    induction es with
    | nil => simp
    | cons f rest ih => simp [ih, Bool.and_assoc]
  simpa [conjAll, evaluate] using hfold top

@[simp]
theorem evaluate_disjAll (valuation : α → Bool) (es : List (Formula α)) :
    (disjAll es).evaluate valuation = es.any (·.evaluate valuation) := by
  have hfold : ∀ e : Formula α, (es.foldl disj e).evaluate valuation =
      (e.evaluate valuation || es.any (·.evaluate valuation)) := by
    induction es with
    | nil => simp
    | cons f rest ih => simp [ih, Bool.or_assoc]
  simpa [disjAll, evaluate] using hfold bot

end Formula

end SymbolicOmega
