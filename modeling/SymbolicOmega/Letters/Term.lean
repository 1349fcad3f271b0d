import SymbolicOmega.Letters.LetterSet

/-!
# Terms for letter sets

A term says how a letter set is made from propositions, letters and sets that have a
name.  Making it leaves one new set behind: the sets for its parts are made from left
to right and given back as soon as they are no longer needed, also when a later part
fails.  A name is looked up when its turn comes.
-/

namespace SymbolicOmega

inductive SetOperation where
  | intersection
  | union
  | difference
deriving DecidableEq, Repr

def SetOperation.apply : SetOperation → LetterSet → LetterSet → WorkM LetterSet
  | intersection => LetterSet.intersection
  | union => LetterSet.union
  | difference => LetterSet.difference

inductive SetTerm where
  | all
  | empty
  /-- A copy of the set of a name, whatever its factory. -/
  | named (name : String)
  | proposition (p : Nat)
  | singleton (letter : BitSet)
  | ofLetters (letters : List BitSet)
  | restricted (letter alphabet : BitSet)
  | complement (t : SetTerm)
  | combine (operation : SetOperation) (lhs rhs : SetTerm)
deriving Repr

def copyNamed (sets : String → Option LetterSet) (name : String) : WorkM LetterSet :=
  match sets name with
  | some s => s.copy
  | none => throw (.unknownName name)

/-- Make the set of a term in the factory at position `owner`; `sets` says which sets
have a name. -/
def SetTerm.make (sets : String → Option LetterSet) (owner : Nat) : SetTerm → WorkM LetterSet
  | all => LetterSet.all owner
  | empty => LetterSet.empty owner
  | named name => copyNamed sets name
  | proposition p => LetterSet.proposition owner p
  | singleton letter => LetterSet.singleton owner letter
  | ofLetters letters => LetterSet.ofLetters owner letters
  | restricted letter alphabet => LetterSet.restricted owner letter alphabet
  | complement t => do
      let s ← t.make sets owner
      try s.complement finally s.release
  | combine operation lhs rhs => do
      let s ← lhs.make sets owner
      try
        let t ← rhs.make sets owner
        try operation.apply s t finally t.release
      finally s.release

end SymbolicOmega
