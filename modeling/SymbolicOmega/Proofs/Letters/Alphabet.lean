import SymbolicOmega.Proofs.Letters.Exhaustion
import SymbolicOmega.Proofs.Letters.Spelling

/-!
# Sets that letters tell

Of a set that some history of a factory made, the letters over the alphabet say everything: it is
empty if none of them belongs to it, and it shares something with another set only if it shares
one of them.
-/

namespace SymbolicOmega

open Manager Workspace

variable {k : Nat} {A B : Set Assignment}

/-- The letter has no proposition beyond the first `k`. -/
def BitSet.IsOver (letter : BitSet) (k : Nat) : Prop :=
  ∀ p, letter.contains p = true → p < k

theorem Manager.isOver_letterOf (k : Nat) (a : Assignment) : (letterOf k a).IsOver k :=
  fun _ => lt_of_mem_letterOf

/-- An assignment belongs to the set exactly if its letter over `k` propositions does. -/
def ByLetters (k : Nat) (A : Set Assignment) : Prop :=
  ∀ a, (letterOf k a).assignment ∈ A ↔ a ∈ A

namespace ByLetters

theorem inter (hA : ByLetters k A) (hB : ByLetters k B) : ByLetters k (A ∩ B) :=
  fun a => and_congr (hA a) (hB a)

theorem union (hA : ByLetters k A) (hB : ByLetters k B) : ByLetters k (A ∪ B) :=
  fun a => or_congr (hA a) (hB a)

theorem empty (k : Nat) : ByLetters k ∅ :=
  fun _ => Iff.rfl

theorem univ (k : Nat) : ByLetters k Set.univ :=
  fun _ => Iff.rfl

/-- What is not empty has a letter over the alphabet. -/
theorem nonempty_iff (h : ByLetters k A) :
    A.Nonempty ↔ ∃ letter : BitSet, letter.IsOver k ∧ letter.assignment ∈ A := by
  constructor
  · rintro ⟨a, ha⟩
    exact ⟨letterOf k a, isOver_letterOf k a, (h a).2 ha⟩
  · rintro ⟨letter, -, hletter⟩
    exact ⟨_, hletter⟩

/-- One set is part of another one if all its letters over the alphabet are. -/
theorem subset_iff (hA : ByLetters k A) (hB : ByLetters k B) :
    A ⊆ B ↔ ∀ letter : BitSet, letter.IsOver k → letter.assignment ∈ A → letter.assignment ∈ B :=
  ⟨fun h _ _ hletter => h hletter,
    fun h a ha => (hB a).1 (h _ (isOver_letterOf k a) ((hA a).2 ha))⟩

end ByLetters

/-- Sets of letters are told by letters, whatever numbers the propositions have. -/
theorem Manager.Means.byLetters {m : Manager} {r : Ref} (hm : m.Reduced) {M : Set (Letter k)}
    (h : m.Means r (Set.preimage (letterAt k) M)) : ByLetters k (Set.preimage (letterAt k) M) :=
  fun a => by rw [← h.2, ← h.2, h.value_letterOf hm]

namespace Workspace

/-- The sets are live in the factory at position `i`, and letters over `k` propositions tell what
belongs to them. -/
def OwnsByLetters (w : Workspace) (i k : Nat) (sets : List LetterSet) : Prop :=
  ∃ L, w.Keeps i k L ∧ ∀ s ∈ sets, ∃ A, (s, A) ∈ L ∧ ByLetters k A

/-- The sets have the same letters in both workspaces. -/
def SameLetters (w w' : Workspace) (sets : List LetterSet) : Prop :=
  ∀ s ∈ sets, ∀ letter, verdict (s.contains letter) w' = verdict (s.contains letter) w

variable {w w' : Workspace} {i : Nat} {L : Ledger} {sets : List LetterSet} {s : LetterSet}

/-- A set of letters that is listed is told by letters. -/
theorem Keeps.byLetters {M : Set (Letter k)} (h : w.Keeps i k L)
    (hs : (s, Set.preimage (letterAt k) M) ∈ L) : ByLetters k (Set.preimage (letterAt k) M) := by
  obtain ⟨f, -, hholds⟩ := h.holds
  exact (LetterSet.means_of_mem hholds hs).byLetters hholds.canonical.reduced

/-- A factory has as many live sets as are listed. -/
theorem Keeps.live (h : w.Keeps i k L) : w.factories[i]?.map Factory.live = some L.length := by
  obtain ⟨f, hf, hholds⟩ := h.holds
  rw [hf, Option.map_some, Factory.live, hholds.held.live, List.length_map, Ledger.roots,
    List.length_map]

/-- A set that is listed in two workspaces with the same assignments has the same letters. -/
theorem Keeps.contains_congr {L' : Ledger} (h : w.Keeps i k L) (h' : w'.Keeps i k L')
    (hs : (s, A) ∈ L) (hs' : (s, A) ∈ L') (letter : BitSet) :
    verdict (s.contains letter) w' = verdict (s.contains letter) w := by
  obtain ⟨b, hrun, hb⟩ := LetterSet.contains_run h hs letter
  obtain ⟨b', hrun', hb'⟩ := LetterSet.contains_run h' hs' letter
  have hsame : b' = b := Bool.eq_iff_iff.2 (hb'.trans hb.symm)
  rw [verdict, verdict, hrun, hrun', hsame]

/-- A set without letters over the alphabet is empty. -/
theorem OwnsByLetters.isEmpty_iff (h : w.OwnsByLetters i k sets) (hs : s ∈ sets) :
    s.isEmpty = true ↔
      ∀ letter : BitSet, letter.IsOver k → s.contains letter w ≠ .ok true w := by
  obtain ⟨L, hkeeps, hletters⟩ := h
  obtain ⟨A, hlisted, hA⟩ := hletters s hs
  rw [LetterSet.isEmpty_iff hkeeps hlisted, ← Set.not_nonempty_iff_eq_empty, hA.nonempty_iff]
  simp only [not_exists, not_and, ne_eq, LetterSet.contains_iff hkeeps hlisted]

end Workspace

/-- Made sets are told by letters. -/
theorem LetterSet.Made.ownsByLetters {w : Workspace} {i : Nat} {sets labels : List LetterSet}
    (h : Made k i sets w) (hlabels : labels ⊆ sets) : w.OwnsByLetters i k labels := by
  obtain ⟨L, hkeeps, hletters⟩ := h.exists_ledger
  refine ⟨L, hkeeps, fun label hlabel => ?_⟩
  obtain ⟨M, hlisted⟩ := hletters label (hlabels hlabel)
  exact ⟨_, hlisted, hkeeps.byLetters hlisted⟩

end SymbolicOmega
