import Mathlib.Data.Finset.Sort
import SymbolicOmega.Proofs.BitSet.Walks

/-!
# Packed sets are finite sets

However a packed set is made and changed, it answers as the finite set does that is made
and changed alike.  Its room and its past leave no trace in any answer, and the count beside the
words is the number of members.
-/

namespace SymbolicOmega

namespace PackedSet

/-- `s` stands for the finite set `members`. -/
structure Denotes (s : PackedSet) (members : Finset Nat) : Prop where
  contains : ∀ i, s.contains i = decide (i ∈ members)
  counted : s.count = members.card

/-! ## One call -/

/-- A way to make a set. -/
inductive Origin where
  | new (capacity : Nat)
  | empty
  | full (n : Nat)
  | collected (members : List Nat)

/-- A call on a set.  A clone is a set of its own, on which the calls after it are made. -/
inductive Call where
  | insert (i : Nat)
  | remove (i : Nat)
  | assign (i : Nat) (member : Bool)
  | clear
  | extend (members : List Nat)
  | clone

namespace Origin

def make : Origin → PackedSet
  | new capacity => .new capacity
  | empty => .empty
  | full n => .full n
  | collected members => .ofList members

def members : Origin → Finset Nat
  | new _ => ∅
  | empty => ∅
  | full n => Finset.range n
  | collected members => members.toFinset

end Origin

namespace Call

/-- What the call answers, if anything, and the set after it. -/
def perform : Call → PackedSet → Option Bool × PackedSet
  | insert i, s => Prod.map some id (s.insert i)
  | remove i, s => Prod.map some id (s.remove i)
  | assign i member, s => (none, s.assign i member)
  | clear, s => (none, s.clear)
  | extend members, s => (none, s.insertAll members)
  | clone, s => (none, ⟨s.words, s.count⟩)

/-- The finite set after the call. -/
def effect : Call → Finset Nat → Finset Nat
  | insert i, members => Insert.insert i members
  | remove i, members => members.erase i
  | assign i true, members => Insert.insert i members
  | assign i false, members => members.erase i
  | clear, _ => ∅
  | extend more, members => members ∪ more.toFinset
  | clone, members => members

/-- Whether the call says if it changed the set. -/
def tells : Call → Bool
  | insert _ => true
  | remove _ => true
  | _ => false

end Call

namespace Denotes

variable {s : PackedSet} {members : Finset Nat}

theorem new (capacity : Nat) : Denotes (.new capacity) ∅ :=
  ⟨fun i => by simp, rfl⟩

/-- The count grows with a member that was missing, and only then. -/
theorem insert (h : Denotes s members) (i : Nat) :
    Denotes (s.insert i).2 (Insert.insert i members) where
  contains j := by
    rw [contains_insert, h.contains, ← Bool.decide_or, decide_eq_decide, eq_comm]
    exact Finset.mem_insert.symm
  counted := by
    rw [insert_count, h.contains, h.counted]
    by_cases hmem : i ∈ members
    · simp [hmem]
    · simp [hmem]

/-- The count shrinks with a member that was there, and only then. -/
theorem remove (h : Denotes s members) (i : Nat) :
    Denotes (s.remove i).2 (members.erase i) where
  contains j := by
    rw [contains_remove, h.contains, ← decide_not, ← Bool.decide_and, decide_eq_decide,
      Finset.mem_erase, Ne, eq_comm]
  counted := by
    rw [remove_count, h.contains, h.counted]
    by_cases hmem : i ∈ members
    · simp [hmem]
    · simp [hmem]

theorem clear (s : PackedSet) : Denotes s.clear ∅ :=
  ⟨fun i => by simp, rfl⟩

theorem insertAll (h : Denotes s members) (more : List Nat) :
    Denotes (s.insertAll more) (members ∪ more.toFinset) := by
  induction more generalizing s members with
  | nil => simpa [PackedSet.insertAll] using h
  | cons i rest ih =>
      have hrest := ih (h.insert i)
      rw [List.toFinset_cons, Finset.union_insert, ← Finset.insert_union]
      exact hrest

theorem make (origin : Origin) : Denotes origin.make origin.members := by
  cases origin with
  | new capacity => exact new capacity
  | empty => exact new 0
  | full n =>
      have hfull := (new n).insertAll (List.range n)
      have hrange : (List.range n).toFinset = Finset.range n := by
        ext i
        simp
      rwa [Finset.empty_union, hrange] at hfull
  | collected members =>
      have hall := (new 0).insertAll members
      rwa [Finset.empty_union] at hall

/-- A call answers as the finite set does, and leaves what stands for the finite set after it. -/
theorem perform (h : Denotes s members) (call : Call) :
    (call.perform s).1 =
        (if call.tells then some (decide (call.effect members ≠ members)) else none) ∧
      Denotes (call.perform s).2 (call.effect members) := by
  cases call with
  | insert i =>
      have hchanged : Insert.insert i members ≠ members ↔ i ∉ members := by simp
      exact ⟨by simp [Call.perform, Call.tells, Call.effect, insert_answer, h.contains, hchanged],
        h.insert i⟩
  | remove i =>
      have hchanged : members.erase i ≠ members ↔ i ∈ members := by simp
      exact ⟨by simp [Call.perform, Call.tells, Call.effect, remove_answer, h.contains, hchanged],
        h.remove i⟩
  | assign i member =>
      cases member with
      | true => exact ⟨rfl, h.insert i⟩
      | false => exact ⟨rfl, h.remove i⟩
  | clear => exact ⟨rfl, clear s⟩
  | extend more => exact ⟨rfl, h.insertAll more⟩
  | clone => exact ⟨rfl, h⟩

theorem toList_eq (h : Denotes s members) : s.toList = members.sort (· ≤ ·) := by
  have hsame : s.toList.toFinset = members := by
    ext i
    rw [List.mem_toFinset, mem_toList, h.contains, decide_eq_true_eq]
  have hsorted := s.pairwise_toList
  rw [← hsame]
  exact ((List.toFinset_sort (· ≤ ·) (hsorted.imp Nat.ne_of_lt)).2 (hsorted.imp Nat.le_of_lt)).symm

variable {t : PackedSet} {others : Finset Nat}

theorem same_iff (h : Denotes s members) (h' : Denotes t others) :
    (∀ i, s.contains i = t.contains i) ↔ members = others := by
  simp only [h.contains, h'.contains, decide_eq_decide, Finset.ext_iff]

end Denotes

/-! ## Any history -/

/-- The set after the calls. -/
def after (origin : Origin) (calls : List Call) : PackedSet :=
  calls.foldl (fun s call => (call.perform s).2) origin.make

/-- The finite set after the calls. -/
def denoted (origin : Origin) (calls : List Call) : Finset Nat :=
  calls.foldl (fun members call => call.effect members) origin.members

/-- `s` answers as the finite set `members`.  A call that tells says whether it changed the set; the
count is the number of members and never lowered at zero; the walk answers the members in
increasing order and then nothing, however often it is called. -/
structure Answers (s : PackedSet) (members : Finset Nat) : Prop where
  contains : ∀ i, s.contains i = decide (i ∈ members)
  perform : ∀ call : Call, (call.perform s).1 =
    if call.tells then some (decide (call.effect members ≠ members)) else none
  size : s.size = members.card
  lowered : ∀ i, s.contains i = true → (s.remove i).2.size + 1 = s.size
  isEmpty : s.isEmpty = decide (members = ∅)
  walk : ∀ n, (Walk.step^[n] s.walk).next.1 = (members.sort (· ≤ ·))[n]?
  toBitSet : ∀ i, s.toBitSet.contains i = decide (i ∈ members)

/-- Two sets compare as the finite sets do. -/
structure Compares (s t : PackedSet) (members others : Finset Nat) : Prop where
  isSubset : s.isSubset t = decide (members ⊆ others)
  beq : (s == t) = decide (members = others)
  words : s.significantWords = t.significantWords ↔ members = others
  hash : members = others → hash s = hash t
  toBitSet : s.toBitSet = t.toBitSet ↔ members = others

theorem Denotes.answers {s : PackedSet} {members : Finset Nat} (h : Denotes s members) :
    Answers s members where
  contains := h.contains
  perform call := (h.perform call).1
  size := h.counted
  lowered i hi := by
    have hmem : i ∈ members := by simpa [h.contains] using hi
    rw [size, size, (h.remove i).counted, h.counted, Finset.card_erase_add_one hmem]
  isEmpty := by
    rw [isEmpty, h.counted, Bool.eq_iff_iff, beq_iff_eq, decide_eq_true_eq, Finset.card_eq_zero]
  walk n := by rw [Walk.answer_eq_getElem?, ← h.toList_eq, toList]
  toBitSet i := by rw [contains_toBitSet, h.contains]

theorem Denotes.compares {s t : PackedSet} {members others : Finset Nat}
    (h : Denotes s members) (h' : Denotes t others) : Compares s t members others where
  isSubset := by
    rw [Bool.eq_iff_iff, isSubset_iff, decide_eq_true_eq, Finset.subset_iff]
    simp only [h.contains, h'.contains, decide_eq_true_eq]
  beq := by rw [Bool.eq_iff_iff, beq_iff, decide_eq_true_eq, h.same_iff h']
  words := (significantWords_eq_iff s t).trans (h.same_iff h')
  hash hsame := hash_eq ((h.same_iff h').2 hsame)
  toBitSet := by
    rw [← h.same_iff h']
    constructor
    · intro hsame i
      rw [← contains_toBitSet, hsame, contains_toBitSet]
    · intro hsame
      apply BitSet.ext_contains
      intro i
      rw [contains_toBitSet, contains_toBitSet, hsame]

theorem after_denotes (origin : Origin) (calls : List Call) :
    Denotes (after origin calls) (denoted origin calls) := by
  have hrun : ∀ {s : PackedSet} {members : Finset Nat}, Denotes s members →
      Denotes (calls.foldl (fun s call => (call.perform s).2) s)
        (calls.foldl (fun members call => call.effect members) members) := by
    induction calls with
    | nil => exact fun h => h
    | cons call rest ih => exact fun h => ih (h.perform call).2
  exact hrun (Denotes.make origin)

/-- A packed set is a finite set of naturals: after any history it answers as the finite set of
that history, and it compares so with any set of any other history. -/
theorem after_answers (origin : Origin) (calls : List Call) :
    Answers (after origin calls) (denoted origin calls) ∧
      ∀ (origin' : Origin) (calls' : List Call),
        Compares (after origin calls) (after origin' calls') (denoted origin calls)
          (denoted origin' calls') := by
  have hdenotes := after_denotes origin calls
  exact ⟨hdenotes.answers, fun origin' calls' => hdenotes.compares (after_denotes origin' calls')⟩

end PackedSet

end SymbolicOmega
