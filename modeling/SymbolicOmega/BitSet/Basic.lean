/-!
# Finite sets of naturals

Letters, alphabets and acceptance marks are finite sets of naturals.  A set is
kept as the number whose binary digits are its membership, so two sets are equal
exactly when they have the same members.
-/

namespace SymbolicOmega

/-- A finite set of naturals: bit `i` of the mask says whether `i` belongs to it. -/
structure BitSet where
  mask : Nat
deriving DecidableEq, Repr

namespace BitSet

def empty : BitSet := ⟨0⟩

instance : Inhabited BitSet := ⟨empty⟩

instance : Hashable BitSet where
  hash s := hash s.mask

def full (n : Nat) : BitSet :=
  ⟨1 <<< n - 1⟩

def contains (s : BitSet) (i : Nat) : Bool :=
  s.mask.testBit i

def insert (s : BitSet) (i : Nat) : BitSet :=
  ⟨s.mask ||| 1 <<< i⟩

/-- Removing an absent member changes nothing. -/
def erase (s : BitSet) (i : Nat) : BitSet :=
  if s.contains i then ⟨s.mask ^^^ 1 <<< i⟩ else s

/-- Put `i` into the set or take it out, as `member` says. -/
def assign (s : BitSet) (i : Nat) (member : Bool) : BitSet :=
  if member then s.insert i else s.erase i

def insertAll (s : BitSet) (members : List Nat) : BitSet :=
  members.foldl insert s

def ofList (members : List Nat) : BitSet :=
  empty.insertAll members

def isEmpty (s : BitSet) : Bool :=
  s.mask == 0

def greatest (s : BitSet) : Nat :=
  s.mask.log2

/-- The `bound` greatest members in increasing order, followed by `above`. -/
def listBefore (above : List Nat) : (bound : Nat) → BitSet → List Nat
  | 0, _ => above
  | bound + 1, s =>
      if s.isEmpty then above
      else listBefore (s.greatest :: above) bound (s.erase s.greatest)

def toList (s : BitSet) : List Nat :=
  listBefore [] (s.greatest + 1) s

def size (s : BitSet) : Nat :=
  s.toList.length

def isSubset (s t : BitSet) : Bool :=
  s.mask &&& t.mask == s.mask

def filter (s : BitSet) (keep : Nat → Bool) : BitSet :=
  ofList (s.toList.filter keep)

instance : ToString BitSet where
  toString s := "\x7b" ++ ", ".intercalate (s.toList.map toString) ++ "\x7d"

/-! ## Membership -/

/-- Sets with the same members are equal. -/
theorem ext_contains {s t : BitSet} (h : ∀ i, s.contains i = t.contains i) : s = t := by
  cases s
  cases t
  exact congrArg mk (Nat.eq_of_testBit_eq h)

@[simp]
theorem contains_empty (i : Nat) : empty.contains i = false :=
  Nat.zero_testBit i

@[simp]
theorem contains_full (n i : Nat) : (full n).contains i = decide (i < n) := by
  simp [contains, full, Nat.one_shiftLeft, Nat.testBit_two_pow_sub_one]

@[simp]
theorem contains_insert (s : BitSet) (i j : Nat) :
    (s.insert i).contains j = (decide (i = j) || s.contains j) := by
  simp [contains, insert, Nat.testBit_or, Nat.one_shiftLeft, Nat.testBit_two_pow, Bool.or_comm]

@[simp]
theorem contains_erase (s : BitSet) (i j : Nat) :
    (s.erase i).contains j = (!decide (i = j) && s.contains j) := by
  by_cases hij : i = j
  · subst hij
    by_cases hmem : s.contains i = true
    · simp only [erase, if_pos hmem]
      simp only [contains] at hmem
      simp [contains, Nat.testBit_xor, Nat.one_shiftLeft, hmem]
    · simp only [erase, if_neg hmem]
      simpa using hmem
  · by_cases hmem : s.contains i = true
    · simp only [erase, if_pos hmem]
      simp [contains, Nat.testBit_xor, Nat.one_shiftLeft, hij]
    · simp [erase, if_neg hmem, hij]

@[simp]
theorem contains_insertAll (s : BitSet) (members : List Nat) (i : Nat) :
    (s.insertAll members).contains i = (decide (i ∈ members) || s.contains i) := by
  induction members generalizing s with
  | nil => simp [insertAll]
  | cons j rest ih =>
      change ((s.insert j).insertAll rest).contains i = _
      rw [ih]
      by_cases hij : i = j
      · simp [hij]
      · simp [hij, Ne.symm hij]

@[simp]
theorem contains_ofList (members : List Nat) (i : Nat) :
    (ofList members).contains i = decide (i ∈ members) := by
  simp [ofList]

/-! ## Members in order -/

theorem eq_empty_of_isEmpty {s : BitSet} (h : s.isEmpty = true) : s = empty :=
  congrArg mk (eq_of_beq h)

theorem contains_greatest {s : BitSet} (h : s.isEmpty = false) : s.contains s.greatest = true :=
  Nat.testBit_log2 (by simpa [isEmpty] using h)

theorem le_greatest {s : BitSet} {i : Nat} (hi : s.contains i = true) : i ≤ s.greatest := by
  have hle : 2 ^ i ≤ s.mask := Nat.ge_two_pow_of_testBit hi
  exact (Nat.le_log2 (Nat.ne_of_gt (Nat.lt_of_lt_of_le (Nat.two_pow_pos i) hle))).2 hle

/-- What is left without the greatest member is below it. -/
theorem lt_greatest_of_erase {s : BitSet} {i : Nat}
    (hi : (s.erase s.greatest).contains i = true) : i < s.greatest := by
  rw [contains_erase, Bool.and_eq_true, Bool.not_eq_true', decide_eq_false_iff_not] at hi
  exact Nat.lt_of_le_of_ne (le_greatest hi.2) (Ne.symm hi.1)

theorem mem_listBefore {s : BitSet} {above : List Nat} {bound i : Nat}
    (hbound : ∀ j, s.contains j = true → j < bound) :
    i ∈ listBefore above bound s ↔ s.contains i = true ∨ i ∈ above := by
  induction bound generalizing s above with
  | zero => simpa [listBefore] using fun hi => absurd (hbound i hi) (Nat.not_lt_zero i)
  | succ bound ih =>
      rw [listBefore]
      cases hempty : s.isEmpty with
      | true => simp [eq_empty_of_isEmpty hempty]
      | false =>
          have hgreatest := contains_greatest hempty
          have hless : ∀ j, (s.erase s.greatest).contains j = true → j < bound := fun j hj =>
            Nat.lt_of_lt_of_le (lt_greatest_of_erase hj) (Nat.le_of_lt_succ (hbound _ hgreatest))
          rw [if_neg Bool.false_ne_true, ih hless, List.mem_cons, contains_erase]
          by_cases hi : i = s.greatest
          · simp [hi, hgreatest]
          · simp [hi, Ne.symm hi]

theorem pairwise_listBefore {s : BitSet} {above : List Nat} (bound : Nat)
    (habove : above.Pairwise (· < ·)) (hbelow : ∀ i, s.contains i = true → ∀ j ∈ above, i < j) :
    (listBefore above bound s).Pairwise (· < ·) := by
  induction bound generalizing s above with
  | zero => exact habove
  | succ bound ih =>
      rw [listBefore]
      cases hempty : s.isEmpty with
      | true => exact habove
      | false =>
          have hgreatest := hbelow _ (contains_greatest hempty)
          refine ih (List.pairwise_cons.2 ⟨hgreatest, habove⟩) fun i hi j hj => ?_
          have hlt := lt_greatest_of_erase hi
          cases hj with
          | head => exact hlt
          | tail _ hj => exact Nat.lt_trans hlt (hgreatest j hj)

theorem mem_toList {s : BitSet} {i : Nat} : i ∈ s.toList ↔ s.contains i = true := by
  rw [toList, mem_listBefore fun j hj => Nat.lt_succ_of_le (le_greatest hj)]
  simp

theorem pairwise_toList (s : BitSet) : s.toList.Pairwise (· < ·) :=
  pairwise_listBefore _ List.Pairwise.nil (by simp)

theorem nodup_toList (s : BitSet) : s.toList.Nodup :=
  s.pairwise_toList.imp Nat.ne_of_lt

end BitSet

end SymbolicOmega
