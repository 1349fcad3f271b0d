import SymbolicOmega.BitSet.Basic

/-!
# Packed sets

A set of naturals as it lies in memory: words of 64 members each, the lowest first, with
the number of members beside them.  A word is added when a member needs it and stays when
the member leaves, so a set has many forms; they agree up to the last word that is not
zero.
-/

namespace SymbolicOmega

/-- Member `i` is digit `i % 64` of word `i / 64`; `count` is the number of members. -/
structure PackedSet where
  words : Array UInt64
  count : Nat
deriving Repr

namespace PackedSet

/-- The empty set with room for the members below `capacity`. -/
def new (capacity : Nat) : PackedSet :=
  ⟨Array.replicate ((capacity + 63) / 64) 0, 0⟩

def empty : PackedSet := ⟨#[], 0⟩

instance : Inhabited PackedSet := ⟨empty⟩

def word (s : PackedSet) (position : Nat) : UInt64 :=
  s.words.getD position 0

/-- The word of `i` with no other member. -/
def digit (i : Nat) : UInt64 :=
  1 <<< (i % 64).toUInt64

def contains (s : PackedSet) (i : Nat) : Bool :=
  s.word (i / 64) &&& digit i != 0

/-- The set with at least `size` words. -/
def grow (s : PackedSet) (size : Nat) : PackedSet :=
  { s with words := s.words ++ Array.replicate (size - s.words.size) 0 }

def insert (s : PackedSet) (i : Nat) : Bool × PackedSet :=
  let s := s.grow (i / 64 + 1)
  if s.contains i then (false, s)
  else (true, ⟨s.words.modify (i / 64) (· ||| digit i), s.count + 1⟩)

def remove (s : PackedSet) (i : Nat) : Bool × PackedSet :=
  if s.contains i then (true, ⟨s.words.modify (i / 64) (· &&& ~~~digit i), s.count - 1⟩)
  else (false, s)

/-- Put `i` into the set or take it out, as `member` says. -/
def assign (s : PackedSet) (i : Nat) (member : Bool) : PackedSet :=
  if member then (s.insert i).2 else (s.remove i).2

def clear (s : PackedSet) : PackedSet :=
  ⟨s.words.map fun _ => 0, 0⟩

def insertAll (s : PackedSet) (members : List Nat) : PackedSet :=
  members.foldl (fun s i => (s.insert i).2) s

def full (n : Nat) : PackedSet :=
  (new n).insertAll (List.range n)

def ofList (members : List Nat) : PackedSet :=
  empty.insertAll members

def size (s : PackedSet) : Nat :=
  s.count

def isEmpty (s : PackedSet) : Bool :=
  s.count == 0

def isSubset (s t : PackedSet) : Bool :=
  (List.range s.words.size).all fun position => s.word position &&& ~~~t.word position == 0

/-- The words up to the last one that is not zero. -/
def significantWords (s : PackedSet) : Array UInt64 :=
  s.words.popWhile (· == 0)

instance : BEq PackedSet where
  beq s t := s.significantWords == t.significantWords

instance : Hashable PackedSet where
  hash s := hash s.significantWords

/-! ## The members in order -/

/-- A walk over the members of a set: what is left of the word at a position, and the words
after it. -/
structure Walk where
  words : Array UInt64
  position : Nat
  current : UInt64

/-- The position of the lowest digit of a word that is not zero. -/
def lowest (w : UInt64) : Nat :=
  w.toBitVec.ctz.toNat

theorem one_le_of_ne_zero {w : UInt64} (h : w ≠ 0) : 1 ≤ w := by
  rw [Ne, ← UInt64.toNat_inj] at h
  exact UInt64.le_iff_toNat_le.2 (Nat.pos_of_ne_zero h)

namespace Walk

/-- The next member, and the walk after it.  Words without members left are passed over. -/
def next (walk : Walk) : Option Nat × Walk :=
  if walk.current != 0 then
    (some (64 * walk.position + lowest walk.current),
      { walk with current := walk.current &&& (walk.current - 1) })
  else if h : walk.position + 1 < walk.words.size then
    next ⟨walk.words, walk.position + 1, walk.words[walk.position + 1]⟩
  else (none, { walk with position := walk.position + 1 })
termination_by walk.words.size - walk.position

/-- A member that comes up leaves a shorter word, or fewer words. -/
theorem next_decreases {walk later : Walk} {i : Nat} (h : walk.next = (some i, later)) :
    later.words.size - later.position < walk.words.size - walk.position ∨
      later.words.size - later.position = walk.words.size - walk.position ∧
        later.current.toNat < walk.current.toNat := by
  fun_induction next walk with
  | case1 walk hcurrent =>
      cases h
      right
      have hone := one_le_of_ne_zero (bne_iff_ne.1 hcurrent)
      have hpred : (walk.current - 1).toNat < walk.current.toNat := by
        rw [UInt64.toNat_sub_of_le _ _ hone]
        exact Nat.sub_lt (UInt64.le_iff_toNat_le.1 hone) Nat.one_pos
      exact ⟨rfl, Nat.lt_of_le_of_lt (UInt64.toNat_and .. ▸ Nat.and_le_right) hpred⟩
  | case2 walk _ hmore ih =>
      left
      have := ih h
      simp only at this
      omega
  | case3 => cases h

def toList (walk : Walk) : List Nat :=
  match _ : walk.next with
  | (none, _) => []
  | (some i, later) => i :: later.toList
termination_by (walk.words.size - walk.position, walk.current.toNat)
decreasing_by
  rcases next_decreases ‹_› with hwords | ⟨hsame, hcurrent⟩
  · exact Prod.Lex.left _ _ hwords
  · exact hsame ▸ Prod.Lex.right _ hcurrent

end Walk

def walk (s : PackedSet) : Walk :=
  ⟨s.words, 0, s.word 0⟩

def toList (s : PackedSet) : List Nat :=
  s.walk.toList

/-- The set by its members alone. -/
def toBitSet (s : PackedSet) : BitSet :=
  .ofList s.toList

instance : ToString PackedSet where
  toString s := toString s.toBitSet

end PackedSet

end SymbolicOmega
