import Mathlib.Data.List.DropRight
import Mathlib.Data.List.GetD
import SymbolicOmega.BitSet.Packed

/-!
# Digits of packed sets

What each operation of a packed set does to its words, said for one member at a time.
Words beyond the last one count as zero, so the room a set has does not matter; two sets
with the same members have the same words as far as these are significant.
-/

namespace SymbolicOmega

namespace PackedSet

theorem toBitVec_digit (i : Nat) : (digit i).toBitVec = BitVec.twoPow 64 (i % 64) := by
  have hplace : (i % 64).toUInt64.toBitVec.toNat = i % 64 := by
    simp only [Nat.toUInt64_eq, UInt64.toNat_toBitVec, UInt64.toNat_ofNat']
    omega
  rw [digit, UInt64.toBitVec_shiftLeft, BitVec.twoPow_eq, BitVec.shiftLeft_eq',
    BitVec.toNat_umod, hplace]
  simp

@[simp]
theorem getLsbD_digit (i : Nat) {place : Nat} (hplace : place < 64) :
    (digit i).toBitVec.getLsbD place = decide (i % 64 = place) := by
  simp [toBitVec_digit, hplace, eq_comm]

theorem contains_eq (s : PackedSet) (i : Nat) :
    s.contains i = (s.word (i / 64)).toBitVec.getLsbD (i % 64) := by
  have hone : BitVec.twoPow 64 (i % 64) ≠ 0 := by
    intro hzero
    have hdigit := congrArg (fun w : BitVec 64 => w.getLsbD (i % 64)) hzero
    simp [Nat.mod_lt] at hdigit
  rw [contains, Bool.eq_iff_iff, bne_iff_ne, Ne, ← UInt64.toBitVec_inj, UInt64.toBitVec_and,
    toBitVec_digit, BitVec.and_twoPow]
  cases hdigit : (s.word (i / 64)).toBitVec.getLsbD (i % 64) with
  | true => simpa using hone
  | false => simp

/-- The members of a word are its digits. -/
theorem contains_place (s : PackedSet) (position : Nat) {place : Nat} (hplace : place < 64) :
    s.contains (64 * position + place) = (s.word position).toBitVec.getLsbD place := by
  have hword : (64 * position + place) / 64 = position := by omega
  have hdigit : (64 * position + place) % 64 = place := by omega
  rw [contains_eq, hword, hdigit]

/-- Sets whose words agree everywhere have the same members. -/
theorem contains_congr {s t : PackedSet} (h : ∀ position, s.word position = t.word position)
    (i : Nat) : s.contains i = t.contains i := by
  rw [contains_eq, contains_eq, h]

/-- The members are the digits of the words, so they determine every word. -/
theorem word_eq_of_contains {s t : PackedSet} (h : ∀ i, s.contains i = t.contains i)
    (position : Nat) : s.word position = t.word position := by
  apply UInt64.toBitVec_inj.1
  apply BitVec.eq_of_getLsbD_eq
  intro place hplace
  rw [← contains_place s position hplace, h, contains_place t position hplace]

theorem lt_of_contains {s : PackedSet} {i : Nat} (h : s.contains i = true) :
    i / 64 < s.words.size := by
  by_contra hout
  have hzero : s.word (i / 64) = 0 := by
    simp [word, Array.getD_eq_getD_getElem?, Array.getElem?_eq_none (Nat.le_of_not_lt hout)]
  simp [contains_eq, hzero] at h

/-! ## What an operation changes -/

@[simp]
theorem word_new (capacity position : Nat) : (new capacity).word position = 0 := by
  simp only [word, new, Array.getD_eq_getD_getElem?, Array.getElem?_replicate]
  split <;> rfl

@[simp]
theorem word_clear (s : PackedSet) (position : Nat) : s.clear.word position = 0 := by
  simp only [word, clear, Array.getD_eq_getD_getElem?, Array.getElem?_map]
  cases s.words[position]? <;> rfl

@[simp]
theorem word_grow (s : PackedSet) (size position : Nat) :
    (s.grow size).word position = s.word position := by
  simp only [word, grow, Array.getD_eq_getD_getElem?, Array.getElem?_append,
    Array.getElem?_replicate]
  by_cases hin : position < s.words.size
  · rw [if_pos hin]
  · rw [if_neg hin, Array.getElem?_eq_none (Nat.le_of_not_lt hin)]
    split <;> rfl

theorem word_modify (s : PackedSet) (count position : Nat) (f : UInt64 → UInt64) (k : Nat) :
    (PackedSet.mk (s.words.modify position f) count).word k =
      if position = k ∧ k < s.words.size then f (s.word k) else s.word k := by
  simp only [word, Array.getD_eq_getD_getElem?, Array.getElem?_modify]
  by_cases hk : k < s.words.size
  · by_cases heq : position = k <;> simp [heq, hk]
  · simp [hk]

@[simp]
theorem contains_new (capacity i : Nat) : (new capacity).contains i = false := by
  simp [contains_eq]

@[simp]
theorem contains_empty (i : Nat) : empty.contains i = false :=
  contains_new 0 i

@[simp]
theorem contains_clear (s : PackedSet) (i : Nat) : s.clear.contains i = false := by
  simp [contains_eq]

@[simp]
theorem contains_grow (s : PackedSet) (size i : Nat) :
    (s.grow size).contains i = s.contains i :=
  contains_congr (word_grow s size) i

/-- Members are told apart by their word and their digit in it. -/
theorem eq_iff_word_digit (i j : Nat) : i = j ↔ i / 64 = j / 64 ∧ i % 64 = j % 64 := by
  omega

/-- Writing one digit of the word of `i` changes the set at `i` alone. -/
theorem contains_modify {s : PackedSet} {i : Nat} (hin : i / 64 < s.words.size)
    {f : UInt64 → UInt64} {member : Bool}
    (hf : ∀ (w : UInt64) (place : Nat), place < 64 →
      (f w).toBitVec.getLsbD place = if i % 64 = place then member else w.toBitVec.getLsbD place)
    (count j : Nat) :
    (PackedSet.mk (s.words.modify (i / 64) f) count).contains j =
      if i = j then member else s.contains j := by
  rw [contains_eq, word_modify, contains_eq]
  by_cases hword : i / 64 = j / 64
  · rw [if_pos ⟨hword, hword ▸ hin⟩, hf _ _ (Nat.mod_lt j (by decide))]
    simp [eq_iff_word_digit i j, hword]
  · have hij : i ≠ j := fun hij => hword (congrArg (· / 64) hij)
    rw [if_neg fun h => hword h.1, if_neg hij]

@[simp]
theorem contains_insert (s : PackedSet) (i j : Nat) :
    (s.insert i).2.contains j = (decide (i = j) || s.contains j) := by
  have hroom : i / 64 < (s.grow (i / 64 + 1)).words.size := by
    simp only [grow, Array.size_append, Array.size_replicate]
    omega
  rw [insert, contains_grow]
  by_cases hmem : s.contains i = true
  · rw [if_pos hmem, contains_grow]
    by_cases hij : i = j
    · simp [← hij, hmem]
    · simp [hij]
  · have hset : ∀ (w : UInt64) (place : Nat), place < 64 →
        (w ||| digit i).toBitVec.getLsbD place =
          if i % 64 = place then true else w.toBitVec.getLsbD place := by
      intro w place hplace
      rw [UInt64.toBitVec_or, BitVec.getLsbD_or, getLsbD_digit i hplace]
      by_cases hdigit : i % 64 = place <;> simp [hdigit]
    rw [if_neg hmem, contains_modify hroom hset, contains_grow]
    by_cases hij : i = j <;> simp [hij]

@[simp]
theorem contains_remove (s : PackedSet) (i j : Nat) :
    (s.remove i).2.contains j = (!decide (i = j) && s.contains j) := by
  rw [remove]
  by_cases hmem : s.contains i = true
  · have hunset : ∀ (w : UInt64) (place : Nat), place < 64 →
        (w &&& ~~~digit i).toBitVec.getLsbD place =
          if i % 64 = place then false else w.toBitVec.getLsbD place := by
      intro w place hplace
      rw [UInt64.toBitVec_and, UInt64.toBitVec_not, BitVec.getLsbD_and, BitVec.getLsbD_not,
        getLsbD_digit i hplace]
      by_cases hdigit : i % 64 = place <;> simp [hdigit, hplace]
    rw [if_pos hmem, contains_modify (lt_of_contains hmem) hunset]
    by_cases hij : i = j <;> simp [hij]
  · rw [if_neg hmem]
    by_cases hij : i = j
    · simp [← hij, hmem]
    · simp [hij]

theorem insert_answer (s : PackedSet) (i : Nat) : (s.insert i).1 = !s.contains i := by
  rw [insert, contains_grow]
  cases s.contains i <;> rfl

theorem insert_count (s : PackedSet) (i : Nat) :
    (s.insert i).2.count = if s.contains i then s.count else s.count + 1 := by
  rw [insert, contains_grow]
  cases s.contains i <;> rfl

theorem remove_answer (s : PackedSet) (i : Nat) : (s.remove i).1 = s.contains i := by
  rw [remove]
  cases s.contains i <;> rfl

theorem remove_count (s : PackedSet) (i : Nat) :
    (s.remove i).2.count = if s.contains i then s.count - 1 else s.count := by
  rw [remove]
  cases s.contains i <;> rfl

/-! ## Comparing sets -/

theorem isSubset_iff (s t : PackedSet) :
    s.isSubset t = true ↔ ∀ i, s.contains i = true → t.contains i = true := by
  rw [isSubset, List.all_eq_true]
  constructor
  · intro h i hi
    have hzero := h (i / 64) (List.mem_range.2 (lt_of_contains hi))
    rw [beq_iff_eq, ← UInt64.toBitVec_inj] at hzero
    have hdigit := congrArg (fun w : BitVec 64 => w.getLsbD (i % 64)) hzero
    rw [contains_eq] at hi ⊢
    simpa [hi, Nat.mod_lt] using hdigit
  · intro h position _
    rw [beq_iff_eq, ← UInt64.toBitVec_inj]
    apply BitVec.eq_of_getLsbD_eq
    intro place hplace
    have hmember := h (64 * position + place)
    rw [contains_place s position hplace, contains_place t position hplace] at hmember
    simpa [hplace] using hmember

/-- Zeros at the end do not show in a list that is read as zero beyond its end. -/
theorem getD_rdropWhile (list : List UInt64) (k : Nat) :
    (list.rdropWhile (· == 0)).getD k 0 = list.getD k 0 := by
  induction list using List.reverseRecOn with
  | nil => rfl
  | append_singleton list w ih =>
      by_cases hw : w = 0
      · have hread : (list ++ [w]).getD k 0 = list.getD k 0 := by
          by_cases hk : k < list.length
          · exact List.getD_append _ _ _ _ hk
          · have hout := Nat.le_of_not_lt hk
            rw [List.getD_append_right _ _ _ _ hout, List.getD_eq_default _ _ hout, hw]
            cases k - list.length <;> rfl
        rw [List.rdropWhile_concat_pos _ _ _ (by simpa using hw), ih, hread]
      · rw [List.rdropWhile_concat_neg _ _ _ (by simpa using hw)]

/-- The last word that is not zero lies within every list that reads the same. -/
theorem length_rdropWhile_le {list list' : List UInt64}
    (h : ∀ k, list.getD k 0 = list'.getD k 0) :
    (list.rdropWhile (· == 0)).length ≤ (list'.rdropWhile (· == 0)).length := by
  by_contra hlonger
  have hne : list.rdropWhile (· == 0) ≠ [] := by
    intro hnil
    simp [hnil] at hlonger
  let last := (list.rdropWhile (· == 0)).length - 1
  have hin : last < (list.rdropWhile (· == 0)).length := by omega
  have hout : (list'.rdropWhile (· == 0)).length ≤ last := by omega
  have hzero : (list.rdropWhile (· == 0))[last] = 0 := by
    rw [← List.getD_eq_getElem _ 0 hin, getD_rdropWhile, h, ← getD_rdropWhile,
      List.getD_eq_default _ _ hout]
  have hlast := List.rdropWhile_last_not (· == (0 : UInt64)) list hne
  rw [List.getLast_eq_getElem] at hlast
  exact hlast (beq_iff_eq.2 hzero)

theorem toList_significantWords (s : PackedSet) :
    s.significantWords.toList = s.words.toList.rdropWhile (· == 0) := by
  cases s with
  | mk words count =>
      cases words with
      | mk list => rw [significantWords, List.popWhile_toArray, List.rdropWhile]

/-- The significant words are those of the members, whatever else was in the set before. -/
theorem significantWords_eq_iff (s t : PackedSet) :
    s.significantWords = t.significantWords ↔ ∀ i, s.contains i = t.contains i := by
  have hread : ∀ (u : PackedSet) (position : Nat),
      u.words.toList.getD position 0 = u.word position := by
    intro u position
    rw [word, Array.getD_eq_getD_getElem?, List.getD_eq_getElem?_getD, Array.getElem?_toList]
  rw [← Array.toList_inj, toList_significantWords, toList_significantWords]
  constructor
  · intro h i
    apply contains_congr
    intro position
    rw [← hread, ← hread, ← getD_rdropWhile, h, getD_rdropWhile]
  · intro h
    have hwords : ∀ position, s.words.toList.getD position 0 = t.words.toList.getD position 0 := by
      intro position
      rw [hread, hread]
      exact word_eq_of_contains h position
    have hlength : (s.words.toList.rdropWhile (· == 0)).length =
        (t.words.toList.rdropWhile (· == 0)).length :=
      Nat.le_antisymm (length_rdropWhile_le hwords)
        (length_rdropWhile_le fun k => (hwords k).symm)
    apply List.ext_getElem hlength
    intro position hs ht
    rw [← List.getD_eq_getElem _ 0 hs, ← List.getD_eq_getElem _ 0 ht, getD_rdropWhile,
      getD_rdropWhile, hwords]

theorem beq_iff (s t : PackedSet) : (s == t) = true ↔ ∀ i, s.contains i = t.contains i := by
  rw [← significantWords_eq_iff]
  exact beq_iff_eq (a := s.significantWords)

theorem hash_eq {s t : PackedSet} (h : ∀ i, s.contains i = t.contains i) : hash s = hash t :=
  congrArg (fun words : Array UInt64 => hash words) ((significantWords_eq_iff s t).2 h)

end PackedSet

end SymbolicOmega
