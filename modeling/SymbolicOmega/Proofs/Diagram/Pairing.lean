import Mathlib.Algebra.Order.Ring.Nat
import Mathlib.Data.Nat.Pairing
import Mathlib.Data.Set.Function
import SymbolicOmega.Diagram.Ref

/-!
# Pairing without collisions

The code of a pair of words is computed modulo `2^64` by the formula of the library's pairing of
natural numbers.  For components below `2^32` no product and no sum on the way leaves the word, so
the code is the exact one.  The natural pairing fills the squares one shell after the other, so
the pairs below `m` get the numbers below `m^2`, each of them once.  A reference is a number below
`2^32`, so a pair of references is determined by its hash, and every word is one: the bound is the
last one, and the greatest pair has the greatest word for its code.
-/

namespace SymbolicOmega

namespace Pairing

variable {a b : UInt64} {m : Nat}

/-- No product and no sum on the way to the code of a pair wraps. -/
structure Exact (a b : UInt64) : Prop where
  below : a < b → (b * b).toNat = b.toNat * b.toNat ∧ (b * b + a).toNat = (b * b).toNat + a.toNat
  notBelow : ¬ a < b → (a * a).toNat = a.toNat * a.toNat ∧
    (a * a + a).toNat = (a * a).toNat + a.toNat ∧
    (a * a + a + b).toNat = (a * a + a).toNat + b.toNat

theorem toNat_add_of_lt (h : a.toNat + b.toNat < 2 ^ 64) :
    (a + b).toNat = a.toNat + b.toNat := by
  rw [UInt64.toNat_add, Nat.mod_eq_of_lt h]

theorem toNat_mul_self (ha : a.toNat < 2 ^ 32) :
    (a * a).toNat = a.toNat * a.toNat ∧ (a * a).toNat ≤ (2 ^ 32 - 1) * (2 ^ 32 - 1) := by
  have hle : a.toNat * a.toNat ≤ (2 ^ 32 - 1) * (2 ^ 32 - 1) :=
    Nat.mul_le_mul (Nat.le_sub_one_of_lt ha) (Nat.le_sub_one_of_lt ha)
  have hexact : (a * a).toNat = a.toNat * a.toNat := by
    rw [UInt64.toNat_mul, Nat.mod_eq_of_lt (by omega)]
  exact ⟨hexact, hexact ▸ hle⟩

/-- Below `2^32` the code is computed exactly. -/
theorem exact_of_lt (ha : a.toNat < 2 ^ 32) (hb : b.toNat < 2 ^ 32) : Exact a b := by
  obtain ⟨hasquare, hale⟩ := toNat_mul_self ha
  obtain ⟨hbsquare, hble⟩ := toNat_mul_self hb
  constructor
  · intro _
    exact ⟨hbsquare, toNat_add_of_lt (by omega)⟩
  · intro hnot
    have hle : b.toNat ≤ a.toNat := Nat.le_of_not_lt fun hlt => hnot (UInt64.lt_iff_toNat_lt.2 hlt)
    have hsum : (a * a + a).toNat = (a * a).toNat + a.toNat := toNat_add_of_lt (by omega)
    exact ⟨hasquare, hsum, toNat_add_of_lt (by omega)⟩

/-- A code that is computed exactly is that of the natural numbers. -/
theorem Exact.shell_toNat (h : Exact a b) : (shell a b).toNat = Nat.pair a.toNat b.toNat := by
  rw [shell, Nat.pair]
  by_cases hlt : a < b
  · obtain ⟨hsquare, hsum⟩ := h.below hlt
    rw [if_pos hlt, if_pos (UInt64.lt_iff_toNat_lt.1 hlt), hsum, hsquare]
  · obtain ⟨hsquare, hsum, htotal⟩ := h.notBelow hlt
    have hnat : ¬ a.toNat < b.toNat := fun hnat => hlt (UInt64.lt_iff_toNat_lt.2 hnat)
    rw [if_neg hlt, if_neg hnat, htotal, hsum, hsquare]

theorem shell_toNat_of_lt (ha : a.toNat < 2 ^ 32) (hb : b.toNat < 2 ^ 32) :
    (shell a b).toNat = Nat.pair a.toNat b.toNat :=
  (exact_of_lt ha hb).shell_toNat

/-! ## Squares -/

/-- The codes below a square are those of the pairs within it. -/
theorem pair_lt_sq_iff {i j m : Nat} : Nat.pair i j < m ^ 2 ↔ i < m ∧ j < m := by
  constructor
  · intro hlt
    have hmax : max i j ^ 2 < m ^ 2 :=
      calc
        max i j ^ 2 ≤ max i j ^ 2 + min i j := Nat.le_add_right _ _
        _ ≤ Nat.pair i j := Nat.max_sq_add_min_le_pair i j
        _ < m ^ 2 := hlt
    exact max_lt_iff.1 (lt_of_pow_lt_pow_left₀ 2 (Nat.zero_le m) hmax)
  · rintro ⟨hi, hj⟩
    calc
      Nat.pair i j < (max i j + 1) ^ 2 := Nat.pair_lt_max_add_one_sq i j
      _ ≤ m ^ 2 := Nat.pow_le_pow_left (max_lt hi hj) 2

/-- The pairs of words below `m` get the codes below `m^2`, each of them once. -/
theorem shell_bijOn (hm : m ≤ 2 ^ 32) :
    Set.BijOn (fun pair : UInt64 × UInt64 => shell pair.1 pair.2)
      {pair | pair.1.toNat < m ∧ pair.2.toNat < m} {code | code.toNat < m ^ 2} := by
  have hcode : ∀ {pair : UInt64 × UInt64}, pair.1.toNat < m ∧ pair.2.toNat < m →
      (shell pair.1 pair.2).toNat = Nat.pair pair.1.toNat pair.2.toNat := fun hpair =>
    shell_toNat_of_lt (by omega) (by omega)
  refine ⟨fun pair hpair => ?_, fun pair hpair pair' hpair' heq => ?_, fun code hlt => ?_⟩
  · change (shell pair.1 pair.2).toNat < m ^ 2
    rw [hcode hpair]
    exact pair_lt_sq_iff.2 hpair
  · have hnat := congrArg UInt64.toNat heq
    simp only [hcode hpair, hcode hpair', Nat.pair_eq_pair] at hnat
    exact Prod.ext (UInt64.toNat_inj.1 hnat.1) (UInt64.toNat_inj.1 hnat.2)
  · -- the components of the code as a natural number fit into words
    obtain ⟨hfirst, hsecond⟩ := pair_lt_sq_iff.1
      ((Nat.pair_unpair code.toNat).trans_lt hlt)
    have hword : ∀ {n : Nat}, n < m → (UInt64.ofNat n).toNat = n := fun hn =>
      UInt64.toNat_ofNat_of_lt' (hn.trans_le (hm.trans (by decide)))
    refine ⟨(UInt64.ofNat code.toNat.unpair.1, UInt64.ofNat code.toNat.unpair.2), ?_, ?_⟩
    · exact ⟨(hword hfirst).trans_lt hfirst, (hword hsecond).trans_lt hsecond⟩
    · apply UInt64.toNat_inj.1
      rw [shell_toNat_of_lt (by rw [hword hfirst]; omega) (by rw [hword hsecond]; omega),
        hword hfirst, hword hsecond, Nat.pair_unpair]

end Pairing

/-! ## Pairs of references -/

namespace Ref

/-- References are told apart by their raw numbers. -/
theorem raw_bijective : Function.Bijective raw := by
  refine ⟨fun r s heq => ?_, fun n => ⟨⟨n / 2, n % 2 = 1⟩, ?_⟩⟩
  · obtain ⟨i, negated⟩ := r
    obtain ⟨j, negated'⟩ := s
    cases negated <;> cases negated' <;> simp [raw] at heq ⊢ <;> omega
  · rcases Nat.mod_two_eq_zero_or_one n with hmod | hmod <;> simp [raw, hmod] <;> omega

/-- The indices up to that of the invalid reference are those whose references are numbers of 32
binary digits. -/
theorem raw_lt_iff {r : Ref} : r.raw < 2 ^ 32 ↔ r.index ≤ indexLimit := by
  have hbit : r.negated.toNat ≤ 1 := Bool.toNat_le r.negated
  rw [raw, indexLimit]
  omega

theorem word_toNat {r : Ref} (h : r.index ≤ indexLimit) : r.word.toNat = r.raw :=
  Nat.mod_eq_of_lt ((raw_lt_iff.2 h).trans (by decide))

theorem word_toNat_lt {r : Ref} (h : r.index ≤ indexLimit) : r.word.toNat < 2 ^ 32 :=
  (word_toNat h).trans_lt (raw_lt_iff.2 h)

theorem eq_of_word_eq {r s : Ref} (hr : r.index ≤ indexLimit) (hs : s.index ≤ indexLimit)
    (h : r.word = s.word) : r = s := by
  apply raw_bijective.1
  rw [← word_toNat hr, ← word_toNat hs, h]

/-- Every word below `2^32` is that of a reference. -/
theorem exists_word_eq {w : UInt64} (hw : w.toNat < 2 ^ 32) :
    ∃ r : Ref, r.index ≤ indexLimit ∧ r.word = w := by
  obtain ⟨r, hr⟩ := raw_bijective.2 w.toNat
  have hindex : r.index ≤ indexLimit := raw_lt_iff.1 (hr.trans_lt hw)
  exact ⟨r, hindex, UInt64.toNat_inj.1 ((word_toNat hindex).trans hr)⟩

end Ref

namespace RefPair

/-- Neither index is beyond that of the invalid reference. -/
def Fits (key : RefPair) : Prop :=
  key.first.index ≤ Ref.indexLimit ∧ key.second.index ≤ Ref.indexLimit

/-- Every word is the hash of one pair of references. -/
theorem hash_bijOn : Set.BijOn (hash : RefPair → UInt64) {key | key.Fits} Set.univ := by
  obtain ⟨-, hinj, hsurj⟩ := Pairing.shell_bijOn (m := 2 ^ 32) le_rfl
  refine ⟨fun _ _ => Set.mem_univ _, fun key hkey key' hkey' heq => ?_, fun code _ => ?_⟩
  · obtain ⟨first, second⟩ := key
    obtain ⟨first', second'⟩ := key'
    have hpair : (first.word, second.word) = (first'.word, second'.word) :=
      hinj ⟨Ref.word_toNat_lt hkey.1, Ref.word_toNat_lt hkey.2⟩
        ⟨Ref.word_toNat_lt hkey'.1, Ref.word_toNat_lt hkey'.2⟩ heq
    obtain ⟨hfirst, hsecond⟩ := Prod.mk.inj hpair
    exact congrArg₂ RefPair.mk (Ref.eq_of_word_eq hkey.1 hkey'.1 hfirst)
      (Ref.eq_of_word_eq hkey.2 hkey'.2 hsecond)
  · obtain ⟨⟨a, b⟩, ⟨ha, hb⟩, hcode⟩ := hsurj (show code.toNat < (2 ^ 32) ^ 2 from code.toNat_lt)
    obtain ⟨r, hr, rfl⟩ := Ref.exists_word_eq ha
    obtain ⟨s, hs, rfl⟩ := Ref.exists_word_eq hb
    exact ⟨⟨r, s⟩, ⟨hr, hs⟩, hcode⟩

end RefPair

/-- Pairing without collisions.  Below `2^32` no step of the pairing wraps, so the code of a pair
is the exact one; for every `m` up to `2^32` the pairs below `m` get the codes below `m^2`, each
of them once; and two pairs of references with the same hash are equal. -/
theorem Pairing.shell_collisionFree :
    (∀ a b : UInt64, a.toNat < 2 ^ 32 → b.toNat < 2 ^ 32 →
      Exact a b ∧ (shell a b).toNat = Nat.pair a.toNat b.toNat) ∧
    (∀ m ≤ 2 ^ 32, Set.BijOn (fun pair : UInt64 × UInt64 => shell pair.1 pair.2)
      {pair | pair.1.toNat < m ∧ pair.2.toNat < m} {code | code.toNat < m ^ 2}) ∧
    Set.BijOn (hash : RefPair → UInt64) {key | key.Fits} Set.univ :=
  ⟨fun _ _ ha hb => ⟨exact_of_lt ha hb, shell_toNat_of_lt ha hb⟩, fun _ hm => shell_bijOn hm,
    RefPair.hash_bijOn⟩

/-- The theorem at the greatest pair, that of the invalid reference with itself: its code is the
greatest word, and no other pair of references has it. -/
theorem Pairing.greatestPair_collisionFree :
    Exact 0xFFFFFFFF 0xFFFFFFFF ∧ Nat.pair 0xFFFFFFFF 0xFFFFFFFF = 2 ^ 64 - 1 ∧
      hash (RefPair.mk Ref.invalid Ref.invalid) = 0xFFFFFFFFFFFFFFFF ∧
      ∀ key : RefPair, key.Fits → hash key = 0xFFFFFFFFFFFFFFFF →
        key = ⟨Ref.invalid, Ref.invalid⟩ := by
  have hgreatest : hash (RefPair.mk Ref.invalid Ref.invalid) = 0xFFFFFFFFFFFFFFFF := by decide
  have hfits : (RefPair.mk Ref.invalid Ref.invalid).Fits := by
    constructor <;> decide
  obtain ⟨hexact, -, hhash⟩ := shell_collisionFree
  obtain ⟨hsteps, hcode⟩ := hexact 0xFFFFFFFF 0xFFFFFFFF (by decide) (by decide)
  refine ⟨hsteps, hcode.symm.trans (by decide), hgreatest, fun key hkey heq => ?_⟩
  exact hhash.injOn hkey hfits (heq.trans hgreatest.symm)

/-- One step beyond the bound the codes collide. -/
example : Pairing.shell 0x100000000 0 = Pairing.shell 0 0x10000 := by decide

end SymbolicOmega
