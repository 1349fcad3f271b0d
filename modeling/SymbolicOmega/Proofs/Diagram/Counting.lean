import Mathlib.Algebra.BigOperators.Group.Finset.Basic
import Mathlib.Algebra.Order.BigOperators.Group.Finset
import Mathlib.Data.Fintype.BigOperators
import Mathlib.Data.Fintype.Pi
import SymbolicOmega.Diagram.Count
import SymbolicOmega.Proofs.Diagram.Reclaiming

/-!
# Counts

The count of a reference is the number of the assignments that satisfy it.  Turning one variable
over pairs the assignments up, and on both of a pair together a decision at this variable is
worth what its two children are worth, so a decision counts half of what its children count
together, exactly.
-/

namespace SymbolicOmega

namespace Manager

open Function

variable {m : Manager} {r : Ref} {node : Node} {index n : Nat}

/-- The variables `1, …, n` hold as `x` says, and no other variable does. -/
def assigning {n : Nat} (x : Fin n → Bool) : UInt32 → Bool := fun v =>
  if h : 0 < v.toNat ∧ v.toNat ≤ n then x ⟨v.toNat - 1, by omega⟩ else false

/-- Number of the assignments of variables `1, …, n` under which a reference is true. -/
def solutions (m : Manager) (r : Ref) (n : Nat) : Nat :=
  Fintype.card {x : Fin n → Bool // m.evaluate r (assigning x) = .ok true}

/-- No variable beyond `n` matters to a reference. -/
def Within (m : Manager) (n : Nat) (r : Ref) : Prop :=
  ∀ a b : UInt32 → Bool, (∀ v : UInt32, v.toNat ≤ n → a v = b v) → m.value r a = m.value r b

theorem Within.neg (hm : m.Reduced) (hr : m.Live r) (h : m.Within n r) : m.Within n (-r) :=
  fun a b hagree => by rw [hm.value_neg hr, hm.value_neg hr, h a b hagree]

/-- A node that only the first variables matter to decides one of them, and so do its children. -/
theorem Within.children (hm : m.Reduced) (h : m.Within n r) (hindex : r.index ≠ 1)
    (hstored : m.nodes.stored? r.index = some node) :
    node.var.toNat ≤ n ∧ ∀ child ∈ [node.low, node.high], m.Within n child := by
  have hhalf := hm.value_update_top hindex hstored
  constructor
  · apply Nat.le_of_not_lt
    intro hlt
    apply (hm.proper _ _ hindex hstored).low_ne_high
    apply hm.eq_of_value_eq (hm.live_low hindex hstored) (hm.live_high hindex hstored)
    intro a
    have hsame : m.value r (update a node.var false) = m.value r (update a node.var true) := by
      apply h
      intro v hv
      have hne : v ≠ node.var := by
        rintro rfl
        omega
      rw [update_of_ne hne, update_of_ne hne]
    simpa [hhalf] using hsame
  · have hchild : ∀ bit : Bool, m.Within n (if bit then node.high else node.low) := by
      intro bit a b hagree
      have hsame : m.value r (update a node.var bit) = m.value r (update b node.var bit) := by
        apply h
        intro v hv
        by_cases hvar : v = node.var
        · rw [hvar, update_self, update_self]
        · rw [update_of_ne hvar, update_of_ne hvar, hagree v hv]
      simpa [hhalf] using hsame
    simpa using And.intro (hchild false) (hchild true)

/-- What is reached from a child is reached from its node. -/
theorem Reaches.of_child {child : Ref} (hindex : r.index ≠ 1)
    (hstored : m.nodes.stored? r.index = some node) (hchild : child ∈ [node.low, node.high])
    (h : m.Reaches [child] index) : m.Reaches [r] index := by
  induction h with
  | root hr =>
      rw [List.mem_singleton.1 hr]
      exact .child (.root List.mem_cons_self) hindex hstored hchild
  | child _ hindex hstored hchild ih => exact .child ih hindex hstored hchild

/-- If no node below a reference decides a variable beyond `n`, none matters. -/
theorem Reduced.within (hm : m.Reduced) (hr : m.Live r)
    (hvars : ∀ index node, m.Reaches [r] index → index ≠ 1 →
      m.nodes.stored? index = some node → node.var.toNat ≤ n) : m.Within n r := by
  refine hm.induction (P := fun r => (∀ index node, m.Reaches [r] index → index ≠ 1 →
    m.nodes.stored? index = some node → node.var.toNat ≤ n) → m.Within n r) ?_ ?_ hr hvars
  · intro r hindex _ a b _
    rw [value_of_index_one hindex, value_of_index_one hindex]
  · intro r node hindex hstored hlow hhigh hvars a b hagree
    have hbelow : ∀ child ∈ [node.low, node.high], ∀ index below, m.Reaches [child] index →
        index ≠ 1 → m.nodes.stored? index = some below → below.var.toNat ≤ n :=
      fun child hchild index below hreached =>
        hvars index below (hreached.of_child hindex hstored hchild)
    have hvar := hvars _ node (.root List.mem_cons_self) hindex hstored
    rw [hm.value_node hindex hstored, hm.value_node hindex hstored, hagree _ hvar,
      hlow (hbelow _ (by simp)) a b hagree, hhigh (hbelow _ (by simp)) a b hagree]

/-- What matters to a node that is reached matters to the reference. -/
theorem Within.reached (hm : m.Reduced) (hr : m.Live r) (h : m.Within n r)
    (hreached : m.Reaches [r] index) : m.Within n ⟨index, false⟩ := by
  have hsign : ∀ {r : Ref}, m.Live r → m.Within n r → m.Within n ⟨r.index, false⟩ := by
    intro r hr h
    rcases r with ⟨index, negated⟩
    cases negated with
    | false => exact h
    | true => exact h.neg hm hr
  induction hreached with
  | root hroot =>
      rw [List.mem_singleton.1 hroot]
      exact hsign hr h
  | child _ hindex hstored hchild ih =>
      exact hsign ((hm.proper _ _ hindex hstored).live _ hchild)
        ((ih.children hm hindex hstored).2 _ hchild)

/-! ## Pairs of assignments -/

theorem assigning_of_le {x : Fin n → Bool} {v : UInt32} (hv : 0 < v.toNat) (hle : v.toNat ≤ n) :
    assigning x v = x ⟨v.toNat - 1, by omega⟩ := by
  rw [assigning, dif_pos ⟨hv, hle⟩]

/-- Setting one place sets one variable. -/
theorem assigning_update (x : Fin n → Bool) {v : UInt32} (hv : 0 < v.toNat) (hle : v.toNat ≤ n)
    (bit : Bool) :
    assigning (update x ⟨v.toNat - 1, by omega⟩ bit) = update (assigning x) v bit := by
  funext w
  by_cases hw : w = v
  · subst hw
    rw [update_self, assigning_of_le hv hle, update_self]
  · rw [update_of_ne hw]
    by_cases hin : 0 < w.toNat ∧ w.toNat ≤ n
    · rw [assigning_of_le hin.1 hin.2, assigning_of_le hin.1 hin.2, update_of_ne]
      intro heq
      have hnat := congrArg Fin.val heq
      dsimp only at hnat
      exact hw (UInt32.toNat_inj.1 (by omega))
    · rw [assigning, assigning, dif_neg hin, dif_neg hin]

/-- Turning one place over permutes the assignments. -/
theorem sum_turned (i : Fin n) (f : (Fin n → Bool) → Nat) :
    ∑ x, f (update x i (!x i)) = ∑ x, f x := by
  have hinvolutive : Involutive fun x : Fin n → Bool => update x i (!x i) := by
    intro x
    simp
  exact Equiv.sum_comp hinvolutive.toPerm f

theorem solutions_eq_sum (hm : m.Reduced) (hr : m.Live r) (n : Nat) :
    m.solutions r n = ∑ x : Fin n → Bool, (m.value r (assigning x)).toNat := by
  rw [solutions, Fintype.card_subtype, Finset.card_filter]
  apply Finset.sum_congr rfl
  intro x _
  rw [hm.evaluate_eq hr]
  cases m.value r (assigning x) <;> rfl

/-- Every assignment satisfies a reference or its negation. -/
theorem solutions_neg (hm : m.Reduced) (hr : m.Live r) (n : Nat) :
    m.solutions r n + m.solutions (-r) n = 2 ^ n := by
  rw [solutions_eq_sum hm hr, solutions_eq_sum hm (live_neg.2 hr), ← Finset.sum_add_distrib]
  calc
    ∑ x : Fin n → Bool, ((m.value r (assigning x)).toNat + (m.value (-r) (assigning x)).toNat) =
        ∑ _x : Fin n → Bool, 1 := by
      apply Finset.sum_congr rfl
      intro x _
      rw [hm.value_neg hr]
      cases m.value r (assigning x) <;> rfl
    _ = 2 ^ n := by simp

/-- A decision counts half of what its children count together. -/
theorem two_mul_solutions (hm : m.Reduced) (hindex : index ≠ 1)
    (hstored : m.nodes.stored? index = some node) (hle : node.var.toNat ≤ n) :
    2 * m.solutions ⟨index, false⟩ n = m.solutions node.low n + m.solutions node.high n := by
  have hlive : m.Live ⟨index, false⟩ := ⟨node, hstored⟩
  have hpos : 0 < node.var.toNat := by
    rw [← rank_of_stored (r := ⟨index, false⟩) hindex hstored]
    exact hm.rank_pos hlive
  let i : Fin n := ⟨node.var.toNat - 1, by omega⟩
  let worth (r : Ref) (x : Fin n → Bool) : Nat := (m.value r (assigning x)).toNat
  -- on an assignment and on the one with the variable turned over, each child is taken once
  have hpair : ∀ x, worth ⟨index, false⟩ x + worth ⟨index, false⟩ (update x i (!x i)) =
      worth node.low x + worth node.high x := by
    intro x
    have hvalue : ∀ bit, worth ⟨index, false⟩ (update x i bit) =
        worth (if bit then node.high else node.low) x := by
      intro bit
      simp only [worth, i, assigning_update x hpos hle]
      rw [hm.value_update_top (r := ⟨index, false⟩) hindex hstored, Bool.xor_false]
    have hsame := hvalue (x i)
    rw [update_eq_self] at hsame
    rw [hsame, hvalue]
    cases x i with
    | true => exact Nat.add_comm _ _
    | false => rfl
  calc
    2 * m.solutions ⟨index, false⟩ n =
        ∑ x, worth ⟨index, false⟩ x + ∑ x, worth ⟨index, false⟩ (update x i (!x i)) := by
      rw [sum_turned, solutions_eq_sum hm hlive, Nat.two_mul]
    _ = ∑ x, (worth node.low x + worth node.high x) := by
      rw [← Finset.sum_add_distrib]
      exact Finset.sum_congr rfl fun x _ => hpair x
    _ = m.solutions node.low n + m.solutions node.high n := by
      rw [Finset.sum_add_distrib, solutions_eq_sum hm (hm.live_low hindex hstored),
        solutions_eq_sum hm (hm.live_high hindex hstored)]

theorem solutions_le (hm : m.Reduced) (hr : m.Live r) (n : Nat) : m.solutions r n ≤ 2 ^ n := by
  rw [← solutions_neg hm hr n]
  exact Nat.le_add_right _ _

/-! ## The count -/

/-- Every count that is known is right. -/
def Counted (m : Manager) (n : Nat) (known : Counts) : Prop :=
  ∀ r count, known[r]? = some count → count = m.solutions r n

theorem Counted.insert {known : Counts} (h : m.Counted n known) (r : Ref) :
    m.Counted n (known.insert r (m.solutions r n)) := by
  intro s count hcount
  rw [Std.HashMap.getElem?_insert] at hcount
  split at hcount
  · rename_i hsame
    rw [← eq_of_beq hsame, ← Option.some.inj hcount]
  · exact h s count hcount

/-- The count of a decision, from those of its children. -/
theorem solutions_of_children (hm : m.Reduced) (hindex : r.index ≠ 1)
    (hstored : m.nodes.stored? r.index = some node) (hle : node.var.toNat ≤ n) :
    m.solutions r n =
      if r.negated then 2 ^ n - (m.solutions node.low n + m.solutions node.high n) / 2
      else (m.solutions node.low n + m.solutions node.high n) / 2 := by
  have hregular : m.solutions ⟨r.index, false⟩ n =
      (m.solutions node.low n + m.solutions node.high n) / 2 := by
    rw [← two_mul_solutions hm hindex hstored hle, Nat.mul_div_cancel_left _ Nat.two_pos]
  have hlive : m.Live r := ⟨node, hstored⟩
  rw [← hregular, ← solutions_neg hm hlive n]
  rcases r with ⟨index, negated⟩
  cases negated with
  | false => rfl
  | true => exact (Nat.add_sub_cancel _ _).symm

/-- Within a bound beyond the number of variables left, the count is the number of solutions,
whatever right counts are known. -/
theorem countWithin_eq (hm : m.Reduced) (n bound : Nat) : ∀ (r : Ref) (known : Counts),
    m.Live r → m.Within n r → UInt32.size - m.rank r < bound → m.Counted n known →
      ∃ known', m.countWithin (2 ^ n) bound r known = .ok (m.solutions r n, known') ∧
        m.Counted n known' := by
  induction bound with
  | zero => exact fun _ _ _ _ hbound _ => absurd hbound (Nat.not_lt_zero _)
  | succ bound ih =>
      intro r known hr hwithin hbound hknown
      rw [countWithin]
      by_cases hzero : r = Ref.zero
      · subst hzero
        have hnone : m.solutions Ref.zero n = 0 := by
          rw [solutions_eq_sum hm hr]
          simp
        rw [if_pos rfl, hnone]
        exact ⟨known, rfl, hknown⟩
      rw [if_neg hzero]
      by_cases hone : r = Ref.one
      · subst hone
        have hall : m.solutions Ref.one n = 2 ^ n := by
          rw [solutions_eq_sum hm hr]
          simp
        rw [if_pos rfl, hall]
        exact ⟨known, rfl, hknown⟩
      rw [if_neg hone]
      cases hfound : known[r]? with
      | some count =>
          rw [← hknown r count hfound]
          exact ⟨known, rfl, hknown⟩
      | none =>
          have hindex := Ref.index_ne_one hone hzero
          obtain ⟨node, hstored⟩ := hr
          have hrank := rank_of_stored hindex hstored
          have hvar := node.var.toNat_lt_size
          have hlow := hm.lt_rank_low hindex hstored
          have hhigh := hm.lt_rank_high hindex hstored
          obtain ⟨hle, hchildren⟩ := hwithin.children hm hindex hstored
          obtain ⟨knownLow, hcountLow, hknownLow⟩ := ih node.low known
            (hm.live_low hindex hstored) (hchildren _ (by simp)) (by omega) hknown
          obtain ⟨knownHigh, hcountHigh, hknownHigh⟩ := ih node.high knownLow
            (hm.live_high hindex hstored) (hchildren _ (by simp)) (by omega) hknownLow
          refine ⟨_, ?_, hknownHigh.insert r⟩
          rw [solutions_of_children hm hindex hstored hle, node_of_stored hstored]
          simp only [bind, Except.bind, hcountLow, hcountHigh]
          rfl

/-- The count is the number of the assignments of variables `1, …, n` that satisfy a reference,
if no other variable matters to it. -/
theorem Within.count_eq (hm : m.Reduced) (hr : m.Live r) (h : m.Within n r) :
    m.count r n = .ok (m.solutions r n) := by
  have hempty : m.Counted n ∅ := fun s count hcount => by simp at hcount
  have hbound : UInt32.size - m.rank r < pathBound := by
    unfold pathBound
    omega
  obtain ⟨known, hcount, -⟩ := countWithin_eq hm n pathBound r ∅ hr h hbound hempty
  rw [count, Nat.one_shiftLeft, hcount]
  rfl

/-- At every decision that is reached the two children have counts, half of what they count
together is a whole number, and it is no more than the number of all assignments. -/
theorem Within.halving (hm : m.Reduced) (hr : m.Live r) (h : m.Within n r)
    (hreached : m.Reaches [r] index) (hindex : index ≠ 1)
    (hstored : m.nodes.stored? index = some node) :
    ∃ low high, m.count node.low n = .ok low ∧ m.count node.high n = .ok high ∧
      2 ∣ low + high ∧ (low + high) / 2 ≤ 2 ^ n := by
  have hlive : m.Live ⟨index, false⟩ := ⟨node, hstored⟩
  obtain ⟨hle, hchildren⟩ := (h.reached hm hr hreached).children hm hindex hstored
  have hhalf := two_mul_solutions hm hindex hstored hle
  refine ⟨m.solutions node.low n, m.solutions node.high n,
    (hchildren _ (by simp)).count_eq hm (hm.live_low hindex hstored),
    (hchildren _ (by simp)).count_eq hm (hm.live_high hindex hstored), ⟨_, hhalf.symm⟩, ?_⟩
  rw [← hhalf, Nat.mul_div_cancel_left _ Nat.two_pos]
  exact solutions_le hm hlive n

end Manager

end SymbolicOmega
