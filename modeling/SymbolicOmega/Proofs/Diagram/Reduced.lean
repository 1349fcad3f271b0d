import SymbolicOmega.Diagram.Evaluate
import SymbolicOmega.Proofs.Diagram.Chains

/-!
# Reduced diagrams

The stored nodes form a diagram over ordered variables in which no node is redundant
and none is stored twice.  In such a diagram every reference to a stored node has a
value, and two references with the same values are the same reference.
-/

namespace SymbolicOmega

namespace Ref

@[simp]
theorem index_neg (r : Ref) : (-r).index = r.index := rfl

@[simp]
theorem negated_neg (r : Ref) : (-r).negated = !r.negated := rfl

@[simp]
theorem index_negateIf (r : Ref) (negate : Bool) : (r.negateIf negate).index = r.index := by
  cases negate <;> rfl

@[simp]
theorem negated_negateIf (r : Ref) (negate : Bool) :
    (r.negateIf negate).negated = (r.negated ^^ negate) := by
  cases negate <;> simp [negateIf]

theorem ext_iff {r s : Ref} : r = s ↔ r.index = s.index ∧ r.negated = s.negated := by
  cases r
  cases s
  simp

@[simp]
theorem negateIf_negateIf (r : Ref) (negate : Bool) : (r.negateIf negate).negateIf negate = r := by
  cases negate <;> simp [negateIf]

theorem negateIf_inj {r s : Ref} {negate : Bool} :
    r.negateIf negate = s.negateIf negate ↔ r = s := by
  cases negate <;> simp [negateIf, ext_iff]

theorem isTerminal_iff {r : Ref} : r.isTerminal = true ↔ r.index = 1 := by
  rcases r with ⟨index, negated⟩
  cases negated <;> simp [isTerminal, one, zero]

theorem index_ne_one {r : Ref} (hone : r ≠ Ref.one) (hzero : r ≠ Ref.zero) : r.index ≠ 1 := by
  intro hindex
  rcases r with ⟨index, negated⟩
  subst hindex
  cases negated with
  | false => exact hone rfl
  | true => exact hzero rfl

end Ref

namespace Manager

/-- The node that a reference names is stored. -/
def Live (m : Manager) (r : Ref) : Prop :=
  ∃ node, m.nodes.stored? r.index = some node

/-- What a stored node other than the terminal has to satisfy. -/
structure Proper (m : Manager) (node : Node) : Prop where
  var_ne_zero : node.var ≠ 0
  low_ne_high : node.low ≠ node.high
  high_positive : node.high.negated = false
  live : ∀ child ∈ [node.low, node.high], m.Live child
  ordered : ∀ child ∈ [node.low, node.high], child.isTerminal = false →
    ∃ below, m.nodes.stored? child.index = some below ∧ node.var < below.var

/-- The stored nodes are a reduced and ordered diagram over one terminal. -/
structure Reduced (m : Manager) : Prop where
  terminal : m.nodes.stored? 1 = some Node.blank
  proper : ∀ index node, index ≠ 1 → m.nodes.stored? index = some node → m.Proper node
  unique : ∀ i j node, m.nodes.stored? i = some node → m.nodes.stored? j = some node → i = j

/-- Place of a reference in the order of decisions: its variable, and a number beyond all
variables for a constant. -/
def rank (m : Manager) (r : Ref) : Nat :=
  if r.index = 1 then UInt32.size
  else ((m.nodes.stored? r.index).map (·.var.toNat)).getD 0

variable {m : Manager}

@[simp]
theorem live_neg {r : Ref} : m.Live (-r) ↔ m.Live r := Iff.rfl

@[simp]
theorem live_negateIf {r : Ref} {negate : Bool} : m.Live (r.negateIf negate) ↔ m.Live r := by
  simp [Live]

@[simp]
theorem rank_neg (r : Ref) : m.rank (-r) = m.rank r := rfl

@[simp]
theorem rank_negateIf (r : Ref) (negate : Bool) : m.rank (r.negateIf negate) = m.rank r := by
  simp [rank]

theorem rank_of_index_one {r : Ref} (h : r.index = 1) : m.rank r = UInt32.size := by
  simp [rank, h]

theorem rank_of_stored {r : Ref} {node : Node} (hindex : r.index ≠ 1)
    (h : m.nodes.stored? r.index = some node) : m.rank r = node.var.toNat := by
  simp [rank, hindex, h]

/-- Only the constants come after all variables. -/
theorem index_of_size_le_rank {r : Ref} (hr : m.Live r) (h : UInt32.size ≤ m.rank r) :
    r.index = 1 := by
  apply Decidable.byContradiction
  intro hindex
  obtain ⟨node, hstored⟩ := hr
  have hvar := node.var.toNat_lt_size
  rw [rank_of_stored hindex hstored] at h
  omega

theorem node_of_stored {index : Nat} {node : Node} (h : m.nodes.stored? index = some node) :
    m.node index = .ok node :=
  UniqueTable.value_of_stored h

namespace Reduced

theorem live_one (hm : m.Reduced) : m.Live Ref.one := ⟨Node.blank, hm.terminal⟩

theorem live_zero (hm : m.Reduced) : m.Live Ref.zero := ⟨Node.blank, hm.terminal⟩

theorem lt_rank_child (hm : m.Reduced) {index : Nat} {node : Node} (hindex : index ≠ 1)
    (h : m.nodes.stored? index = some node) {child : Ref} (hchild : child ∈ [node.low, node.high]) :
    node.var.toNat < m.rank child := by
  cases hterminal : child.isTerminal with
  | true =>
      rw [rank_of_index_one (Ref.isTerminal_iff.1 hterminal)]
      exact node.var.toNat_lt_size
  | false =>
      obtain ⟨below, hbelow, hlt⟩ := (hm.proper index node hindex h).ordered child hchild hterminal
      rw [rank_of_stored (fun hone => by simp [Ref.isTerminal_iff.2 hone] at hterminal) hbelow]
      exact UInt32.lt_iff_toNat_lt.1 hlt

theorem lt_rank_low (hm : m.Reduced) {index : Nat} {node : Node} (hindex : index ≠ 1)
    (h : m.nodes.stored? index = some node) : node.var.toNat < m.rank node.low :=
  hm.lt_rank_child hindex h List.mem_cons_self

theorem lt_rank_high (hm : m.Reduced) {index : Nat} {node : Node} (hindex : index ≠ 1)
    (h : m.nodes.stored? index = some node) : node.var.toNat < m.rank node.high :=
  hm.lt_rank_child hindex h (by simp)

theorem live_low (hm : m.Reduced) {index : Nat} {node : Node} (hindex : index ≠ 1)
    (h : m.nodes.stored? index = some node) : m.Live node.low :=
  (hm.proper index node hindex h).live _ (by simp)

theorem live_high (hm : m.Reduced) {index : Nat} {node : Node} (hindex : index ≠ 1)
    (h : m.nodes.stored? index = some node) : m.Live node.high :=
  (hm.proper index node hindex h).live _ (by simp)

/-- No reference decides variable 0. -/
theorem rank_pos (hm : m.Reduced) {r : Ref} (hr : m.Live r) : 0 < m.rank r := by
  by_cases hindex : r.index = 1
  · rw [rank_of_index_one hindex]
    exact Nat.two_pow_pos 32
  · obtain ⟨node, hstored⟩ := hr
    have hne := (hm.proper _ _ hindex hstored).var_ne_zero
    rw [rank_of_stored hindex hstored]
    exact Nat.pos_of_ne_zero fun hzero => hne (UInt32.toNat_inj.1 hzero)

/-- Induction along the order of decisions: what holds of the constants and of a reference
whose children have it holds of every reference to a stored node. -/
theorem induction (hm : m.Reduced) {P : Ref → Prop}
    (hterminal : ∀ r : Ref, r.index = 1 → P r)
    (hnode : ∀ (r : Ref) (node : Node), r.index ≠ 1 → m.nodes.stored? r.index = some node →
      P node.low → P node.high → P r)
    {r : Ref} (hr : m.Live r) : P r := by
  induction hn : UInt32.size - m.rank r using Nat.strongRecOn generalizing r with
  | _ n ih =>
      by_cases hindex : r.index = 1
      · exact hterminal r hindex
      obtain ⟨node, hstored⟩ := hr
      have hrank := rank_of_stored hindex hstored
      have hvar := node.var.toNat_lt_size
      have hlow := hm.lt_rank_low hindex hstored
      have hhigh := hm.lt_rank_high hindex hstored
      refine hnode r node hindex hstored ?_ ?_
      · exact ih _ (by omega) (hm.live_low hindex hstored) rfl
      · exact ih _ (by omega) (hm.live_high hindex hstored) rfl

end Reduced

end Manager

end SymbolicOmega
