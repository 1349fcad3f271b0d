import SymbolicOmega.Proofs.Diagram.Reduced

/-!
# Values and canonicity

In a reduced diagram a reference to a stored node has a value under every assignment.
The value depends only on the variables from the rank of the reference on, and two
references with the same values are the same reference.  Storing more nodes changes
neither ranks nor values.
-/

namespace SymbolicOmega

/-- What is left of a reference to a node once the variable of the node is decided. -/
def Node.half (node : Node) (negated bit : Bool) : Ref :=
  (if bit then node.high else node.low).negateIf negated

namespace Manager

open Function

/-- The value of `r` under an assignment, `false` if the evaluation fails. -/
def value (m : Manager) (r : Ref) (a : UInt32 → Bool) : Bool :=
  match m.evaluate r a with
  | .ok b => b
  | .error _ => false

theorem value_of_evaluate {m : Manager} {r : Ref} {a : UInt32 → Bool} {b : Bool}
    (h : m.evaluate r a = .ok b) : m.value r a = b := by
  simp only [value, h]

namespace Reduced

variable {m : Manager} {r : Ref} {a b : UInt32 → Bool}

/-- One bit is the value of a reference and, negated, that of its negation, whatever bound
beyond the number of variables left is given. -/
private theorem evaluateWithin_eq (hm : m.Reduced) (hr : m.Live r) (a : UInt32 → Bool) :
    ∃ bit, ∀ negate bound, UInt32.size - m.rank r < bound →
      m.evaluateWithin a bound (r.negateIf negate) = .ok (bit ^^ negate) := by
  refine hm.induction (P := fun r => ∃ bit, ∀ negate bound, UInt32.size - m.rank r < bound →
    m.evaluateWithin a bound (r.negateIf negate) = .ok (bit ^^ negate)) ?_ ?_ hr
  · intro r hindex
    refine ⟨!r.negated, fun negate bound hbound => ?_⟩
    obtain ⟨bound, rfl⟩ : ∃ n, bound = n + 1 := ⟨bound - 1, by omega⟩
    have hterminal : (r.negateIf negate).isTerminal = true :=
      Ref.isTerminal_iff.2 (by simpa using hindex)
    rw [evaluateWithin, if_pos hterminal]
    rcases r with ⟨index, negated⟩
    subst hindex
    cases negate <;> cases negated <;> rfl
  · rintro r node hindex hstored ⟨lowBit, hlow⟩ ⟨highBit, hhigh⟩
    refine ⟨(if a node.var then highBit else lowBit) ^^ r.negated, fun negate bound hbound => ?_⟩
    have hrank := rank_of_stored hindex hstored
    have hvar := node.var.toNat_lt_size
    have hbelow := hm.lt_rank_low hindex hstored
    have habove := hm.lt_rank_high hindex hstored
    obtain ⟨bound, rfl⟩ : ∃ n, bound = n + 1 := ⟨bound - 1, by omega⟩
    have hterminal : ¬ (r.negateIf negate).isTerminal = true := by
      simpa [Ref.isTerminal_iff] using hindex
    have hnode : m.node (r.negateIf negate).index = .ok node := by
      simpa using node_of_stored hstored
    rw [evaluateWithin, if_neg hterminal, hnode]
    simp only [Ref.negated_negateIf]
    cases a node.var with
    | true => simpa [Bool.xor_assoc] using hhigh (r.negated ^^ negate) bound (by omega)
    | false => simpa [Bool.xor_assoc] using hlow (r.negated ^^ negate) bound (by omega)

private theorem evaluateWithin_negateIf (hm : m.Reduced) (hr : m.Live r) (a : UInt32 → Bool)
    (negate : Bool) {bound : Nat} (hbound : UInt32.size - m.rank r < bound) :
    m.evaluateWithin a bound (r.negateIf negate) = .ok (m.value r a ^^ negate) := by
  obtain ⟨bit, hbit⟩ := hm.evaluateWithin_eq hr a
  have hself : m.evaluate r a = .ok bit := by
    simpa [evaluate, Ref.negateIf] using hbit false pathBound (by unfold pathBound; omega)
  rw [hbit negate bound hbound, value_of_evaluate hself]

/-- Evaluating a reference to a stored node always answers. -/
theorem evaluate_eq (hm : m.Reduced) (hr : m.Live r) (a : UInt32 → Bool) :
    m.evaluate r a = .ok (m.value r a) := by
  have hbound : UInt32.size - m.rank r < pathBound := by unfold pathBound; omega
  simpa [evaluate, Ref.negateIf] using hm.evaluateWithin_negateIf hr a false hbound

@[simp]
theorem value_one (a : UInt32 → Bool) : m.value Ref.one a = true := by
  exact value_of_evaluate (by simp [evaluate, pathBound, evaluateWithin, Ref.isTerminal])

@[simp]
theorem value_zero (a : UInt32 → Bool) : m.value Ref.zero a = false := by
  exact value_of_evaluate
    (by simp [evaluate, pathBound, evaluateWithin, Ref.isTerminal, Ref.zero, Ref.one])

theorem value_of_index_one (hindex : r.index = 1) (a : UInt32 → Bool) :
    m.value r a = !r.negated := by
  rcases r with ⟨index, negated⟩
  subst hindex
  cases negated with
  | false => exact value_one a
  | true => exact value_zero a

theorem value_negateIf (hm : m.Reduced) (hr : m.Live r) (negate : Bool) (a : UInt32 → Bool) :
    m.value (r.negateIf negate) a = (m.value r a ^^ negate) := by
  have hbound : UInt32.size - m.rank r < pathBound := by unfold pathBound; omega
  exact value_of_evaluate (hm.evaluateWithin_negateIf hr a negate hbound)

theorem value_neg (hm : m.Reduced) (hr : m.Live r) (a : UInt32 → Bool) :
    m.value (-r) a = !m.value r a := by
  simpa [Ref.negateIf] using hm.value_negateIf hr true a

/-- A stored node decides its variable. -/
theorem value_node (hm : m.Reduced) {node : Node} (hindex : r.index ≠ 1)
    (hstored : m.nodes.stored? r.index = some node) (a : UInt32 → Bool) :
    m.value r a =
      ((if a node.var then m.value node.high a else m.value node.low a) ^^ r.negated) := by
  have hvar := node.var.toNat_lt_size
  have hbelow := hm.lt_rank_low hindex hstored
  have habove := hm.lt_rank_high hindex hstored
  have hterminal : ¬ r.isTerminal = true := by simpa [Ref.isTerminal_iff] using hindex
  apply value_of_evaluate
  rw [evaluate, pathBound, evaluateWithin, if_neg hterminal, node_of_stored hstored]
  simp only
  have hleft : ∀ child, node.var.toNat < m.rank child →
      UInt32.size - m.rank child < UInt32.size := fun child hchild => by omega
  cases a node.var with
  | true =>
      exact hm.evaluateWithin_negateIf (hm.live_high hindex hstored) a r.negated (hleft _ habove)
  | false =>
      exact hm.evaluateWithin_negateIf (hm.live_low hindex hstored) a r.negated (hleft _ hbelow)

/-! ## Dependence on variables -/

/-- Variables that come before a reference do not matter to it. -/
theorem value_congr (hm : m.Reduced) (hr : m.Live r)
    (hagree : ∀ v : UInt32, m.rank r ≤ v.toNat → a v = b v) : m.value r a = m.value r b := by
  refine hm.induction (P := fun r => (∀ v : UInt32, m.rank r ≤ v.toNat → a v = b v) →
    m.value r a = m.value r b) ?_ ?_ hr hagree
  · intro r hindex _
    rw [value_of_index_one hindex, value_of_index_one hindex]
  · intro r node hindex hstored ihLow ihHigh hagree
    have hrank := rank_of_stored hindex hstored
    have hbelow := hm.lt_rank_low hindex hstored
    have habove := hm.lt_rank_high hindex hstored
    rw [hm.value_node hindex hstored, hm.value_node hindex hstored,
      hagree node.var (by omega), ihLow fun v hv => hagree v (by omega),
      ihHigh fun v hv => hagree v (by omega)]

theorem value_update (hm : m.Reduced) (hr : m.Live r) {v : UInt32} (hv : v.toNat < m.rank r)
    (bit : Bool) : m.value r (update a v bit) = m.value r a := by
  refine hm.value_congr hr fun w hw => update_of_ne ?_ _ _
  rintro rfl
  omega

/-- The two halves of a reference at its top variable. -/
theorem value_update_top (hm : m.Reduced) {node : Node} (hindex : r.index ≠ 1)
    (hstored : m.nodes.stored? r.index = some node) (a : UInt32 → Bool) (bit : Bool) :
    m.value r (update a node.var bit) =
      (m.value (if bit then node.high else node.low) a ^^ r.negated) := by
  rw [hm.value_node hindex hstored, update_self]
  cases bit with
  | true =>
      simp [hm.value_update (hm.live_high hindex hstored) (hm.lt_rank_high hindex hstored)]
  | false =>
      simp [hm.value_update (hm.live_low hindex hstored) (hm.lt_rank_low hindex hstored)]

theorem live_half (hm : m.Reduced) {node : Node} (hindex : r.index ≠ 1)
    (hstored : m.nodes.stored? r.index = some node) (bit : Bool) :
    m.Live (node.half r.negated bit) := by
  apply live_negateIf.2
  cases bit with
  | true => exact hm.live_high hindex hstored
  | false => exact hm.live_low hindex hstored

theorem value_half (hm : m.Reduced) {node : Node} (hindex : r.index ≠ 1)
    (hstored : m.nodes.stored? r.index = some node) (bit : Bool) (a : UInt32 → Bool) :
    m.value (node.half r.negated bit) a = m.value r (update a node.var bit) := by
  have hlive := live_negateIf.1 (hm.live_half hindex hstored bit)
  rw [Node.half, hm.value_negateIf hlive, hm.value_update_top hindex hstored]

/-- Where all variables hold only the sign of a reference matters, since no high child is
negated. -/
theorem value_allTrue (hm : m.Reduced) (hr : m.Live r) :
    m.value r (fun _ => true) = !r.negated := by
  refine hm.induction (P := fun r => m.value r (fun _ => true) = !r.negated) ?_ ?_ hr
  · exact fun r hindex => value_of_index_one hindex _
  · intro r node hindex hstored _ ihHigh
    rw [hm.value_node hindex hstored, if_pos rfl, ihHigh,
      (hm.proper _ _ hindex hstored).high_positive]
    simp

/-! ## Canonicity -/

/-- If two references of different rank had the same values, the earlier one would not
depend on its own variable. -/
private theorem children_agree (hm : m.Reduced) {f g : Ref} {node : Node} (hindex : f.index ≠ 1)
    (hstored : m.nodes.stored? f.index = some node) (hg : m.Live g)
    (hrank : node.var.toNat < m.rank g) (h : ∀ a, m.value f a = m.value g a)
    (a : UInt32 → Bool) : m.value node.low a = m.value node.high a := by
  have hlow := hm.value_update_top hindex hstored a false
  have hhigh := hm.value_update_top hindex hstored a true
  rw [h, hm.value_update hg hrank] at hlow hhigh
  have hboth := hlow.symm.trans hhigh
  simpa using hboth

private theorem value_negated_eq (hm : m.Reduced) {f g : Ref} (hf : m.Live f) (hg : m.Live g)
    (h : ∀ a, m.value f a = m.value g a) : f.negated = g.negated := by
  have htrue := h fun _ => true
  rw [hm.value_allTrue hf, hm.value_allTrue hg] at htrue
  simpa using htrue

/-- Two references with the same values are the same reference. -/
theorem eq_of_value_eq (hm : m.Reduced) {f g : Ref} (hf : m.Live f) (hg : m.Live g)
    (h : ∀ a, m.value f a = m.value g a) : f = g := by
  induction hn : UInt32.size - min (m.rank f) (m.rank g) using Nat.strongRecOn
    generalizing f g with
  | _ n ih =>
      wlog hle : m.rank f ≤ m.rank g generalizing f g with hsymm
      · exact (hsymm hg hf (fun a => (h a).symm) (by omega) (by omega)).symm
      have hsign := hm.value_negated_eq hf hg h
      refine Ref.ext_iff.2 ⟨?_, hsign⟩
      by_cases hfone : f.index = 1
      · -- nothing comes after a constant, so the other one is a constant too
        rw [rank_of_index_one hfone] at hle
        rw [hfone, index_of_size_le_rank hg hle]
      · obtain ⟨node, hnode⟩ := hf
        have hrank := rank_of_stored hfone hnode
        have hvar := node.var.toNat_lt_size
        have hlow := hm.lt_rank_low hfone hnode
        have hhigh := hm.lt_rank_high hfone hnode
        rcases Nat.lt_or_eq_of_le hle with hlt | heq
        · exact absurd
            (ih _ (by omega) (hm.live_low hfone hnode) (hm.live_high hfone hnode)
              (hm.children_agree hfone hnode hg (by omega) h) rfl)
            (hm.proper _ _ hfone hnode).low_ne_high
        · obtain ⟨other, hother⟩ := hg
          have hgone : g.index ≠ 1 := fun hone => by
            rw [rank_of_index_one hone] at heq
            omega
          have hsame : node.var = other.var := by
            rw [rank_of_stored hgone hother, hrank] at heq
            exact UInt32.toNat_inj.1 heq
          have hlow' := hm.lt_rank_low hgone hother
          have hhigh' := hm.lt_rank_high hgone hother
          have hhalf : ∀ (bit : Bool) a, m.value (if bit then node.high else node.low) a =
              m.value (if bit then other.high else other.low) a := by
            intro bit a
            have hvalue := h (update a node.var bit)
            rw [hm.value_update_top hfone hnode, hsame, hm.value_update_top hgone hother,
              hsign] at hvalue
            simpa using hvalue
          rw [← hsame] at hlow' hhigh'
          have hlows : node.low = other.low :=
            ih _ (by omega) (hm.live_low hfone hnode) (hm.live_low hgone hother)
              (hhalf false) rfl
          have hhighs : node.high = other.high :=
            ih _ (by omega) (hm.live_high hfone hnode) (hm.live_high hgone hother)
              (hhalf true) rfl
          have hnodes : node = other := by
            cases node
            cases other
            simp_all
          exact hm.unique _ _ node hnode (hnodes ▸ hother)

theorem eq_of_evaluate_eq (hm : m.Reduced) {f g : Ref} (hf : m.Live f) (hg : m.Live g)
    (h : ∀ a, m.evaluate f a = m.evaluate g a) : f = g := by
  apply hm.eq_of_value_eq hf hg
  intro a
  have ha := h a
  rw [hm.evaluate_eq hf, hm.evaluate_eq hg] at ha
  exact Except.ok.inj ha

/-- A reference whose values depend only on the variables behind `v` is behind `v`. -/
theorem lt_rank (hm : m.Reduced) (hr : m.Live r) {v : UInt32}
    (hfree : ∀ a b : UInt32 → Bool, (∀ w : UInt32, v.toNat < w.toNat → a w = b w) →
      m.value r a = m.value r b) : v.toNat < m.rank r := by
  apply Nat.lt_of_not_le
  intro hle
  have hindex : r.index ≠ 1 := fun hone => by
    have hlt := v.toNat_lt_size
    rw [rank_of_index_one hone] at hle
    omega
  obtain ⟨node, hstored⟩ := hr
  rw [rank_of_stored hindex hstored] at hle
  apply (hm.proper _ _ hindex hstored).low_ne_high
  apply hm.eq_of_value_eq (hm.live_low hindex hstored) (hm.live_high hindex hstored)
  intro a
  have hsame := hfree (update a node.var false) (update a node.var true) fun w hw => by
    have hne : w ≠ node.var := by
      rintro rfl
      omega
    rw [update_of_ne hne, update_of_ne hne]
  rw [hm.value_update_top hindex hstored, hm.value_update_top hindex hstored] at hsame
  simpa using hsame

end Reduced

end Manager

end SymbolicOmega
