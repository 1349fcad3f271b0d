import SymbolicOmega.Proofs.Diagram.Collecting
import SymbolicOmega.Proofs.Diagram.Connectives

/-!
# Canonicity over runs

A run of a manager is any sequence of operations on references that are not dangling,
the failed ones included.  After every run the stored nodes are reduced and ordered,
and two references denote the same function exactly when they are the same.
-/

namespace SymbolicOmega

namespace Manager

/-- An operation with its operands. -/
inductive Call where
  | var (v : UInt32)
  | cube (literals : List Literal)
  | node (v : UInt32) (low high : Ref)
  | ite (f g h : Ref)
  | conj (u v : Ref)
  | disj (u v : Ref)
  | diff (u v : Ref)
  | disjAll (rs : List Ref)
  | collect (roots : List Ref)

namespace Call

/-- Carry the operation out and leave its answer in the manager. -/
def perform : Call → ManagerM Unit
  | var v => discard (mkVar v)
  | cube literals => discard (mkCube literals)
  | node v low high => discard (mkNode v low high)
  | ite f g h => discard (Manager.ite f g h)
  | conj u v => discard (Manager.conj u v)
  | disj u v => discard (Manager.disj u v)
  | diff u v => discard (Manager.diff u v)
  | disjAll rs => discard (Manager.disjAll rs)
  | collect roots => discard (Manager.collect roots)

/-- The references that an operation is applied to. -/
def operands : Call → List Ref
  | var _ | cube _ => []
  | node _ low high => [low, high]
  | ite f g h => [f, g, h]
  | conj u v | disj u v | diff u v => [u, v]
  | disjAll rs => rs
  | collect roots => roots

/-- What an operation asks of its operands beyond not dangling: a cube has one literal for a
variable, and a node comes before its children. -/
def Ordered (m : Manager) : Call → Prop
  | cube literals => (literals.map (·.var)).Nodup
  | node v low high => v.toNat < m.rank low ∧ v.toNat < m.rank high
  | _ => True

end Call

/-- The managers that a run from a new one comes to. -/
inductive Reached : Manager → Prop where
  | new {sizing : Sizing} {m : Manager} (hnew : ofSizing sizing = .ok m) : Reached m
  | answered {m m' : Manager} (call : Call) (hm : Reached m)
      (hlive : ∀ r ∈ call.operands, m.Live r) (hordered : call.Ordered m)
      (hrun : call.perform m = .ok () m') : Reached m'
  | failed {m m' : Manager} (call : Call) {fault : Fault} (hm : Reached m)
      (hlive : ∀ r ∈ call.operands, m.Live r) (hordered : call.Ordered m)
      (hrun : call.perform m = .error fault m') : Reached m'

private theorem Grows.discard {m : Manager} {x : ManagerM Ref} {good : Ref → Manager → Prop}
    (h : m.Grows x good) : m.Grows (discard x) fun _ _ => True :=
  Outcome.map (Outcome.imp h fun _ _ hend => ⟨hend.1, hend.2.1, trivial⟩)

/-- Every operation but a collection only adds nodes. -/
theorem Canonical.perform_grows {m : Manager} (hm : m.Canonical) {call : Call}
    (hlive : ∀ r ∈ call.operands, m.Live r) (hordered : call.Ordered m)
    (hcollect : ∀ roots, call ≠ .collect roots) : m.Grows call.perform fun _ _ => True := by
  cases call with
  | var v => exact (mkVar_grows hm v).discard
  | cube literals => exact (mkCube_grows hm hordered).discard
  | node v low high =>
      obtain ⟨hlow, hhigh⟩ : m.Live low ∧ m.Live high := by simpa [Call.operands] using hlive
      exact (mkNode_grows hm hlow hhigh hordered.1 hordered.2).discard
  | ite f g h =>
      obtain ⟨hf, hg, hh⟩ : m.Live f ∧ m.Live g ∧ m.Live h := by
        simpa [Call.operands] using hlive
      exact (ite_grows hm hf hg hh).discard
  | conj u v =>
      obtain ⟨hu, hv⟩ : m.Live u ∧ m.Live v := by simpa [Call.operands] using hlive
      exact (conj_grows hm hu hv).discard
  | disj u v =>
      obtain ⟨hu, hv⟩ : m.Live u ∧ m.Live v := by simpa [Call.operands] using hlive
      exact (disj_grows hm hu hv).discard
  | diff u v =>
      obtain ⟨hu, hv⟩ : m.Live u ∧ m.Live v := by simpa [Call.operands] using hlive
      exact (diff_grows hm hu hv).discard
  | disjAll rs => exact (disjAll_grows hm hlive).discard
  | collect roots => exact absurd rfl (hcollect roots)

/-- Every operation leaves a canonical manager, whether it answers or fails. -/
theorem Canonical.perform {m : Manager} (hm : m.Canonical) {call : Call}
    (hlive : ∀ r ∈ call.operands, m.Live r) (hordered : call.Ordered m) :
    Outcome call.perform m (fun _ m' => m'.Canonical) fun _ m' => m'.Canonical := by
  by_cases hcollect : ∃ roots, call = .collect roots
  · obtain ⟨roots, rfl⟩ := hcollect
    exact Outcome.map (Outcome.mono (collect_outcome hm roots) (fun _ _ hend => hend.1)
      fun _ _ hend => hend.1)
  · have hgrows := hm.perform_grows hlive hordered fun roots heq => hcollect ⟨roots, heq⟩
    exact Outcome.mono hgrows (fun _ _ hend => hend.1) fun _ _ hend => hend.1

theorem Reached.canonical {m : Manager} (h : Reached m) : m.Canonical := by
  induction h with
  | new hnew => exact ofSizing_canonical hnew
  | answered call _ hlive hordered hrun ih => exact (ih.perform hlive hordered).of_ok hrun
  | failed call _ hlive hordered hrun ih => exact (ih.perform hlive hordered).of_error hrun

/-- Canonicity.  After every run the diagram is reduced and ordered, every reference to a stored
node has a value under every assignment, and two references have the same values exactly when
they are equal.  A cube of several literals with the least signed number among them is a call
that fails: sorting overflows before a node is stored. -/
theorem reached_canonical {m : Manager} (h : Reached m) :
    m.Reduced ∧ (∀ f a, m.Live f → ∃ b, m.evaluate f a = .ok b) ∧
      ∀ f g, m.Live f → m.Live g → (f = g ↔ ∀ a, m.evaluate f a = m.evaluate g a) := by
  have hm := h.canonical.reduced
  refine ⟨hm, fun f a hf => ⟨_, hm.evaluate_eq hf a⟩, fun f g hf hg => ?_⟩
  constructor
  · rintro rfl a
    rfl
  · exact hm.eq_of_evaluate_eq hf hg

/-- A run that makes one variable. -/
private def oneVariable : Manager :=
  match ofSizing ⟨3, 2, 5⟩ with
  | .error _ => default
  | .ok m =>
    match Call.perform (.var 1) m with
    | .ok _ m' => m'
    | .error _ m' => m'

/-- The theorem at a run that makes one variable, whose reference is neither constant. -/
theorem oneVariable_canonical :
    Reached oneVariable ∧ oneVariable.Live ⟨2, false⟩ ∧ oneVariable.Reduced ∧
      ¬ ∀ a, oneVariable.evaluate ⟨2, false⟩ a = oneVariable.evaluate Ref.one a := by
  have hreached : Reached oneVariable := by
    have hnew : ∃ m, ofSizing ⟨3, 2, 5⟩ = .ok m ∧ Call.perform (.var 1) m = .ok () oneVariable :=
      ⟨_, rfl, rfl⟩
    obtain ⟨m, hm, hrun⟩ := hnew
    exact Reached.answered (.var 1) (Reached.new hm) (by simp [Call.operands]) trivial hrun
  have hlive : oneVariable.Live ⟨2, false⟩ := ⟨⟨1, Ref.zero, Ref.one⟩, by decide +kernel⟩
  have htheorem := reached_canonical hreached
  refine ⟨hreached, hlive, htheorem.1, fun hsame => ?_⟩
  have heq := (htheorem.2.2 _ _ hlive ⟨Node.blank, by decide +kernel⟩).2 hsame
  simp [Ref.one] at heq

end Manager

end SymbolicOmega
