import SymbolicOmega.Proofs.Diagram.Exhaustion

/-!
# What if-then-else answers

The answer to a triple evaluates, under every assignment, to one branch or the other as the
condition evaluates.  What could be evaluated before still can and to the same value, whether the
triple is answered or not, and what is remembered of earlier triples stays as right.  A triple is
not answered only if there is no cell for a node.
-/

namespace SymbolicOmega

namespace Manager

variable {m m' : Manager} {t : Triple}

/-- `r` is stored in `m'` and evaluates there to the branch that the condition of the triple
selects in `m`. -/
def Selects (m : Manager) (t : Triple) (m' : Manager) (r : Ref) : Prop :=
  m'.Live r ∧ ∀ a, ∃ f g h, m.evaluate t.f a = .ok f ∧ m.evaluate t.g a = .ok g ∧
    m.evaluate t.h a = .ok h ∧ m'.evaluate r a = .ok (if f then g else h)

/-- How `m'` is related to a manager that an operation started from. -/
structure Intact (m m' : Manager) : Prop where
  reduced : m'.Reduced
  evaluate : ∀ r, m.Live r → m'.Live r ∧
    ∀ a, ∃ bit, m.evaluate r a = .ok bit ∧ m'.evaluate r a = .ok bit
  computed : ∀ (slot : Nat) (key : Triple) (r : Ref),
    m'.computed.slots[slot]? = some (some (key, r)) → m'.Operands key ∧ m'.Selects key m' r

theorem Denotes.selects {r : Ref} (hr : m'.Denotes r (m.choice t)) (hm : m.Reduced)
    (hm' : m'.Reduced) (ht : m.Operands t) : m.Selects t m' r := by
  refine ⟨hr.1, fun a => ⟨_, _, _, hm.evaluate_eq ht.f a, hm.evaluate_eq ht.g a,
    hm.evaluate_eq ht.h a, ?_⟩⟩
  rw [hm'.evaluate_eq hr.1, hr.2, choice]

theorem Extends.intact (h : m.Extends m') (hm : m.Canonical) (hm' : m'.Canonical) :
    m.Intact m' where
  reduced := hm'.reduced
  evaluate r hr := ⟨h.live hr, fun a => ⟨_, hm.reduced.evaluate_eq hr a, by
    rw [h.evaluate hm.closed hr, hm.reduced.evaluate_eq hr]⟩⟩
  computed slot key r hslot := by
    obtain ⟨hkey, hr⟩ := hm'.computed slot key r hslot
    exact ⟨hkey, hr.selects hm'.reduced hm'.reduced hkey⟩

/-- At either end of an operation that grows the diagram what was there is intact. -/
theorem Grows.intact {β : Type} {x : ManagerM β} {good good' : β → Manager → Prop}
    (h : m.Grows x good) (hm : m.Canonical)
    (hfails : Outcome x m (fun _ m' => m'.HasHistory) NoCell)
    (hgood : ∀ b m', m'.Canonical → good b m' → good' b m') :
    Outcome x m (fun b m' => good' b m' ∧ m.Intact m')
      fun fault m' => m.Intact m' ∧ m'.NoCell fault :=
  (Outcome.and h hfails).mono
    (fun b m' hend => ⟨hgood b m' hend.1.1 hend.1.2.2, hend.1.2.1.intact hm hend.1.1⟩)
    fun _ _ hend => ⟨hend.1.2.intact hm hend.1.1, hend.2⟩

/-- That no assignment makes `p` hold of one stored function and `q` of another, said of what
the two evaluate to. -/
private theorem forall_value_iff (hm : m.Reduced) {f g : Ref} (hf : m.Live f) (hg : m.Live g)
    (p q : Bool) : (∀ a, ¬ (m.value f a = p ∧ m.value g a = q)) ↔
      ¬ ∃ a, m.evaluate f a = .ok p ∧ m.evaluate g a = .ok q := by
  simp only [hm.evaluate_eq hf, hm.evaluate_eq hg, Except.ok.injEq, not_exists]

/-- If-then-else.  After any run that left a reduced and ordered diagram, the answer to three
references that are not dangling evaluates to the second where the first holds and to the third
elsewhere, one function is answered to imply another exactly if no assignment makes the first
hold and not the second, and two functions are answered to be disjoint exactly if no assignment
makes both hold.  There is an answer unless there is no cell for a node, and with or without one
every reference that was valid evaluates as before and every remembered result is right. -/
theorem ite_selects {sizing : Sizing} {faults : List Fault} {f g h : Ref}
    (hrun : Run sizing faults m) (hm : m.Reduced) (hf : m.Live f) (hg : m.Live g)
    (hh : m.Live h) :
    Outcome (ite f g h) m (fun r m' => m.Selects ⟨f, g, h⟩ m' r ∧ m.Intact m')
        (fun fault m' => m.Intact m' ∧ m'.NoCell fault) ∧
      Outcome (implies f g) m
        (fun b m' => (b = true ↔
          ¬ ∃ a, m.evaluate f a = .ok true ∧ m.evaluate g a = .ok false) ∧ m.Intact m')
        (fun fault m' => m.Intact m' ∧ m'.NoCell fault) ∧
      Outcome (disjoint f g) m
        (fun b m' => (b = true ↔
          ¬ ∃ a, m.evaluate f a = .ok true ∧ m.evaluate g a = .ok true) ∧ m.Intact m')
        (fun fault m' => m.Intact m' ∧ m'.NoCell fault) := by
  have hcanonical := hrun.sound.canonical hm
  have hhistory : m.HasHistory := hrun.lasting hasHistory_lasting fun _ => ofSizing_hasHistory
  refine ⟨?_, ?_, ?_⟩
  · exact (ite_grows hcanonical hf hg hh).intact hcanonical
      (choice_fails hcanonical hhistory ⟨hf, hg, hh⟩) fun r m' hm' hr =>
        hr.selects hm hm'.reduced ⟨hf, hg, hh⟩
  · refine (implies_grows hcanonical hf hg).intact hcanonical
      (implies_fails hcanonical hhistory hf hg) fun b m' _ hb => hb.trans ?_
    rw [← forall_value_iff hm hf hg true false]
    simp
  · exact (disjoint_grows hcanonical hf hg).intact hcanonical
      (disjoint_fails hcanonical hhistory hf hg) fun b m' _ hb =>
        hb.trans (forall_value_iff hm hf hg true true)

private def answers {β : Type} : EStateM.Result Fault Manager β → Bool
  | .ok _ _ => true
  | .error _ _ => false

private theorem exclusiveOr_answers :
    ∃ r m', ite ⟨2, false⟩ ⟨3, true⟩ ⟨3, false⟩ pair = .ok r m' := by
  have hanswers : answers (ite ⟨2, false⟩ ⟨3, true⟩ ⟨3, false⟩ pair) = true := by decide +kernel
  cases hanswer : ite ⟨2, false⟩ ⟨3, true⟩ ⟨3, false⟩ pair with
  | ok r m' => exact ⟨r, m', rfl⟩
  | error fault m' =>
      rw [hanswer] at hanswers
      cases hanswers

/-- The theorem at the exclusive or of two variables. -/
theorem pair_selects :
    Run ⟨3, 2, 5⟩ [] pair ∧ pair.Reduced ∧
      ∃ r m', ite ⟨2, false⟩ ⟨3, true⟩ ⟨3, false⟩ pair = .ok r m' ∧
        pair.Selects ⟨⟨2, false⟩, ⟨3, true⟩, ⟨3, false⟩⟩ m' r ∧ pair.Intact m' := by
  obtain ⟨hrun, hreduced⟩ := pair_run
  obtain ⟨r, m', hanswer⟩ := exclusiveOr_answers
  have htheorem := ite_selects hrun hreduced (pair_live false).1 (pair_live true).2
    (pair_live false).2
  have hend := htheorem.1.of_ok hanswer
  exact ⟨hrun, hreduced, r, m', hanswer, hend⟩

end Manager

end SymbolicOmega
