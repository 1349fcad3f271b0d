import SymbolicOmega.Diagram.Collection
import SymbolicOmega.Diagram.Count
import SymbolicOmega.Diagram.IfThenElse
import SymbolicOmega.Proofs.Outcome

/-!
# Causes that lie in the diagram

A diagram knows of cells, nodes and variables.  Whatever is done to its tables, it never fails
because of a root that no set holds, a proposition, a name or another factory.
-/

namespace SymbolicOmega

/-- The causes that do not speak of letter sets. -/
def Fault.OfDiagram : Fault → Prop
  | .rootNotHeld _ | .propositionOutside _ _ | .foreignFactory | .unknownName _ => False
  | _ => True

namespace UniqueTable

variable {α : Type} {t : UniqueTable α} {fault : Fault}

theorem cell_error {index : Nat} (h : t.cell index = .error fault) : fault.OfDiagram := by
  rw [cell] at h
  split at h
  · cases h
    exact trivial
  · split at h
    · cases h
    · cases h
      exact trivial

theorem value_error {index : Nat} (h : t.value index = .error fault) : fault.OfDiagram := by
  rw [value] at h
  cases hcell : t.cell index with
  | ok cell => simp [hcell] at h
  | error fault' =>
      simp only [hcell, Except.error.injEq] at h
      exact h ▸ cell_error hcell

theorem next_error {index : Nat} (h : t.next index = .error fault) : fault.OfDiagram := by
  rw [next] at h
  cases hcell : t.cell index with
  | ok cell => simp [hcell] at h
  | error fault' =>
      simp only [hcell, Except.error.injEq] at h
      exact h ▸ cell_error hcell

theorem firstFree?_error {cells : Array (Cell α)} {start count : Nat}
    (h : firstFree? cells start count = .error fault) : fault = .indexOutOfRange := by
  induction count generalizing start with
  | zero => cases h
  | succ count ih =>
      rw [firstFree?] at h
      split at h
      · cases h
        rfl
      · split at h
        · exact ih h
        · cases h

theorem walkChain_error [DecidableEq α] {value : α} {bound index : Nat}
    (h : t.walkChain value bound index = .error fault) : fault.OfDiagram := by
  induction bound generalizing index with
  | zero =>
      cases h
      exact trivial
  | succ bound ih =>
      rw [walkChain] at h
      cases hcell : t.cell index with
      | error fault' =>
          simp only [hcell, Except.error.injEq] at h
          exact h ▸ cell_error hcell
      | ok cell =>
          simp only [hcell] at h
          split at h
          · cases h
          · split at h
            · cases h
            · exact ih h

theorem locate_error [DecidableEq α] [Hashable α] {value : α}
    (h : t.locate value = .error fault) : fault.OfDiagram := by
  rw [locate] at h
  split at h
  · cases h
  · split at h
    · cases h
    · cases h
      exact walkChain_error ‹_›

/-! ## Writing and sweeping -/

theorem updateCell_failsBy (index : Nat) (change : Cell α → Cell α) :
    FailsBy Fault.OfDiagram (updateCell index change) := by
  intro t _
  unfold Outcome updateCell
  cases hcell : t.cell index with
  | ok cell => exact trivial
  | error fault => exact ⟨cell_error hcell, trivial⟩

theorem setHead_failsBy (bucket index : Nat) :
    FailsBy Fault.OfDiagram (setHead bucket index : TableM α Unit) := fun _ _ => trivial

theorem alloc_failsBy [Inhabited α] : FailsBy Fault.OfDiagram (alloc : TableM α Nat) := by
  intro t _
  unfold Outcome alloc
  cases hfree : firstFree? t.cells t.minFree (t.lastIndex + 1 - t.minFree) with
  | error fault =>
      obtain rfl := firstFree?_error hfree
      exact ⟨trivial, trivial⟩
  | ok found =>
      dsimp only
      by_cases hfull : t.capacity ≤ found.getD (t.lastIndex + 1)
      · simp only [hfull, if_true]
        exact ⟨trivial, trivial⟩
      · simp only [hfull, if_false]

theorem drop_failsBy (index : Nat) : FailsBy Fault.OfDiagram (drop index : TableM α Unit) := by
  intro t _
  unfold Outcome drop
  cases hcell : t.cell index with
  | error fault => exact ⟨cell_error hcell, trivial⟩
  | ok cell =>
      dsimp only
      cases cell.occupied with
      | true => exact trivial
      | false => exact ⟨trivial, trivial⟩

theorem followLink_failsBy (index : Nat) :
    FailsBy Fault.OfDiagram (followLink index : TableM α Nat) := by
  intro t _
  unfold Outcome followLink
  cases hnext : t.next index with
  | ok next => exact trivial
  | error fault => exact ⟨next_error hnext, trivial⟩

/-- What storing a value carries to its answer, and linking a cell too, putting a value does. -/
theorem put_carries [DecidableEq α] [Hashable α] [Inhabited α] {P : UniqueTable α → Prop}
    {bad : Fault → UniqueTable α → Prop} (v : α)
    (hlocate : ∀ t fault, P t → t.locate v = .error fault → bad fault t)
    (hadd : Carries P bad (add v)) (hnext : ∀ index next, Carries P bad (setNext index next))
    (hhead : ∀ bucket index, Carries P bad (setHead bucket index)) : Carries P bad (put v) := by
  intro t ht
  unfold Outcome put
  cases hwhere : t.locate v with
  | error fault => exact hlocate t fault ht hwhere
  | ok found =>
      have hlinked : ∀ link : Nat → TableM α Unit, (∀ index, Carries P bad (link index)) →
          Carries P bad do
            let index ← add v
            link index
            return index := fun link hlink =>
        hadd.bind fun index => (hlink index).bind fun _ => Carries.pure index
      cases found with
      | none => exact hlinked _ (hhead _) t ht
      | some chainEnd =>
          cases chainEnd with
          | found index => exact ht
          | last last => exact hlinked _ (hnext last) t ht

theorem put_failsBy [DecidableEq α] [Hashable α] [Inhabited α] (value : α) :
    FailsBy Fault.OfDiagram (put value) := by
  have hadd : FailsBy Fault.OfDiagram (add value) :=
    alloc_failsBy.bind fun index => (updateCell_failsBy index _).bind fun _ => Secures.pure index
  exact put_carries value (fun _ _ _ hfault => ⟨locate_error hfault, trivial⟩) hadd
    (fun index _ => updateCell_failsBy index _) setHead_failsBy

theorem sweepChain_failsBy (keep : Nat → Bool) (bound index : Nat) (kept : List Nat)
    (sweep : Sweep) :
    FailsBy Fault.OfDiagram (sweepChain keep bound index kept sweep : TableM α _) := by
  induction bound generalizing index kept sweep with
  | zero =>
      cases index with
      | zero => exact Secures.pure (kept, sweep)
      | succ index => exact Secures.throw trivial
  | succ bound ih =>
      cases index with
      | zero => exact Secures.pure (kept, sweep)
      | succ index =>
          rw [sweepChain]
          apply (followLink_failsBy _).bind
          intro next
          apply Secures.ite (ih _ _ _)
          exact (drop_failsBy _).bind fun _ => ih _ _ _

theorem linkChain_failsBy (chain : List Nat) :
    FailsBy Fault.OfDiagram (linkChain chain : TableM α Unit) := by
  induction chain with
  | nil => exact Secures.pure ()
  | cons first rest ih =>
      cases rest with
      | nil => exact updateCell_failsBy first _
      | cons second rest => exact (updateCell_failsBy first _).bind fun _ => ih

theorem retain_failsBy (keep : Nat → Bool) :
    FailsBy Fault.OfDiagram (retain keep : TableM α Sweep) := by
  have hread : ∀ {β : Type} (question : UniqueTable α → β),
      FailsBy Fault.OfDiagram (modifyGet fun t => (question t, t) : TableM α β) :=
    fun _ _ _ => trivial
  apply (hread _).bind
  intro buckets
  apply Secures.foldlM
  intro sweep bucket
  apply (hread _).bind
  rintro ⟨head, bound⟩
  apply (sweepChain_failsBy keep bound head [] sweep).bind
  rintro ⟨kept, sweep⟩
  exact (setHead_failsBy _ _).bind fun _ => (linkChain_failsBy _).bind fun _ => Secures.pure _

end UniqueTable

namespace Manager

variable {β : Type} {P : Manager → Prop} {Q : Fault → Prop} {m : Manager} {fault : Fault}

/-! ## The manager -/

theorem ask_carries {bad : Fault → Manager → Prop} {question : Manager → Except Fault β}
    (hbad : ∀ m fault, P m → question m = .error fault → bad fault m) :
    Carries P bad (ask question) := by
  intro m hm
  unfold Outcome ask
  cases hask : question m with
  | ok b => exact hm
  | error fault => exact hbad m fault hm hask

theorem ask_secures {question : Manager → Except Fault β}
    (hQ : ∀ m fault, question m = .error fault → Q fault) : Secures P Q (ask question) :=
  ask_carries fun m fault hm hfault => ⟨hQ m fault hfault, hm⟩

/-- What holds of the nodes at either end holds of the manager's. -/
theorem onNodes_outcome {m : Manager} {x : TableM Node β} {good : β → UniqueTable Node → Prop}
    {bad : Fault → UniqueTable Node → Prop} (h : Outcome x m.nodes good bad) :
    Outcome (onNodes x) m (fun b m' => good b m'.nodes) fun fault m' => bad fault m'.nodes := by
  unfold Outcome onNodes
  dsimp only
  cases hrun : x m.nodes with
  | ok b u => exact h.of_ok hrun
  | error fault u => exact h.of_error hrun

theorem topVar_error {r : Ref} (h : m.topVar r = .error fault) : fault.OfDiagram := by
  rw [topVar] at h
  cases hnode : m.node r.index with
  | ok node => simp [hnode] at h
  | error fault' =>
      simp only [hnode, Except.error.injEq] at h
      exact h ▸ UniqueTable.value_error hnode

theorem cofactors_error {r : Ref} {v : UInt32} (h : m.cofactors r v = .error fault) :
    fault.OfDiagram := by
  rw [cofactors] at h
  split at h
  · cases h
    exact trivial
  split at h
  · cases h
  cases hnode : m.node r.index with
  | error fault' =>
      simp only [hnode, Except.error.injEq] at h
      exact h ▸ UniqueTable.value_error hnode
  | ok node =>
      simp only [hnode] at h
      split at h
      · cases h
      split at h
      · cases h
      · cases h
        exact trivial

theorem evaluateWithin_error {assignment : UInt32 → Bool} {bound : Nat} {r : Ref}
    (h : m.evaluateWithin assignment bound r = .error fault) : fault.OfDiagram := by
  induction bound generalizing r with
  | zero =>
      cases h
      exact trivial
  | succ bound ih =>
      rw [evaluateWithin] at h
      split at h
      · cases h
      cases hnode : m.node r.index with
      | error fault' =>
          simp only [hnode, Except.error.injEq] at h
          exact h ▸ UniqueTable.value_error hnode
      | ok node =>
          simp only [hnode] at h
          exact ih h

/-- A sequence of questions fails where one of them does. -/
theorem error_of_bind {α γ : Type} {x : Except Fault α} {f : α → Except Fault γ}
    (h : (x >>= f) = .error fault) :
    x = .error fault ∨ ∃ a, x = .ok a ∧ f a = .error fault := by
  cases x with
  | error fault' => exact .inl (congrArg Except.error (Except.error.inj h))
  | ok a => exact .inr ⟨a, rfl, h⟩

theorem countWithin_error {total bound : Nat} {r : Ref} {known : Counts}
    (h : m.countWithin total bound r known = .error fault) : fault.OfDiagram := by
  induction bound generalizing r known with
  | zero =>
      cases h
      exact trivial
  | succ bound ih =>
      rw [countWithin] at h
      split at h
      · cases h
      split at h
      · cases h
      split at h
      · cases h
      obtain hnode | ⟨node, -, h⟩ := error_of_bind h
      · exact UniqueTable.value_error hnode
      obtain hlow | ⟨⟨low, known⟩, -, h⟩ := error_of_bind h
      · exact ih hlow
      obtain hhigh | ⟨⟨high, known⟩, -, h⟩ := error_of_bind h
      · exact ih hhigh
      · cases h

theorem count_error {r : Ref} {n : Nat} (h : m.count r n = .error fault) : fault.OfDiagram := by
  obtain hcount | ⟨count, -, h⟩ := error_of_bind h
  · exact countWithin_error hcount
  · cases h

theorem markWithin_error {bound : Nat} {rs : List Ref} {marked : Std.HashSet Nat}
    (h : m.markWithin bound rs marked = .error fault) : fault.OfDiagram := by
  induction bound generalizing rs marked with
  | zero =>
      cases rs with
      | nil => cases h
      | cons r rest =>
          cases h
          exact trivial
  | succ bound ih =>
      cases rs with
      | nil => cases h
      | cons r rest =>
          rw [markWithin] at h
          split at h
          · exact ih h
          cases hnode : m.node r.index with
          | error fault' =>
              simp only [hnode, Except.error.injEq] at h
              exact h ▸ UniqueTable.value_error hnode
          | ok node =>
              simp only [hnode] at h
              exact ih h

theorem collect_failsBy (roots : List Ref) : FailsBy Fault.OfDiagram (collect roots) := by
  have hforget : FailsBy Fault.OfDiagram forgetComputed := fun _ _ => trivial
  have hraise : ∀ alive, FailsBy Fault.OfDiagram (raiseThreshold alive) := fun _ _ _ => trivial
  apply hforget.bind
  intro _
  have hask : FailsBy Fault.OfDiagram (ask (·.descendants roots)) :=
    ask_secures fun _ _ hfault => markWithin_error hfault
  apply hask.bind
  intro alive
  have hsweep : FailsBy Fault.OfDiagram (onNodes (UniqueTable.retain alive.contains)) :=
    fun m _ => (onNodes_outcome (UniqueTable.retain_failsBy alive.contains m.nodes trivial)).mono
      (fun _ _ _ => trivial) fun _ _ hend => ⟨hend.1, trivial⟩
  exact hsweep.bind fun sweep => (hraise _).bind fun _ => Secures.pure _

end Manager

end SymbolicOmega
