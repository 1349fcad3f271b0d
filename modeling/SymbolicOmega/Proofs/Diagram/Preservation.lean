import SymbolicOmega.Proofs.Diagram.Causes

/-!
# What every operation keeps

All operations but collections change the nodes through putting them into the table, and the
computed table by looking up and inserting.  So what these steps carry to their answers, the
operations do, and what the steps keep, the operations keep, at an answer and at a fault; the
causes that they fail for are those of the steps.
-/

namespace SymbolicOmega

namespace Manager

variable {β : Type} {P : Manager → Prop} {Q : Fault → Prop}

theorem ask_upholds (question : Manager → Except Fault β) : Upholds P (ask question) :=
  .of_secures (ask_secures fun _ _ _ => trivial)

theorem onNodes_upholds {I : UniqueTable Node → Prop} {x : TableM Node β} (h : Upholds I x) :
    Upholds (fun m => I m.nodes) (onNodes x) := fun m hm => onNodes_outcome (h m.nodes hm)

/-- A collection changes the nodes by a sweep alone. -/
theorem collect_upholds {I : UniqueTable Node → Prop}
    (hretain : ∀ keep, Upholds I (UniqueTable.retain keep)) (roots : List Ref) :
    Upholds (fun m => I m.nodes) (collect roots) := by
  have hforget : Upholds (fun m => I m.nodes) forgetComputed := fun _ hm => hm
  have hraise : ∀ alive, Upholds (fun m => I m.nodes) (raiseThreshold alive) := fun _ _ hm => hm
  apply hforget.bind
  intro _
  apply (ask_upholds (·.descendants roots)).bind
  intro alive
  apply (onNodes_upholds (hretain alive.contains)).bind
  intro sweep
  exact (hraise alive.size).bind fun _ => Upholds.pure sweep.dropped

/-! ## What is carried to an answer -/

/-- What making a node carries to its answer, where `bad` allows any cause that lies in the
diagram. -/
structure MakesNodes (P : Manager → Prop) (bad : Fault → Manager → Prop) : Prop where
  causes : ∀ (fault : Fault) m, fault.OfDiagram → P m → bad fault m
  mkNode : ∀ v low high, Carries P bad (Manager.mkNode v low high)

section MakesNodes
variable {bad : Fault → Manager → Prop}

/-- What storing a node carries to its answer, making a node does. -/
theorem MakesNodes.of_put (causes : ∀ (fault : Fault) m, fault.OfDiagram → P m → bad fault m)
    (put : ∀ node, Carries P bad (onNodes (UniqueTable.put node))) : MakesNodes P bad where
  causes := causes
  mkNode v low high := by
    have hthrow : ∀ fault : Fault, fault.OfDiagram → Carries P bad (throw fault : ManagerM Ref) :=
      fun fault hfault => Carries.throw fun m hm => causes fault m hfault hm
    have hstore : ∀ low high, Carries P bad (storeNode v low high) := by
      intro low high
      apply Carries.ite (Carries.pure low)
      apply (put _).bind
      intro index
      cases Ref.ofIndex? index false with
      | some r => exact Carries.pure r
      | none => exact hthrow .nodeIndexTooLarge trivial
    apply Carries.ite (hthrow .zeroVariable trivial)
    apply Carries.ite
    · exact (hstore _ _).bind fun r => Carries.pure (-r)
    · exact hstore low high

variable (h : MakesNodes P bad)
include h

theorem MakesNodes.throws (fault : Fault) (hfault : fault.OfDiagram) :
    Carries P bad (throw fault : ManagerM β) :=
  Carries.throw fun m hm => h.causes fault m hfault hm

theorem MakesNodes.mkCube (literals : List Literal) :
    Carries P bad (Manager.mkCube literals) := by
  apply Carries.ite (h.throws .arithmeticOverflow trivial)
  apply Carries.foldrM
  intro literal _ rest
  exact Carries.ite (h.mkNode _ _ _) (h.mkNode _ _ _)

end MakesNodes

/-- What the steps carry to their answers that all operations but collections are made of. -/
structure Computes (P : Manager → Prop) (bad : Fault → Manager → Prop) : Prop
    extends MakesNodes P bad where
  computed : ∀ {β : Type} (x : ComputedTable Triple Ref → β × ComputedTable Triple Ref),
    Carries P bad (onComputed x)

namespace Computes

variable {bad : Fault → Manager → Prop} (h : Computes P bad)
include h

theorem splitAt {answer : Triple → ManagerM Ref} (hanswer : ∀ t, Carries P bad (answer t))
    (key : Triple) (v : UInt32) : Carries P bad (Manager.splitAt answer key v) := by
  have hask : ∀ r : Ref, Carries P bad (ask (·.cofactors r v)) := fun r =>
    ask_carries fun m fault hm hfault => h.causes fault m (cofactors_error hfault) hm
  apply (hask key.f).bind
  intro f
  apply (hask key.g).bind
  intro g
  apply (hask key.h).bind
  intro h'
  apply (hanswer _).bind
  intro low
  apply (hanswer _).bind
  intro high
  apply (h.mkNode v low high).bind
  intro r
  exact (h.computed _).bind fun _ => Carries.pure r

theorem iteWithin (bound : Nat) (t : Triple) : Carries P bad (Manager.iteWithin bound t) := by
  have hask : ∀ r : Ref, Carries P bad (ask (·.topVar r)) := fun r =>
    ask_carries fun m fault hm hfault => h.causes fault m (topVar_error hfault) hm
  induction bound generalizing t with
  | zero => exact h.throws .boundReached trivial
  | succ bound ih =>
      rw [Manager.iteWithin]
      cases t.constant? with
      | some r => exact Carries.pure r
      | none =>
      cases t.simplify? with
      | some t' => exact ih t'
      | none =>
      apply (hask t.f).bind
      intro i
      apply (hask t.g).bind
      intro j
      apply (hask t.h).bind
      intro k
      apply Carries.throwIf fun m hm => h.causes .undecidedNode m trivial hm
      cases t.exchange? i j k with
      | some t' => exact ih t'
      | none =>
      apply (h.computed _).bind
      intro found
      cases found with
      | some r => exact Carries.pure _
      | none => exact (h.splitAt ih _ _).bind fun r => Carries.pure _

theorem disjAll (rs : List Ref) : Carries P bad (Manager.disjAll rs) :=
  Carries.foldlM (fun _ _ => h.iteWithin _ _) rs Ref.zero

end Computes

/-! ## What is kept at either end -/

/-- What storing a node keeps of a manager, and the causes that it fails for: any that lie in
the diagram, and maybe others. -/
structure Puts (P : Manager → Prop) (Q : Fault → Prop) : Prop where
  causes : ∀ fault : Fault, fault.OfDiagram → Q fault
  put : ∀ node, Secures P Q (onNodes (UniqueTable.put node))

/-- Keeping is carrying to both ends. -/
theorem Puts.makesNodes (h : Puts P Q) : MakesNodes P fun fault m => Q fault ∧ P m :=
  .of_put (fun fault _ hfault hm => ⟨h.causes fault hfault, hm⟩) h.put

theorem Puts.mkNode (h : Puts P Q) (v : UInt32) (low high : Ref) :
    Secures P Q (Manager.mkNode v low high) :=
  h.makesNodes.mkNode v low high

theorem Puts.mkCube (h : Puts P Q) (literals : List Literal) :
    Secures P Q (Manager.mkCube literals) :=
  h.makesNodes.mkCube literals

/-- What the steps keep of a manager that all operations but collections are made of. -/
structure Steps (P : Manager → Prop) (Q : Fault → Prop) : Prop extends Puts P Q where
  computed : ∀ {β : Type} (x : ComputedTable Triple Ref → β × ComputedTable Triple Ref),
    Secures P Q (onComputed x)

namespace Steps

variable (h : Steps P Q)
include h

theorem computes : Computes P fun fault m => Q fault ∧ P m where
  toMakesNodes := h.makesNodes
  computed := h.computed

theorem iteWithin (bound : Nat) (t : Triple) : Secures P Q (Manager.iteWithin bound t) :=
  h.computes.iteWithin bound t

theorem ite (f g h' : Ref) : Secures P Q (Manager.ite f g h') :=
  h.iteWithin stepBound ⟨f, g, h'⟩

theorem disjAll (rs : List Ref) : Secures P Q (Manager.disjAll rs) :=
  h.computes.disjAll rs

end Steps

theorem puts_of_upholds (hput : ∀ node, Upholds P (onNodes (UniqueTable.put node))) :
    Puts P fun _ => True where
  causes _ _ := trivial
  put node := (hput node).secures

/-- Whatever the state, the steps fail for causes in the diagram. -/
theorem steps_ofDiagram : Steps (fun _ => True) Fault.OfDiagram where
  causes _ hfault := hfault
  put node m _ := (onNodes_outcome (UniqueTable.put_failsBy node m.nodes trivial)).mono
    (fun _ _ _ => trivial) fun _ _ hend => ⟨hend.1, trivial⟩
  computed _ _ _ := trivial

/-- What the steps keep of a manager that all operations are made of. -/
structure Lasting (P : Manager → Prop) : Prop where
  put : ∀ node, Upholds P (onNodes (UniqueTable.put node))
  computed : ∀ {β : Type} (x : ComputedTable Triple Ref → β × ComputedTable Triple Ref),
    Upholds P (onComputed x)
  collect : ∀ roots, Upholds P (Manager.collect roots)

theorem Lasting.steps (hP : Lasting P) : Steps P fun _ => True where
  toPuts := puts_of_upholds hP.put
  computed x := (hP.computed x).secures

end Manager

end SymbolicOmega
