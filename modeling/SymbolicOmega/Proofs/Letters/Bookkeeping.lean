import SymbolicOmega.Letters.Label
import SymbolicOmega.Proofs.Letters.Calls
import SymbolicOmega.Proofs.Letters.Exhaustion

/-!
# The books of a factory

A factory holds the root of each live set, once for each.  What an operation takes over and what
it leaves behind is stated for the sets in hand, whatever other sets there are: these stay on the
books in any case.  Nothing is said of diagrams here, so all of this holds over alphabets of any
size and for sets of any letters.
-/

namespace SymbolicOmega

/-- Any cause but that a root was given back that no set holds. -/
def Fault.Orderly (fault : Fault) : Prop :=
  ∀ root, fault ≠ .rootNotHeld root

theorem Fault.OfDiagram.orderly {fault : Fault} (h : fault.OfDiagram) : fault.Orderly := by
  rintro root rfl
  exact h

namespace Factory

/-- The factory holds these roots and no others, and its nodes have a history. -/
structure Books (f : Factory) (roots : List Ref) : Prop where
  held : f.roots.Lists roots
  history : f.manager.HasHistory

variable {f : Factory} {roots : List Ref} {root : Ref}

theorem ofSizing_books {k : Nat} {sizing : Sizing} (hnew : ofSizing k sizing = .ok f) :
    f.Books [] := by
  cases hm : Manager.ofSizing sizing with
  | error fault => simp [ofSizing, hm, bind, Except.bind] at hnew
  | ok m =>
      simp only [ofSizing, hm, bind, Except.bind, pure, Except.pure, Except.ok.injEq] at hnew
      subst hnew
      exact ⟨Roots.none_lists, Manager.ofSizing_hasHistory hm⟩

/-- What is done with the manager is nothing to the roots. -/
theorem steps_books (roots : List Ref) : Steps (·.Books roots) Fault.Orderly where
  manager k held :=
    have hkeeps : ∀ {β : Type} {x : ManagerM β}, Upholds Manager.HasHistory x →
        FailsBy Fault.OfDiagram x →
        Secures (fun m => (⟨m, k, held⟩ : Factory).Books roots) Fault.Orderly x :=
      fun hx hcauses m hm => ((hx m hm.history).and (hcauses m trivial)).mono
        (fun _ _ hend => ⟨hm.held, hend.1⟩) fun _ _ hend => ⟨hend.2.1.orderly, hm.held, hend.1⟩
    { causes := fun _ hfault => hfault.orderly
      put := fun node => hkeeps (Manager.hasHistory_lasting.put node)
        (Manager.steps_ofDiagram.put node)
      computed := fun x => hkeeps (Manager.hasHistory_lasting.computed x)
        (Manager.steps_ofDiagram.computed x) }
  collect := by
    rintro ⟨m, k, held⟩ hf
    have hend := (Manager.hasHistory_lasting.collect held.keys m hf.history).and
      (Manager.collect_failsBy held.keys m trivial)
    unfold Outcome collect
    dsimp only
    cases hrun : Manager.collect held.keys m with
    | ok dropped m' => exact ⟨hf.held, (hend.of_ok hrun).1⟩
    | error fault m' =>
        exact ⟨(hend.of_error hrun).2.1.orderly, hf.held, (hend.of_error hrun).1⟩

theorem acquire_books (h : f.Books roots) (root : Ref) :
    ∃ f', acquire root f = .ok () f' ∧ f'.Books (root :: roots) := by
  obtain ⟨held, hrun, hheld⟩ := acquire_lists h.held root
  exact ⟨_, hrun, hheld, h.history⟩

/-- A root on the books can be given back. -/
theorem release_books (h : f.Books (root :: roots)) :
    ∃ f', release root f = .ok () f' ∧ f'.Books roots := by
  obtain ⟨held, hrun, hheld⟩ := release_lists h.held
  exact ⟨_, hrun, hheld, h.history⟩

theorem replace_books {old : Ref} (h : f.Books (old :: roots)) (new : Ref) :
    ∃ f', replace old new f = .ok () f' ∧ f'.Books (new :: roots) := by
  obtain ⟨held, hrun, hheld⟩ := replace_lists h.held new
  exact ⟨_, hrun, hheld, h.history⟩

/-- A new root comes onto the books. -/
theorem Acquires.books {x : FactoryM Ref} (hx : Acquires (·.Books roots) Fault.Orderly x)
    (h : f.Books roots) :
    Outcome x f (fun root f' => f'.Books (root :: roots))
      (fun fault f' => fault.Orderly ∧ f'.Books roots) := by
  obtain ⟨make, rfl, hmake⟩ := hx
  apply Outcome.andThen (hmake f h)
  intro root f₁ hf₁
  obtain ⟨f₂, hacquire, hf₂⟩ := acquire_books hf₁ root
  exact Outcome.bind_ok hacquire (Outcome.pure hf₂)

/-- When nothing is held, a collection leaves the terminal alone. -/
theorem collect_books_nil (h : f.Books []) :
    ∃ dropped f', collect f = .ok dropped f' ∧ f'.manager.size = 1 := by
  obtain ⟨m, k, held⟩ := f
  obtain rfl : held = Roots.none := h.held.eq_none
  obtain ⟨dropped, m', hrun, hsize⟩ := Manager.collect_nothing h.history
  have hkeys : Roots.none.keys = [] := rfl
  refine ⟨dropped, ⟨m', k, Roots.none⟩, ?_, hsize⟩
  simp only [collect, hkeys, hrun]

end Factory

/-! ## Workspaces -/

namespace Workspace

/-- The sets are on the books of the factory at position `i`, which holds nothing else.  Beside
them stand the holders of sets of transitions and the next ticket. -/
structure Books (w : Workspace) (i : Nat) (tickets : List Nat × Nat) (sets : List LetterSet) :
    Prop where
  owner : ∀ s ∈ sets, s.owner = i
  holds : ∃ f, w.factories[i]? = some f ∧ f.Books (sets.map LetterSet.root)
  tickets : (w.holders, w.nextTicket) = tickets

variable {β γ : Type} {w : Workspace} {i : Nat} {tickets : List Nat × Nat}
variable {L L' : List LetterSet}

theorem Books.perm (h : w.Books i tickets L) (hperm : L.Perm L') : w.Books i tickets L' := by
  obtain ⟨f, hf, hbooks⟩ := h.holds
  exact ⟨fun s hs => h.owner s (hperm.mem_iff.2 hs), ⟨f, hf, hbooks.held.perm (hperm.map _),
    hbooks.history⟩, h.tickets⟩

/-- What is done in the factory changes neither holders nor tickets. -/
theorem inFactory_books {x : FactoryM β} {good : β → Factory → Prop}
    {bad : Fault → Factory → Prop} (h : w.Books i tickets L)
    (hx : ∀ f : Factory, f.Books (L.map LetterSet.root) → Outcome x f good bad) :
    Outcome (inFactory i x) w
      (fun b w' => (w'.holders, w'.nextTicket) = tickets ∧
        ∃ f, w'.factories[i]? = some f ∧ good b f)
      (fun fault w' => (w'.holders, w'.nextTicket) = tickets ∧
        ∃ f, w'.factories[i]? = some f ∧ bad fault f) := by
  obtain ⟨f, hf, hbooks⟩ := h.holds
  have hsame : Outcome (inFactory i x) w
      (fun _ w' => (w'.holders, w'.nextTicket) = tickets)
      (fun _ w' => (w'.holders, w'.nextTicket) = tickets) := by
    have htickets := h.tickets
    unfold Outcome inFactory
    by_cases hlt : i < w.factories.size
    · simp only [hlt, dif_pos]
      cases x (w.factories.swapAt i default hlt).1 with
      | ok b f => exact htickets
      | error fault f => exact htickets
    · simp only [hlt, dif_neg, not_false_eq_true]
      exact htickets
  exact hsame.and (inFactory_outcome hf (hx f hbooks))

/-- The operation takes the sets `before` over.  Whatever else is on the books stays there; of what
was taken over, `after` is there when the operation is answered, and `failed` when it fails, which
is never for a root that no set holds. -/
def Trades (i : Nat) (x : WorkM β) (before : List LetterSet) (after : β → List LetterSet)
    (failed : List LetterSet) : Prop :=
  ∀ (w : Workspace) (tickets : List Nat × Nat) (rest : List LetterSet),
    w.Books i tickets (before ++ rest) →
      Outcome x w (fun b w' => w'.Books i tickets (after b ++ rest))
        (fun fault w' => fault.Orderly ∧ w'.Books i tickets (failed ++ rest))

/-- The operation gives these sets back, and cannot fail. -/
def GivesBack (i : Nat) (x : WorkM Unit) (given : List LetterSet) : Prop :=
  ∀ (w : Workspace) (tickets : List Nat × Nat) (rest : List LetterSet),
    w.Books i tickets (given ++ rest) → ∃ w', x w = .ok () w' ∧ w'.Books i tickets rest

namespace Trades

variable {x : WorkM β} {before failed given : List LetterSet} {after : β → List LetterSet}

protected theorem pure (after : β → List LetterSet) (b : β) :
    Trades i (pure b) (after b) after failed :=
  fun _ _ _ h => Outcome.pure h

protected theorem throw {fault : Fault} (hfault : fault.Orderly) :
    Trades i (throw fault : WorkM β) before after before :=
  fun _ _ _ h => Outcome.throw ⟨hfault, h⟩

protected theorem bind {f : β → WorkM γ} {last : γ → List LetterSet}
    (h : Trades i x before after failed) (hf : ∀ b, Trades i (f b) (after b) last failed) :
    Trades i (x >>= f) before last failed :=
  fun w tickets rest hw => Outcome.andThen (h w tickets rest hw) fun b w' hw' =>
    hf b w' tickets rest hw'

/-- Other sets in hand stay in hand. -/
theorem frame (h : Trades i x before after failed) (others : List LetterSet) :
    Trades i x (before ++ others) (fun b => after b ++ others) (failed ++ others) := by
  intro w tickets rest hw
  rw [List.append_assoc] at hw
  simpa only [List.append_assoc] using h w tickets (others ++ rest) hw

/-- The order of the sets in hand does not matter. -/
theorem perm {before' failed' : List LetterSet} {after' : β → List LetterSet}
    (h : Trades i x before after failed) (hbefore : before'.Perm before)
    (hafter : ∀ b, (after b).Perm (after' b)) (hfailed : failed.Perm failed') :
    Trades i x before' after' failed' :=
  fun w tickets rest hw => (h w tickets rest (hw.perm (hbefore.append_right rest))).mono
    (fun b _ hw' => hw'.perm ((hafter b).append_right rest))
    fun _ _ hend => ⟨hend.1, hend.2.perm (hfailed.append_right rest)⟩

/-- The sets in hand are of the factory. -/
theorem of_owner (h : (∀ s ∈ before, s.owner = i) → Trades i x before after failed) :
    Trades i x before after failed :=
  fun w tickets rest hw => h (fun s hs => hw.owner s (List.mem_append_left _ hs)) w tickets rest hw

theorem of_givesBack {x : WorkM Unit} (failed : List LetterSet) (h : GivesBack i x before) :
    Trades i x before (fun _ => []) failed := by
  intro w tickets rest hw
  obtain ⟨w', hrun, hw'⟩ := h w tickets rest hw
  exact Outcome.of_run hrun hw'

/-- What was kept for the last step is given back at either end. -/
protected theorem tryFinally {last : WorkM Unit}
    (h : Trades i x before (fun b => given ++ after b) (given ++ failed))
    (hlast : GivesBack i last given) : Trades i (tryFinally x last) before after failed := by
  intro w tickets rest hw
  refine Outcome.tryFinally ((h w tickets rest hw).mono (fun b w₁ hw₁ => ?_) ?_)
  · rw [List.append_assoc] at hw₁
    obtain ⟨w₂, hrun, hw₂⟩ := hlast w₁ tickets _ hw₁
    exact Outcome.of_run hrun hw₂
  · rintro fault w₁ ⟨hfault, hw₁⟩
    rw [List.append_assoc] at hw₁
    obtain ⟨w₂, hrun, hw₂⟩ := hlast w₁ tickets _ hw₁
    exact Outcome.of_run hrun ⟨hfault, hw₂⟩

/-- What would be lost by a failure is given back. -/
theorem onFault {cleanup : WorkM Unit} (h : Trades i x before after given)
    (hcleanup : GivesBack i cleanup given) : Trades i (onFault x cleanup) before after [] := by
  intro w tickets rest hw
  refine onFault_outcome ((h w tickets rest hw).mono (fun _ _ hw' => hw') ?_)
  rintro fault w₁ ⟨hfault, hw₁⟩
  obtain ⟨w₂, hrun, hw₂⟩ := hcleanup w₁ tickets _ hw₁
  exact Outcome.of_run hrun ⟨hfault, hw₂⟩

/-- A fold whose steps go on with what the one before left. -/
protected theorem foldlM {α : Type} {f : β → α → WorkM β} {list : List α}
    (hf : ∀ a ∈ list, ∀ b, Trades i (f b a) (after b) after failed) (b : β) :
    Trades i (list.foldlM f b) (after b) after failed := by
  induction list generalizing b with
  | nil => exact Trades.pure after b
  | cons first rest ih =>
      obtain ⟨hfirst, hrest⟩ := List.forall_mem_cons.1 hf
      rw [List.foldlM_cons]
      exact (hfirst b).bind (ih hrest)

/-- What is in hand stays in hand while a question is asked. -/
theorem of_secures (sets : List LetterSet) (h : ∀ tickets rest,
    Secures (fun w : Workspace => w.Books i tickets rest) Fault.Orderly x) :
    Trades i x sets (fun _ => sets) sets :=
  fun w tickets rest hw => h tickets (sets ++ rest) w hw

end Trades

/-- What is given back for each element of a list. -/
protected theorem GivesBack.forM {α : Type} {f : α → WorkM Unit} {given : α → List LetterSet}
    (hf : ∀ a, GivesBack i (f a) (given a)) (list : List α) :
    GivesBack i (list.forM f) (list.flatMap given) := by
  induction list with
  | nil => exact fun w _ _ hw => ⟨w, rfl, hw⟩
  | cons first rest ih =>
      intro w tickets others hw
      rw [List.flatMap_cons, List.append_assoc] at hw
      obtain ⟨w₁, hrun₁, hw₁⟩ := hf first w tickets _ hw
      obtain ⟨w₂, hrun₂, hw₂⟩ := ih w₁ tickets others hw₁
      exact ⟨w₂, (run_bind hrun₁).trans hrun₂, hw₂⟩

end Workspace

/-! ## Letter sets -/

namespace LetterSet

open Workspace

variable {i : Nat} {s t : LetterSet}

theorem make_trades {x : FactoryM Ref}
    (hx : ∀ roots, Factory.Acquires (·.Books roots) Fault.Orderly x) :
    Trades i (make i x) [] (fun s => [s]) [] := by
  intro w tickets rest hw
  refine Outcome.bind ((inFactory_books hw fun f hf => (hx _).books hf).mono ?_ ?_)
  · rintro root w' ⟨htickets, hholds⟩
    exact Outcome.pure ⟨List.forall_mem_cons.2 ⟨rfl, hw.owner⟩, hholds, htickets⟩
  · rintro fault w' ⟨htickets, f, hf, hfault, hbooks⟩
    exact ⟨hfault, hw.owner, ⟨f, hf, hbooks⟩, htickets⟩

/-- A root that is there already is held without fail. -/
private theorem make_pure_books {w : Workspace} {tickets : List Nat × Nat} {L : List LetterSet}
    (h : w.Books i tickets L) (root : Ref) :
    ∃ s w', make i (Factory.holding (pure root)) w = .ok s w' ∧ w'.Books i tickets (s :: L) := by
  obtain ⟨f, hf, hbooks⟩ := h.holds
  obtain ⟨f', hacquire, -⟩ := Factory.acquire_books hbooks root
  have hholding : Factory.holding (pure root) f = .ok root f' := by
    change (do Factory.acquire root; return root : FactoryM Ref) f = _
    rw [run_bind hacquire]
    rfl
  obtain ⟨w', hw', -⟩ := inFactory_ok hf hholding
  have hmake : make i (Factory.holding (pure root)) w = .ok ⟨i, root⟩ w' := run_bind hw'
  exact ⟨_, w', hmake,
    (make_trades (fun _ => Factory.acquires_pure root) w tickets L h).of_ok hmake⟩

theorem copy_books {w : Workspace} {tickets : List Nat × Nat} {L : List LetterSet}
    (h : w.Books i tickets L) (hs : s.owner = i) :
    ∃ s' w', s.copy w = .ok s' w' ∧ w'.Books i tickets (s' :: L) := by
  subst hs
  exact make_pure_books h s.root

theorem copy_trades (hs : s.owner = i) : Trades i s.copy [] (fun s' => [s']) [] := by
  subst hs
  exact make_trades fun _ => Factory.acquires_pure s.root

theorem complement_trades (hs : s.owner = i) : Trades i s.complement [] (fun s' => [s']) [] := by
  subst hs
  exact make_trades fun _ => Factory.acquires_pure (-s.root)

theorem release_givesBack (s : LetterSet) : GivesBack i s.release [s] := by
  intro w tickets rest hw
  obtain ⟨rfl, howner⟩ := List.forall_mem_cons.1 hw.owner
  obtain ⟨f, hf, hbooks⟩ := hw.holds
  obtain ⟨f', hrelease, hbooks'⟩ := Factory.release_books hbooks
  obtain ⟨w', hrun, hf'⟩ := inFactory_ok hf hrelease
  have htickets := (inFactory_books hw fun _ _ => Outcome.always (Factory.release s.root) _).of_ok
    hrun
  exact ⟨w', hrun, howner, ⟨f', hf', hbooks'⟩, htickets.1⟩

theorem releaseAll_givesBack (sets : List LetterSet) : GivesBack i (releaseAll sets) sets := by
  have hgiven : GivesBack i (sets.forM release) (sets.flatMap fun s => [s]) :=
    GivesBack.forM release_givesBack sets
  rwa [List.flatMap_singleton'] at hgiven

/-- A set goes on with another root, or stays as it was. -/
theorem update_trades {x : FactoryM Ref}
    (hx : ∀ roots, Secures (Factory.Books · roots) Fault.Orderly x) :
    Trades i (s.update x) [s] (fun s' => [s']) [s] := by
  intro w tickets rest hw
  obtain ⟨rfl, howner⟩ := List.forall_mem_cons.1 hw.owner
  have hupdate : ∀ f : Factory, f.Books (List.map root ([s] ++ rest)) →
      Outcome (do
        let new ← x
        Factory.replace s.root new
        return (⟨s.owner, new⟩ : LetterSet)) f
      (fun s' f' => s'.owner = s.owner ∧ f'.Books (s'.root :: rest.map root))
      (fun fault f' => fault.Orderly ∧ f'.Books (List.map root ([s] ++ rest))) := by
    intro f hf
    apply Outcome.andThen (hx _ f hf)
    intro new f₁ hf₁
    obtain ⟨f₂, hreplace, hf₂⟩ := Factory.replace_books hf₁ new
    exact Outcome.bind_ok hreplace (Outcome.pure ⟨rfl, hf₂⟩)
  refine (inFactory_books hw hupdate).mono ?_ ?_
  · rintro s' w' ⟨htickets, f, hf, hsame, hbooks⟩
    exact ⟨List.forall_mem_cons.2 ⟨hsame, howner⟩, ⟨f, hf, hbooks⟩, htickets⟩
  · rintro fault w' ⟨htickets, f, hf, hfault, hbooks⟩
    exact ⟨hfault, hw.owner, ⟨f, hf, hbooks⟩, htickets⟩

theorem checkOwner_trades {sets : List LetterSet} (s t : LetterSet) :
    Trades i (checkOwner s t) sets (fun _ => sets) sets := by
  rw [checkOwner]
  by_cases hsame : s.owner = t.owner
  · rw [if_pos hsame]
    exact Trades.pure (fun _ => sets) ()
  · rw [if_neg hsame]
    exact Trades.throw fun _ => Fault.noConfusion

/-- Sets of another factory are refused before anything is done. -/
theorem merge_trades (s t : LetterSet) (u v r : Ref) :
    Trades i (s.merge t (Manager.ite u v r)) [s] (fun s' => [s']) [s] :=
  (checkOwner_trades s t).bind fun _ =>
    update_trades fun roots => (Factory.steps_books roots).iteAtSafePoint u v r

theorem add_trades (s : LetterSet) (letter : BitSet) :
    Trades i (s.add letter) [s] (fun s' => [s']) [s] :=
  update_trades fun roots => (Factory.steps_books roots).withLetter s.root letter

theorem mergeWith_trades (operation : SetOperation) (s t : LetterSet) :
    Trades i (operation.merge s t) [s] (fun s' => [s']) [s] := by
  cases operation <;> exact merge_trades s t _ _ _

/-- What is added is gone at either end. -/
theorem absorb_trades (s t : LetterSet) : Trades i (s.absorb t) [s, t] (fun s' => [s']) [s] :=
  Trades.tryFinally (((merge_trades s t _ _ _).frame [t]).perm (.refl _)
    (fun _ => List.perm_append_comm) List.perm_append_comm) (release_givesBack t)

/-- A changed copy is there, or is given back if the change fails. -/
theorem changed_trades {change : LetterSet → WorkM LetterSet} (hs : s.owner = i)
    (hchange : ∀ s', Trades i (change s') [s'] (fun u => [u]) [s']) :
    Trades i (s.changed change) [] (fun u => [u]) [] :=
  (copy_trades hs).bind fun result =>
    Trades.onFault (hchange result) (release_givesBack result)

theorem intersection_trades (hs : s.owner = i) (t : LetterSet) :
    Trades i (s.intersection t) [] (fun u => [u]) [] :=
  changed_trades hs fun s' => merge_trades s' t _ _ _

theorem difference_trades (hs : s.owner = i) (t : LetterSet) :
    Trades i (s.difference t) [] (fun u => [u]) [] :=
  changed_trades hs fun s' => merge_trades s' t _ _ _

theorem apply_trades (operation : SetOperation) (hs : s.owner = i) (t : LetterSet) :
    Trades i (operation.apply s t) [] (fun u => [u]) [] := by
  cases operation <;> exact changed_trades hs fun s' => merge_trades s' t _ _ _

section Questions
variable {tickets : List Nat × Nat} {rest : List LetterSet}

/-- What a factory does that is nothing to its roots is nothing to the books. -/
theorem inFactory_secures {β : Type} {x : FactoryM β}
    (hx : ∀ roots, Secures (Factory.Books · roots) Fault.Orderly x) :
    Secures (fun w : Workspace => w.Books i tickets rest) Fault.Orderly (inFactory i x) := by
  intro w hw
  refine (inFactory_books hw (hx _)).mono ?_ ?_
  · rintro b w' ⟨htickets, hholds⟩
    exact ⟨hw.owner, hholds, htickets⟩
  · rintro fault w' ⟨htickets, f, hf, hfault, hbooks⟩
    exact ⟨hfault, hw.owner, ⟨f, hf, hbooks⟩, htickets⟩

theorem collect_secures :
    Secures (fun w : Workspace => w.Books i tickets rest) Fault.Orderly
      (inFactory i Factory.collect) :=
  inFactory_secures fun roots => (Factory.steps_books roots).collect

theorem compare_secures (hs : s.owner = i) (t : LetterSet) (u v r : Ref) (answer : Ref → Bool) :
    Secures (fun w : Workspace => w.Books i tickets rest) Fault.Orderly
      (compare s t do return answer (← Manager.ite u v r)) := by
  subst hs
  apply Secures.bind (Secures.ite (Secures.pure ()) (Secures.throw fun _ => Fault.noConfusion))
  exact fun _ => inFactory_secures fun roots =>
    (Factory.steps_books roots).askAtSafePoint u v r answer

theorem containsAll_secures (hs : s.owner = i) (t : LetterSet) :
    Secures (fun w : Workspace => w.Books i tickets rest) Fault.Orderly (s.containsAll t) :=
  compare_secures hs t _ _ _ _

theorem intersects_secures (hs : s.owner = i) (t : LetterSet) :
    Secures (fun w : Workspace => w.Books i tickets rest) Fault.Orderly (s.intersects t) :=
  (compare_secures hs t _ _ _ _).bind fun _ => Secures.pure _

/-- A question that is answered by looking changes nothing. -/
theorem askFactory_secures {β : Type} {question : Factory → Except Fault β}
    (hquestion : ∀ f fault, question f = .error fault → fault.OfDiagram) (owner : Nat) :
    Secures (fun w : Workspace => w.Books i tickets rest) Fault.Orderly
      (askFactory owner question) := by
  intro w hw
  unfold Outcome askFactory
  cases hf : w.factories[owner]? with
  | none => exact ⟨fun _ => Fault.noConfusion, hw⟩
  | some f =>
      dsimp only
      cases hask : question f with
      | ok b => exact hw
      | error fault => exact ⟨(hquestion f fault hask).orderly, hw⟩

theorem contains_secures (s : LetterSet) (letter : BitSet) :
    Secures (fun w : Workspace => w.Books i tickets rest) Fault.Orderly (s.contains letter) :=
  askFactory_secures (fun _ _ h => Manager.evaluateWithin_error h) s.owner

theorem size_secures (s : LetterSet) :
    Secures (fun w : Workspace => w.Books i tickets rest) Fault.Orderly s.size :=
  askFactory_secures (fun _ _ h => Manager.count_error h) s.owner

private theorem formulaWithin_error {m : Manager} {shown : Nat → LabelAtom} {bound : Nat} {r : Ref}
    {fault : Fault} (h : m.formulaWithin shown bound r = .error fault) : fault.OfDiagram := by
  induction bound generalizing r with
  | zero =>
      cases h
      exact trivial
  | succ bound ih =>
      rw [Manager.formulaWithin] at h
      split at h
      · cases h
      split at h
      · cases h
      obtain hnode | ⟨node, -, h⟩ := Manager.error_of_bind h
      · exact UniqueTable.value_error hnode
      dsimp only at h
      split at h
      · cases h
      split at h
      · cases h
      obtain hhigh | ⟨high, -, h⟩ := Manager.error_of_bind h
      · exact ih hhigh
      obtain hlow | ⟨low, -, h⟩ := Manager.error_of_bind h
      · exact ih hlow
      · cases h

theorem formulaWith_secures (s : LetterSet) (shown : Nat → LabelAtom) :
    Secures (fun w : Workspace => w.Books i tickets rest) Fault.Orderly (s.formulaWith shown) :=
  askFactory_secures (fun _ _ h => formulaWithin_error h) s.owner

end Questions

section Calls
variable {β : Type} {sets failed : List LetterSet} {j : Nat}

/-- What is done with a set at a position, where there is one. -/
private theorem select_trades {f : LetterSet → WorkM β} {after : β → List LetterSet}
    (hnone : sets[j]? = none → failed = sets)
    (hsome : ∀ s, sets[j]? = some s → Trades i (f s) sets after failed) :
    Trades i (select sets j >>= f) sets after failed := by
  rw [select]
  cases hj : sets[j]? with
  | none =>
      rw [hnone hj]
      exact fun w tickets rest hw =>
        Outcome.bind (Outcome.throw ⟨fun _ => Fault.noConfusion, hw⟩)
  | some s => exact hsome s hj

/-- A set that comes to the front and is changed. -/
private theorem front_trades {x : WorkM LetterSet} {others : List LetterSet}
    (hperm : sets.Perm (s :: others)) (hx : Trades i x [s] (fun s' => [s']) [s]) :
    Trades i (do return (← x) :: others) sets (fun sets' => sets') sets :=
  ((hx.frame others).perm hperm (fun _ => .refl _) hperm.symm).bind
    fun s' => Trades.pure (fun sets' => sets') (s' :: others)

private theorem new_trades {x : WorkM LetterSet} (hx : Trades i x [] (fun s => [s]) []) :
    Trades i (do return (← x) :: sets) sets (fun sets' => sets') sets :=
  (hx.frame sets).bind fun s => Trades.pure (fun sets' => sets') (s :: sets)

private theorem ask_trades {x : WorkM Bool} (hx : ∀ tickets rest,
    Secures (fun w : Workspace => w.Books i tickets rest) Fault.Orderly x) :
    Trades i (do discard x; return sets) sets (fun sets' => sets') sets :=
  (Trades.of_secures sets fun tickets rest => (hx tickets rest).map).bind
    fun _ => Trades.pure (fun sets' => sets') sets

/-- What is done with one set of the factory, which stays if that fails. -/
private theorem one_trades {f : LetterSet → WorkM (List LetterSet)} (j : Nat)
    (hf : ∀ s, sets[j]? = some s → s.owner = i → Trades i (f s) sets (fun sets' => sets') sets) :
    Trades i (select sets j >>= f) sets (fun sets' => sets') sets :=
  Trades.of_owner fun howner => select_trades (fun _ => rfl) fun s hs =>
    hf s hs (howner s (List.mem_of_getElem? hs))

/-- The set that is given back is gone also when the call fails. -/
private theorem Call.absorb_trades (j l : Nat) (sets : List LetterSet) :
    Trades i ((Call.absorb j l).perform i sets) sets (fun sets' => sets')
      ((Call.absorb j l).left sets) := by
  rw [Call.perform]
  apply select_trades (fun hj => by simp only [Call.left, hj])
  intro s hs
  cases ht : (sets.eraseIdx j)[l]? with
  | none =>
      simp only [Call.left, hs, ht, select]
      exact fun w tickets rest hw =>
        Outcome.bind (Outcome.throw ⟨fun _ => Fault.noConfusion, hw⟩)
  | some t =>
      simp only [Call.left, hs, ht, select]
      have hperm : sets.Perm ([s, t] ++ (sets.eraseIdx j).eraseIdx l) :=
        (pick_perm hs).trans ((pick_perm ht).cons s)
      exact (((LetterSet.absorb_trades s t).frame _).perm hperm (fun _ => .refl _) (.refl _)).bind
        fun s' => Trades.pure (fun sets' => sets') (s' :: _)

private theorem Call.release_trades (j : Nat) (sets : List LetterSet) :
    Trades i ((Call.release j).perform i sets) sets (fun sets' => sets') sets := by
  refine one_trades j fun s hs _ => ?_
  have hback := (Trades.of_givesBack (i := i) [s] (release_givesBack s)).frame (sets.eraseIdx j)
  exact (hback.perm (pick_perm hs) (fun _ => .refl _) (pick_perm hs).symm).bind
    fun _ => Trades.pure (fun sets' => sets') _

/-- A call keeps what it was not handed, and when it fails what it was handed but for a set that
was to be given back. -/
theorem Call.perform_trades (call : Call) (sets : List LetterSet) :
    Trades i (call.perform i sets) sets (fun sets' => sets') (call.left sets) := by
  have hsteps := Factory.steps_books
  cases call with
  | empty => exact new_trades (make_trades fun _ => Factory.acquires_pure _)
  | all => exact new_trades (make_trades fun _ => Factory.acquires_pure _)
  | singleton letter => exact new_trades (make_trades fun roots => (hsteps roots).singleton letter)
  | restricted letter alphabet =>
      exact new_trades (make_trades fun roots => (hsteps roots).restricted letter alphabet)
  | proposition p =>
      exact new_trades (make_trades fun roots => (hsteps roots).proposition p
        fun _ _ => Fault.noConfusion)
  | ofLetters letters =>
      exact new_trades (make_trades fun roots => (hsteps roots).ofLetters letters)
  | add j letter =>
      exact one_trades j fun s hs _ => front_trades (pick_perm hs) (add_trades s letter)
  | merge operation j l =>
      exact one_trades j fun s hs _ => one_trades l fun t _ _ =>
        front_trades (pick_perm hs) (mergeWith_trades operation s t)
  | absorb j l => exact Call.absorb_trades j l sets
  | complement j => exact one_trades j fun s _ howner => new_trades (complement_trades howner)
  | combine operation j l =>
      exact one_trades j fun s _ howner => one_trades l fun t _ _ =>
        new_trades (apply_trades operation howner t)
  | copy j => exact one_trades j fun s _ howner => new_trades (copy_trades howner)
  | release j => exact Call.release_trades j sets
  | containsAll j l =>
      exact one_trades j fun s _ howner => one_trades l fun t _ _ =>
        ask_trades fun _ _ => containsAll_secures howner t
  | intersects j l =>
      exact one_trades j fun s _ howner => one_trades l fun t _ _ =>
        ask_trades fun _ _ => intersects_secures howner t
  | collect =>
      exact (Trades.of_secures sets fun _ _ => collect_secures.map).bind
        fun _ => Trades.pure (fun sets' => sets') sets

end Calls

end LetterSet

end SymbolicOmega
