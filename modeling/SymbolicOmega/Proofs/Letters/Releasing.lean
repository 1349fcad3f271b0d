import SymbolicOmega.Proofs.Letters.Bookkeeping

/-!
# Giving sets back

Sets that are live can be given back, all of them, and then exactly their roots are no
longer held.  What is left does not depend on the order in which they are given back, nor
on whether this is done at once.
-/

namespace SymbolicOmega

namespace Roots

variable {roots : Roots} {gone gone' : List Ref}

theorem lower_zero (roots : Roots) : roots.lower (fun _ => 0) = roots := by
  refine Roots.ext ?_ rfl
  have hall : roots.counts.filter (fun entry => decide (0 < entry.2)) = roots.counts :=
    List.filter_eq_self.2 fun entry hentry => decide_eq_true (roots.positive entry hentry)
  simp only [lower, hall, Nat.sub_zero, Prod.mk.eta, List.map_id']

theorem lower_lower (roots : Roots) (less less' : Ref → Nat) :
    (roots.lower less).lower less' = roots.lower fun root => less root + less' root := by
  refine Roots.ext ?_ rfl
  have hfilter : ∀ entry : Ref × Nat,
      (decide (less' entry.1 < entry.2 - less entry.1) && decide (less entry.1 < entry.2)) =
        decide (less entry.1 + less' entry.1 < entry.2) := fun entry => by
    rw [← Bool.decide_and, decide_eq_decide]
    omega
  simp only [lower, List.filter_map, List.filter_filter, List.map_map, Function.comp_def, hfilter,
    Nat.sub_sub]

/-- The roots when sets with these roots are gone. -/
def without (roots : Roots) (gone : List Ref) : Roots :=
  { roots.lower (gone.count ·) with live := roots.live - gone.length }

theorem without_nil (roots : Roots) : roots.without [] = roots :=
  Roots.ext (congrArg counts roots.lower_zero) rfl

theorem without_append (roots : Roots) (gone gone' : List Ref) :
    roots.without (gone ++ gone') = (roots.without gone).without gone' := by
  have hlower := congrArg counts (roots.lower_lower (gone.count ·) (gone'.count ·))
  apply Roots.ext
  · refine Eq.trans ?_ hlower.symm
    simp only [without, lower, List.count_append]
  · simp only [without, List.length_append, Nat.sub_sub]

theorem without_perm (roots : Roots) (h : gone.Perm gone') :
    roots.without gone = roots.without gone' := by
  have hcount : (gone.count ·) = (gone'.count ·) := funext h.count_eq
  rw [without, without, hcount, h.length_eq]

theorem count_without (roots : Roots) (gone : List Ref) (root : Ref) :
    (roots.without gone).count root = roots.count root - gone.count root :=
  count_lower roots (gone.count ·) root

/-- Each root has as many holders as the list has entries of it, or more. -/
structure Covers (roots : Roots) (gone : List Ref) : Prop where
  count : ∀ root ∈ gone, gone.count root ≤ roots.count root
  live : gone.length ≤ roots.live

instance (roots : Roots) (gone : List Ref) : Decidable (roots.Covers gone) :=
  decidable_of_iff ((∀ root ∈ gone, gone.count root ≤ roots.count root) ∧
    gone.length ≤ roots.live) ⟨fun h => ⟨h.1, h.2⟩, fun h => ⟨h.count, h.live⟩⟩

theorem Lists.covers (h : roots.Lists gone) : roots.Covers gone :=
  ⟨fun root _ => (h.count root).ge, h.live.ge⟩

namespace Covers

theorem nil (roots : Roots) : roots.Covers [] :=
  ⟨fun _ h => absurd h List.not_mem_nil, Nat.zero_le _⟩

theorem count_le (h : roots.Covers gone) (root : Ref) : gone.count root ≤ roots.count root := by
  by_cases hmem : root ∈ gone
  · exact h.count root hmem
  · rw [List.count_eq_zero.2 hmem]
    exact Nat.zero_le _

theorem perm (h : roots.Covers gone) (hperm : gone.Perm gone') : roots.Covers gone' :=
  ⟨fun root _ => hperm.count_eq root ▸ h.count_le root, hperm.length_eq ▸ h.live⟩

theorem left (h : roots.Covers (gone ++ gone')) : roots.Covers gone := by
  refine ⟨fun root _ => ?_, ?_⟩
  · have hcount := h.count_le root
    rw [List.count_append] at hcount
    omega
  · have hlive := h.live
    rw [List.length_append] at hlive
    omega

theorem right (h : roots.Covers (gone ++ gone')) : (roots.without gone).Covers gone' := by
  refine ⟨fun root _ => ?_, ?_⟩
  · have hcount := h.count_le root
    rw [List.count_append] at hcount
    rw [count_without]
    omega
  · have hlive := h.live
    rw [List.length_append] at hlive
    change gone'.length ≤ roots.live - gone.length
    omega

theorem live_without (h : roots.Covers gone) :
    (roots.without gone).live + gone.length = roots.live :=
  Nat.sub_add_cancel h.live

end Covers

end Roots

namespace Factory

/-- The factory when sets with these roots are gone. -/
def without (f : Factory) (gone : List Ref) : Factory :=
  { f with roots := f.roots.without gone }

@[simp]
theorem without_nil (f : Factory) : f.without [] = f := by
  rw [without, Roots.without_nil]

theorem release_run {f : Factory} {root : Ref} (h : f.roots.Covers [root]) :
    release root f = .ok () (f.without [root]) := by
  have hmem : root ∈ f.roots.keys := by
    rw [Roots.mem_keys_iff]
    exact Nat.lt_of_lt_of_le (by simp) (h.count_le root)
  have hforget : forget root f = .ok () { f with roots := f.roots.forget root } := if_pos hmem
  have hless : (fun r => if root = r then 1 else 0) = ([root].count ·) := by
    funext r
    simp [List.count_singleton]
  have hroots : { f.roots.forget root with live := f.roots.live - 1 } = f.roots.without [root] := by
    simp only [Roots.forget, hless, Roots.without, List.length_singleton]
  rw [without, ← hroots]
  exact run_bind hforget

end Factory

namespace LetterSet

/-- The roots of those of the sets that are of the factory at position `i`. -/
def rootsIn (i : Nat) (sets : List LetterSet) : List Ref :=
  (sets.filter (·.owner == i)).map root

variable {i : Nat} {s : LetterSet} {sets sets' : List LetterSet}

@[simp]
theorem rootsIn_nil (i : Nat) : rootsIn i [] = [] :=
  rfl

theorem rootsIn_cons_self (s : LetterSet) (sets : List LetterSet) :
    rootsIn s.owner (s :: sets) = s.root :: rootsIn s.owner sets := by
  simp [rootsIn]

theorem rootsIn_cons_of_ne (h : s.owner ≠ i) (sets : List LetterSet) :
    rootsIn i (s :: sets) = rootsIn i sets := by
  simp [rootsIn, h]

theorem rootsIn_append (i : Nat) (sets sets' : List LetterSet) :
    rootsIn i (sets ++ sets') = rootsIn i sets ++ rootsIn i sets' := by
  simp [rootsIn]

theorem rootsIn_perm (i : Nat) (h : sets.Perm sets') : (rootsIn i sets).Perm (rootsIn i sets') :=
  (h.filter _).map _

theorem rootsIn_of_owner (h : ∀ s ∈ sets, s.owner = i) : rootsIn i sets = sets.map root := by
  rw [rootsIn, List.filter_eq_self.2 fun s hs => beq_iff_eq.2 (h s hs)]

theorem rootsIn_of_other {j : Nat} (h : ∀ s ∈ sets, s.owner = i) (hj : j ≠ i) :
    rootsIn j sets = [] := by
  rw [rootsIn, List.filter_eq_nil_iff.2 fun s hs => by simpa [h s hs] using hj.symm]
  rfl

end LetterSet

namespace Workspace

open LetterSet

theorem inFactory_run {β : Type} {w : Workspace} {i : Nat} {f f' : Factory} {x : FactoryM β} {b : β}
    (hf : w.factories[i]? = some f) (hrun : x f = .ok b f') :
    inFactory i x w = .ok b { w with factories := w.factories.setIfInBounds i f' } := by
  obtain ⟨h, rfl⟩ := Array.getElem?_eq_some_iff.1 hf
  have hrest : (w.factories.set i default).setIfInBounds i f' = w.factories.setIfInBounds i f' := by
    simp [Array.setIfInBounds, h]
  rw [inFactory]
  simp only [h, dif_pos, Array.swapAt, hrun, hrest]

variable {w : Workspace} {s : LetterSet} {sets sets' : List LetterSet}

/-- The sets are live sets of the factories, each as often as it is listed. -/
structure HasLive (w : Workspace) (sets : List LetterSet) : Prop where
  owner : ∀ s ∈ sets, s.owner < w.factories.size
  held : ∀ (i : Nat) (f : Factory), w.factories[i]? = some f → f.roots.Covers (rootsIn i sets)

theorem hasLive_iff (w : Workspace) (sets : List LetterSet) :
    w.HasLive sets ↔ (∀ s ∈ sets, s.owner < w.factories.size) ∧
      ∀ i (h : i < w.factories.size), w.factories[i].roots.Covers (rootsIn i sets) := by
  constructor
  · exact fun h => ⟨h.owner, fun i hi => h.held i _ (Array.getElem?_eq_getElem hi)⟩
  · rintro ⟨howner, hheld⟩
    refine ⟨howner, fun i f hf => ?_⟩
    obtain ⟨hi, rfl⟩ := Array.getElem?_eq_some_iff.1 hf
    exact hheld i hi

instance (w : Workspace) (sets : List LetterSet) : Decidable (w.HasLive sets) :=
  decidable_of_iff' _ (hasLive_iff w sets)

/-- The workspace when `sets` are given back. -/
def without (w : Workspace) (sets : List LetterSet) : Workspace :=
  { w with factories := w.factories.mapIdx fun i f => f.without (rootsIn i sets) }

theorem factories_without (w : Workspace) (sets : List LetterSet) (i : Nat) :
    (w.without sets).factories[i]? = w.factories[i]?.map (·.without (rootsIn i sets)) := by
  simp [without]

@[simp]
theorem without_nil (w : Workspace) : w.without [] = w := by
  have hfactories : w.factories.mapIdx (fun i f => f.without (rootsIn i [])) = w.factories :=
    Array.ext_getElem? fun i => by simp
  rw [without, hfactories]

theorem without_append (w : Workspace) (sets sets' : List LetterSet) :
    w.without (sets ++ sets') = (w.without sets).without sets' := by
  simp [without, rootsIn_append, Factory.without, Roots.without_append, Function.comp_def]

theorem without_perm (w : Workspace) (h : sets.Perm sets') : w.without sets = w.without sets' := by
  simp only [without, Factory.without, Roots.without_perm _ (rootsIn_perm _ h)]

namespace HasLive

theorem nil (w : Workspace) : w.HasLive [] :=
  ⟨fun _ hs => absurd hs List.not_mem_nil, fun _ f _ => Roots.Covers.nil f.roots⟩

/-- Holders are nothing to the factories. -/
theorem of_factories {w' : Workspace} (h : w.HasLive sets) (hsame : w'.factories = w.factories) : w'.HasLive sets :=
  ⟨hsame ▸ h.owner, hsame ▸ h.held⟩

theorem perm (h : w.HasLive sets) (hperm : sets.Perm sets') : w.HasLive sets' :=
  ⟨fun s hs => h.owner s (hperm.mem_iff.2 hs),
    fun i f hf => (h.held i f hf).perm (rootsIn_perm i hperm)⟩

theorem left (h : w.HasLive (sets ++ sets')) : w.HasLive sets :=
  ⟨fun s hs => h.owner s (List.mem_append_left _ hs), fun i f hf =>
    (rootsIn_append i sets sets' ▸ h.held i f hf).left⟩

/-- What is not given back stays live. -/
theorem right (h : w.HasLive (sets ++ sets')) : (w.without sets).HasLive sets' := by
  refine ⟨fun s hs => ?_, fun i f hf => ?_⟩
  · simpa [without] using h.owner s (List.mem_append_right _ hs)
  · rw [factories_without, Option.map_eq_some_iff] at hf
    obtain ⟨f, hf, rfl⟩ := hf
    exact (rootsIn_append i sets sets' ▸ h.held i f hf).right

/-- In every factory as many sets less are live as are given back, and its nodes stay. -/
theorem count_without {gone rest : List LetterSet} (h : w.HasLive sets)
    (hperm : sets.Perm (gone ++ rest)) {i : Nat} {f : Factory} (hf : w.factories[i]? = some f) :
    ∃ f', (w.without gone).factories[i]? = some f' ∧ f'.manager = f.manager ∧
      f'.live + (rootsIn i sets).length = f.live + (rootsIn i rest).length := by
  have hlive := ((h.perm hperm).left.held i f hf).live_without
  have hlength := (rootsIn_perm i hperm).length_eq
  rw [rootsIn_append, List.length_append] at hlength
  refine ⟨f.without (rootsIn i gone), by rw [factories_without, hf]; rfl, rfl, ?_⟩
  change (f.roots.without (rootsIn i gone)).live + _ = f.roots.live + _
  omega

end HasLive

end Workspace

namespace LetterSet

open Workspace

variable {w : Workspace} {s : LetterSet} {sets : List LetterSet}

theorem release_run (h : w.HasLive [s]) : s.release w = .ok () (w.without [s]) := by
  have howner := h.owner s (List.mem_singleton_self s)
  have hf := Array.getElem?_eq_getElem howner
  have hroot : w.factories[s.owner].roots.Covers [s.root] := by
    simpa [rootsIn] using h.held s.owner _ hf
  have hfactories : w.factories.setIfInBounds s.owner (w.factories[s.owner].without [s.root]) =
      (w.without [s]).factories := by
    refine Array.ext_getElem? fun j => ?_
    rw [factories_without, Array.getElem?_setIfInBounds]
    by_cases hj : s.owner = j
    · subst hj
      rw [if_pos rfl, if_pos howner, hf, rootsIn_cons_self]
      rfl
    · rw [if_neg hj, rootsIn_cons_of_ne hj]
      simp
  rw [release, inFactory_run hf (Factory.release_run hroot), hfactories]
  rfl

theorem releaseAll_flatMap {α : Type} (f : α → List LetterSet) (list : List α) :
    (list.forM fun a => releaseAll (f a)) = releaseAll (list.flatMap f) := by
  induction list with
  | nil => rfl
  | cons a rest ih =>
      have hfirst : releaseAll (f a ++ rest.flatMap f) =
          (do releaseAll (f a); releaseAll (rest.flatMap f)) :=
        List.forM_append
      rw [List.flatMap_cons, hfirst, ← ih]
      rfl

/-- Live sets can be given back. -/
theorem releaseAll_run (h : w.HasLive sets) : releaseAll sets w = .ok () (w.without sets) := by
  induction sets generalizing w with
  | nil => rw [without_nil]; rfl
  | cons s rest ih =>
      have hsplit : w.HasLive ([s] ++ rest) := h
      calc
        releaseAll (s :: rest) w = releaseAll rest (w.without [s]) :=
          run_bind (release_run hsplit.left)
        _ = .ok () ((w.without [s]).without rest) := ih hsplit.right
        _ = .ok () (w.without (s :: rest)) := by rw [← without_append]; rfl

end LetterSet

theorem Workspace.Books.hasLive {w : Workspace} {i : Nat} {tickets : List Nat × Nat}
    {sets : List LetterSet} (h : w.Books i tickets sets) : w.HasLive sets := by
  obtain ⟨f, hf, hbooks⟩ := h.holds
  refine ⟨fun s hs => h.owner s hs ▸ (Array.getElem?_eq_some_iff.1 hf).1, fun j g hg => ?_⟩
  by_cases hj : j = i
  · subst hj
    obtain rfl := Option.some.inj (hf.symm.trans hg)
    rw [LetterSet.rootsIn_of_owner h.owner]
    exact hbooks.held.covers
  · rw [LetterSet.rootsIn_of_other h.owner hj]
    exact .nil g.roots

end SymbolicOmega
