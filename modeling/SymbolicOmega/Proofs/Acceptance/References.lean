import Mathlib.Data.List.Perm.Subperm
import SymbolicOmega.Proofs.Acceptance.Language

/-!
# References to sets of transitions

A set of transitions may have several references, and each of them is one of its
holders.  Numbering the sets anew adds references and takes others away.  A set whose
last reference goes gives its labels back; the labels of all other sets stay live and
mean what they meant.
-/

namespace SymbolicOmega

variable {S : Type}

/-- The labels that a set gives back in the end. -/
def TransitionSet.handles (set : TransitionSet S) : List LetterSet :=
  set.labels.map Prod.snd

/-- Letting go of a set frees nodes at most. -/
theorem TransitionSet.letGo_upholds {P : Manager → Prop} (set : TransitionSet S) :
    Upholds (Workspace.Managers P) set.letGo := by
  have hdrop : Upholds (Workspace.Managers P) (Workspace.letGo set.ticket) := fun _ hw => hw
  exact hdrop.bind fun _ => Upholds.ite (LetterSet.releaseAll_upholds _) (Upholds.pure ())

namespace Workspace

variable {w : Workspace} {i k : Nat} {L : Ledger} {labels : List LetterSet}

/-- The ledger has an entry for each of `labels` and for each label of the sets in `stock`.
These have a ticket each, and every reference to one of them is one of its holders. -/
structure Backs (w : Workspace) (i k : Nat) (L : Ledger) (labels : List LetterSet)
    (stock references : List (TransitionSet S)) : Prop where
  keeps : w.Keeps i k L
  listed : (labels ++ stock.flatMap TransitionSet.handles).Subperm (L.map Prod.fst)
  tickets : (stock.map (·.ticket)).Nodup
  stocked : references ⊆ stock
  holders : ∀ ticket, (references.map (·.ticket)).count ticket ≤ w.holders.count ticket

/-- What is done in a factory is nothing to the holders. -/
theorem inFactory_holders {β : Type} (holders : List Nat) (x : FactoryM β) :
    Upholds (fun w : Workspace => w.holders = holders) (inFactory i x) := by
  intro w hw
  unfold Outcome inFactory
  by_cases hlt : i < w.factories.size
  · simp only [hlt, dif_pos]
    cases x (w.factories.swapAt i default hlt).1 with
    | ok b f => exact hw
    | error fault f => exact hw
  · simp only [hlt, dif_neg, not_false_eq_true]
    exact hw

/-- Handles that the ledger lists can be given back, and the other entries stay. -/
theorem releaseAll_listed (handles : List LetterSet) :
    ∀ (w : Workspace) (L : Ledger), w.Keeps i k L →
      (handles ++ labels).Subperm (L.map Prod.fst) →
      ∃ w' L', LetterSet.releaseAll handles w = .ok () w' ∧ w'.Keeps i k L' ∧ L' ⊆ L ∧
        labels.Subperm (L'.map Prod.fst) ∧ w'.holders = w.holders := by
  induction handles with
  | nil => exact fun w L h hlisted => ⟨w, L, rfl, h, fun _ => id, hlisted, rfl⟩
  | cons first rest ih =>
      intro w L h hlisted
      obtain ⟨⟨s, A⟩, hentry, rfl⟩ := List.mem_map.1 (hlisted.subset List.mem_cons_self)
      obtain ⟨before, after, rfl⟩ := List.append_of_mem hentry
      obtain ⟨w₁, hrelease, hw₁⟩ := LetterSet.release_keeps (h.perm List.perm_middle)
      have hrest : (rest ++ labels).Subperm ((before ++ after).map Prod.fst) := by
        have hmoved := hlisted.trans (List.perm_middle.map Prod.fst).subperm
        exact (List.subperm_cons s).1 hmoved
      obtain ⟨w₂, L', hrun, hw₂, hsub, hlabels, hholders⟩ := ih w₁ _ hw₁ hrest
      refine ⟨w₂, L', ?_, hw₂, fun entry hentry => ?_, hlabels, ?_⟩
      · calc
          LetterSet.releaseAll (s :: rest) w = LetterSet.releaseAll rest w₁ := run_bind hrelease
          _ = .ok () w₂ := hrun
      · rcases List.mem_append.1 (hsub hentry) with hbefore | hafter
        · exact List.mem_append_left _ hbefore
        · exact List.mem_append_right _ (List.mem_cons_of_mem _ hafter)
      · rw [hholders]
        exact (inFactory_holders w.holders (Factory.release s.root) w rfl).of_ok hrelease

/-- One holder less for a reference less. -/
theorem count_le_erase {holders : List Nat} {set : TransitionSet S}
    {references : List (TransitionSet S)}
    (h : ∀ ticket, ((set :: references).map TransitionSet.ticket).count ticket ≤
      holders.count ticket) (ticket : Nat) :
    (references.map TransitionSet.ticket).count ticket ≤
      (holders.erase set.ticket).count ticket := by
  have hone := h ticket
  rw [List.map_cons] at hone
  rw [← List.erase_cons_head set.ticket (references.map TransitionSet.ticket), List.count_erase,
    List.count_erase]
  exact Nat.sub_le_sub_right hone _

namespace Backs

variable {stock references references' : List (TransitionSet S)} {set : TransitionSet S}

theorem perm (h : w.Backs i k L labels stock references) (hperm : references.Perm references') :
    w.Backs i k L labels stock references' :=
  ⟨h.keeps, h.listed, h.tickets, fun _ hset => h.stocked (hperm.mem_iff.2 hset),
    fun ticket => (hperm.map _).count_eq ticket ▸ h.holders ticket⟩

/-- Every label has an entry. -/
theorem exists_entry (h : w.Backs i k L labels stock references) {label : LetterSet}
    (hlabel : label ∈ labels ++ stock.flatMap TransitionSet.handles) : ∃ A, (label, A) ∈ L := by
  obtain ⟨⟨_, A⟩, hentry, rfl⟩ := List.mem_map.1 (h.listed.subset hlabel)
  exact ⟨A, hentry⟩

theorem share (h : w.Backs i k L labels stock references) (hset : set ∈ stock) :
    ∃ w', set.share w = .ok () w' ∧ w'.Backs i k L labels stock (set :: references) := by
  refine ⟨_, rfl, h.keeps.of_factory rfl, h.listed, h.tickets, ?_, fun ticket => ?_⟩
  · exact List.cons_subset.2 ⟨hset, h.stocked⟩
  · rw [List.map_cons, List.count_cons, List.count_cons]
    exact Nat.add_le_add_right (h.holders ticket) _

theorem shareAll {sets : List (TransitionSet S)} (hsets : sets ⊆ stock) :
    ∀ {w : Workspace} {references : List (TransitionSet S)},
      w.Backs i k L labels stock references →
      ∃ w', sets.forM TransitionSet.share w = .ok PUnit.unit w' ∧
        w'.Backs i k L labels stock (sets ++ references) := by
  induction sets with
  | nil => exact fun h => ⟨_, rfl, h⟩
  | cons set rest ih =>
      intro w references h
      obtain ⟨hset, hrest⟩ := List.cons_subset.1 hsets
      obtain ⟨w₁, hshare, h₁⟩ := h.share hset
      obtain ⟨w₂, hrun, h₂⟩ := ih hrest h₁
      refine ⟨w₂, ?_, h₂.perm List.perm_middle⟩
      calc
        (set :: rest).forM TransitionSet.share w = rest.forM TransitionSet.share w₁ :=
          run_bind hshare
        _ = .ok PUnit.unit w₂ := hrun

/-- A set without references gives its labels back and is no longer in stock. -/
theorem drop (h : w.Backs i k L labels stock references) (hset : set ∈ stock)
    (hgone : set ∉ references) :
    ∃ w' L' stock', LetterSet.releaseAll set.handles w = .ok () w' ∧ L' ⊆ L ∧
      w'.Backs i k L' labels stock' references := by
  obtain ⟨before, after, rfl⟩ := List.append_of_mem hset
  have hmiddle : (labels ++ (before ++ set :: after).flatMap TransitionSet.handles).Perm
      (set.handles ++ (labels ++ (before ++ after).flatMap TransitionSet.handles)) := by
    calc
      (labels ++ (before ++ set :: after).flatMap TransitionSet.handles).Perm
          (labels ++ (set :: (before ++ after)).flatMap TransitionSet.handles) :=
        (List.perm_middle.flatMap_right _).append_left labels
      _ = labels ++ (set.handles ++ (before ++ after).flatMap TransitionSet.handles) := by
        rw [List.flatMap_cons]
      (labels ++ (set.handles ++ (before ++ after).flatMap TransitionSet.handles)).Perm _ :=
        List.perm_append_comm_assoc ..
  obtain ⟨w', L', hrelease, hkeeps, hsub, hlisted, hholders⟩ :=
    releaseAll_listed set.handles w L h.keeps (hmiddle.symm.subperm.trans h.listed)
  refine ⟨w', L', before ++ after, hrelease, hsub, hkeeps, hlisted, ?_, ?_, ?_⟩
  · exact h.tickets.sublist (((List.sublist_cons_self set after).append_left before).map _)
  · intro other hother
    have hne : other ≠ set := ne_of_mem_of_not_mem hother hgone
    exact (List.mem_cons.1 (List.perm_middle.mem_iff.1 (h.stocked hother))).resolve_left hne
  · rw [hholders]
    exact h.holders

/-- A set that is let go of stays in stock if it has another holder. -/
theorem letGo (h : w.Backs i k L labels stock (set :: references)) :
    ∃ w' L' stock', set.letGo w = .ok () w' ∧ L' ⊆ L ∧
      w'.Backs i k L' labels stock' references := by
  obtain ⟨hset, hstocked⟩ := List.cons_subset.1 h.stocked
  obtain ⟨w₁, hdrop, hfactories, hleft⟩ : ∃ w₁, Workspace.letGo set.ticket w =
      .ok ((w.holders.erase set.ticket).count set.ticket) w₁ ∧ w₁.factories = w.factories ∧
        w₁.holders = w.holders.erase set.ticket := ⟨_, rfl, rfl, rfl⟩
  have h₁ : w₁.Backs i k L labels stock references :=
    ⟨h.keeps.of_factory (hfactories ▸ rfl), h.listed, h.tickets, hstocked,
      fun ticket => hleft ▸ count_le_erase h.holders ticket⟩
  rw [TransitionSet.letGo, run_bind hdrop]
  by_cases hlast : (w.holders.erase set.ticket).count set.ticket = 0
  · rw [if_pos hlast]
    apply h₁.drop hset
    intro hreferred
    have hnone := Nat.le_zero.1 (hlast ▸ count_le_erase h.holders set.ticket)
    exact List.count_eq_zero.1 hnone (List.mem_map_of_mem hreferred)
  · rw [if_neg hlast]
    exact ⟨w₁, L, stock, rfl, fun _ => id, h₁⟩

theorem letGoAll {sets : List (TransitionSet S)} :
    ∀ {w : Workspace} {L : Ledger} {stock : List (TransitionSet S)},
      w.Backs i k L labels stock (sets ++ references) →
      ∃ w' L' stock', sets.forM TransitionSet.letGo w = .ok PUnit.unit w' ∧ L' ⊆ L ∧
        w'.Backs i k L' labels stock' references := by
  induction sets with
  | nil => exact fun h => ⟨_, _, _, rfl, fun _ => id, h⟩
  | cons set rest ih =>
      intro w L stock h
      obtain ⟨w₁, L₁, stock₁, hletGo, hsub₁, h₁⟩ := h.letGo
      obtain ⟨w₂, L₂, stock₂, hrun, hsub₂, h₂⟩ := ih h₁
      refine ⟨w₂, L₂, stock₂, ?_, fun entry hentry => hsub₁ (hsub₂ hentry), h₂⟩
      calc
        (set :: rest).forM TransitionSet.letGo w = rest.forM TransitionSet.letGo w₁ :=
          run_bind hletGo
        _ = .ok PUnit.unit w₂ := hrun

end Backs

end Workspace

namespace Rabin

open Workspace

/-- Every reference of a condition to a set: from its pairs and from its numbering. -/
def references (r : Rabin S) : List (TransitionSet S) :=
  r.sets ++ r.numbered

variable {r : Rabin S} {w : Workspace} {i k : Nat} {L : Ledger} {labels : List LetterSet}
variable {stock : List (TransitionSet S)}

/-- The condition with its sets numbered anew. -/
def numberedAnew (r : Rabin S) : Rabin S :=
  { r with numbered := r.distinctSets }

/-- Numbering the sets anew always succeeds.  The sets that are not referred to any more give
their labels back, and no others. -/
theorem renumber_run (h : w.Backs i k L labels stock r.references) :
    ∃ w' L' stock', r.renumber w = .ok r.numberedAnew w' ∧ L' ⊆ L ∧
      w'.Backs i k L' labels stock' r.numberedAnew.references := by
  have hdistinct : r.distinctSets ⊆ stock := fun set hset =>
    h.stocked (List.mem_append_left _ (mem_sets_of_mem_distinctSets hset))
  obtain ⟨w₁, hshare, h₁⟩ := h.shareAll hdistinct
  have hperm : (r.distinctSets ++ r.references).Perm
      (r.numbered ++ r.numberedAnew.references) := by
    calc
      (r.distinctSets ++ (r.sets ++ r.numbered)).Perm ((r.sets ++ r.numbered) ++ r.distinctSets) :=
        List.perm_append_comm
      _ = r.sets ++ (r.numbered ++ r.distinctSets) := List.append_assoc ..
      (r.sets ++ (r.numbered ++ r.distinctSets)).Perm _ := List.perm_append_comm_assoc ..
  obtain ⟨w₂, L', stock', hletGo, hsub, h₂⟩ := (h₁.perm hperm).letGoAll
  refine ⟨w₂, L', stock', ?_, hsub, h₂⟩
  rw [renumber, run_bind hshare, run_bind hletGo]
  rfl

theorem renumber_upholds {P : Manager → Prop} (r : Rabin S) :
    Upholds (Managers P) r.renumber := by
  have hshare : ∀ set : TransitionSet S, Upholds (Managers P) set.share := fun _ _ hw => hw
  exact (Upholds.forM hshare _).bind fun _ =>
    (Upholds.forM TransitionSet.letGo_upholds _).bind fun _ => Upholds.pure _

end Rabin

namespace Acceptance

/-- Every reference of a condition to a set of transitions. -/
def references (a : Acceptance S) : List (TransitionSet S) :=
  match a.condition with
  | .marks _ => []
  | .rabin r => r.references

/-- The condition with its sets, if it has any, numbered anew. -/
def numberedAnew (a : Acceptance S) : Acceptance S :=
  match a.condition with
  | .marks _ => a
  | .rabin r => { a with condition := .rabin r.numberedAnew }

/-- The ledger has an entry for each label of each set that the condition refers to. -/
def Listed (a : Acceptance S) (L : Ledger) : Prop :=
  ∀ set ∈ a.references, ∀ label ∈ set.handles, ∃ C, (label, C) ∈ L

variable {a : Acceptance S} {w : Workspace} {i k : Nat} {L : Ledger} {labels : List LetterSet}
variable {stock : List (TransitionSet S)}

theorem listed_of_backs (h : w.Backs i k L labels stock a.references) : a.Listed L :=
  fun _ hset _ hlabel => h.exists_entry
    (List.mem_append_right labels (List.mem_flatMap.2 ⟨_, h.stocked hset, hlabel⟩))

/-- Numbering anew succeeds, and keeps what is still referred to. -/
theorem renumber_run (h : w.Backs i k L labels stock a.references) :
    ∃ w' L' stock', a.renumber w = .ok a.numberedAnew w' ∧ L' ⊆ L ∧
      w'.Backs i k L' labels stock' a.numberedAnew.references := by
  obtain ⟨condition, annotations⟩ := a
  cases condition with
  | marks c => exact ⟨w, L, stock, rfl, fun _ => id, h⟩
  | rabin r =>
      obtain ⟨w', L', stock', hrun, hsub, h'⟩ := Rabin.renumber_run h
      exact ⟨w', L', stock', run_bind hrun, hsub, h'⟩

/-- Numbering anew keeps of the managers what every call keeps. -/
theorem renumber_upholds {P : Manager → Prop} (a : Acceptance S) :
    Upholds (Workspace.Managers P) a.renumber := by
  rw [renumber]
  cases a.condition with
  | marks c => exact Upholds.pure a
  | rabin r => exact r.renumber_upholds.bind fun _ => Upholds.pure _

end Acceptance

/-- All labels of an automaton and of its condition are live in its factory, whose diagram is
reduced, and the sets of transitions have a holder for each reference. -/
def Automaton.Backed (a : Automaton S) (w : Workspace) (k : Nat) : Prop :=
  ∃ L stock, w.Backs a.owner k L a.labels stock a.acceptance.references

end SymbolicOmega
