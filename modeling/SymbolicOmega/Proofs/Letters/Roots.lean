import Mathlib.Data.List.Nodup
import SymbolicOmega.Letters.Factory
import SymbolicOmega.Proofs.Outcome

/-!
# Counted roots

The counts of a factory are those of the list of the roots of its live sets, and the number of
live sets is the length of this list.
-/

namespace SymbolicOmega

namespace Roots

variable {roots : Roots} {L L' : List Ref} {root : Ref}

@[ext]
theorem ext {roots roots' : Roots} (hcounts : roots.counts = roots'.counts)
    (hlive : roots.live = roots'.live) : roots = roots' := by
  cases roots
  cases roots'
  cases hcounts
  cases hlive
  rfl

/-! ## Counts -/

theorem count_of_mem {n : Nat} (h : (root, n) ∈ roots.counts) : roots.count root = n := by
  rw [count]
  cases hlookup : roots.counts.lookup root with
  | none => simpa using List.lookup_eq_none_iff.1 hlookup _ h
  | some n' =>
      obtain ⟨l₁, l₂, hcounts, -⟩ := List.lookup_eq_some_iff.1 hlookup
      have hmem : (root, n') ∈ roots.counts := by rw [hcounts]; simp
      cases List.inj_on_of_nodup_map roots.nodup hmem h rfl
      rfl

theorem count_of_not_mem (h : root ∉ roots.keys) : roots.count root = 0 := by
  have hlookup : roots.counts.lookup root = .none := by
    rw [List.lookup_eq_none_iff]
    rintro ⟨r, n⟩ hentry
    rw [bne_iff_ne]
    rintro rfl
    exact h (List.mem_map_of_mem hentry)
  rw [count, hlookup]
  rfl

/-- A root has an entry exactly if some set holds it. -/
theorem mem_keys_iff : root ∈ roots.keys ↔ 0 < roots.count root := by
  constructor
  · intro h
    obtain ⟨⟨r, n⟩, hentry, rfl⟩ := List.mem_map.1 h
    rw [count_of_mem hentry]
    exact roots.positive _ hentry
  · intro h
    apply Decidable.byContradiction
    intro hnew
    rw [count_of_not_mem hnew] at h
    exact Nat.lt_irrefl 0 h

theorem mem_counts (h : root ∈ roots.keys) : (root, roots.count root) ∈ roots.counts := by
  obtain ⟨⟨r, n⟩, hentry, rfl⟩ := List.mem_map.1 h
  rw [count_of_mem hentry]
  exact hentry

theorem keys_raise (roots : Roots) (root : Ref) : (roots.raise root).keys = roots.keys := by
  rw [keys, raise, List.map_map]
  apply List.map_congr_left
  intro entry _
  dsimp only [Function.comp_apply]
  split <;> rfl

theorem count_retain (roots : Roots) (root r : Ref) :
    (roots.retain root).count r = roots.count r + if root = r then 1 else 0 := by
  rw [retain]
  split_ifs with hmem hr hr
  · subst hr
    exact count_of_mem (List.mem_map.2 ⟨_, mem_counts hmem, if_pos rfl⟩)
  · by_cases hkey : r ∈ roots.keys
    · exact count_of_mem (List.mem_map.2 ⟨_, mem_counts hkey, if_neg (Ne.symm hr)⟩)
    · rw [count_of_not_mem hkey, count_of_not_mem (keys_raise roots root ▸ hkey)]
  · subst hr
    rw [count_of_not_mem hmem]
    exact count_of_mem List.mem_cons_self
  · by_cases hkey : r ∈ roots.keys
    · exact count_of_mem (List.mem_cons_of_mem _ (mem_counts hkey))
    · rw [count_of_not_mem hkey]
      exact count_of_not_mem fun h => (List.mem_cons.1 h).elim (Ne.symm hr) hkey

theorem live_retain (roots : Roots) (root : Ref) : (roots.retain root).live = roots.live := by
  rw [retain]
  split <;> rfl

/-- Where a list counts the holders, one more holder is one more entry. -/
theorem count_retain_lists (h : ∀ r, roots.count r = L.count r) (root r : Ref) :
    (roots.retain root).count r = (root :: L).count r := by
  rw [count_retain, h, List.count_cons]
  simp only [beq_iff_eq]

theorem count_lower (roots : Roots) (less : Ref → Nat) (r : Ref) :
    (roots.lower less).count r = roots.count r - less r := by
  by_cases hless : less r < roots.count r
  · have hkey : r ∈ roots.keys := mem_keys_iff.2 (Nat.zero_lt_of_lt hless)
    exact count_of_mem (List.mem_map.2 ⟨_, List.mem_filter.2
      ⟨mem_counts hkey, decide_eq_true hless⟩, rfl⟩)
  · rw [Nat.sub_eq_zero_of_le (Nat.le_of_not_lt hless)]
    apply count_of_not_mem
    simp only [keys, lower, List.map_map, List.mem_map, List.mem_filter, decide_eq_true_eq]
    rintro ⟨⟨r', n⟩, ⟨hentry, hlt⟩, rfl⟩
    rw [← count_of_mem hentry] at hlt
    exact hless hlt

theorem count_forget (roots : Roots) (root r : Ref) :
    (roots.forget root).count r = roots.count r - if root = r then 1 else 0 :=
  count_lower ..

theorem count_forget_lists (h : ∀ r, roots.count r = (root :: L).count r) (r : Ref) :
    (roots.forget root).count r = L.count r := by
  rw [count_forget, h, List.count_cons]
  simp only [beq_iff_eq]
  omega

/-! ## Lists of roots -/

/-- The roots are those of the list, which has one entry for each live set. -/
structure Lists (roots : Roots) (L : List Ref) : Prop where
  count : ∀ root, roots.count root = L.count root
  live : roots.live = L.length

theorem none_lists : none.Lists [] :=
  ⟨fun _ => rfl, rfl⟩

namespace Lists

theorem perm (h : roots.Lists L) (hperm : L.Perm L') : roots.Lists L' :=
  ⟨fun root => (h.count root).trans (hperm.count_eq root), h.live.trans hperm.length_eq⟩

theorem mem_keys_iff (h : roots.Lists L) : root ∈ roots.keys ↔ root ∈ L := by
  rw [Roots.mem_keys_iff, h.count, List.count_pos_iff]

/-- When the sets of `gone` are given back, each root has as many holders less. -/
theorem less {roots' : Roots} {gone : List Ref} (h : roots.Lists L) (h' : roots'.Lists L')
    (hperm : L.Perm (gone ++ L')) :
    (∀ root, roots.count root = gone.count root + roots'.count root) ∧
      roots.live = gone.length + roots'.live := by
  refine ⟨fun root => ?_, ?_⟩
  · rw [h.count, h'.count, hperm.count_eq, List.count_append]
  · rw [h.live, h'.live, hperm.length_eq, List.length_append]

theorem eq_none (h : roots.Lists []) : roots = Roots.none := by
  have hcounts : roots.counts = [] := by
    rw [List.eq_nil_iff_forall_not_mem]
    intro entry hentry
    exact absurd (h.mem_keys_iff.1 (List.mem_map_of_mem hentry)) List.not_mem_nil
  exact Roots.ext hcounts h.live

end Lists

end Roots

namespace Factory

variable {f : Factory} {L : List Ref} {root : Ref}

theorem acquire_lists (h : f.roots.Lists L) (root : Ref) :
    ∃ roots, acquire root f = .ok () { f with roots := roots } ∧ roots.Lists (root :: L) := by
  refine ⟨{ f.roots.retain root with live := (f.roots.retain root).live + 1 }, rfl, ?_, ?_⟩
  · exact fun r => Roots.count_retain_lists h.count root r
  · rw [List.length_cons, ← h.live, ← Roots.live_retain f.roots root]

theorem release_lists (h : f.roots.Lists (root :: L)) :
    ∃ roots, release root f = .ok () { f with roots := roots } ∧ roots.Lists L := by
  have hmem : root ∈ f.roots.keys := h.mem_keys_iff.2 List.mem_cons_self
  have hforget : forget root f = .ok () { f with roots := f.roots.forget root } := if_pos hmem
  refine ⟨{ f.roots.forget root with live := f.roots.live - 1 }, run_bind hforget, ?_, ?_⟩
  · exact fun r => Roots.count_forget_lists h.count r
  · exact Nat.sub_eq_of_eq_add h.live

/-- A set that goes on with another root is still one set. -/
theorem replace_lists {old : Ref} (h : f.roots.Lists (old :: L)) (new : Ref) :
    ∃ roots, replace old new f = .ok () { f with roots := roots } ∧ roots.Lists (new :: L) := by
  rw [replace]
  by_cases hsame : new = old
  · rw [if_pos hsame, hsame]
    exact ⟨f.roots, rfl, h⟩
  rw [if_neg hsame]
  have hretain : retain new f = .ok () { f with roots := f.roots.retain new } := rfl
  have hcount : ∀ r, (f.roots.retain new).count r = (old :: new :: L).count r := fun r =>
    (Roots.count_retain_lists h.count new r).trans ((List.Perm.swap ..).count_eq r)
  have hmem : old ∈ (f.roots.retain new).keys := by
    rw [Roots.mem_keys_iff, hcount]
    exact List.count_pos_iff.2 List.mem_cons_self
  have hforget : forget old { f with roots := f.roots.retain new } =
      .ok () { f with roots := (f.roots.retain new).forget old } := if_pos hmem
  refine ⟨_, (run_bind hretain).trans hforget, Roots.count_forget_lists hcount, ?_⟩
  exact (Roots.live_retain f.roots new).trans h.live

end Factory

end SymbolicOmega
