import SymbolicOmega.Diagram.Ref

/-!
# Held roots

Each live set holds its root.  For every root it is counted how many sets hold it, and beside
that how many sets are live.
-/

namespace SymbolicOmega

structure Roots where
  /-- The roots that are held, each with the number of sets that hold it. -/
  counts : List (Ref × Nat)
  live : Nat
  nodup : (counts.map Prod.fst).Nodup
  positive : ∀ entry ∈ counts, 0 < entry.2

namespace Roots

def none : Roots := ⟨[], 0, .nil, nofun⟩

instance : Inhabited Roots := ⟨none⟩

def keys (roots : Roots) : List Ref :=
  roots.counts.map Prod.fst

def count (roots : Roots) (root : Ref) : Nat :=
  (roots.counts.lookup root).getD 0

/-- The roots with one more holder of `root`, which has some. -/
def raise (roots : Roots) (root : Ref) : Roots where
  counts := roots.counts.map fun entry =>
    if entry.1 = root then (entry.1, entry.2 + 1) else entry
  live := roots.live
  nodup := by
    have hkeys : ∀ entry : Ref × Nat,
        (if entry.1 = root then (entry.1, entry.2 + 1) else entry).1 = entry.1 := by
      intro entry
      split <;> rfl
    simpa [Function.comp_def, hkeys] using roots.nodup
  positive := by
    simp only [List.mem_map]
    rintro _ ⟨entry, hentry, rfl⟩
    split
    · exact Nat.succ_pos _
    · exact roots.positive entry hentry

/-- The roots with a first holder of `root`. -/
def add (roots : Roots) (root : Ref) (hnew : root ∉ roots.keys) : Roots where
  counts := (root, 1) :: roots.counts
  live := roots.live
  nodup := List.nodup_cons.2 ⟨hnew, roots.nodup⟩
  positive := List.forall_mem_cons.2 ⟨Nat.one_pos, roots.positive⟩

def retain (roots : Roots) (root : Ref) : Roots :=
  if h : root ∈ roots.keys then roots.raise root else roots.add root h

/-- The roots with less holders.  A root that no set holds any more is taken out. -/
def lower (roots : Roots) (less : Ref → Nat) : Roots where
  counts := (roots.counts.filter fun entry => less entry.1 < entry.2).map fun entry =>
    (entry.1, entry.2 - less entry.1)
  live := roots.live
  nodup := by
    rw [List.map_map]
    exact roots.nodup.sublist (List.filter_sublist.map _)
  positive := by
    simp only [List.mem_map, List.mem_filter, decide_eq_true_eq]
    rintro _ ⟨entry, ⟨-, hless⟩, rfl⟩
    exact Nat.sub_pos_of_lt hless

def forget (roots : Roots) (root : Ref) : Roots :=
  roots.lower fun r => if root = r then 1 else 0

end Roots

end SymbolicOmega
