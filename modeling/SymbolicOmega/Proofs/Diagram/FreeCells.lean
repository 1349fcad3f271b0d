import Mathlib.Algebra.Group.Nat.Defs
import SymbolicOmega.Proofs.Diagram.Tally

/-!
# The free cells

A table remembers a place below which every cell holds a value, so the search for a free cell
that starts there finds the lowest one.  A request is refused only when every cell of the table
holds a value, so a value that is put into a table either is stored already, gets the lowest free
cell, or finds the table full.
-/

namespace SymbolicOmega

namespace UniqueTable

open Function

variable {α : Type} {t u : UniqueTable α} {index : Nat} {v : α}

/-- The cell at `index` holds nothing, and every cell before it holds a value. -/
structure LowestFree (t : UniqueTable α) (index : Nat) : Prop where
  pos : index ≠ 0
  free : t.stored? index = none
  below : ∀ other, other ≠ 0 → other < index → ∃ w, t.stored? other = some w

/-- Every cell holds a value. -/
def Full (t : UniqueTable α) : Prop :=
  ∀ index, index ≠ 0 → index < t.capacity → ∃ w, t.stored? index = some w

/-- Every cell before the one at which the search for a free cell starts holds a value. -/
def Packed (t : UniqueTable α) : Prop :=
  ∀ index, index ≠ 0 → index < t.minFree → ∃ w, t.stored? index = some w

/-- A table has one lowest free cell. -/
theorem LowestFree.unique {other : Nat} (h : t.LowestFree index) (h' : t.LowestFree other) :
    index = other := by
  rcases Nat.lt_trichotomy index other with hlt | heq | hlt
  · obtain ⟨w, hw⟩ := h'.below index h.pos hlt
    simp [h.free] at hw
  · exact heq
  · obtain ⟨w, hw⟩ := h.below other h'.pos hlt
    simp [h'.free] at hw

theorem LowestFree.not_full (h : t.LowestFree index) (hlt : index < t.capacity) : ¬ t.Full := by
  intro hfull
  obtain ⟨w, hw⟩ := hfull index h.pos hlt
  simp [h.free] at hw

theorem Packed.congr (h : t.Packed)
    (hstored : ∀ index, (u.stored? index).isSome = (t.stored? index).isSome)
    (hminFree : u.minFree = t.minFree) : u.Packed := by
  intro index hpos hlt
  have hold := h index hpos (hminFree ▸ hlt)
  rwa [← Option.isSome_iff_exists, ← hstored, Option.isSome_iff_exists] at hold

theorem Layout.size_pos (ht : t.Layout) : 0 < t.cells.size := by
  obtain ⟨c, hsentry, -⟩ := ht.sentry
  exact (Array.getElem?_eq_some_iff.1 hsentry).1

/-- The search starts within the array or at its end. -/
theorem Packed.minFree_le (h : t.Packed) (ht : t.Layout) : t.minFree ≤ t.cells.size := by
  have hpos := ht.size_pos
  by_contra hgt
  obtain ⟨w, hw⟩ := h (t.minFree - 1) (by omega) (by omega)
  have hlt := lt_size_of_stored hw
  omega

/-- Once the lowest free cell is taken, the search starts behind it. -/
theorem LowestFree.packed (h : t.LowestFree index) (hstored : u.stored? index = some v)
    (hothers : ∀ other, other ≠ index → u.stored? other = t.stored? other)
    (hminFree : u.minFree = index + 1) : u.Packed := by
  intro other hpos hlt
  by_cases hother : other = index
  · exact ⟨v, hother ▸ hstored⟩
  · rw [hothers other hother]
    exact h.below other hpos (by omega)

/-- The search passes over cells that hold a value, and stops at one that holds none, at the end
of its range or at the end of the array. -/
theorem firstFree?_passes (cells : Array (Cell α)) (start count : Nat) :
    ∃ stop, start ≤ stop ∧
      (∀ index, start ≤ index → index < stop →
        ∃ c, cells[index]? = some c ∧ c.occupied = true) ∧
      match firstFree? cells start count with
      | .ok (some index) => index = stop ∧ stop < start + count
      | .ok none => stop = start + count
      | .error _ => cells.size ≤ stop ∧ stop < start + count := by
  induction count generalizing start with
  | zero => exact ⟨start, le_rfl, fun index hle hlt => by omega, rfl⟩
  | succ count ih =>
      cases hcell : cells[start]? with
      | none =>
          refine ⟨start, le_rfl, fun index hle hlt => by omega, ?_⟩
          simpa only [firstFree?, hcell] using
            And.intro (Array.getElem?_eq_none_iff.1 hcell) (by omega)
      | some c =>
          cases hoccupied : c.occupied with
          | false =>
              refine ⟨start, le_rfl, fun index hle hlt => by omega, ?_⟩
              simp [firstFree?, hcell, hoccupied]
          | true =>
              obtain ⟨stop, hle, hpassed, hend⟩ := ih (start + 1)
              refine ⟨stop, by omega, fun index hfrom hto => ?_, ?_⟩
              · by_cases hstart : index = start
                · exact ⟨c, hstart ▸ hcell, hoccupied⟩
                · exact hpassed index (by omega) hto
              · rw [show start + (count + 1) = start + 1 + count by omega]
                simpa only [firstFree?, hcell, hoccupied, if_true] using hend

theorem updateCell_minFree (index : Nat) (change : Cell α → Cell α) (n : Nat) :
    Upholds (fun t : UniqueTable α => t.minFree = n) (updateCell index change) := by
  intro t ht
  unfold Outcome updateCell
  cases t.cell index <;> exact ht

section Alloc
variable [Inhabited α]

/-- The search finds the lowest free cell.  It finds none only when the table has none. -/
theorem alloc_lowestFree (ht : t.Layout) (hpacked : t.Packed) :
    Outcome alloc t (fun index u => t.LowestFree index ∧ u.minFree = index + 1)
      (fun _ u => t.Full ∧ u.minFree = t.minFree) := by
  obtain ⟨stop, -, hpassed, hend⟩ :=
    firstFree?_passes t.cells t.minFree (t.lastIndex + 1 - t.minFree)
  have hbelow : ∀ index, index ≠ 0 → index < stop → ∃ w, t.stored? index = some w := by
    intro index hpos hlt
    by_cases hfrom : t.minFree ≤ index
    · obtain ⟨c, hcell, hoccupied⟩ := hpassed index hfrom hlt
      exact ⟨c.value, stored?_eq_some.2 ⟨hpos, c, hcell, hoccupied, rfl⟩⟩
    · exact hpacked index hpos (Nat.lt_of_not_le hfrom)
  have hfull : t.capacity ≤ stop → t.Full := fun hle index hpos hlt =>
    hbelow index hpos (Nat.lt_of_lt_of_le hlt hle)
  have hsize := ht.size_le
  have hextent := ht.extent
  have hminFree := hpacked.minFree_le ht
  unfold Outcome alloc
  cases hfound : firstFree? t.cells t.minFree (t.lastIndex + 1 - t.minFree) with
  | error fault =>
      rw [hfound] at hend
      exact ⟨hfull (by omega), rfl⟩
  | ok found =>
      cases found with
      | some index =>
          rw [hfound] at hend
          obtain ⟨rfl, hlt⟩ := hend
          obtain ⟨c, hcell, hfree⟩ := firstFree?_eq_some hfound
          have hroom : ¬ t.capacity ≤ index := by
            have := (Array.getElem?_eq_some_iff.1 hcell).1
            omega
          simp only [Option.getD_some, hroom, if_false]
          refine ⟨⟨ht.ne_zero_of_free hcell hfree, ?_, hbelow⟩, trivial⟩
          simp [stored?, hcell, Option.filter, hfree]
      | none =>
          rw [hfound] at hend
          have hstop : stop = t.lastIndex + 1 := by omega
          by_cases hroom : t.capacity ≤ t.lastIndex + 1
          · simp only [Option.getD_none, hroom, if_true]
            exact ⟨hfull (by omega), trivial⟩
          · simp only [Option.getD_none, hroom, if_false]
            refine ⟨⟨Nat.succ_ne_zero _, ?_, hstop ▸ hbelow⟩, trivial⟩
            have hbeyond : t.cells[t.lastIndex + 1]? = none := by
              rw [Array.getElem?_eq_none_iff]
              omega
            simp [stored?, hbeyond]

/-- Whether a cell is taken or refused, the cells stay packed. -/
theorem alloc_packed (ht : t.Layout) (hpacked : t.Packed) :
    Outcome alloc t (fun _ u => u.Packed) (fun _ u => u.Packed) := by
  apply ((alloc_outcome ht).and (alloc_lowestFree ht hpacked)).mono
  · rintro index u ⟨htaken, hlowest, hminFree⟩
    obtain ⟨c, hcell, hoccupied⟩ := htaken.occupied
    have hstored : u.stored? index = some c.value :=
      stored?_eq_some.2 ⟨htaken.pos, c, hcell, hoccupied, rfl⟩
    exact hlowest.packed hstored (fun other hother => stored?_congr (htaken.others other hother))
      hminFree
  · rintro fault u ⟨⟨-, hcells⟩, -, hminFree⟩
    have hstored : ∀ other, u.stored? other = t.stored? other := fun _ =>
      stored?_congr (by rw [hcells.cells])
    exact hpacked.congr (fun other => by rw [hstored]) hminFree

/-- A value that is stored anew gets the lowest free cell. -/
theorem add_lowestFree (ht : t.Layout) (hpacked : t.Packed) (v : α) :
    Outcome (add v) t (fun index u => t.LowestFree index ∧ u.minFree = index + 1)
      (fun _ u => t.Full ∧ u.minFree = t.minFree) := by
  apply Outcome.andThen
    ((Outcome.and (alloc_outcome ht) (alloc_lowestFree ht hpacked)).mono (fun _ _ hend => hend)
      fun _ _ hend => hend.2)
  rintro index u ⟨htaken, hlowest, hminFree⟩
  obtain ⟨c, hcell, -⟩ := htaken.occupied
  apply Outcome.bind
  simp only [Outcome, updateCell, cell, htaken.pos, if_false, hcell]
  exact ⟨hlowest, hminFree⟩

end Alloc

/-! ## Putting a value -/

section Put
variable [DecidableEq α] [Hashable α] {loose : Nat → Prop}

variable [Inhabited α]

/-- A value that is put into a table is stored already, or it is added and then linked to the
chain of its bucket, which does not fail. -/
theorem put_links (ht : t.Consed loose) (v : α) {good : Nat → UniqueTable α → Prop}
    {bad : Fault → UniqueTable α → Prop}
    (hfound : ∀ index, ¬ loose index → t.stored? index = some v → good index t)
    (hadd : (∀ index, ¬ loose index → t.stored? index ≠ some v) →
      Outcome (add v) t (fun index u => ∀ w, (∃ bucket, setHead bucket index u = .ok () w) ∨
        (∃ last, setNext last index u = .ok () w) → good index w) bad) :
    Outcome (put v) t good bad := by
  obtain ⟨hlayout, chain, hlinked⟩ := ht
  have hlt := bucketOf_lt hlayout v
  have hmem := hlinked.mem_chain _ hlt
  rcases hlinked.locate_run hlayout v with ⟨index, hin, hstored, hlocate⟩ | ⟨hnew, hlocate⟩
  · rw [Outcome]
    rw [show put v t = .ok index t by simp only [put, hlocate]]
    exact hfound index ((hmem index).1 hin).1 hstored
  · have hoff : ∀ index, ¬ loose index → t.stored? index ≠ some v := fun index hstrict hstored =>
      hnew index ((hmem index).2 ⟨hstrict, v, hstored, rfl⟩) hstored
    refine put_links_behind hlayout hlocate (fun _ hlast => hlinked.link?_of_last hlt hlast)
      ((hadd hoff).imp fun index u hgood w hset => hgood w ?_)
    rcases hset with ⟨-, hset⟩ | ⟨last, -, hset⟩
    · exact Or.inl ⟨_, hset⟩
    · exact Or.inr ⟨last, hset⟩

omit [DecidableEq α] [Hashable α] [Inhabited α] in
/-- Linking a cell is nothing to the search for a free one. -/
theorem minFree_of_linked {w : UniqueTable α}
    (hset : (∃ bucket, setHead bucket index u = .ok () w) ∨
      ∃ last, setNext last index u = .ok () w) : w.minFree = u.minFree := by
  rcases hset with ⟨bucket, hset⟩ | ⟨last, hset⟩
  · cases hset
    rfl
  · exact (updateCell_minFree last (fun c => { c with next := index }) _ u rfl).of_ok hset

/-- A value that is put into a table is stored already, or gets the lowest free cell, or is
refused by a full table. -/
theorem put_lowestFree (ht : t.Consed loose) (hpacked : t.Packed) (v : α) :
    Outcome (put v) t
      (fun index u => ¬ loose index ∧ t.stored? index = some v ∧ u = t ∨
        (∀ other, ¬ loose other → t.stored? other ≠ some v) ∧ t.LowestFree index ∧
          u.minFree = index + 1)
      (fun _ u => (∀ other, ¬ loose other → t.stored? other ≠ some v) ∧ t.Full ∧
        u.minFree = t.minFree) := by
  refine put_links ht v (fun index hstrict hstored => Or.inl ⟨hstrict, hstored, rfl⟩) fun hnew => ?_
  refine (add_lowestFree ht.layout hpacked v).mono ?_ fun _ _ hend => ⟨hnew, hend⟩
  rintro index u ⟨hlowest, hminFree⟩ w hlinked
  exact Or.inr ⟨hnew, hlowest, (minFree_of_linked hlinked).trans hminFree⟩

/-- Whether it is stored or refused, a value that is put into a table leaves the cells packed. -/
theorem put_packed (ht : t.Consed loose) (hpacked : t.Packed) (v : α) :
    Outcome (put v) t (fun _ u => u.Packed) (fun _ u => u.Packed) := by
  apply ((put_outcome (v := v) ht).and (put_lowestFree ht hpacked v)).mono
  · rintro index u ⟨hput, ⟨-, -, rfl⟩ | ⟨-, hlowest, hminFree⟩⟩
    · exact hpacked
    · rcases hput.change with rfl | ⟨-, hstored⟩
      · exact hpacked
      · exact hlowest.packed hput.stored (fun other hother => by rw [hstored, update_of_ne hother])
          hminFree
  · rintro fault u ⟨⟨-, hcells⟩, -, -, hminFree⟩
    have hstored : ∀ other, u.stored? other = t.stored? other := fun _ =>
      stored?_congr (by rw [hcells.cells])
    exact hpacked.congr (fun other => by rw [hstored]) hminFree

end Put

theorem updateCell_packed (index : Nat) {change : Cell α → Cell α}
    (hchange : ∀ c, (change c).occupied = c.occupied) :
    Upholds Packed (updateCell index change) := by
  intro t ht
  unfold Outcome updateCell
  cases t.cell index with
  | error fault => exact ht
  | ok c => exact ht.congr (isSome_stored?_modify t index hchange) rfl

/-- The search for a free cell starts no later than at a cell that was dropped. -/
theorem drop_packed (index : Nat) : Upholds (Packed (α := α)) (drop index) := by
  intro t ht
  unfold Outcome drop
  cases t.cell index with
  | error fault => exact ht
  | ok c =>
      cases hoccupied : c.occupied with
      | false => simpa only [hoccupied, Bool.false_eq_true, if_false] using ht
      | true =>
        simp only [hoccupied, if_true]
        intro other hpos hlt
        have hlt : other < min t.minFree index := hlt
        obtain ⟨w, hw⟩ := ht other hpos (by omega)
        refine ⟨w, ?_⟩
        rw [← hw]
        apply stored?_congr
        simp [Array.getElem?_modify, show index ≠ other by omega]

theorem setNext_packed (index next : Nat) : Upholds (Packed (α := α)) (setNext index next) :=
  updateCell_packed index fun _ => rfl

theorem setHead_packed (bucket index : Nat) :
    Upholds (Packed (α := α)) (setHead bucket index) := fun _ ht => ht

/-- A sweep leaves the cells packed. -/
theorem retain_packed (keep : Nat → Bool) : Upholds (Packed (α := α)) (retain keep) :=
  retain_upholds drop_packed setNext_packed setHead_packed keep

/-! ## The capacity -/

section Capacity
variable {n : Nat}

theorem updateCell_capacity (index : Nat) (change : Cell α → Cell α) :
    Upholds (fun t : UniqueTable α => t.capacity = n) (updateCell index change) := by
  intro t ht
  unfold Outcome updateCell
  cases t.cell index <;> exact ht

theorem setHead_capacity (bucket index : Nat) :
    Upholds (fun t : UniqueTable α => t.capacity = n) (setHead bucket index) := fun _ ht => ht

theorem alloc_capacity [Inhabited α] :
    Upholds (fun t : UniqueTable α => t.capacity = n) alloc := by
  intro t ht
  unfold Outcome alloc
  cases firstFree? t.cells t.minFree (t.lastIndex + 1 - t.minFree) with
  | error fault => exact ht
  | ok found =>
      dsimp only
      by_cases hroom : t.capacity ≤ found.getD (t.lastIndex + 1)
      · simpa only [hroom, if_true] using ht
      · simpa only [hroom, if_false] using ht

/-- Putting a value does not change how many cells there may be. -/
theorem put_capacity [DecidableEq α] [Hashable α] [Inhabited α] (v : α) :
    Upholds (fun t : UniqueTable α => t.capacity = n) (put v) := by
  apply put_upholds _ (fun index _ => updateCell_capacity index _) setHead_capacity v
  exact fun v => alloc_capacity.bind fun index =>
    (updateCell_capacity index _).bind fun _ => Upholds.pure index

theorem drop_capacity (index : Nat) :
    Upholds (fun t : UniqueTable α => t.capacity = n) (drop index) := by
  intro t ht
  unfold Outcome drop
  cases t.cell index with
  | error fault => exact ht
  | ok c => cases hoccupied : c.occupied <;> simpa [hoccupied] using ht

/-- A sweep does not change how many cells there may be. -/
theorem retain_capacity (keep : Nat → Bool) :
    Upholds (fun t : UniqueTable α => t.capacity = n) (retain keep) :=
  retain_upholds drop_capacity (fun index _ => updateCell_capacity index _) setHead_capacity keep

/-- A new table has room for `2 ^ bits` cells. -/
theorem ofBits_capacity [Inhabited α] {bits : Nat} (h : ofBits bits = .ok t) :
    bits ≤ 31 ∧ t.capacity = 2 ^ bits := by
  rw [ofBits] at h
  split at h
  · cases h
    exact ⟨‹_›, Nat.one_shiftLeft bits⟩
  · cases h

end Capacity

end UniqueTable

end SymbolicOmega
