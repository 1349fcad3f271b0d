import Mathlib.Data.Finset.Card
import SymbolicOmega.Proofs.Diagram.Causes
import SymbolicOmega.Proofs.Diagram.Sweep

/-!
# Counting the stored values

A table keeps the number of its occupied cells.  Taking a cell adds one to it and dropping a
cell takes one away, so it is the number of stored values at all times, after a refused request
too, and a sweep reports by how much it went down.
-/

namespace SymbolicOmega

namespace UniqueTable

open Function

variable {α : Type} {t u : UniqueTable α} {index : Nat} {v : α}

section Upholds
variable {P : UniqueTable α → Prop}

/-- What is kept by storing a value and by linking a cell is kept by putting a value. -/
theorem put_upholds [DecidableEq α] [Hashable α] [Inhabited α]
    (hadd : ∀ v, Upholds P (add v)) (hnext : ∀ index next, Upholds P (setNext index next))
    (hhead : ∀ bucket index, Upholds P (setHead bucket index)) (v : α) : Upholds P (put v) :=
  put_carries v (fun _ _ ht _ => ht) (hadd v) hnext hhead

theorem linkChain_upholds (hnext : ∀ index next, Upholds P (setNext index next))
    (path : List Nat) : Upholds P (linkChain path) := by
  induction path with
  | nil => exact Upholds.pure ()
  | cons first rest ih =>
      cases rest with
      | nil => exact hnext first 0
      | cons second others => exact (hnext first second).bind fun _ => ih

theorem sweepChain_upholds (hdrop : ∀ index, Upholds P (drop index)) (keep : Nat → Bool)
    (bound index : Nat) (kept : List Nat) (sweep : Sweep) :
    Upholds P (sweepChain keep bound index kept sweep) := by
  induction bound generalizing index kept sweep with
  | zero =>
      cases index with
      | zero => exact Upholds.pure _
      | succ index => exact Upholds.throw _
  | succ bound ih =>
      cases index with
      | zero => exact Upholds.pure _
      | succ index =>
          have hfollow : Upholds P (followLink (index + 1)) := by
            intro t ht
            unfold Outcome followLink
            cases t.next (index + 1) <;> exact ht
          exact hfollow.bind fun next => Upholds.ite (ih next _ _)
            ((hdrop (index + 1)).bind fun _ => ih next _ _)

/-- What is kept by dropping and by linking a cell is kept by a sweep. -/
theorem retain_upholds (hdrop : ∀ index, Upholds P (drop index))
    (hnext : ∀ index next, Upholds P (setNext index next))
    (hhead : ∀ bucket index, Upholds P (setHead bucket index)) (keep : Nat → Bool) :
    Upholds P (retain keep) := by
  have hread : ∀ {β : Type} (f : UniqueTable α → β), Upholds P (modifyGet fun t => (f t, t)) :=
    fun f t ht => ht
  apply (hread _).bind
  intro buckets
  apply Upholds.foldlM
  intro sweep bucket
  apply (hread _).bind
  intro start
  apply (sweepChain_upholds hdrop keep start.2 start.1 [] sweep).bind
  intro swept
  exact (hhead bucket _).bind fun _ =>
    (linkChain_upholds hnext swept.1.reverse).bind fun _ => Upholds.pure _

end Upholds

/-- The indices at which a value is stored. -/
def population (t : UniqueTable α) : Finset Nat :=
  (Finset.range t.cells.size).filter fun index => (t.stored? index).isSome

@[simp]
theorem mem_population : index ∈ t.population ↔ ∃ v, t.stored? index = some v := by
  rw [population, Finset.mem_filter, Finset.mem_range, Option.isSome_iff_exists]
  constructor
  · exact And.right
  · intro hstored
    exact ⟨lt_size_of_stored hstored.choose_spec, hstored⟩

/-- The number that the table keeps is that of its stored values. -/
def Counted (t : UniqueTable α) : Prop :=
  t.occupied = t.population.card

/-- Only which cells hold a value matters, not what they hold. -/
theorem Counted.congr (h : t.Counted)
    (hstored : ∀ index, (u.stored? index).isSome = (t.stored? index).isSome)
    (hoccupied : u.occupied = t.occupied) : u.Counted := by
  have hpopulation : u.population = t.population := by
    ext index
    rw [mem_population, mem_population, ← Option.isSome_iff_exists, ← Option.isSome_iff_exists,
      hstored]
  rw [Counted, hpopulation, hoccupied, h]

/-- One more cell holds a value. -/
theorem Counted.insert (h : t.Counted) (hfree : t.stored? index = none)
    (hstored : u.stored? index = some v)
    (hothers : ∀ other, other ≠ index → u.stored? other = t.stored? other)
    (hoccupied : u.occupied = t.occupied + 1) : u.Counted := by
  have hpopulation : u.population = Insert.insert index t.population := by
    ext other
    rw [Finset.mem_insert, mem_population, mem_population]
    by_cases hother : other = index
    · simp [hother, hstored]
    · simp [hother, hothers other hother]
  have hfresh : index ∉ t.population := by simp [hfree]
  rw [Counted, hpopulation, Finset.card_insert_of_notMem hfresh, hoccupied, h]

/-- One cell less holds a value. -/
theorem Counted.erase (h : t.Counted) (hindex : t.stored? index = some v)
    (hloses : t.Loses u (· = index)) (hoccupied : u.occupied = t.occupied - 1) :
    u.Counted ∧ u.occupied + 1 = t.occupied := by
  have hpopulation : u.population = t.population.erase index := by
    ext other
    rw [Finset.mem_erase, mem_population, mem_population, ← exists_and_left]
    exact exists_congr fun w => (hloses other w).trans and_comm
  have hmem : index ∈ t.population := mem_population.2 ⟨v, hindex⟩
  have hcard := Finset.card_erase_of_mem hmem
  have hpos := Finset.card_pos.2 ⟨index, hmem⟩
  rw [Counted] at h
  rw [Counted, hpopulation, hcard]
  omega

/-! ## Putting a value -/

/-- A table whose cells are in place and counted. -/
def Tallied (t : UniqueTable α) : Prop :=
  t.Layout ∧ t.Counted

/-- Changing a cell other than by taking or dropping it changes nothing about which cells hold a
value. -/
theorem isSome_stored?_modify (t : UniqueTable α) (index : Nat) {change : Cell α → Cell α}
    (hchange : ∀ c, (change c).occupied = c.occupied) (other : Nat) :
    (stored? { t with cells := t.cells.modify index change } other).isSome =
      (t.stored? other).isSome := by
  by_cases hother : index = other
  · subst hother
    cases hread : t.cells[index]? with
    | none => simp [stored?, Array.getElem?_modify, hread]
    | some c =>
        by_cases hpos : index = 0
        · simp [stored?, hpos]
        · cases hoccupied : c.occupied <;>
            simp [stored?, hpos, Array.getElem?_modify, hread, hchange, hoccupied, Option.filter]
  · simp [stored?, Array.getElem?_modify, hother]

/-- Changing a cell other than by taking or dropping it keeps the count. -/
theorem updateCell_tallied (index : Nat) {change : Cell α → Cell α}
    (hchange : ∀ c, (change c).occupied = c.occupied) :
    Upholds Tallied (updateCell index change) := by
  intro t ht
  unfold Outcome updateCell
  cases hcell : t.cell index with
  | error fault => exact ht
  | ok c =>
      have hpos : index ≠ 0 := by
        rintro rfl
        simp [cell] at hcell
      exact ⟨ht.1.of_modify hpos change _ _,
        ht.2.congr (isSome_stored?_modify t index hchange) rfl⟩

theorem setNext_tallied (index next : Nat) : Upholds (Tallied (α := α)) (setNext index next) :=
  updateCell_tallied index fun _ => rfl

theorem setHead_tallied (bucket index : Nat) :
    Upholds (Tallied (α := α)) (setHead bucket index) := by
  intro t ht
  have hlayout := ht.1
  refine ⟨⟨?_, ?_, hlayout.sentry, hlayout.size_le, hlayout.extent⟩, ht.2⟩
  · simpa using hlayout.buckets_pos
  · simpa using hlayout.buckets_lt

section Put
variable [Inhabited α]

theorem alloc_occupied (t : UniqueTable α) :
    Outcome alloc t (fun _ u => u.occupied = t.occupied + 1)
      (fun _ u => u.occupied = t.occupied) := by
  unfold Outcome alloc
  cases firstFree? t.cells t.minFree (t.lastIndex + 1 - t.minFree) with
  | error fault => rfl
  | ok found =>
      dsimp only
      split_ifs <;> rfl

theorem alloc_tallied : Upholds (Tallied (α := α)) alloc := by
  intro t ht
  apply (Outcome.and (alloc_outcome ht.1) (alloc_occupied t)).mono
  · intro index u hend
    have htaken := hend.1
    refine ⟨htaken.layout, ?_⟩
    rcases htaken.occupied with ⟨c, hcell, hoccupied⟩
    have hstored : u.stored? index = some c.value :=
      stored?_eq_some.2 ⟨htaken.pos, c, hcell, hoccupied, rfl⟩
    exact ht.2.insert htaken.free hstored
      (fun other hother => stored?_congr (htaken.others other hother)) hend.2
  · intro fault u hend
    have hstored : ∀ index, u.stored? index = t.stored? index := fun _ =>
      stored?_congr (by rw [hend.1.2.cells])
    exact ⟨hend.1.1, ht.2.congr (fun index => by rw [hstored]) hend.2⟩

theorem add_tallied (v : α) : Upholds Tallied (add v) := by
  apply alloc_tallied.bind
  intro index
  have hupdate :
      Upholds Tallied (updateCell index fun cell => { cell with value := v, next := 0 }) :=
    updateCell_tallied index fun _ => rfl
  exact hupdate.bind fun _ => Upholds.pure index

/-- Whether it is stored or refused, a value that is put into a table is counted rightly. -/
theorem put_tallied [DecidableEq α] [Hashable α] (v : α) : Upholds Tallied (put v) :=
  put_upholds add_tallied setNext_tallied setHead_tallied v

end Put

/-! ## Sweeping -/

/-- A sweep has reported by how much the number of stored values went down. -/
structure Tallies (t u : UniqueTable α) (sweep sweep' : Sweep) : Prop where
  tallied : u.Tallied
  total : u.occupied + sweep'.dropped = t.occupied + sweep.dropped

theorem Tallies.trans {w : UniqueTable α} {sweep sweep' sweep'' : Sweep}
    (h : t.Tallies u sweep sweep') (h' : u.Tallies w sweep' sweep'') : t.Tallies w sweep sweep'' :=
  ⟨h'.tallied, h'.total.trans h.total⟩

theorem drop_tallied (ht : t.Tallied) (index : Nat) :
    Outcome (drop index) t (fun _ u => u.Tallied ∧ u.occupied + 1 = t.occupied)
      (fun _ _ => True) := by
  apply Outcome.intro _ fun _ _ _ => trivial
  intro _ u hrun
  have hstored : ∃ v, t.stored? index = some v := by
    by_cases hpos : index = 0
    · simp [drop, cell, hpos] at hrun
    cases hcell : t.cells[index]? with
    | none => simp [drop, cell, hpos, hcell] at hrun
    | some c =>
        cases hoccupied : c.occupied with
        | false => simp [drop, cell, hpos, hcell, hoccupied] at hrun
        | true => exact ⟨c.value, stored?_eq_some.2 ⟨hpos, c, hcell, hoccupied, rfl⟩⟩
  rcases hstored with ⟨v, hv⟩
  rcases drop_run ht.1 hv with ⟨w, hrun', hlayout, hloses, -, -⟩
  have hsame : w = u := by
    rw [hrun] at hrun'
    cases hrun'
    rfl
  have hoccupied : u.occupied = t.occupied - 1 := by
    unfold drop at hrun
    split at hrun
    · cases hrun
    · split at hrun
      · cases hrun
        rfl
      · cases hrun
  subst hsame
  have hend := ht.2.erase hv hloses hoccupied
  exact ⟨⟨hlayout, hend.1⟩, hend.2⟩

theorem updateCell_occupied (index : Nat) (change : Cell α → Cell α) (n : Nat) :
    Upholds (fun t : UniqueTable α => t.occupied = n) (updateCell index change) := by
  intro t ht
  unfold Outcome updateCell
  cases t.cell index <;> exact ht

/-- Relinking after a sweep changes no count. -/
theorem setNext_tallies (index next : Nat) {sweep sweep' : Sweep} :
    Upholds (fun u : UniqueTable α => t.Tallies u sweep sweep') (setNext index next) := by
  intro u hu
  have htallied := setNext_tallied index next u hu.tallied
  have hoccupied := updateCell_occupied index (fun cell => { cell with next }) u.occupied u rfl
  apply (Outcome.and htallied hoccupied).mono
  · intro _ w hend
    exact ⟨hend.1, by rw [hend.2]; exact hu.total⟩
  · intro _ w hend
    exact ⟨hend.1, by rw [hend.2]; exact hu.total⟩

theorem linkChain_tallies (path : List Nat) {sweep sweep' : Sweep} :
    Upholds (fun u : UniqueTable α => t.Tallies u sweep sweep') (linkChain path) :=
  linkChain_upholds (fun index next => setNext_tallies index next) path

theorem followLink_outcome (t : UniqueTable α) (index : Nat) :
    Outcome (followLink index) t (fun _ u => u = t) (fun _ _ => True) := by
  unfold Outcome followLink
  cases t.next index <;> trivial

theorem sweepChain_tallies (keep : Nat → Bool) (bound index : Nat) (kept : List Nat)
    (sweep : Sweep) (ht : t.Tallied) :
    Outcome (sweepChain keep bound index kept sweep) t
      (fun result u => t.Tallies u sweep result.2) (fun _ _ => True) := by
  induction bound generalizing t index kept sweep with
  | zero =>
      cases index with
      | zero => exact Outcome.pure ⟨ht, rfl⟩
      | succ index => exact Outcome.throw trivial
  | succ bound ih =>
      cases index with
      | zero => exact Outcome.pure ⟨ht, rfl⟩
      | succ index =>
          apply Outcome.bind
          apply (followLink_outcome t (index + 1)).imp
          rintro next u rfl
          cases hkeep : keep (index + 1) with
          | true =>
              simp only [if_true]
              apply (ih next _ ⟨(index + 1) :: sweep.visited, sweep.dropped⟩ ht).imp
              exact fun _ _ hend => ⟨hend.tallied, hend.total⟩
          | false =>
              simp only [Bool.false_eq_true, if_false]
              apply Outcome.bind_answers (drop_tallied ht (index + 1))
              intro _ w hdrop
              apply (ih next kept ⟨(index + 1) :: sweep.visited, sweep.dropped + 1⟩ hdrop.1).imp
              intro result y hend
              have htotal : y.occupied + result.2.dropped = w.occupied + (sweep.dropped + 1) :=
                hend.total
              exact ⟨hend.tallied, by omega⟩

theorem sweepBucket_tallies (keep : Nat → Bool) (sweep : Sweep) (bucket : Nat) (ht : t.Tallied) :
    Outcome (sweepBucket keep sweep bucket) t (fun sweep' u => t.Tallies u sweep sweep')
      (fun _ _ => True) := by
  apply Outcome.bind_ok rfl
  apply Outcome.bind_answers (sweepChain_tallies keep _ _ [] sweep ht)
  intro result u hu
  have hhead : Outcome (setHead bucket (result.1.reverse.headD 0)) u
      (fun _ w => t.Tallies w sweep result.2) (fun _ _ => True) :=
    ⟨setHead_tallied bucket _ u hu.tallied, hu.total⟩
  apply Outcome.bind_answers hhead
  intro _ w hw
  apply Outcome.bind_answers (linkChain_tallies result.1.reverse w hw)
  exact fun _ _ hend => Outcome.pure hend

theorem sweepBuckets_tallies (keep : Nat → Bool) (buckets : List Nat) (sweep : Sweep)
    (ht : t.Tallied) :
    Outcome (buckets.foldlM (sweepBucket keep) sweep) t (fun sweep' u => t.Tallies u sweep sweep')
      (fun _ _ => True) := by
  induction buckets generalizing t sweep with
  | nil => exact Outcome.pure ⟨ht, rfl⟩
  | cons bucket rest ih =>
      rw [List.foldlM_cons]
      apply Outcome.bind_answers (sweepBucket_tallies keep sweep bucket ht)
      intro sweep' u hu
      exact (ih sweep' hu.tallied).imp fun _ _ hend => hu.trans hend

/-- A sweep reports how many values fewer are stored. -/
theorem retain_tallied (keep : Nat → Bool) (ht : t.Tallied) {sweep : Sweep}
    (hrun : retain keep t = .ok sweep u) : u.Tallied ∧ u.occupied + sweep.dropped = t.occupied := by
  have houtcome : Outcome (retain keep) t (fun sweep u => t.Tallies u ⟨[], 0⟩ sweep)
      (fun _ _ => True) :=
    Outcome.bind_ok rfl (sweepBuckets_tallies keep _ ⟨[], 0⟩ ht)
  have hend := houtcome.of_ok hrun
  exact ⟨hend.tallied, hend.total⟩

end UniqueTable

end SymbolicOmega
