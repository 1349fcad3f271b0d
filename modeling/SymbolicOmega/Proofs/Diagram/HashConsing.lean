import SymbolicOmega.Proofs.Diagram.Chains

/-!
# Hash consing

The chains of a table hold exactly the stored values, each on the chain of its
bucket.  So a walk along one chain decides whether a value is stored, a value that is
put in gets a cell only if no cell holds it yet, and two cells never hold the same
value.  Cells that were taken outside every chain are called loose.
-/

namespace SymbolicOmega

namespace UniqueTable

open Function

variable {α : Type}

/-- The cells of a table fill its array from the sentry on.  After a refused request the
last index points beyond a full table. -/
structure Layout (t : UniqueTable α) : Prop where
  buckets_pos : 0 < t.buckets.size
  buckets_lt : t.buckets.size < UInt64.size
  sentry : ∃ c, t.cells[0]? = some c ∧ c.occupied = true
  size_le : t.cells.size ≤ t.capacity
  extent : t.lastIndex + 1 = t.cells.size ∨ t.cells.size = t.capacity ∧ t.capacity ≤ t.lastIndex

/-- Two tables with the same cells and chains. -/
structure SameCells (t u : UniqueTable α) : Prop where
  cells : u.cells = t.cells
  buckets : u.buckets = t.buckets

/-- `u` is `t` after a cell that was free was taken. -/
structure Taken (t u : UniqueTable α) (index : Nat) : Prop where
  layout : u.Layout
  pos : index ≠ 0
  free : t.stored? index = none
  occupied : ∃ c, u.cells[index]? = some c ∧ c.occupied = true
  others : ∀ other, other ≠ index → u.cells[other]? = t.cells[other]?
  buckets : u.buckets = t.buckets

theorem firstFree?_eq_some {cells : Array (Cell α)} {start count index : Nat}
    (h : firstFree? cells start count = .ok (some index)) :
    ∃ c, cells[index]? = some c ∧ c.occupied = false := by
  induction count generalizing start with
  | zero => simp [firstFree?] at h
  | succ count ih =>
      cases hcell : cells[start]? with
      | none => simp [firstFree?, hcell] at h
      | some c =>
          cases hocc : c.occupied with
          | true => exact ih (by simpa [firstFree?, hcell, hocc] using h)
          | false =>
              have hindex : start = index := by simpa [firstFree?, hcell, hocc] using h
              exact ⟨c, hindex ▸ hcell, hocc⟩

theorem Layout.ne_zero_of_free {t : UniqueTable α} (ht : t.Layout) {index : Nat} {c : Cell α}
    (hcell : t.cells[index]? = some c) (hfree : c.occupied = false) : index ≠ 0 := by
  rintro rfl
  obtain ⟨c', hcell', hocc⟩ := ht.sentry
  rw [hcell] at hcell'
  cases hcell'
  simp [hfree] at hocc

section Alloc
variable [Inhabited α]

/-- The table after the free cell at `index` was taken. -/
private def take (t : UniqueTable α) (index lastIndex : Nat) : UniqueTable α :=
  { t with
    cells := (if index < t.cells.size then t.cells
      else t.cells.push ⟨default, 0, false⟩).modify index ({ · with occupied := true })
    minFree := index + 1
    lastIndex
    occupied := t.occupied + 1 }

/-- An old cell is reused. -/
private theorem taken_old {t : UniqueTable α} (ht : t.Layout) {index : Nat} {c : Cell α}
    (hcell : t.cells[index]? = some c) (hfree : c.occupied = false) :
    t.Taken (t.take index t.lastIndex) index := by
  have hlt : index < t.cells.size := (Array.getElem?_eq_some_iff.1 hcell).1
  have hpos := ht.ne_zero_of_free hcell hfree
  have hothers : ∀ other, other ≠ index →
      (t.take index t.lastIndex).cells[other]? = t.cells[other]? := by
    intro other hne
    simp [take, hlt, Array.getElem?_modify, Ne.symm hne]
  refine ⟨⟨ht.buckets_pos, ht.buckets_lt, ?_, ?_, ?_⟩, hpos, ?_, ?_, hothers, rfl⟩
  · obtain ⟨c₀, hcell₀, hocc₀⟩ := ht.sentry
    exact ⟨c₀, (hothers 0 (Ne.symm hpos)).trans hcell₀, hocc₀⟩
  · simpa [take, hlt] using ht.size_le
  · simpa [take, hlt] using ht.extent
  · simp [stored?, hpos, hcell, Option.filter, hfree]
  · refine ⟨{ c with occupied := true }, ?_, rfl⟩
    simp only [take, hlt, if_true, Array.getElem?_modify, hcell, Option.map_some]

/-- The array of cells grows by one. -/
private theorem taken_new {t : UniqueTable α} (ht : t.Layout)
    (hextent : t.lastIndex + 1 = t.cells.size) (hroom : t.lastIndex + 1 < t.capacity) :
    t.Taken (t.take (t.lastIndex + 1) (t.lastIndex + 1)) (t.lastIndex + 1) := by
  have hsize : ¬ t.lastIndex + 1 < t.cells.size := by omega
  have hothers : ∀ other, other ≠ t.lastIndex + 1 →
      (t.take (t.lastIndex + 1) (t.lastIndex + 1)).cells[other]? = t.cells[other]? := by
    intro other hne
    have hend : other ≠ t.cells.size := hextent ▸ hne
    simp [take, hsize, Array.getElem?_modify, Array.getElem?_push, hend, Ne.symm hne]
  have hbeyond : t.cells[t.lastIndex + 1]? = none := by
    simp only [Array.getElem?_eq_none_iff]
    omega
  refine ⟨⟨ht.buckets_pos, ht.buckets_lt, ?_, ?_, Or.inl ?_⟩, Nat.succ_ne_zero _, ?_, ?_,
    hothers, rfl⟩
  · obtain ⟨c₀, hcell₀, hocc₀⟩ := ht.sentry
    exact ⟨c₀, (hothers 0 (by omega)).trans hcell₀, hocc₀⟩
  · simp only [take, hsize, if_false, Array.size_modify, Array.size_push]
    omega
  · simp only [take, hsize, if_false, Array.size_modify, Array.size_push]
    omega
  · simp [stored?, hbeyond]
  · refine ⟨⟨default, 0, true⟩, ?_, rfl⟩
    simp only [take, hextent, Nat.lt_irrefl, if_false, Array.getElem?_modify,
      Array.getElem?_push_size, if_true, Option.map_some]

/-- Taking a cell either finds a free one or leaves all cells alone. -/
theorem alloc_outcome {t : UniqueTable α} (ht : t.Layout) :
    Outcome alloc t (fun index u => t.Taken u index)
      (fun _ u => u.Layout ∧ t.SameCells u) := by
  unfold Outcome alloc
  cases hfound : firstFree? t.cells t.minFree (t.lastIndex + 1 - t.minFree) with
  | error fault => exact ⟨ht, rfl, rfl⟩
  | ok found =>
      cases found with
      | some index =>
          obtain ⟨c, hcell, hfree⟩ := firstFree?_eq_some hfound
          by_cases hfull : t.capacity ≤ index
          · simpa [hfull] using ⟨ht, ⟨rfl, rfl⟩⟩
          · simp only [Option.getD_some, Option.isSome_some, if_true, hfull, if_false]
            exact taken_old ht hcell hfree
      | none =>
          by_cases hfull : t.capacity ≤ t.lastIndex + 1
          · simp only [Option.getD_none, hfull, if_true]
            refine ⟨⟨ht.buckets_pos, ht.buckets_lt, ht.sentry, ht.size_le, Or.inr ?_⟩, rfl, rfl⟩
            have hsize := ht.size_le
            rcases ht.extent with hextent | hextent <;>
              simp only [Option.isSome_none, Bool.false_eq_true, if_false] <;> omega
          · have hextent : t.lastIndex + 1 = t.cells.size := by
              rcases ht.extent with hextent | hextent <;> omega
            simp only [Option.getD_none, Option.isSome_none, Bool.false_eq_true, hfull, if_false]
            exact taken_new ht hextent (by omega)

end Alloc

/-- The table with another link from `index` on. -/
def relink (t : UniqueTable α) (index next : Nat) : UniqueTable α :=
  { t with cells := t.cells.modify index ({ · with next }) }

/-- Whatever is written to a cell other than the sentry, the cells stay where they are. -/
theorem Layout.of_modify {t : UniqueTable α} (ht : t.Layout) {index : Nat} (hpos : index ≠ 0)
    (f : Cell α → Cell α) (minFree occupied : Nat) :
    Layout { t with cells := t.cells.modify index f, minFree, occupied } := by
  obtain ⟨c, hcell, hsentry⟩ := ht.sentry
  refine ⟨ht.buckets_pos, ht.buckets_lt, ⟨c, ?_, hsentry⟩, ?_, ?_⟩
  · simpa [Array.getElem?_modify, hpos] using hcell
  · simpa using ht.size_le
  · simpa using ht.extent

@[simp]
theorem stored?_relink (t : UniqueTable α) (index next : Nat) :
    (t.relink index next).stored? = t.stored? := by
  funext other
  by_cases hindex : index = other
  · subst hindex
    cases hcell : t.cells[index]? with
    | none => simp [stored?, relink, Array.getElem?_modify, hcell]
    | some c =>
        cases hocc : c.occupied <;>
          simp [stored?, relink, Array.getElem?_modify, hcell, hocc, Option.filter]
  · simp [stored?, relink, Array.getElem?_modify, hindex]

private theorem link?_relink {t : UniqueTable α} {index old : Nat} (h : t.link? index = some old)
    (next : Nat) : (t.relink index next).link? = update t.link? index (some next) := by
  funext other
  by_cases hindex : other = index
  · subst hindex
    cases hcell : t.cells[other]? with
    | none => simp [link?, hcell] at h
    | some c => simp [link?, relink, Array.getElem?_modify, hcell]
  · simp [link?, relink, Array.getElem?_modify, hindex, Ne.symm hindex]

theorem setNext_run {t : UniqueTable α} (ht : t.Layout) {index old : Nat} (hpos : index ≠ 0)
    (h : t.link? index = some old) (next : Nat) :
    ∃ u, setNext index next t = .ok () u ∧ u.Layout ∧ u.stored? = t.stored? ∧
      u.link? = update t.link? index (some next) ∧ u.buckets = t.buckets := by
  refine ⟨t.relink index next, ?_, ht.of_modify hpos _ _ _, stored?_relink ..,
    link?_relink h next, rfl⟩
  cases hcell : t.cells[index]? with
  | none => simp [link?, hcell] at h
  | some c => simp [setNext, updateCell, cell, hpos, hcell, relink]

theorem setHead_run {t : UniqueTable α} (ht : t.Layout) {bucket : Nat}
    (hbucket : bucket < t.buckets.size) (index : Nat) :
    ∃ u, setHead bucket index t = .ok () u ∧ u.Layout ∧ u.stored? = t.stored? ∧
      u.link? = t.link? ∧ u.head = update t.head bucket index ∧
      u.buckets.size = t.buckets.size := by
  refine ⟨_, rfl, ?_, rfl, rfl, ?_, by simp⟩
  · obtain ⟨hpos, hlt, hsentry, hsize, hextent⟩ := ht
    exact ⟨by simpa using hpos, by simpa using hlt, hsentry, hsize, hextent⟩
  · funext other
    by_cases hother : other = bucket
    · subst hother
      simp [head, hbucket]
    · simp [head, hother, Ne.symm hother]

/-- `u` is `t` with `value` in a cell that was free, linked to nothing. -/
structure Added (t u : UniqueTable α) (index : Nat) (value : α) : Prop where
  layout : u.Layout
  pos : index ≠ 0
  free : t.stored? index = none
  stored : u.stored? = update t.stored? index (some value)
  link : u.link? = update t.link? index (some 0)
  buckets : u.buckets = t.buckets

theorem add_outcome [Inhabited α] {t : UniqueTable α} (ht : t.Layout) (value : α) :
    Outcome (add value) t (fun index u => t.Added u index value)
      (fun _ u => u.Layout ∧ t.SameCells u) := by
  refine Outcome.bind ((alloc_outcome ht).mono (fun index u htaken => ?_) fun _ _ h => h)
  obtain ⟨c, hcell, hocc⟩ := htaken.occupied
  have hlayout := htaken.layout.of_modify htaken.pos
    (fun c => { c with value, next := 0 }) u.minFree u.occupied
  apply Outcome.bind
  simp only [Outcome, updateCell, cell, htaken.pos, if_false, hcell]
  refine ⟨hlayout, htaken.pos, htaken.free, ?_, ?_, htaken.buckets⟩
  · funext other
    by_cases hindex : other = index
    · subst hindex
      simp [stored?, htaken.pos, Array.getElem?_modify, hcell, hocc, Option.filter]
    · rw [update_of_ne hindex, ← stored?_congr (htaken.others other hindex)]
      simp [stored?, Array.getElem?_modify, Ne.symm hindex]
  · funext other
    by_cases hindex : other = index
    · subst hindex
      simp [link?, Array.getElem?_modify, hcell]
    · rw [update_of_ne hindex, ← link?_congr (htaken.others other hindex)]
      simp [link?, Array.getElem?_modify, Ne.symm hindex]

/-- The values of the other cells, also of dropped ones, stay behind. -/
theorem add_value [Inhabited α] {t : UniqueTable α} (ht : t.Layout) (value : α) :
    Outcome (add value) t
      (fun index u => ∀ other, other ≠ index → u.value other = t.value other)
      (fun _ _ => True) := by
  refine Outcome.bind_answers ((alloc_outcome ht).mono (fun _ _ h => h) fun _ _ _ => trivial) ?_
  intro index u htaken
  obtain ⟨c, hcell, -⟩ := htaken.occupied
  apply Outcome.bind
  simp only [Outcome, updateCell, cell, htaken.pos, if_false, hcell]
  intro other hother
  refine value_congr ?_
  rw [Array.getElem?_modify, if_neg (Ne.symm hother), htaken.others other hother]

theorem setNext_value (index next : Nat) (t : UniqueTable α) :
    Outcome (setNext index next) t (fun _ u => u.value = t.value) (fun _ _ => True) := by
  rw [Outcome, setNext, updateCell]
  cases t.cell index with
  | error fault => trivial
  | ok c =>
      funext other
      rw [value, value, cell, cell, Array.getElem?_modify]
      by_cases hother : index = other
      · subst hother
        by_cases hpos : index = 0
        · simp [hpos]
        · cases t.cells[index]? <;> simp [hpos]
      · rw [if_neg hother]

/-- A cell that had a link has one still. -/
theorem Added.link?_eq_some {t u : UniqueTable α} {index last next : Nat} {v : α}
    (h : t.Added u index v) (hlink : t.link? last = some next) :
    ∃ next', u.link? last = some next' := by
  rw [h.link]
  by_cases hsame : last = index
  · exact ⟨0, by rw [hsame, update_self]⟩
  · exact ⟨next, by rw [update_of_ne hsame, hlink]⟩

/-! ## Chains that hold the stored values -/

section Consing
variable [Hashable α] {loose : Nat → Prop} {chain : Nat → List Nat}

/-- The values outside the loose cells are stored once, on the chain of their bucket, and the
chains hold nothing else. -/
structure Linked (t : UniqueTable α) (loose : Nat → Prop) (chain : Nat → List Nat) : Prop where
  isChain : ∀ bucket < t.buckets.size, IsChain t.link? (t.head bucket) (chain bucket)
  mem_chain : ∀ bucket < t.buckets.size, ∀ index, index ∈ chain bucket ↔
    ¬ loose index ∧ ∃ v, t.stored? index = some v ∧ t.bucketOf v = bucket
  loose_stored : ∀ index, loose index → ∃ v, t.stored? index = some v
  distinct : ∀ i j v, ¬ loose i → ¬ loose j → t.stored? i = some v → t.stored? j = some v → i = j

/-- A table whose chains are in order, whichever way they run. -/
structure Consed (t : UniqueTable α) (loose : Nat → Prop) : Prop where
  layout : t.Layout
  linked : ∃ chain, t.Linked loose chain

theorem bucketOf_lt {t : UniqueTable α} (ht : t.Layout) (v : α) :
    t.bucketOf v < t.buckets.size := by
  have hsize : t.buckets.size.toUInt64.toNat = t.buckets.size :=
    Nat.mod_eq_of_lt ht.buckets_lt
  simpa only [bucketOf, UInt64.toNat_mod, hsize] using Nat.mod_lt _ ht.buckets_pos

theorem Linked.congr {t u : UniqueTable α} (h : t.Linked loose chain)
    (hcells : t.SameCells u) : u.Linked loose chain := by
  have hstored : u.stored? = t.stored? := funext fun _ => stored?_congr (by rw [hcells.cells])
  have hlink : u.link? = t.link? := funext fun _ => link?_congr (by rw [hcells.cells])
  have hbucket : u.bucketOf = t.bucketOf := by
    funext v
    simp only [bucketOf, hcells.buckets]
  refine ⟨?_, ?_, ?_, ?_⟩
  · simpa only [hlink, head, hcells.buckets] using h.isChain
  · simpa only [hstored, hbucket, hcells.buckets] using h.mem_chain
  · simpa only [hstored] using h.loose_stored
  · simpa only [hstored] using h.distinct

theorem Consed.congr {t u : UniqueTable α} (h : t.Consed loose) (hu : u.Layout)
    (hcells : t.SameCells u) : u.Consed loose := by
  obtain ⟨chain, hlinked⟩ := h.linked
  exact ⟨hu, chain, hlinked.congr hcells⟩

/-- The cells of a chain are distinct places of the table, so a walk bounded by the number of
places reaches the end. -/
theorem Linked.length_chain_le {t : UniqueTable α} (h : t.Linked loose chain) {bucket : Nat}
    (hbucket : bucket < t.buckets.size) : (chain bucket).length ≤ t.cells.size := by
  have hsubset : chain bucket ⊆ List.range t.cells.size := by
    intro index hmem
    obtain ⟨-, v, hstored, -⟩ := (h.mem_chain bucket hbucket index).1 hmem
    exact List.mem_range.2 (lt_size_of_stored hstored)
  simpa using (h.isChain bucket hbucket).nodup.length_le_of_subset hsubset

omit [Hashable α] in
/-- A walk along a chain finds the value or the last cell. -/
theorem walkChain_of_isChain [DecidableEq α] {t : UniqueTable α} {v : α} {bound start : Nat}
    {path : List Nat} (h : IsChain t.link? start path) (hne : path ≠ [])
    (hstored : ∀ index ∈ path, ∃ w, t.stored? index = some w) (hbound : path.length ≤ bound) :
    (∃ index ∈ path, t.stored? index = some v ∧
        t.walkChain v bound start = .ok (.found index)) ∨
      (∀ index ∈ path, t.stored? index ≠ some v) ∧ ∃ front last, path = front ++ [last] ∧
        t.walkChain v bound start = .ok (.last last) := by
  induction path generalizing start bound with
  | nil => exact absurd rfl hne
  | cons first rest ih =>
      obtain ⟨rfl, hpos, next, hlink, hrest⟩ := h
      obtain ⟨bound, rfl⟩ : ∃ n, bound = n + 1 := ⟨bound - 1, by simp at hbound; omega⟩
      obtain ⟨w, hw⟩ := hstored start List.mem_cons_self
      obtain ⟨c, hcell, -, rfl⟩ := cell_of_stored hw
      have hnext : c.next = next := by
        obtain ⟨-, c', hcell', -⟩ := stored?_eq_some.1 hw
        simp only [cell, hpos, if_false, hcell'] at hcell
        cases hcell
        simpa [link?, hcell'] using hlink
      by_cases hv : v = c.value
      · subst hv
        exact Or.inl ⟨start, List.mem_cons_self, hw, by simp [walkChain, hcell]⟩
      have hstart : t.stored? start ≠ some v := by
        rw [hw]
        simpa using Ne.symm hv
      cases hrestEq : rest with
      | nil =>
          subst hrestEq
          have hend : next = 0 := hrest
          refine Or.inr ⟨by simpa using hstart, [], start, rfl, ?_⟩
          simp [walkChain, hcell, hv, hnext, hend]
      | cons second others =>
          have hstep : t.walkChain v (bound + 1) start = t.walkChain v bound next := by
            have hsecond : next ≠ 0 := by
              rw [hrestEq] at hrest
              exact hrest.1 ▸ hrest.2.1
            simp [walkChain, hcell, hv, hnext, hsecond]
          rw [← hrestEq, hstep]
          rcases ih hrest (by simp [hrestEq])
              (fun index hmem => hstored index (List.mem_cons_of_mem _ hmem))
              (by simpa using hbound) with
            ⟨index, hmem, hfound⟩ | ⟨hnone, front, last, hpath, hlast⟩
          · exact Or.inl ⟨index, List.mem_cons_of_mem _ hmem, hfound⟩
          · refine Or.inr ⟨fun index hmem => ?_, start :: front, last, by simp [hpath], hlast⟩
            rcases List.mem_cons.1 hmem with rfl | hmem
            · exact hstart
            · exact hnone index hmem

/-- What putting a value did: it was there, or it was stored in a free cell. -/
structure Put (t u : UniqueTable α) (loose : Nat → Prop) (index : Nat) (v : α) : Prop where
  consed : u.Consed loose
  strict : ¬ loose index
  stored : u.stored? index = some v
  change : u = t ∨ t.stored? index = none ∧ u.stored? = update t.stored? index (some v)

theorem Linked.strict_of_free {t : UniqueTable α} (h : t.Linked loose chain) {index : Nat}
    (hfree : t.stored? index = none) : ¬ loose index := by
  intro hloose
  obtain ⟨w, hw⟩ := h.loose_stored index hloose
  simp [hfree] at hw

theorem Linked.not_mem_of_free {t : UniqueTable α} (h : t.Linked loose chain) {bucket index : Nat}
    (hbucket : bucket < t.buckets.size) (hfree : t.stored? index = none) :
    index ∉ chain bucket := by
  intro hmem
  obtain ⟨-, w, hw, -⟩ := (h.mem_chain bucket hbucket index).1 hmem
  simp [hfree] at hw

section Extend
variable {t u : UniqueTable α} {index : Nat} {v : α} (h : t.Linked loose chain) (ht : t.Layout)
variable (hfree : t.stored? index = none)
include h ht hfree

/-- A chain goes on as it was if it is not the one that got the cell. -/
private theorem Linked.isChain_extend (hsize : u.buckets.size = t.buckets.size)
    (hchain : IsChain u.link? (u.head (t.bucketOf v)) (chain (t.bucketOf v) ++ [index]))
    (hheads : ∀ bucket, bucket ≠ t.bucketOf v → u.head bucket = t.head bucket)
    (hlinks : ∀ i, i ≠ index → i ∉ chain (t.bucketOf v) → u.link? i = t.link? i) :
    ∀ bucket < u.buckets.size, IsChain u.link? (u.head bucket)
      (update chain (t.bucketOf v) (chain (t.bucketOf v) ++ [index]) bucket) := by
  intro bucket hlt
  by_cases heq : bucket = t.bucketOf v
  · subst heq
    simpa only [update_self] using hchain
  · rw [update_of_ne heq, hheads bucket heq]
    apply (h.isChain bucket (hsize ▸ hlt)).congr
    intro i hi
    obtain ⟨-, w, hw, hwbucket⟩ := (h.mem_chain bucket (hsize ▸ hlt) i).1 hi
    refine hlinks i ?_ fun hmem => ?_
    · rintro rfl
      simp [hfree] at hw
    · -- A cell on two chains would have its value in two buckets.
      obtain ⟨-, w', hw', hwbucket'⟩ := (h.mem_chain _ (bucketOf_lt ht v) i).1 hmem
      rw [hw] at hw'
      cases hw'
      exact heq (hwbucket.symm.trans hwbucket')

variable (hstored : u.stored? = update t.stored? index (some v))
include hstored

omit ht in
/-- The chain of the bucket has the cell besides, and the others have what they had. -/
private theorem Linked.mem_chain_extend (hsize : u.buckets.size = t.buckets.size) :
    ∀ bucket < u.buckets.size, ∀ i,
      i ∈ update chain (t.bucketOf v) (chain (t.bucketOf v) ++ [index]) bucket ↔
        ¬ loose i ∧ ∃ w, u.stored? i = some w ∧ u.bucketOf w = bucket := by
  intro bucket hlt i
  have hbucket : u.bucketOf = t.bucketOf := by
    funext w
    simp only [bucketOf, hsize]
  have hmem := h.mem_chain bucket (hsize ▸ hlt) i
  by_cases hi : i = index
  · subst hi
    have hout : i ∉ chain bucket := by
      rw [hmem]
      simp [hfree]
    have hstoredi : u.stored? i = some v := by rw [hstored, update_self]
    by_cases heq : bucket = t.bucketOf v
    · subst heq
      simp [h.strict_of_free hfree, hstoredi, hbucket]
    · simp [update_of_ne heq, hout, hstoredi, hbucket, Ne.symm heq]
  · have hstoredi : u.stored? i = t.stored? i := by rw [hstored, update_of_ne hi]
    rw [hstoredi, hbucket, ← hmem]
    by_cases heq : bucket = t.bucketOf v
    · subst heq
      simp [hi]
    · simp [update_of_ne heq]

omit hfree in
/-- A value that is not on the chain of its bucket was stored nowhere, so no value is stored
twice. -/
private theorem Linked.distinct_extend
    (hnew : ∀ i ∈ chain (t.bucketOf v), t.stored? i ≠ some v) (i j : Nat) (w : α)
    (hi : ¬ loose i) (hj : ¬ loose j) (hiw : u.stored? i = some w) (hjw : u.stored? j = some w) :
    i = j := by
  have hfresh : ∀ i, ¬ loose i → t.stored? i ≠ some v := by
    intro i hi hiv
    exact hnew i ((h.mem_chain _ (bucketOf_lt ht v) i).2 ⟨hi, v, hiv, rfl⟩) hiv
  rw [hstored] at hiw hjw
  by_cases hii : i = index <;> by_cases hji : j = index
  · rw [hii, hji]
  · subst hii
    rw [update_self] at hiw
    rw [update_of_ne hji] at hjw
    cases hiw
    exact absurd hjw (hfresh j hj)
  · subst hji
    rw [update_self] at hjw
    rw [update_of_ne hii] at hiw
    cases hjw
    exact absurd hiw (hfresh i hi)
  · rw [update_of_ne hii] at hiw
    rw [update_of_ne hji] at hjw
    exact h.distinct i j w hi hj hiw hjw

/-- A free cell is linked behind the chain of the bucket. -/
theorem Linked.extend (hnew : ∀ i ∈ chain (t.bucketOf v), t.stored? i ≠ some v)
    (hsize : u.buckets.size = t.buckets.size)
    (hchain : IsChain u.link? (u.head (t.bucketOf v)) (chain (t.bucketOf v) ++ [index]))
    (hheads : ∀ bucket, bucket ≠ t.bucketOf v → u.head bucket = t.head bucket)
    (hlinks : ∀ i, i ≠ index → i ∉ chain (t.bucketOf v) → u.link? i = t.link? i) :
    u.Linked loose (update chain (t.bucketOf v) (chain (t.bucketOf v) ++ [index])) where
  isChain := h.isChain_extend ht hfree hsize hchain hheads hlinks
  mem_chain := h.mem_chain_extend hfree hstored hsize
  loose_stored i hi := by
    obtain ⟨w, hw⟩ := h.loose_stored i hi
    have hne : i ≠ index := by
      rintro rfl
      simp [hfree] at hw
    exact ⟨w, by rw [hstored, update_of_ne hne, hw]⟩
  distinct := h.distinct_extend ht hstored hnew

end Extend

/-! ## Putting a value -/

/-- `u` is `t` with a value in a cell that was free.  The cell is linked behind the one at `last`,
or is the first one of its chain. -/
structure Appended (t u : UniqueTable α) (last : Option Nat) (index : Nat) (v : α) : Prop where
  layout : u.Layout
  pos : index ≠ 0
  free : t.stored? index = none
  stored : u.stored? = update t.stored? index (some v)
  value : ∀ other, other ≠ index → u.value other = t.value other
  link : u.link? = last.elim (update t.link? index (some 0)) fun last =>
    update (update t.link? index (some 0)) last (some index)
  head : u.head = last.elim (update t.head (t.bucketOf v) index) fun _ => t.head
  size : u.buckets.size = t.buckets.size

/-- A cell that comes behind the last one of the chain of its bucket. -/
theorem Linked.append {t u : UniqueTable α} (h : t.Linked loose chain) (ht : t.Layout)
    {last : Option Nat} {index : Nat} {v : α} (hu : t.Appended u last index v)
    (hlast : (chain (t.bucketOf v)).getLast? = last)
    (hnew : ∀ i ∈ chain (t.bucketOf v), t.stored? i ≠ some v) :
    u.Linked loose (update chain (t.bucketOf v) (chain (t.bucketOf v) ++ [index])) := by
  have hlt := bucketOf_lt ht v
  have hchain := h.isChain _ hlt
  have hfresh := h.not_mem_of_free hlt hu.free
  have hlink := hu.link
  have hhead := hu.head
  cases last with
  | none =>
      have hempty : chain (t.bucketOf v) = [] := List.getLast?_eq_none_iff.1 hlast
      simp only [Option.elim] at hlink hhead
      refine h.extend ht hu.free hu.stored hnew hu.size ?_
        (fun bucket hne => by rw [hhead, update_of_ne hne])
        (fun i hi _ => by rw [hlink, update_of_ne hi])
      rw [hhead, update_self, hempty]
      exact ⟨rfl, hu.pos, 0, by rw [hlink, update_self], rfl⟩
  | some last =>
      obtain ⟨front, hpath⟩ := List.getLast?_eq_some_iff.1 hlast
      have hmem : last ∈ chain (t.bucketOf v) := by simp [hpath]
      simp only [Option.elim] at hlink hhead
      refine h.extend ht hu.free hu.stored hnew hu.size ?_ (fun bucket _ => by rw [hhead]) ?_
      · rw [hlink, hhead, hpath, List.append_assoc]
        exact IsChain.snoc (hpath ▸ hchain) (hpath ▸ hfresh) hu.pos
      · intro i hi hout
        have hne : i ≠ last := fun heq => hout (heq ▸ hmem)
        rw [hlink, update_of_ne hne, update_of_ne hi]

/-- A value is found on the chain of its bucket, or the walk comes to the end of the chain. -/
theorem Linked.locate_run [DecidableEq α] {t : UniqueTable α} (h : t.Linked loose chain)
    (ht : t.Layout) (v : α) :
    (∃ index ∈ chain (t.bucketOf v), t.stored? index = some v ∧
        t.locate v = .ok (some (.found index))) ∨
      (∀ index ∈ chain (t.bucketOf v), t.stored? index ≠ some v) ∧
        t.locate v = .ok ((chain (t.bucketOf v)).getLast?.map .last) := by
  have hlt := bucketOf_lt ht v
  have hchain := h.isChain _ hlt
  have hmem := h.mem_chain _ hlt
  by_cases hpath : chain (t.bucketOf v) = []
  · have hhead : t.head (t.bucketOf v) = 0 := by
      rw [hpath] at hchain
      exact hchain
    refine Or.inr ⟨by simp [hpath], ?_⟩
    simp only [locate, hhead, if_true, hpath, List.getLast?_nil, Option.map_none]
  · have hhead : t.head (t.bucketOf v) ≠ 0 := fun hzero =>
      hpath (hchain.unique (show IsChain _ (t.head (t.bucketOf v)) [] from hzero))
    rcases walkChain_of_isChain (v := v) hchain hpath
        (fun index hin => ((hmem index).1 hin).2.imp fun w hw => hw.1)
        (h.length_chain_le hlt) with
      ⟨index, hin, hstored, hwalk⟩ | ⟨hnew, front, last, hlast, hwalk⟩
    · exact Or.inl ⟨index, hin, hstored, by simp only [locate, hhead, if_false, hwalk]⟩
    · refine Or.inr ⟨hnew, ?_⟩
      simp only [locate, hhead, if_false, hwalk, hlast, List.getLast?_concat, Option.map_some]

/-- The last cell of a chain has a link. -/
theorem Linked.link?_of_last {t : UniqueTable α} (h : t.Linked loose chain) {bucket last : Nat}
    (hbucket : bucket < t.buckets.size) (hlast : (chain bucket).getLast? = some last) :
    last ≠ 0 ∧ ∃ next, t.link? last = some next := by
  obtain ⟨front, hpath⟩ := List.getLast?_eq_some_iff.1 hlast
  obtain ⟨-, hpos, next, hnext, -⟩ := (hpath ▸ h.isChain bucket hbucket).suffix
  exact ⟨hpos, next, hnext⟩

section Put
variable [Inhabited α] {t : UniqueTable α} {v : α}

/-- A value that is not found is added, and then its cell is linked, which does not fail. -/
theorem put_links_behind [DecidableEq α] (ht : t.Layout) {last : Option Nat}
    (hlocate : t.locate v = .ok (last.map .last))
    (hlast : ∀ l, last = some l → l ≠ 0 ∧ ∃ next, t.link? l = some next)
    {good : Nat → UniqueTable α → Prop} {bad : Fault → UniqueTable α → Prop}
    (hadd : Outcome (add v) t (fun index u => ∀ w,
      (last = none ∧ setHead (t.bucketOf v) index u = .ok () w ∨
        ∃ l, last = some l ∧ setNext l index u = .ok () w) → good index w) bad) :
    Outcome (put v) t good bad := by
  have hboth := ((add_outcome ht v).and hadd).mono (fun _ _ hend => hend) fun _ _ hend => hend.2
  cases last with
  | none =>
      rw [Outcome]
      rw [show put v t = _ by simp only [put, hlocate, Option.map_none]; rfl]
      apply Outcome.andThen hboth
      rintro index u ⟨-, hgood⟩
      exact Outcome.bind_ok rfl (Outcome.pure (hgood _ (Or.inl ⟨rfl, rfl⟩)))
  | some last =>
      obtain ⟨hpos, next, hlink⟩ := hlast last rfl
      rw [Outcome]
      rw [show put v t = _ by simp only [put, hlocate, Option.map_some]; rfl]
      apply Outcome.andThen hboth
      rintro index u ⟨hadded, hgood⟩
      obtain ⟨next', hnext'⟩ := hadded.link?_eq_some hlink
      obtain ⟨w, hset, -⟩ := setNext_run hadded.layout hpos hnext' index
      exact Outcome.bind_ok hset (Outcome.pure (hgood w (Or.inr ⟨last, rfl, hset⟩)))

theorem put_appends [DecidableEq α] (ht : t.Layout) {last : Option Nat}
    (hlocate : t.locate v = .ok (last.map .last))
    (hlast : ∀ l, last = some l → l ≠ 0 ∧ ∃ next, t.link? l = some next) :
    Outcome (put v) t (fun index u => t.Appended u last index v)
      (fun _ u => u.Layout ∧ t.SameCells u) := by
  have hadd := ((add_outcome ht v).and (add_value ht v)).mono (fun _ _ hend => hend)
    fun _ _ hend => hend.1
  refine put_links_behind ht hlocate hlast (hadd.imp fun index u hend w hset => ?_)
  obtain ⟨hadded, hvalue⟩ := hend
  have hhead : u.head = t.head := funext fun _ => by simp only [head, hadded.buckets]
  rcases hset with ⟨rfl, hset⟩ | ⟨last, rfl, hset⟩
  · have hlt : t.bucketOf v < u.buckets.size := hadded.buckets ▸ bucketOf_lt ht v
    obtain ⟨w', hset', hlayout, hstored, hlink, hheads, hsize⟩ :=
      setHead_run hadded.layout hlt index
    have hsame : w.value = u.value := by
      cases hset
      rfl
    rw [hset] at hset'
    cases hset'
    exact ⟨hlayout, hadded.pos, hadded.free, hstored.trans hadded.stored,
      fun other hother => by rw [hsame, hvalue other hother], hlink.trans hadded.link,
      hheads.trans (by rw [hhead]; rfl), hsize.trans (by rw [hadded.buckets])⟩
  · obtain ⟨hpos, next, hlink⟩ := hlast last rfl
    obtain ⟨next', hnext'⟩ := hadded.link?_eq_some hlink
    obtain ⟨w', hset', hlayout, hstored, hlink', hbuckets⟩ :=
      setNext_run hadded.layout hpos hnext' index
    have hsame : w.value = u.value := (setNext_value last index u).of_ok hset
    rw [hset] at hset'
    cases hset'
    refine ⟨hlayout, hadded.pos, hadded.free, hstored.trans hadded.stored,
      fun other hother => by rw [hsame, hvalue other hother], ?_, ?_, ?_⟩
    · rw [hlink', hadded.link]
      rfl
    · rw [← hhead]
      exact funext fun _ => by simp only [head, hbuckets, Option.elim]
    · rw [hbuckets, hadded.buckets]

/-- A value put into a table is stored in one cell afterwards; a refused value leaves all cells
and chains alone. -/
theorem put_outcome [DecidableEq α] (ht : t.Consed loose) :
    Outcome (put v) t (fun index u => t.Put u loose index v)
      (fun _ u => u.Consed loose ∧ t.SameCells u) := by
  obtain ⟨hlayout, chain, hlinked⟩ := ht
  have hlt := bucketOf_lt hlayout v
  rcases hlinked.locate_run hlayout v with ⟨index, hin, hstored, hlocate⟩ | ⟨hnew, hlocate⟩
  · rw [Outcome]
    rw [show put v t = .ok index t by simp only [put, hlocate]]
    exact ⟨⟨hlayout, chain, hlinked⟩, ((hlinked.mem_chain _ hlt index).1 hin).1, hstored, Or.inl rfl⟩
  · refine (put_appends hlayout hlocate fun _ hlast => hlinked.link?_of_last hlt hlast).mono ?_ ?_
    · intro index u hu
      refine ⟨⟨hu.layout, _, hlinked.append hlayout hu rfl hnew⟩, hlinked.strict_of_free hu.free, ?_,
        Or.inr ⟨hu.free, hu.stored⟩⟩
      rw [hu.stored, update_self]
    · exact fun _ u hu => ⟨⟨hu.1, chain, hlinked.congr hu.2⟩, hu.2⟩

/-- A stored value is found where it is. -/
theorem put_of_stored [DecidableEq α] (ht : t.Consed loose) {index : Nat} (hstrict : ¬ loose index)
    (h : t.stored? index = some v) : put v t = .ok index t := by
  obtain ⟨hlayout, chain, hlinked⟩ := ht
  have hmem := hlinked.mem_chain _ (bucketOf_lt hlayout v)
  rcases hlinked.locate_run hlayout v with ⟨other, hother, hstored, hlocate⟩ | ⟨hnone, -⟩
  · have hsame : other = index :=
      hlinked.distinct other index v ((hmem other).1 hother).1 hstrict hstored h
    subst hsame
    simp only [put, hlocate]
  · exact absurd h (hnone index ((hmem index).2 ⟨hstrict, v, h, rfl⟩))

end Put

/-- A new table whose first cell is taken. -/
private def firstTaken [Inhabited α] (bits : Nat) : UniqueTable α where
  cells := #[⟨default, 0, true⟩, ⟨default, 0, true⟩]
  capacity := 1 <<< bits
  buckets := Array.replicate (1 <<< min bits 16) 0
  minFree := 2
  lastIndex := 1
  occupied := 1

omit [Hashable α] in
private theorem stored?_firstTaken [Inhabited α] (bits : Nat) :
    (firstTaken bits : UniqueTable α).stored? = update (fun _ => none) 1 (some default) := by
  funext index
  rcases index with - | - | index
  · rfl
  · rfl
  · simp [stored?, firstTaken]

private theorem consed_firstTaken [Inhabited α] {bits : Nat} (hroom : 1 < 1 <<< bits) :
    (firstTaken bits : UniqueTable α).Consed (· = 1) := by
  have hle : 1 <<< min bits 16 ≤ 65536 := by
    rw [Nat.one_shiftLeft]
    exact Nat.pow_le_pow_right (by omega) (Nat.min_le_right bits 16)
  have hstored := stored?_firstTaken (α := α) bits
  refine ⟨⟨by simp [firstTaken], ?_, ⟨_, rfl, rfl⟩, hroom, Or.inl rfl⟩,
    fun _ => [], ?_, ?_, ?_, ?_⟩
  · simp only [firstTaken, Array.size_replicate, UInt64.size]
    omega
  · intro bucket hbucket
    simp only [firstTaken, Array.size_replicate] at hbucket
    simp [IsChain, head, firstTaken, hbucket]
  · intro bucket _ index
    by_cases hindex : index = 1 <;> simp [hstored, hindex]
  · rintro index rfl
    exact ⟨default, by rw [hstored, update_self]⟩
  · intro i j v hi _ hiv
    rw [hstored, update_of_ne hi] at hiv
    cases hiv

/-- The first cell of a new table is taken outside every chain and holds the default value. -/
theorem alloc_ofBits [Inhabited α] {bits index : Nat} {t u : UniqueTable α}
    (hnew : ofBits bits = .ok t) (halloc : alloc t = .ok index u) :
    u.Consed (· = 1) ∧ u.stored? = update (fun _ => none) 1 (some default) := by
  rw [ofBits] at hnew
  split at hnew
  · cases hnew
    by_cases hfull : 1 <<< bits ≤ 1
    · simp [alloc, firstFree?, hfull] at halloc
    · have hroom : 1 < 1 <<< bits := Nat.lt_of_not_le hfull
      have hu : u = firstTaken bits := by
        simp [alloc, firstFree?, hfull] at halloc
        simp [firstTaken, ← halloc.2]
      exact hu ▸ ⟨consed_firstTaken hroom, stored?_firstTaken bits⟩
  · cases hnew

end Consing

end UniqueTable

end SymbolicOmega
