import SymbolicOmega.Proofs.Diagram.Histories

/-!
# Dropped cells that linger

Dropping a cell marks it free and leaves it on its chain.  A table with such cells is looked
at beside the table in which they hold their values still.  The chains of that one are in
order, a value is found in the one exactly where it is found in the other, and a sweep does
the same in both until it refuses a cell that was dropped.
-/

namespace SymbolicOmega

namespace UniqueTable

open Function

variable {α β γ : Type} {t u : UniqueTable α} {dropped : List Nat} {index : Nat} {v : α}

/-- The cell, occupied if it was dropped. -/
def reviveCell (dropped : List Nat) (index : Nat) (c : Cell α) : Cell α :=
  { c with occupied := c.occupied || decide (index ∈ dropped) }

/-- The table in which the dropped cells hold their values still. -/
def revive (t : UniqueTable α) (dropped : List Nat) : UniqueTable α :=
  { t with cells := t.cells.mapIdx (reviveCell dropped) }

@[simp]
theorem cells_revive (t : UniqueTable α) (dropped : List Nat) (index : Nat) :
    (t.revive dropped).cells[index]? = t.cells[index]?.map (reviveCell dropped index) := by
  simp [revive]

@[simp]
theorem size_revive (t : UniqueTable α) (dropped : List Nat) :
    (t.revive dropped).cells.size = t.cells.size := by
  simp [revive]

theorem revive_nil (t : UniqueTable α) : t.revive [] = t := by
  have hcells : (t.revive []).cells = t.cells :=
    Array.ext_getElem? fun index => by
      rw [cells_revive]
      cases t.cells[index]? <;> simp [reviveCell]
  change { t with cells := (t.revive []).cells } = t
  rw [hcells]

theorem link?_revive (t : UniqueTable α) (dropped : List Nat) :
    (t.revive dropped).link? = t.link? := by
  funext index
  rw [link?, link?, cells_revive, Option.map_map]
  rfl

theorem stored?_revive (t : UniqueTable α) (hout : index ∉ dropped) :
    (t.revive dropped).stored? index = t.stored? index := by
  apply stored?_congr
  rw [cells_revive]
  cases t.cells[index]? <;> simp [reviveCell, hout]

/-- The cell at a dropped index holds its value again. -/
theorem stored?_revive_of_mem (hin : index ∈ dropped) :
    (t.revive dropped).stored? index = some v ↔ t.value index = .ok v := by
  rw [stored?_eq_some, cells_revive, value, cell]
  by_cases hpos : index = 0
  · simp [hpos]
  · cases t.cells[index]? <;> simp [hpos, reviveCell, hin]

theorem cell_revive (t : UniqueTable α) (dropped : List Nat) (index : Nat) :
    (t.revive dropped).cell index = (t.cell index).map (reviveCell dropped index) := by
  rw [cell, cell, cells_revive]
  by_cases hpos : index = 0
  · simp [hpos, Except.map]
  · cases t.cells[index]? <;> simp [hpos, Except.map]

theorem value_revive (t : UniqueTable α) (dropped : List Nat) (index : Nat) :
    (t.revive dropped).value index = t.value index := by
  rw [value, value, cell_revive]
  cases t.cell index <;> rfl

/-- A cell may be written to before or after the dropped cells are revived. -/
theorem modify_revive (t : UniqueTable α) (change : Cell α → Cell α)
    (hchange : ∀ c, change (reviveCell dropped index c) = reviveCell dropped index (change c))
    (minFree occupied : Nat) :
    revive { t with cells := t.cells.modify index change, minFree, occupied } dropped =
      { t.revive dropped with
        cells := (t.revive dropped).cells.modify index change, minFree, occupied } := by
  have hcells : (revive { t with cells := t.cells.modify index change, minFree, occupied }
      dropped).cells = (t.revive dropped).cells.modify index change := by
    refine Array.ext_getElem? fun other => ?_
    rw [cells_revive, Array.getElem?_modify, Array.getElem?_modify, cells_revive]
    by_cases hother : index = other
    · subst hother
      cases t.cells[index]? <;> simp [hchange]
    · simp [hother]
  rw [← hcells]
  rfl

theorem chainedBuckets_revive (t : UniqueTable α) (dropped : List Nat) (bound : Nat)
    (rest : List Nat) :
    (t.revive dropped).chainedBuckets bound rest = t.chainedBuckets bound rest := by
  induction bound generalizing rest with
  | zero => rfl
  | succ bound ih => exact ih _

section Locate
variable [DecidableEq α]

theorem walkChain_revive (t : UniqueTable α) (dropped : List Nat) (v : α) (bound index : Nat) :
    (t.revive dropped).walkChain v bound index = t.walkChain v bound index := by
  induction bound generalizing index with
  | zero => rfl
  | succ bound ih =>
      rw [walkChain, walkChain, cell_revive]
      cases t.cell index with
      | error fault => rfl
      | ok c => simp only [Except.map, reviveCell, ih]

/-- A value is found where it is found with the cells revived. -/
theorem locate_revive [Hashable α] (t : UniqueTable α) (dropped : List Nat) (v : α) :
    (t.revive dropped).locate v = t.locate v := by
  rw [locate, locate, walkChain_revive, size_revive]
  rfl

end Locate

/-- No cell at one of the indices is occupied. -/
def Vacant (t : UniqueTable α) (dropped : List Nat) : Prop :=
  ∀ d ∈ dropped, ∀ c, t.cells[d]? = some c → c.occupied = false

/-- With the dropped cells revived the operation does the same, unless it fails for one of the
reasons in `bad`. -/
def Follows (dropped : List Nat) (bad : Fault → Prop) (x : TableM α β) : Prop :=
  ∀ t : UniqueTable α, t.Vacant dropped →
    Outcome x t
      (fun b u => u.Vacant dropped ∧ x (t.revive dropped) = .ok b (u.revive dropped))
      (fun fault _ => bad fault ∨ ∃ w, x (t.revive dropped) = .error fault w)

theorem Vacant.of_modify (ht : t.Vacant dropped) (change : Cell α → Cell α)
    (hchange : ∀ c, c.occupied = false → (change c).occupied = false) (minFree occupied : Nat) :
    Vacant { t with cells := t.cells.modify index change, minFree, occupied } dropped := by
  intro d hd c hc
  rw [Array.getElem?_modify] at hc
  split_ifs at hc with hindex
  · obtain ⟨old, hold, rfl⟩ := Option.map_eq_some_iff.1 hc
    exact hchange old (ht d hd old hold)
  · exact ht d hd c hc

namespace Follows

variable {bad : Fault → Prop}

protected theorem pure (b : β) : Follows (α := α) dropped bad (pure b) := fun _ ht => ⟨ht, rfl⟩

protected theorem throw (fault : Fault) : Follows (α := α) (β := β) dropped bad (throw fault) :=
  fun _ _ => .inr ⟨_, rfl⟩

protected theorem bind {x : TableM α β} {f : β → TableM α γ} (hx : Follows dropped bad x)
    (hf : ∀ b, Follows dropped bad (f b)) : Follows dropped bad (x >>= f) := by
  intro t ht
  refine Outcome.bind ((hx t ht).mono ?_ ?_)
  · rintro b u ⟨hu, hrun⟩
    refine (hf b u hu).mono ?_ ?_
    · exact fun c w hw => ⟨hw.1, (run_bind hrun).trans hw.2⟩
    · exact fun fault w hw => hw.imp id fun hw => hw.imp fun w' hw' => (run_bind hrun).trans hw'
  · exact fun fault u hu => hu.imp id fun hu => hu.imp fun w hw => run_bind_error hw

protected theorem foldlM {δ : Type} {f : β → δ → TableM α β}
    (hf : ∀ b d, Follows dropped bad (f b d)) (list : List δ) (b : β) :
    Follows dropped bad (list.foldlM f b) := by
  induction list generalizing b with
  | nil => exact Follows.pure b
  | cons d rest ih =>
      rw [List.foldlM_cons]
      exact (hf b d).bind ih

end Follows

/-! ## The operations of a sweep -/

section Operations
variable {bad : Fault → Prop}

theorem setHead_follows (bucket index : Nat) :
    Follows (α := α) dropped bad (setHead bucket index) :=
  fun _ ht => ⟨ht, rfl⟩

theorem followLink_follows (index : Nat) : Follows (α := α) dropped bad (followLink index) := by
  intro t ht
  rw [Outcome, followLink, followLink, next, next, cell_revive]
  cases t.cell index with
  | error fault => exact .inr ⟨_, rfl⟩
  | ok c => exact ⟨ht, rfl⟩

theorem setNext_follows (index next : Nat) :
    Follows (α := α) dropped bad (setNext index next) := by
  intro t ht
  rw [Outcome, setNext, updateCell, updateCell, cell_revive]
  cases t.cell index with
  | error fault => exact .inr ⟨_, rfl⟩
  | ok c =>
      refine ⟨ht.of_modify (fun cell => { cell with next }) (fun _ hfree => hfree) _ _, ?_⟩
      rw [t.modify_revive (fun cell => { cell with next }) fun _ => rfl]
      rfl

/-- Only a cell that is revived can be dropped in one of the two tables and not in the other. -/
theorem drop_follows (hbad : index ∈ dropped → bad (.cellNotOccupied index)) :
    Follows (α := α) dropped bad (drop index) := by
  intro t ht
  rw [Outcome, drop, drop, cell_revive]
  cases hcell : t.cell index with
  | error fault => exact .inr ⟨_, rfl⟩
  | ok c =>
      by_cases hin : index ∈ dropped
      · have hfree : c.occupied = false := ht index hin c (cell_eq_ok.1 hcell).2
        simpa [hfree] using .inl (hbad hin)
      · have hsame : (reviveCell dropped index c).occupied = c.occupied := by
          simp [reviveCell, hin]
        simp only [Except.map, hsame]
        cases hoccupied : c.occupied with
        | false => simp
        | true =>
            refine ⟨ht.of_modify (fun cell => { cell with occupied := false }) (fun _ _ => rfl) _ _, ?_⟩
            rw [t.modify_revive (fun cell => { cell with occupied := false }) fun _ => by
              simp [reviveCell, hin]]
            rfl

theorem linkChain_follows (path : List Nat) : Follows (α := α) dropped bad (linkChain path) := by
  induction path with
  | nil => exact Follows.pure ()
  | cons first rest ih =>
      cases rest with
      | nil => exact setNext_follows first 0
      | cons second others => exact (setNext_follows first second).bind fun _ => ih

variable {keep : Nat → Bool}

theorem sweepChain_follows
    (hbad : ∀ d ∈ dropped, keep d = false → bad (.cellNotOccupied d)) (bound index : Nat)
    (kept : List Nat) (sweep : Sweep) :
    Follows (α := α) dropped bad (sweepChain keep bound index kept sweep) := by
  induction bound generalizing index kept sweep with
  | zero =>
      cases index with
      | zero => exact Follows.pure _
      | succ index => exact Follows.throw _
  | succ bound ih =>
      cases index with
      | zero => exact Follows.pure _
      | succ index =>
          refine (followLink_follows (index + 1)).bind fun next => ?_
          cases hkeep : keep (index + 1) with
          | true => exact ih next _ _
          | false => exact (drop_follows fun hin => hbad _ hin hkeep).bind fun _ => ih next _ _

theorem sweepBucket_follows
    (hbad : ∀ d ∈ dropped, keep d = false → bad (.cellNotOccupied d)) (sweep : Sweep)
    (bucket : Nat) : Follows (α := α) dropped bad (sweepBucket keep sweep bucket) := by
  have hread : Follows (α := α) dropped bad
      (modifyGet fun t => ((t.head bucket, 2 * t.cells.size), t)) := by
    intro t ht
    refine ⟨ht, ?_⟩
    change EStateM.Result.ok (t.head bucket, 2 * (t.revive dropped).cells.size) _ = _
    rw [size_revive]
  refine hread.bind fun start => (sweepChain_follows hbad start.2 start.1 [] sweep).bind fun swept => ?_
  exact (setHead_follows bucket _).bind fun _ =>
    (linkChain_follows swept.1.reverse).bind fun _ => Follows.pure _

/-- A sweep that keeps what was dropped does the same with the cells revived. -/
theorem retain_follows (keep : Nat → Bool) :
    Follows (α := α) dropped (fun fault => ∃ d ∈ dropped, keep d = false ∧ fault = .cellNotOccupied d)
      (retain keep) := by
  have hread : Follows (α := α) dropped
      (fun fault => ∃ d ∈ dropped, keep d = false ∧ fault = .cellNotOccupied d)
      (modifyGet fun t => (t.chainedBuckets t.buckets.size [], t)) := by
    intro t ht
    refine ⟨ht, ?_⟩
    change EStateM.Result.ok ((t.revive dropped).chainedBuckets t.buckets.size []) _ = _
    rw [chainedBuckets_revive]
  exact hread.bind fun buckets => Follows.foldlM
    (fun sweep bucket => sweepBucket_follows (fun d hd hkeep => ⟨d, hd, hkeep, rfl⟩) sweep bucket)
    buckets ⟨[], 0⟩

end Operations

/-! ## Tables with dropped cells -/

theorem Layout.revive (ht : t.Layout) (dropped : List Nat) : (t.revive dropped).Layout := by
  obtain ⟨c, hcell, hoccupied⟩ := ht.sentry
  refine ⟨ht.buckets_pos, ht.buckets_lt, ⟨reviveCell dropped 0 c, ?_, ?_⟩, ?_, ?_⟩
  · rw [cells_revive, hcell, Option.map_some]
  · simp [reviveCell, hoccupied]
  · rw [size_revive]
    exact ht.size_le
  · rw [size_revive]
    exact ht.extent

theorem exists_stored?_revive (hin : index ∈ dropped) (hpos : index ≠ 0)
    (hlt : index < t.cells.size) : ∃ v, (t.revive dropped).stored? index = some v := by
  refine ⟨t.cells[index].value, (stored?_revive_of_mem hin).2 ?_⟩
  simp [value, cell, hpos, hlt]

/-- A sweep does not change how many cells there are. -/
theorem retain_size (keep : Nat → Bool) {n : Nat} :
    Upholds (fun t : UniqueTable α => t.cells.size = n) (retain keep) := by
  have hupdate : ∀ index (change : Cell α → Cell α),
      Upholds (fun t : UniqueTable α => t.cells.size = n) (updateCell index change) := by
    intro index change t ht
    unfold Outcome updateCell
    cases t.cell index with
    | error fault => exact ht
    | ok c => simpa using ht
  refine retain_upholds (fun index t ht => ?_) (fun index _ => hupdate index _)
    (fun _ _ _ ht => ht) keep
  unfold Outcome drop
  cases t.cell index with
  | error fault => exact ht
  | ok c => cases hoccupied : c.occupied <;> simpa [hoccupied] using ht

theorem Vacant.stored?_eq_none (ht : t.Vacant dropped) (hin : index ∈ dropped) :
    t.stored? index = none := by
  refine Option.eq_none_iff_forall_ne_some.2 fun v hv => ?_
  obtain ⟨-, c, hcell, hoccupied, -⟩ := stored?_eq_some.1 hv
  rw [ht index hin c hcell] at hoccupied
  cases hoccupied

theorem Vacant.stored?_iff (ht : t.Vacant dropped) :
    t.stored? index = some v ↔ index ∉ dropped ∧ (t.revive dropped).stored? index = some v := by
  by_cases hin : index ∈ dropped
  · simp [hin, ht.stored?_eq_none hin]
  · simp [hin, stored?_revive t hin]

section Lingers
variable [Hashable α] {chain : Nat → List Nat}

/-- The cells at `dropped` are free, and if they held their values still the table would be in
order. -/
structure Lingers (t : UniqueTable α) (dropped : List Nat) : Prop where
  consed : (t.revive dropped).Consed fun _ => False
  vacant : t.Vacant dropped
  known : ∀ d ∈ dropped, ∃ v, (t.revive dropped).stored? d = some v
  packed : t.Packed

namespace Lingers

theorem ne_zero (h : t.Lingers dropped) (hin : index ∈ dropped) : index ≠ 0 := by
  obtain ⟨v, hv⟩ := h.known index hin
  exact (stored?_eq_some.1 hv).1

theorem layout (h : t.Lingers dropped) : t.Layout := by
  obtain ⟨hpos, hlt, ⟨c, hcell, hoccupied⟩, hsize, hextent⟩ := h.consed.layout
  rw [cells_revive, Option.map_eq_some_iff] at hcell
  obtain ⟨sentry, hsentry, rfl⟩ := hcell
  have hout : (0 : Nat) ∉ dropped := fun hin => h.ne_zero hin rfl
  rw [size_revive] at hsize hextent
  exact ⟨hpos, hlt, ⟨sentry, hsentry, by simpa [reviveCell, hout] using hoccupied⟩, hsize, hextent⟩

/-- The chains run along the cells, whether these were dropped or not. -/
theorem isChain (h : t.Lingers dropped)
    (hlinked : (t.revive dropped).Linked (fun _ => False) chain) (v : α) :
    IsChain t.link? (t.head (t.bucketOf v)) (chain (t.bucketOf v)) :=
  link?_revive t dropped ▸ hlinked.isChain _ (bucketOf_lt h.layout v)

theorem mem_chain (h : t.Lingers dropped)
    (hlinked : (t.revive dropped).Linked (fun _ => False) chain)
    (hv : (t.revive dropped).stored? index = some v) : index ∈ chain (t.bucketOf v) :=
  (hlinked.mem_chain _ (bucketOf_lt h.layout v) index).2 ⟨not_false, v, hv, rfl⟩

theorem new [Inhabited α] {bits : Nat} (hnew : ofBits bits = .ok t) :
    t.Lingers [] := by
  have haccounts := ofBits_accounts hnew
  have hloose : IsReserved false = fun _ => False := by
    funext index
    simp [IsReserved]
  refine ⟨?_, by simp [Vacant], by simp, haccounts.packed⟩
  rw [revive_nil, ← hloose]
  exact haccounts.consed

/-- Only the cells and the chains matter. -/
theorem congr (h : t.Lingers dropped) (hcells : t.SameCells u) (hlayout : u.Layout)
    (hpacked : u.Packed) : u.Lingers dropped := by
  have hrevived : (u.revive dropped).cells = (t.revive dropped).cells := by
    rw [UniqueTable.revive, UniqueTable.revive, hcells.cells]
  have hstored : ∀ index, (u.revive dropped).stored? index = (t.revive dropped).stored? index :=
    fun _ => stored?_congr (by rw [hrevived])
  refine ⟨h.consed.congr (hlayout.revive dropped) ⟨hrevived, hcells.buckets⟩, ?_, ?_, hpacked⟩
  · rw [Vacant, hcells.cells]
    exact h.vacant
  · exact fun d hd => hstored d ▸ h.known d hd

/-- A cell that is dropped stays where it is in its chain. -/
theorem drop (h : t.Lingers dropped) (hv : t.stored? index = some v) :
    ∃ u, UniqueTable.drop index t = .ok () u ∧ u.Lingers (index :: dropped) := by
  obtain ⟨hpos, c, hcell, hoccupied, rfl⟩ := stored?_eq_some.1 hv
  obtain ⟨u, hrun, hlayout, -, -, -⟩ := drop_run h.layout hv
  have hu : u = { t with
      cells := t.cells.modify index ({ · with occupied := false })
      minFree := min t.minFree index
      occupied := t.occupied - 1 } := by
    simp only [UniqueTable.drop, cell, hpos, if_false, hcell, hoccupied, if_true] at hrun
    cases hrun
    rfl
  have hcells : (u.revive (index :: dropped)).cells = (t.revive dropped).cells := by
    refine Array.ext_getElem? fun other => ?_
    rw [cells_revive, cells_revive, hu, Array.getElem?_modify]
    by_cases hother : index = other
    · subst hother
      simp [hcell, reviveCell, hoccupied]
    · have hrevive : reviveCell (α := α) (index :: dropped) other = reviveCell dropped other := by
        funext c'
        simp [reviveCell, Ne.symm hother]
      rw [if_neg hother, hrevive]
  have hsame : (t.revive dropped).SameCells (u.revive (index :: dropped)) :=
    ⟨hcells, by rw [hu]; rfl⟩
  have hstored : ∀ other, (u.revive (index :: dropped)).stored? other =
      (t.revive dropped).stored? other := fun _ => stored?_congr (by rw [hcells])
  refine ⟨u, hrun, h.consed.congr (hlayout.revive _) hsame, ?_, ?_, ?_⟩
  · refine List.forall_mem_cons.2 ⟨fun c' hc' => ?_, ?_⟩
    · rw [hu, Array.getElem?_modify, if_pos rfl, hcell] at hc'
      cases hc'
      rfl
    · rw [hu]
      exact h.vacant.of_modify (fun cell => { cell with occupied := false }) (fun _ _ => rfl) _ _
  · refine List.forall_mem_cons.2 ⟨⟨c.value, ?_⟩, fun d hd => ?_⟩
    · rw [hstored]
      exact (h.vacant.stored?_iff.1 hv).2
    · rw [hstored]
      exact h.known d hd
  · exact (drop_packed index t h.packed).of_ok hrun

/-- A sweep keeps the dropped cells or fails on one of them. -/
theorem retain (h : t.Lingers dropped) (keep : Nat → Bool) :
    Outcome (UniqueTable.retain keep) t
      (fun _ u => u.Lingers dropped ∧ (∀ d ∈ dropped, keep d = true) ∧
        t.Loses u fun index => keep index = false)
      (fun fault _ => ∃ d ∈ dropped, keep d = false ∧ fault = .cellNotOccupied d) := by
  obtain ⟨sweep, w, hrun, hconsed, hloses⟩ := retain_run h.consed keep
  refine (((retain_follows keep t h.vacant).and (retain_packed keep t h.packed)).and
    (retain_size keep t rfl)).mono ?_ ?_
  · rintro sweep' u ⟨⟨⟨hvacant, hrun'⟩, hpacked⟩, hsize⟩
    rw [hrun] at hrun'
    cases hrun'
    have hknown : ∀ d ∈ dropped, ∃ v, (u.revive dropped).stored? d = some v := by
      intro d hd
      obtain ⟨v, hv⟩ := h.known d hd
      have hlt := lt_size_of_stored hv
      rw [size_revive, ← hsize] at hlt
      exact exists_stored?_revive hd (h.ne_zero hd) hlt
    refine ⟨⟨hconsed, hvacant, hknown, hpacked⟩, fun d hd => ?_, fun index v => ?_⟩
    · obtain ⟨v, hv⟩ := hknown d hd
      have hkept := ((hloses d v).1 hv).2
      simpa using hkept
    · rw [hvacant.stored?_iff, h.vacant.stored?_iff, hloses index v, and_assoc]
      simp
  · rintro fault u ⟨⟨hfault | ⟨w', hrun'⟩, -⟩, -⟩
    · exact hfault
    · rw [hrun] at hrun'
      cases hrun'

/-- As long as no dropped cell is handed out, storing a value keeps the chains in order. -/
theorem appended (h : t.Lingers dropped)
    (hlinked : (t.revive dropped).Linked (fun _ => False) chain)
    (hnew : ∀ i ∈ chain (t.bucketOf v), (t.revive dropped).stored? i ≠ some v)
    (hu : t.Appended u (chain (t.bucketOf v)).getLast? index v) (hpacked : u.Packed)
    (hout : index ∉ dropped) : u.Lingers dropped := by
  have hother : ∀ d ∈ dropped, d ≠ index := fun d hd => ne_of_mem_of_not_mem hd hout
  have hstored : (u.revive dropped).stored? =
      update (t.revive dropped).stored? index (some v) := by
    funext other
    by_cases hin : other ∈ dropped
    · rw [update_of_ne (hother other hin)]
      apply Option.ext
      intro w
      rw [stored?_revive_of_mem hin, stored?_revive_of_mem hin, hu.value other (hother other hin)]
    · rw [stored?_revive u hin, hu.stored]
      by_cases hindex : other = index
      · rw [hindex, update_self, update_self]
      · rw [update_of_ne hindex, update_of_ne hindex, stored?_revive t hin]
  have hrevived : (t.revive dropped).Appended (u.revive dropped)
      (chain (t.bucketOf v)).getLast? index v := by
    refine ⟨hu.layout.revive dropped, hu.pos, (stored?_revive t hout).trans hu.free, hstored,
      fun other hindex => ?_, ?_, hu.head, hu.size⟩
    · rw [value_revive, value_revive, hu.value other hindex]
    · rw [link?_revive, link?_revive]
      exact hu.link
  refine ⟨⟨hrevived.layout, _, hlinked.append h.consed.layout hrevived rfl hnew⟩, fun d hd c hc => ?_,
    fun d hd => ?_, hpacked⟩
  · cases hoccupied : c.occupied with
    | false => rfl
    | true =>
        have hd' : u.stored? d = some c.value :=
          stored?_eq_some.2 ⟨h.ne_zero hd, c, hc, hoccupied, rfl⟩
        rw [hu.stored, update_of_ne (hother d hd), h.vacant.stored?_eq_none hd] at hd'
        cases hd'
  · rw [hstored, update_of_ne (hother d hd)]
    exact h.known d hd

section Put
variable [DecidableEq α] [Inhabited α]

/-- A value is found where it is, whether its cell was dropped or not, or it is stored in the
lowest free cell. -/
theorem put (h : t.Lingers dropped) (hlinked : (t.revive dropped).Linked (fun _ => False) chain)
    (v : α) :
    Outcome (UniqueTable.put v) t
      (fun index u =>
        index ∈ chain (t.bucketOf v) ∧ (t.revive dropped).stored? index = some v ∧ u = t ∨
        (∀ i ∈ chain (t.bucketOf v), (t.revive dropped).stored? i ≠ some v) ∧
          t.Appended u (chain (t.bucketOf v)).getLast? index v ∧ u.Packed)
      (fun _ u => t.Full ∧ u.Packed ∧ u.Layout ∧ t.SameCells u) := by
  have hlt := bucketOf_lt h.layout v
  have hlocate := hlinked.locate_run h.consed.layout v
  rw [locate_revive] at hlocate
  rcases hlocate with ⟨index, hin, hstored, hlocate⟩ | ⟨hnew, hlocate⟩
  · rw [Outcome]
    rw [show UniqueTable.put v t = .ok index t by simp only [UniqueTable.put, hlocate]]
    exact .inl ⟨hin, hstored, rfl⟩
  · have hlast : ∀ l, (chain (t.bucketOf v)).getLast? = some l →
        l ≠ 0 ∧ ∃ next, t.link? l = some next := by
      intro l hl
      rw [← link?_revive t dropped]
      exact hlinked.link?_of_last hlt hl
    have hlowest : Outcome (UniqueTable.put v) t
        (fun index u => t.LowestFree index ∧ u.minFree = index + 1)
        (fun _ u => t.Full ∧ u.minFree = t.minFree) := by
      refine put_links_behind h.layout hlocate hlast
        ((add_lowestFree h.layout h.packed v).imp fun index u hend w hset => ⟨hend.1, ?_⟩)
      have hlinks : (∃ bucket, setHead bucket index u = .ok () w) ∨
          ∃ last, setNext last index u = .ok () w :=
        hset.imp (fun hset => ⟨_, hset.2⟩) (Exists.imp fun _ hset => hset.2)
      exact (minFree_of_linked hlinks).trans hend.2
    refine ((put_appends h.layout hlocate hlast).and hlowest).mono ?_ ?_
    · rintro index u ⟨hu, hindex, hminFree⟩
      have hstored : u.stored? index = some v := by rw [hu.stored, update_self]
      refine .inr ⟨hnew, hu, hindex.packed hstored (fun other hother => ?_) hminFree⟩
      rw [hu.stored, update_of_ne hother]
    · rintro fault u ⟨⟨hlayout, hcells⟩, hfull, hminFree⟩
      have hstored : ∀ other, u.stored? other = t.stored? other := fun _ =>
        stored?_congr (by rw [hcells.cells])
      exact ⟨hfull, h.packed.congr (fun other => by rw [hstored]) hminFree, hlayout, hcells⟩

end Put

end Lingers

end Lingers

end UniqueTable

end SymbolicOmega
