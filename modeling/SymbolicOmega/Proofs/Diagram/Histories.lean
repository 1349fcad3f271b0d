import SymbolicOmega.Proofs.Diagram.FreeCells

/-!
# Histories of a table

The users of a table know which values they put into it and which of these they swept away.
After every history the chains hold exactly the values that are left, each once and in its own
bucket, a value that is put again is found where it is, and a new one gets the lowest free cell.
A sweep visits each of these cells once and drops those that are refused.
-/

namespace SymbolicOmega

namespace UniqueTable

open Function

variable {α : Type} {t u : UniqueTable α} {loose : Nat → Prop} {chain : Nat → List Nat}

/-- A sweep that has counted the cells it dropped. -/
def Sweep.Counted (keep : Nat → Bool) (sweep : Sweep) : Prop :=
  sweep.dropped = sweep.visited.countP fun index => !keep index

theorem drop_link (t : UniqueTable α) (index : Nat) :
    Outcome (drop index) t (fun _ u => u.link? = t.link?) (fun _ _ => True) := by
  unfold Outcome drop
  cases t.cell index with
  | error fault => trivial
  | ok c =>
      cases hoccupied : c.occupied with
      | false => simp only [hoccupied, Bool.false_eq_true, if_false]
      | true =>
          simp only [hoccupied, if_true]
          funext other
          by_cases hother : index = other
          · subst hother
            cases hcell : t.cells[index]? <;> simp [link?, Array.getElem?_modify, hcell]
          · simp [link?, Array.getElem?_modify, hother]

/-- The cells of a chain are visited one after the other. -/
theorem sweepChain_visited (keep : Nat → Bool) {start : Nat} {path : List Nat}
    (hchain : IsChain t.link? start path) (bound : Nat) (kept : List Nat) {sweep : Sweep}
    (hcount : sweep.Counted keep) :
    Outcome (sweepChain keep bound start kept sweep) t
      (fun result _ => result.2.visited = path.reverse ++ sweep.visited ∧ result.2.Counted keep)
      (fun _ _ => True) := by
  induction path generalizing t start bound kept sweep with
  | nil =>
      have hend : start = 0 := hchain
      subst hend
      cases bound <;> exact Outcome.pure ⟨rfl, hcount⟩
  | cons first rest ih =>
      obtain ⟨rfl, hpos, next, hlink, hrest⟩ := hchain
      obtain ⟨index, rfl⟩ : ∃ n, start = n + 1 := ⟨start - 1, by omega⟩
      cases bound with
      | zero => exact Outcome.throw trivial
      | succ bound =>
          have hfollow : followLink (index + 1) t = .ok next t := by
            obtain ⟨c, hcell, hnext⟩ := Option.map_eq_some_iff.1 hlink
            simp [followLink, UniqueTable.next, cell, hcell, hnext]
          apply Outcome.bind_ok hfollow
          cases hkeep : keep (index + 1) with
          | true =>
              simp only [if_true]
              have hcount' : Sweep.Counted keep ⟨(index + 1) :: sweep.visited, sweep.dropped⟩ := by
                simpa [Sweep.Counted, hkeep] using hcount
              apply (ih hrest bound ((index + 1) :: kept) hcount').imp
              rintro result w ⟨hvisited, hend⟩
              exact ⟨by simp [hvisited], hend⟩
          | false =>
              simp only [Bool.false_eq_true, if_false]
              apply Outcome.bind_answers (drop_link t (index + 1))
              intro _ w hw
              have hcount' :
                  Sweep.Counted keep ⟨(index + 1) :: sweep.visited, sweep.dropped + 1⟩ := by
                simpa [Sweep.Counted, hkeep] using hcount
              apply (ih (hw ▸ hrest) bound kept hcount').imp
              rintro result x ⟨hvisited, hend⟩
              exact ⟨by simp [hvisited], hend⟩

theorem sweepBucket_visited [Hashable α] (keep : Nat → Bool) (h : t.Linked loose chain)
    {bucket : Nat} (hbucket : bucket < t.buckets.size) {sweep : Sweep}
    (hcount : sweep.Counted keep) :
    Outcome (sweepBucket keep sweep bucket) t
      (fun sweep' _ => sweep'.visited = (chain bucket).reverse ++ sweep.visited ∧
        sweep'.Counted keep) (fun _ _ => True) := by
  apply Outcome.bind_ok rfl
  apply Outcome.bind_answers (sweepChain_visited keep (h.isChain bucket hbucket) _ [] hcount)
  intro result u hresult
  apply Outcome.bind_answers (Outcome.always _ u)
  intro _ w _
  apply Outcome.bind_answers (Outcome.always _ w)
  exact fun _ _ _ => Outcome.pure hresult

/-- The chains of distinct buckets are visited as they were before the sweep. -/
theorem sweepBuckets_visited [Hashable α] (keep : Nat → Bool) (ht : t.Layout)
    (h : t.Linked loose chain) {buckets : List Nat} (hnodup : buckets.Nodup)
    (hbuckets : ∀ bucket ∈ buckets, bucket < t.buckets.size) {sweep : Sweep}
    (hcount : sweep.Counted keep) :
    Outcome (buckets.foldlM (sweepBucket keep) sweep) t
      (fun sweep' _ => sweep'.visited.Perm (buckets.flatMap chain ++ sweep.visited) ∧
        sweep'.Counted keep) (fun _ _ => True) := by
  induction buckets generalizing t chain sweep with
  | nil => exact Outcome.pure ⟨List.Perm.refl _, hcount⟩
  | cons bucket rest ih =>
      obtain ⟨hfirst, hrest⟩ := List.forall_mem_cons.1 hbuckets
      obtain ⟨hout, hnodup⟩ := List.nodup_cons.1 hnodup
      obtain ⟨sweep', w, hrun, hwlayout, hwlinked, hwsize, -⟩ :=
        sweepBucket_run keep ht h hfirst sweep
      obtain ⟨hvisited, hcount'⟩ := (sweepBucket_visited keep h hfirst hcount).of_ok hrun
      rw [List.foldlM_cons]
      apply Outcome.bind_ok hrun
      apply (ih hwlayout hwlinked hnodup (fun other hmem => hwsize ▸ hrest other hmem)
        hcount').imp
      rintro sweep'' x ⟨hperm, hend⟩
      refine ⟨?_, hend⟩
      -- the chains of the other buckets are still what they were
      have hsame : rest.flatMap (update chain bucket ((chain bucket).filter keep)) =
          rest.flatMap chain := by
        apply List.flatMap_congr
        intro other hmem
        have hne : other ≠ bucket := fun heq => hout (heq ▸ hmem)
        rw [update_of_ne hne]
      rw [hsame, hvisited] at hperm
      rw [List.flatMap_cons]
      calc
        List.Perm sweep''.visited
            (rest.flatMap chain ++ ((chain bucket).reverse ++ sweep.visited)) := hperm
        List.Perm _ ((chain bucket).reverse ++ (rest.flatMap chain ++ sweep.visited)) :=
          List.perm_append_comm_assoc ..
        List.Perm _ (chain bucket ++ (rest.flatMap chain ++ sweep.visited)) :=
          (List.reverse_perm _).append_right _
        _ = chain bucket ++ rest.flatMap chain ++ sweep.visited := (List.append_assoc ..).symm

theorem nodup_chainedBuckets (t : UniqueTable α) {bound : Nat} {rest : List Nat}
    (hrest : rest.Nodup) (hbound : ∀ bucket ∈ rest, bound ≤ bucket) :
    (t.chainedBuckets bound rest).Nodup := by
  induction bound generalizing rest with
  | zero => exact hrest
  | succ bound ih =>
      rw [chainedBuckets]
      by_cases hhead : t.head bound = 0
      · rw [if_pos hhead]
        exact ih hrest fun bucket hmem => Nat.le_of_succ_le (hbound bucket hmem)
      · rw [if_neg hhead]
        refine ih (List.nodup_cons.2 ⟨fun hmem => ?_, hrest⟩) fun bucket hmem => ?_
        · exact Nat.not_succ_le_self bound (hbound bound hmem)
        · rcases List.mem_cons.1 hmem with rfl | hmem
          · exact Nat.le_refl _
          · exact Nat.le_of_succ_le (hbound bucket hmem)

/-- A cell is on the chain of one bucket only. -/
theorem Linked.disjoint [Hashable α] (h : t.Linked loose chain) {bucket other : Nat}
    (hbucket : bucket < t.buckets.size) (hother : other < t.buckets.size) (hne : bucket ≠ other) :
    (chain bucket).Disjoint (chain other) := by
  intro index hin hin'
  obtain ⟨-, v, hv, hvbucket⟩ := (h.mem_chain bucket hbucket index).1 hin
  obtain ⟨-, w, hw, hwbucket⟩ := (h.mem_chain other hother index).1 hin'
  rw [hv] at hw
  cases hw
  exact hne (hvbucket.symm.trans hwbucket)

/-- A sweep visits every cell that holds a value and is not loose, each of them once, and counts
those that it drops. -/
theorem retain_visited [Hashable α] (ht : t.Consed loose) (keep : Nat → Bool) {sweep : Sweep}
    (hrun : retain keep t = .ok sweep u) :
    sweep.visited.Nodup ∧
      (∀ index, index ∈ sweep.visited ↔ ¬ loose index ∧ ∃ v, t.stored? index = some v) ∧
      sweep.dropped = sweep.visited.countP fun index => !keep index := by
  obtain ⟨hlayout, chain, h⟩ := ht
  have hlt : ∀ bucket ∈ t.chainedBuckets t.buckets.size [], bucket < t.buckets.size := by
    intro bucket hin
    simpa using (mem_chainedBuckets.1 hin).elim And.left (by simp)
  have hnodup : (t.chainedBuckets t.buckets.size []).Nodup :=
    t.nodup_chainedBuckets List.nodup_nil (by simp)
  have hcounted : (⟨[], 0⟩ : Sweep).Counted keep := rfl
  have houtcome : Outcome (retain keep) t _ (fun _ _ => True) :=
    Outcome.bind_ok rfl
      (sweepBuckets_visited keep hlayout h hnodup hlt hcounted)
  obtain ⟨hperm, hcount⟩ := houtcome.of_ok hrun
  rw [List.append_nil] at hperm
  refine ⟨hperm.nodup_iff.2 (List.nodup_flatMap.2 ⟨fun bucket hin => ?_, ?_⟩), fun index => ?_,
    hcount⟩
  · exact (h.isChain bucket (hlt bucket hin)).nodup
  · exact hnodup.pairwise_of_forall_ne fun bucket hin other hin' hne =>
      h.disjoint (hlt bucket hin) (hlt other hin') hne
  · rw [hperm.mem_iff, List.mem_flatMap]
    exact h.mem_chained hlayout index

/-! ## Histories -/

section History
variable [DecidableEq α] [Hashable α] [Inhabited α]

/-- The tables that come of a new one, whose first cell may be reserved, by putting values and
sweeping.  Beside each table stands what its users know of it: the values that they put and that
no sweep dropped since, by the index that they were answered. -/
inductive Reached (bits : Nat) : (reserved : Bool) → (contents : Nat → Option α) →
    UniqueTable α → Prop where
  | new {t : UniqueTable α} (hnew : ofBits bits = .ok t) : Reached bits false (fun _ => none) t
  | reserved {fresh t : UniqueTable α} {index : Nat} (hnew : ofBits bits = .ok fresh)
      (hrun : alloc fresh = .ok index t) : Reached bits true (fun _ => none) t
  | unreserved {fresh t : UniqueTable α} {fault : Fault} (hnew : ofBits bits = .ok fresh)
      (hrun : alloc fresh = .error fault t) : Reached bits false (fun _ => none) t
  | stored {reserved : Bool} {contents : Nat → Option α} {t u : UniqueTable α} {index : Nat}
      (v : α) (h : Reached bits reserved contents t) (hrun : put v t = .ok index u) :
      Reached bits reserved (update contents index (some v)) u
  | refused {reserved : Bool} {contents : Nat → Option α} {t u : UniqueTable α} {fault : Fault}
      (v : α) (h : Reached bits reserved contents t) (hrun : put v t = .error fault u) :
      Reached bits reserved contents u
  | swept {reserved : Bool} {contents : Nat → Option α} {t u : UniqueTable α} {sweep : Sweep}
      (keep : Nat → Bool) (h : Reached bits reserved contents t)
      (hrun : retain keep t = .ok sweep u) :
      Reached bits reserved (fun index => (contents index).filter fun _ => keep index) u

/-- The cell that was reserved lies outside every chain. -/
def IsReserved (reserved : Bool) (index : Nat) : Prop :=
  reserved = true ∧ index = 1

/-- The table is in order, and what its users know of it is what its chains hold. -/
structure Accounts (t : UniqueTable α) (reserved : Bool) (contents : Nat → Option α) : Prop where
  consed : t.Consed (IsReserved reserved)
  tallied : t.Tallied
  packed : t.Packed
  contents_eq : ∀ index v, contents index = some v ↔
    ¬ IsReserved reserved index ∧ t.stored? index = some v

omit [DecidableEq α] [Hashable α] in
/-- A new table has no cell besides the sentry and no chain. -/
theorem ofBits_fresh {bits : Nat} (hnew : ofBits bits = .ok t) :
    t.Layout ∧ (∀ index, t.stored? index = none) ∧ (∀ bucket, t.head bucket = 0) ∧
      t.minFree = 1 ∧ t.occupied = 0 := by
  rw [ofBits] at hnew
  split at hnew
  · cases hnew
    have hle : 1 <<< min bits 16 ≤ 65536 := by
      rw [Nat.one_shiftLeft]
      exact Nat.pow_le_pow_right (by omega) (Nat.min_le_right bits 16)
    have hpos : 0 < 1 <<< bits := by
      rw [Nat.one_shiftLeft]
      exact Nat.two_pow_pos bits
    refine ⟨⟨by simp, ?_, ⟨_, rfl, rfl⟩, hpos, Or.inl rfl⟩, ?_, ?_, rfl, rfl⟩
    · simp only [Array.size_replicate, UInt64.size]
      omega
    · intro index
      cases index <;> simp [stored?]
    · intro bucket
      simp only [head, Array.getElem?_replicate]
      split_ifs <;> rfl
  · cases hnew

omit [DecidableEq α] in
theorem ofBits_accounts {bits : Nat} (hnew : ofBits bits = .ok t) :
    t.Accounts false fun _ => none := by
  obtain ⟨hlayout, hstored, hhead, hminFree, hoccupied⟩ := ofBits_fresh hnew
  refine ⟨⟨hlayout, fun _ => [], ?_, ?_, ?_, ?_⟩, ⟨hlayout, ?_⟩, ?_, ?_⟩
  · exact fun bucket _ => hhead bucket
  · simp [hstored]
  · simp [IsReserved]
  · simp [hstored]
  · have hempty : t.population = ∅ := by
      ext index
      simp [hstored]
    rw [Counted, hempty, hoccupied]
    rfl
  · intro index hpos hlt
    omega
  · simp [hstored]

/-- After a value was put, the users know where it is. -/
theorem Accounts.put {reserved : Bool} {contents : Nat → Option α}
    (h : t.Accounts reserved contents) (v : α) :
    Outcome (put v) t (fun index u => u.Accounts reserved (update contents index (some v)))
      (fun _ u => u.Accounts reserved contents) := by
  have hput := (put_outcome (v := v) h.consed).and (put_packed h.consed h.packed v)
  apply (hput.and (put_tallied v t h.tallied)).mono
  · rintro index u ⟨⟨hput, hpacked⟩, htallied⟩
    refine ⟨hput.consed, htallied, hpacked, fun other w => ?_⟩
    by_cases hother : other = index
    · subst hother
      rw [update_self, hput.stored]
      exact (and_iff_right hput.strict).symm
    · rw [update_of_ne hother, h.contents_eq]
      rcases hput.change with rfl | ⟨-, hstored⟩
      · rfl
      · rw [hstored, update_of_ne hother]
  · rintro fault u ⟨⟨⟨hconsed, hcells⟩, hpacked⟩, htallied⟩
    refine ⟨hconsed, htallied, hpacked, fun index w => ?_⟩
    rw [h.contents_eq, stored?_congr (by rw [hcells.cells])]

omit [DecidableEq α] [Inhabited α] in
/-- After a sweep the users know which of their values it kept. -/
theorem Accounts.retain {reserved : Bool} {contents : Nat → Option α}
    (h : t.Accounts reserved contents) (keep : Nat → Bool) :
    ∃ sweep u, retain keep t = .ok sweep u ∧
      u.Accounts reserved fun index => (contents index).filter fun _ => keep index := by
  obtain ⟨sweep, u, hrun, hconsed, hloses⟩ := retain_run h.consed keep
  refine ⟨sweep, u, hrun, hconsed, (retain_tallied keep h.tallied hrun).1,
    (retain_packed keep t h.packed).of_ok hrun, fun index v => ?_⟩
  rw [Option.filter_eq_some_iff, h.contents_eq, hloses index v, and_assoc]
  cases hkeep : keep index <;> simp +contextual [hkeep]

omit [DecidableEq α] in
/-- The cell that a new table reserves is the first one. -/
theorem alloc_accounts {bits : Nat} (hnew : ofBits bits = .ok t) :
    Outcome alloc t (fun _ u => u.Accounts true fun _ => none)
      (fun _ u => u.Accounts false fun _ => none) := by
  have hfresh := ofBits_accounts hnew
  have hlayout := hfresh.consed.layout
  have halloc := (alloc_packed hlayout hfresh.packed).and (alloc_tallied t hfresh.tallied)
  apply Outcome.intro
  · intro index u hrun
    obtain ⟨hpacked, htallied⟩ := halloc.of_ok hrun
    obtain ⟨hconsed, hstored⟩ := alloc_ofBits hnew hrun
    have hreserved : IsReserved true = (· = 1) := by
      funext other
      simp [IsReserved]
    refine ⟨hreserved ▸ hconsed, htallied, hpacked, fun other v => ?_⟩
    rw [hreserved, hstored]
    by_cases hother : other = 1 <;> simp [hother]
  · intro fault u hrun
    obtain ⟨hpacked, htallied⟩ := halloc.of_error hrun
    obtain ⟨hlayout', hcells⟩ := (alloc_outcome hlayout).of_error hrun
    refine ⟨hfresh.consed.congr hlayout' hcells, htallied, hpacked, fun other v => ?_⟩
    rw [hfresh.contents_eq, stored?_congr (by rw [hcells.cells])]

theorem Reached.accounts {bits : Nat} {reserved : Bool} {contents : Nat → Option α}
    (h : Reached bits reserved contents t) : t.Accounts reserved contents := by
  induction h with
  | new hnew => exact ofBits_accounts hnew
  | reserved hnew hrun => exact (alloc_accounts hnew).of_ok hrun
  | unreserved hnew hrun => exact (alloc_accounts hnew).of_error hrun
  | stored v _ hrun ih => exact (ih.put v).of_ok hrun
  | refused v _ hrun ih => exact (ih.put v).of_error hrun
  | swept keep _ hrun ih =>
      obtain ⟨sweep, u, hrun', haccounts⟩ := ih.retain keep
      rw [hrun] at hrun'
      cases hrun'
      exact haccounts

/-! ## What a history leaves -/

/-- The chains run from the heads of their buckets along the links to the end and come back to no
cell.  They have no cell in common and hold the values of the users, each in its bucket. -/
structure Chained (t : UniqueTable α) (contents : Nat → Option α) (chain : Nat → List Nat) :
    Prop where
  ends : ∀ bucket < t.buckets.size, IsChain t.link? (t.head bucket) (chain bucket)
  acyclic : ∀ bucket < t.buckets.size, (chain bucket).Nodup
  disjoint : ∀ bucket < t.buckets.size, ∀ other < t.buckets.size, bucket ≠ other →
    (chain bucket).Disjoint (chain other)
  visited : ∀ index, (∃ bucket < t.buckets.size, index ∈ chain bucket) ↔
    ∃ v, contents index = some v
  bucket : ∀ bucket < t.buckets.size, ∀ index ∈ chain bucket, ∀ v, contents index = some v →
    t.bucketOf v = bucket

/-- The values of the users are in occupied cells, each value in one, and no other cell but a
reserved one is occupied.  The occupied cells are counted, and the search for a free one starts
behind occupied ones only. -/
structure HashConsed (t : UniqueTable α) (reserved : Bool) (contents : Nat → Option α) :
    Prop where
  chained : ∃ chain, t.Chained contents chain
  holds : ∀ index v, contents index = some v → t.stored? index = some v
  occupied : ∀ index, (∃ v, t.stored? index = some v) ↔
    (∃ v, contents index = some v) ∨ reserved = true ∧ index = 1
  distinct : ∀ i j v, contents i = some v → contents j = some v → i = j
  counted : t.occupied = t.population.card
  packed : ∀ index, index ≠ 0 → index < t.minFree → ∃ v, t.stored? index = some v

/-- A value that the users know of is found, and nothing changes.  Another one is stored in the
lowest free cell, and every other cell stays as it is. -/
structure PutsOnce (t u : UniqueTable α) (contents : Nat → Option α) (v : α) (index : Nat) :
    Prop where
  known : ∀ other, contents other = some v → index = other ∧ u = t
  unknown : (∀ other, contents other ≠ some v) →
    t.LowestFree index ∧ u.stored? = update t.stored? index (some v)

/-- A value is refused only if it is new and every cell is taken. -/
structure Refuses (t u : UniqueTable α) (contents : Nat → Option α) (v : α) : Prop where
  unknown : ∀ index, contents index ≠ some v
  full : t.Full
  unchanged : u.stored? = t.stored?

/-- A sweep asks about each cell of the users once, drops those that are refused and counts them.
Every other cell stays as it is. -/
structure Sweeps (t u : UniqueTable α) (contents : Nat → Option α) (keep : Nat → Bool)
    (sweep : Sweep) : Prop where
  once : sweep.visited.Nodup
  visited : ∀ index, index ∈ sweep.visited ↔ ∃ v, contents index = some v
  kept : ∀ index, u.stored? index =
    if index ∈ sweep.visited ∧ keep index = false then none else t.stored? index
  dropped : sweep.dropped = (sweep.visited.filter fun index => !keep index).length

omit [DecidableEq α] [Inhabited α] in
theorem Accounts.chained {reserved : Bool} {contents : Nat → Option α}
    (h : t.Accounts reserved contents) : ∃ chain, t.Chained contents chain := by
  obtain ⟨hlayout, chain, hlinked⟩ := h.consed
  refine ⟨chain, hlinked.isChain, fun bucket hlt => (hlinked.isChain bucket hlt).nodup,
    fun bucket hlt other hlt' hne => hlinked.disjoint hlt hlt' hne, fun index => ?_, ?_⟩
  · constructor
    · rintro ⟨bucket, hlt, hin⟩
      obtain ⟨hstrict, v, hv, -⟩ := (hlinked.mem_chain bucket hlt index).1 hin
      exact ⟨v, (h.contents_eq index v).2 ⟨hstrict, hv⟩⟩
    · rintro ⟨v, hv⟩
      obtain ⟨hstrict, hstored⟩ := (h.contents_eq index v).1 hv
      have hlt := bucketOf_lt hlayout v
      exact ⟨_, hlt, (hlinked.mem_chain _ hlt index).2 ⟨hstrict, v, hstored, rfl⟩⟩
  · intro bucket hlt index hin v hv
    obtain ⟨-, w, hw, hbucket⟩ := (hlinked.mem_chain bucket hlt index).1 hin
    have hstored := ((h.contents_eq index v).1 hv).2
    rw [hw] at hstored
    cases hstored
    exact hbucket

omit [DecidableEq α] [Inhabited α] in
theorem Accounts.hashConsed {reserved : Bool} {contents : Nat → Option α}
    (h : t.Accounts reserved contents) : t.HashConsed reserved contents where
  chained := h.chained
  holds index v hv := ((h.contents_eq index v).1 hv).2
  occupied index := by
    obtain ⟨-, chain, hlinked⟩ := h.consed
    constructor
    · rintro ⟨v, hv⟩
      by_cases hreserved : IsReserved reserved index
      · exact Or.inr hreserved
      · exact Or.inl ⟨v, (h.contents_eq index v).2 ⟨hreserved, hv⟩⟩
    · rintro (⟨v, hv⟩ | hreserved)
      · exact ⟨v, ((h.contents_eq index v).1 hv).2⟩
      · exact hlinked.loose_stored index hreserved
  distinct i j v hi hj := by
    obtain ⟨-, chain, hlinked⟩ := h.consed
    obtain ⟨hi, hiv⟩ := (h.contents_eq i v).1 hi
    obtain ⟨hj, hjv⟩ := (h.contents_eq j v).1 hj
    exact hlinked.distinct i j v hi hj hiv hjv
  counted := h.tallied.2
  packed := h.packed

theorem Accounts.put_once {reserved : Bool} {contents : Nat → Option α}
    (h : t.Accounts reserved contents) (v : α) :
    Outcome (UniqueTable.put v) t (fun index u => t.PutsOnce u contents v index)
      (fun _ u => t.Refuses u contents v) := by
  have hknown : ∀ other, contents other = some v → UniqueTable.put v t = .ok other t := by
    intro other hother
    obtain ⟨hstrict, hstored⟩ := (h.contents_eq other v).1 hother
    exact put_of_stored h.consed hstrict hstored
  have hput := put_outcome (v := v) h.consed
  have hlowest := put_lowestFree h.consed h.packed v
  apply Outcome.intro
  · intro index u hrun
    constructor
    · intro other hother
      rw [hknown other hother] at hrun
      cases hrun
      exact ⟨rfl, rfl⟩
    · intro hunknown
      have hnew : ¬ t.stored? index = some v := fun hstored =>
        hunknown index ((h.contents_eq index v).2 ⟨(hput.of_ok hrun).strict, hstored⟩)
      rcases hlowest.of_ok hrun with ⟨-, hstored, -⟩ | ⟨-, hfree, -⟩
      · exact absurd hstored hnew
      · rcases (hput.of_ok hrun).change with rfl | ⟨-, hstored⟩
        · exact absurd (hput.of_ok hrun).stored hnew
        · exact ⟨hfree, hstored⟩
  · intro fault u hrun
    have hcells := (hput.of_error hrun).2.cells
    refine ⟨fun index hindex => ?_, (hlowest.of_error hrun).2.1,
      funext fun index => stored?_congr (by rw [hcells])⟩
    rw [hknown index hindex] at hrun
    cases hrun

omit [DecidableEq α] [Inhabited α] in
theorem Accounts.sweeps {reserved : Bool} {contents : Nat → Option α}
    (h : t.Accounts reserved contents) (keep : Nat → Bool) :
    ∃ sweep u, UniqueTable.retain keep t = .ok sweep u ∧ t.Sweeps u contents keep sweep := by
  obtain ⟨sweep, u, hrun, -, hloses⟩ := retain_run h.consed keep
  obtain ⟨honce, hvisited, hdropped⟩ := retain_visited h.consed keep hrun
  refine ⟨sweep, u, hrun, honce, fun index => ?_, fun index => ?_, ?_⟩
  · rw [hvisited, ← exists_and_left]
    exact exists_congr fun v => (h.contents_eq index v).symm
  · apply Option.ext
    intro v
    rw [hloses index v]
    split_ifs with hgone
    · have hstrict := ((hvisited index).1 hgone.1).1
      simp [hstrict, hgone.2]
    · constructor
      · exact And.left
      · intro hv
        exact ⟨hv, fun hend => hgone ⟨(hvisited index).2 ⟨hend.1, v, hv⟩, hend.2⟩⟩
  · rw [hdropped, List.countP_eq_length_filter]

/-- Hash consing.  After every history of values put and swept the chains hold the values that are
left, each once and in its bucket.  A value that is put then is found where it is or stored in the
lowest free cell, unless every cell is taken, and a sweep asks once about each value and drops
those that are refused. -/
theorem reached_hashConsed {bits : Nat} {reserved : Bool} {contents : Nat → Option α}
    (h : Reached bits reserved contents t) :
    t.HashConsed reserved contents ∧
      (∀ v, Outcome (put v) t (fun index u => t.PutsOnce u contents v index)
        (fun _ u => t.Refuses u contents v)) ∧
      ∀ keep, ∃ sweep u, retain keep t = .ok sweep u ∧ t.Sweeps u contents keep sweep :=
  ⟨h.accounts.hashConsed, h.accounts.put_once, h.accounts.sweeps⟩

/-- A table whose first cell is reserved, with 5 and 9 on one chain. -/
private def chainOfTwo : UniqueTable Nat :=
  ⟨#[⟨0, 0, true⟩, ⟨0, 0, true⟩, ⟨5, 3, true⟩, ⟨9, 0, true⟩], 4, #[0, 2, 0, 0], 4, 3, 3⟩

/-- What a sweep leaves of it that drops 5. -/
private def chainOfOne : UniqueTable Nat :=
  ⟨#[⟨0, 0, true⟩, ⟨0, 0, true⟩, ⟨5, 3, false⟩, ⟨9, 0, true⟩], 4, #[0, 3, 0, 0], 2, 3, 2⟩

private theorem chainOfTwo_reached :
    Reached 2 true (update (update (fun _ => none) 2 (some 5)) 3 (some 9)) chainOfTwo := by
  have hnew : ofBits 2 = .ok (⟨#[⟨0, 0, true⟩], 4, #[0, 0, 0, 0], 1, 0, 0⟩ : UniqueTable Nat) := rfl
  have hreserved : Reached 2 true (fun _ => none)
      (⟨#[⟨0, 0, true⟩, ⟨0, 0, true⟩], 4, #[0, 0, 0, 0], 2, 1, 1⟩ : UniqueTable Nat) :=
    .reserved hnew rfl
  have hfive : Reached 2 true (update (fun _ => none) 2 (some 5))
      (⟨#[⟨0, 0, true⟩, ⟨0, 0, true⟩, ⟨5, 0, true⟩], 4, #[0, 2, 0, 0], 3, 2, 2⟩ :
        UniqueTable Nat) := .stored 5 hreserved rfl
  exact .stored 9 hfive rfl

/-- The theorem at a history in which two values were put on one chain and the first of them was
swept away.  The other one is found where it is. -/
theorem chainOfOne_hashConsed :
    ∃ contents, Reached 2 true contents chainOfOne ∧ contents 2 = none ∧
      contents 3 = some 9 ∧ chainOfOne.HashConsed true contents ∧
      chainOfOne.PutsOnce chainOfOne contents 9 3 := by
  have hswept : retain (· == 3) chainOfTwo = .ok ⟨[3, 2], 1⟩ chainOfOne := rfl
  have hfound : put 9 chainOfOne = .ok 3 chainOfOne := rfl
  have hreached := chainOfTwo_reached.swept (· == 3) hswept
  have htheorem := reached_hashConsed hreached
  exact ⟨_, hreached, rfl, rfl, htheorem.1, (htheorem.2.1 9).of_ok hfound⟩

end History

end UniqueTable

end SymbolicOmega
