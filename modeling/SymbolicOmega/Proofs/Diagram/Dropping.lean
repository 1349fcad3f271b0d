import SymbolicOmega.Proofs.Diagram.Lingering

/-!
# What dropping does to hash consing

The users of a table may drop a value themselves.  From then on the table does not keep what
hash consing promises: a dropped value that is put again is answered its free cell, and a
sweep that does not keep a dropped cell fails.  When the cell is handed out again for another
value, exactly the values behind it disappear from their chain, and are stored a second time
when they are put.
-/

namespace SymbolicOmega

namespace UniqueTable

open Function

variable {α : Type}

/-- The way along the links from `start` passes `index`. -/
inductive Passes (link : Nat → Option Nat) : (start index : Nat) → Prop where
  | here {index : Nat} (hpos : index ≠ 0) : Passes link index index
  | later {start next index : Nat} (hpos : start ≠ 0) (hlink : link start = some next)
      (h : Passes link next index) : Passes link start index

namespace Passes

variable {link link' : Nat → Option Nat} {start index : Nat} {path front back : List Nat}

theorem start_ne_zero (h : Passes link start index) : start ≠ 0 := by
  cases h with
  | here hpos => exact hpos
  | later hpos => exact hpos

/-- A chain passes its cells and no others. -/
theorem iff_mem (hchain : IsChain link start path) : Passes link start index ↔ index ∈ path := by
  constructor
  · intro h
    induction h generalizing path with
    | here hpos =>
        cases path with
        | nil => exact absurd hchain hpos
        | cons first rest => exact hchain.1 ▸ List.mem_cons_self
    | later hpos hlink _ ih =>
        cases path with
        | nil => exact absurd hchain hpos
        | cons first rest =>
            obtain ⟨rfl, -, next, hnext, hrest⟩ := hchain
            rw [hlink] at hnext
            cases hnext
            exact List.mem_cons_of_mem _ (ih hrest)
  · intro hmem
    induction path generalizing start with
    | nil => exact absurd hmem List.not_mem_nil
    | cons first rest ih =>
        obtain ⟨rfl, hpos, next, hnext, hrest⟩ := hchain
        rcases List.mem_cons.1 hmem with rfl | hmem
        · exact .here hpos
        · exact .later hpos hnext (ih hrest hmem)

/-- Only the links before a cell matter for whether it is passed. -/
theorem of_front (hchain : IsChain link start (front ++ index :: back))
    (hsame : ∀ i ∈ front, link' i = link i) : Passes link' start index := by
  induction front generalizing start with
  | nil =>
      obtain ⟨rfl, hpos, -⟩ := hchain
      exact .here hpos
  | cons first rest ih =>
      obtain ⟨rfl, hpos, next, hnext, hrest⟩ := hchain
      obtain ⟨hfirst, hsame⟩ := List.forall_mem_cons.1 hsame
      exact .later hpos (hfirst.trans hnext) (ih hrest hsame)

/-- Behind a cell that ends the chain or is linked to itself nothing is passed. -/
theorem mem_front {stop : Nat} (h : Passes link' start index)
    (hchain : IsChain link start (front ++ stop :: back))
    (hsame : ∀ i ∈ front, link' i = link i)
    (hstop : ∀ next, link' stop = some next → next = 0 ∨ next = stop) :
    index ∈ front ∨ index = stop := by
  induction h generalizing front with
  | here hpos =>
      cases front with
      | nil => exact .inr hchain.1
      | cons first rest => exact .inl (hchain.1 ▸ List.mem_cons_self)
  | later hpos hlink hrest ih =>
      cases front with
      | nil =>
          obtain rfl := hchain.1
          rcases hstop _ hlink with rfl | rfl
          · exact absurd rfl hrest.start_ne_zero
          · exact ih hchain hsame
      | cons first rest =>
          obtain ⟨rfl, -, next, hnext, hchain⟩ := hchain
          obtain ⟨hfirst, hsame⟩ := List.forall_mem_cons.1 hsame
          rw [hfirst, hnext] at hlink
          cases hlink
          exact (ih hchain hsame).imp (List.mem_cons_of_mem _) id

end Passes

variable {t u : UniqueTable α} {dropped : List Nat} {index : Nat} {v : α}

section Chains
variable [Hashable α] {chain : Nat → List Nat}

/-- The chain of the bucket of `v` passes the cell at `index`. -/
def OnChain (t : UniqueTable α) (v : α) (index : Nat) : Prop :=
  Passes t.link? (t.head (t.bucketOf v)) index

variable [DecidableEq α]

omit [Hashable α] in
theorem walkChain_passes {bound start : Nat}
    (h : t.walkChain v bound start = .ok (.found index)) : Passes t.link? start index := by
  induction bound generalizing start with
  | zero => cases h
  | succ bound ih =>
      rw [walkChain] at h
      cases hcell : t.cell start with
      | error fault => simp [hcell] at h
      | ok c =>
          obtain ⟨hpos, hread⟩ := cell_eq_ok.1 hcell
          simp only [hcell] at h
          split_ifs at h with hv hend
          · cases h
            exact .here hpos
          · cases h
          · exact .later hpos (by rw [link?, hread, Option.map_some]) (ih h)

/-- What a put answers is on the chain of the value, or was free. -/
theorem put_onChain [Inhabited α] (ht : t.Layout) (v : α) :
    Outcome (put v) t (fun index _ => t.OnChain v index ∨ t.stored? index = none)
      (fun _ _ => True) := by
  have hadd : ∀ {link : Nat → TableM α Unit}, Outcome (do
      let index ← add v
      link index
      return index) t (fun index _ => t.OnChain v index ∨ t.stored? index = none)
        (fun _ _ => True) := by
    intro link
    refine Outcome.bind_answers ((add_outcome ht v).mono (fun _ _ h => h) fun _ _ _ => trivial) ?_
    intro index u hadded
    refine Outcome.bind_answers (Outcome.always _ u) fun _ _ _ => Outcome.pure (.inr hadded.free)
  have hlocated : ∀ index, t.locate v = .ok (some (.found index)) → t.OnChain v index := by
    intro index h
    by_cases hhead : t.head (t.bucketOf v) = 0
    · simp [locate, hhead] at h
    · cases hwalk : t.walkChain v t.cells.size (t.head (t.bucketOf v)) with
      | error fault => simp [locate, hhead, hwalk] at h
      | ok chainEnd =>
          have hend : chainEnd = .found index := by simpa [locate, hhead, hwalk] using h
          exact walkChain_passes (hend ▸ hwalk)
  rw [Outcome]
  cases hlocate : t.locate v with
  | error fault => simp only [put, hlocate]
  | ok place =>
      rcases place with _ | index | last
      · rw [show put v t = _ by simp only [put, hlocate]; rfl]
        exact hadd
      · rw [show put v t = .ok index t by simp only [put, hlocate]]
        exact .inl (hlocated index hlocate)
      · rw [show put v t = _ by simp only [put, hlocate]; rfl]
        exact hadd

end Chains

/-! ## Handing a dropped cell out again -/

section Reuse
variable [Hashable α] {chain : Nat → List Nat}
variable {t u : UniqueTable α} {dropped : List Nat} {index other : Nat} {v w : α}

omit [Hashable α] in
theorem link?_eq_some {next : Nat} (hpos : index ≠ 0) (hlink : t.link? index = some next) :
    ∃ c, t.cell index = .ok c ∧ c.next = next := by
  obtain ⟨c, hcell, hnext⟩ := Option.map_eq_some_iff.1 hlink
  exact ⟨c, cell_eq_ok.2 ⟨hpos, hcell⟩, hnext⟩

omit [Hashable α] in
/-- A walk that comes to a cell linked to itself comes to no end. -/
theorem walkChain_loops [DecidableEq α] {link : Nat → Option Nat} {front back : List Nat}
    {stop start : Nat} (hchain : IsChain link start (front ++ stop :: back))
    (hsame : ∀ i ∈ front, u.link? i = link i) (hself : u.link? stop = some stop)
    (hstop : u.value stop ≠ .ok w) (hfront : ∀ i ∈ front, u.value i ≠ .ok w) (bound : Nat) :
    u.walkChain w bound start = .error .boundReached := by
  have hstep : ∀ {i next : Nat}, i ≠ 0 → u.link? i = some next → next ≠ 0 → u.value i ≠ .ok w →
      ∀ bound, u.walkChain w (bound + 1) i = u.walkChain w bound next := by
    intro i next hpos hlink hnext hvalue bound
    obtain ⟨c, hcell, rfl⟩ := link?_eq_some hpos hlink
    have hother : w ≠ c.value := by
      rintro rfl
      exact hvalue (by rw [value, hcell])
    simp only [walkChain, hcell, hother, hnext, if_false]
  induction bound generalizing start front with
  | zero => rfl
  | succ bound ih =>
      cases front with
      | nil =>
          have hpos : start ≠ 0 := hchain.1 ▸ hchain.2.1
          obtain rfl := hchain.1
          rw [hstep hpos hself hpos hstop]
          exact ih hchain hsame hfront
      | cons first rest =>
          obtain ⟨rfl, hpos, next, hnext, hrest⟩ := hchain
          obtain ⟨hfirst, hsame⟩ := List.forall_mem_cons.1 hsame
          obtain ⟨hvalue, hfront⟩ := List.forall_mem_cons.1 hfront
          have hne : next ≠ 0 := by
            cases rest with
            | nil => exact hrest.1 ▸ hrest.2.1
            | cons second others => exact hrest.1 ▸ hrest.2.1
          rw [hstep hpos (hfirst.trans hnext) hne hvalue]
          exact ih hrest hsame hfront

/-- The links before a cell are left alone when a cell behind it is handed out again. -/
theorem Appended.link?_front {front back : List Nat} {bucket i : Nat} {last : Option Nat}
    (hu : t.Appended u last index v) (hlast : (chain (t.bucketOf v)).getLast? = last)
    (hdisjoint : bucket ≠ t.bucketOf v → (chain bucket).Disjoint (chain (t.bucketOf v)))
    (hnodup : (chain bucket).Nodup) (hpath : chain bucket = front ++ i :: back)
    (hout : index ∉ front) : ∀ j ∈ front, u.link? j = t.link? j := by
  intro j hj
  have hne : j ≠ index := ne_of_mem_of_not_mem hj hout
  cases last with
  | none =>
    rw [hu.link]
    exact update_of_ne hne ..
  | some last =>
      have hj' : j ∈ chain bucket := by simp [hpath, hj]
      have hjlast : j ≠ last := by
        rintro rfl
        have hmem : j ∈ chain (t.bucketOf v) := List.mem_of_getLast? hlast
        by_cases hsame : bucket = t.bucketOf v
        · rw [← hsame, hpath, List.getLast?_append_of_ne_nil _ (by simp)] at hlast
          exact List.disjoint_of_nodup_append (hpath ▸ hnodup) hj (List.mem_of_getLast? hlast)
        · exact hdisjoint hsame hj' hmem
      rw [hu.link]
      exact (update_of_ne hjlast ..).trans (update_of_ne hne ..)

theorem Appended.ne {last : Option Nat} (hu : t.Appended u last index v) : u ≠ t := by
  rintro rfl
  have hstored : u.stored? index = some v := by
    rw [hu.stored]
    exact update_self ..
  rw [hu.free] at hstored
  cases hstored

/-- A new cell has no link, or it is linked to itself because it was the last one of the chain
already. -/
theorem Appended.link?_index {last : Option Nat} (hu : t.Appended u last index v) {next : Nat}
    (hnext : u.link? index = some next) : next = 0 ∨ next = index := by
  cases last with
  | none =>
      have hend : u.link? index = some 0 := by
        rw [hu.link]
        exact update_self ..
      rw [hend] at hnext
      exact .inl (Option.some.inj hnext).symm
  | some last =>
      by_cases hsame : index = last
      · have hself : u.link? index = some index := by
          rw [hu.link]
          exact hsame ▸ update_self ..
        rw [hself] at hnext
        exact .inr (Option.some.inj hnext).symm
      · have hend : u.link? index = some 0 := by
          rw [hu.link]
          exact (update_of_ne hsame ..).trans (update_self ..)
        rw [hend] at hnext
        exact .inl (Option.some.inj hnext).symm

/-- The heads of the chains that there are stay where they are. -/
theorem Appended.head_eq {last : Option Nat} (hu : t.Appended u last index v)
    (hlast : (chain (t.bucketOf v)).getLast? = last) {bucket : Nat} (hmem : other ∈ chain bucket) :
    u.head bucket = t.head bucket := by
  cases last with
  | none =>
      have hne : bucket ≠ t.bucketOf v := by
        rintro rfl
        rw [List.getLast?_eq_none_iff.1 hlast] at hmem
        cases hmem
      rw [hu.head]
      exact update_of_ne hne ..
  | some last => rw [hu.head, Option.elim]

/-- When a dropped cell is handed out again, the cells behind it are no longer on their chain, and
all others are. -/
theorem Lingers.onChain_iff (h : t.Lingers dropped)
    (hlinked : (t.revive dropped).Linked (fun _ => False) chain)
    (hu : t.Appended u (chain (t.bucketOf v)).getLast? index v) (hin : index ∈ dropped)
    (hother : other ≠ index) (hw : t.stored? other = some w) :
    u.OnChain w other ↔ ¬ Passes t.link? index other := by
  have hlt := bucketOf_lt h.layout
  have hchain := h.isChain hlinked
  obtain ⟨x, hx⟩ := h.known index hin
  have hindex : index ∈ chain (t.bucketOf x) := h.mem_chain hlinked hx
  have hmem : other ∈ chain (t.bucketOf w) :=
    h.mem_chain hlinked (h.vacant.stored?_iff.1 hw).2
  have hdisjoint : ∀ b < t.buckets.size, b ≠ t.bucketOf v →
      (chain b).Disjoint (chain (t.bucketOf v)) := fun b hb hne =>
    hlinked.disjoint hb (hlt v) hne
  have hnodup := (hchain w).nodup
  have hbucket : u.bucketOf w = t.bucketOf w := by simp only [bucketOf, hu.size]
  rw [OnChain, hbucket, hu.head_eq rfl hmem]
  by_cases hpasses : Passes t.link? index other
  · obtain ⟨front, back, hpath⟩ := List.append_of_mem hindex
    have hback : other ∈ back := by
      have hsuffix := (hpath ▸ hchain x).suffix
      exact (List.mem_cons.1 ((Passes.iff_mem hsuffix).1 hpasses)).resolve_left hother
    have hsame : t.bucketOf w = t.bucketOf x := by
      by_contra hne
      exact hlinked.disjoint (hlt w) (hlt x) hne hmem (by simp [hpath, hback])
    rw [← hsame] at hpath
    refine iff_of_false (fun hon => ?_) (not_not_intro hpasses)
    have hout : index ∉ front := fun hfront =>
      List.disjoint_of_nodup_append (hpath ▸ hnodup) hfront List.mem_cons_self
    have hlinks := hu.link?_front rfl (hdisjoint _ (hlt w)) hnodup hpath hout
    rcases hon.mem_front (hpath ▸ hchain w) hlinks fun _ => hu.link?_index with
      hfront | hsame
    · exact List.disjoint_of_nodup_append (hpath ▸ hnodup) hfront (List.mem_cons_of_mem _ hback)
    · exact hother hsame
  · obtain ⟨front, back, hpath⟩ := List.append_of_mem hmem
    have hout : index ∉ front := by
      intro hfront
      obtain ⟨before, between, rfl⟩ := List.append_of_mem hfront
      have hsplit : chain (t.bucketOf w) = before ++ index :: (between ++ other :: back) := by
        simpa using hpath
      have hsuffix := (hsplit ▸ hchain w).suffix
      exact hpasses ((Passes.iff_mem hsuffix).2 (by simp))
    have hlinks := hu.link?_front rfl (hdisjoint _ (hlt w)) hnodup hpath hout
    exact iff_of_true (Passes.of_front (hpath ▸ hchain w) hlinks) hpasses

/-- When a dropped cell that ends its chain is handed out again for a value of this chain, it is
linked to itself. -/
theorem put_loops [DecidableEq α] [Inhabited α] (h : t.Lingers dropped)
    (hlinked : (t.revive dropped).Linked (fun _ => False) chain)
    (hu : t.Appended u (chain (t.bucketOf v)).getLast? index v) (hindex : t.OnChain v index)
    (hend : ∀ other, Passes t.link? index other → other = index)
    (hw : u.bucketOf w = u.bucketOf v) (hnew : ∀ i, u.OnChain w i → u.value i ≠ .ok w) :
    put w u = .error .boundReached u := by
  have hchain := h.isChain hlinked v
  have hmem : index ∈ chain (t.bucketOf v) := (Passes.iff_mem hchain).1 hindex
  obtain ⟨front, back, hpath⟩ := List.append_of_mem hmem
  have hnodup := hpath ▸ hchain.nodup
  obtain rfl : back = [] := by
    have hsuffix := (hpath ▸ hchain).suffix
    cases back with
    | nil => rfl
    | cons next rest =>
        have hnext : next = index := hend next ((Passes.iff_mem hsuffix).2 (by simp))
        simp [hnext, List.nodup_append] at hnodup
  have hlast : (chain (t.bucketOf v)).getLast? = some index := by simp [hpath]
  rw [hlast] at hu
  have hself : u.link? index = some index := by
    rw [hu.link]
    exact update_self ..
  have hout : index ∉ front := fun hfront =>
    List.disjoint_of_nodup_append hnodup hfront List.mem_cons_self
  have hlinks := hu.link?_front hlast (fun hne => absurd rfl hne) hchain.nodup hpath hout
  have hbucket : u.bucketOf w = t.bucketOf v := by
    rw [hw]
    simp only [bucketOf, hu.size]
  have hhead : u.head (t.bucketOf v) = t.head (t.bucketOf v) := hu.head_eq hlast hmem
  rw [hpath] at hchain
  have hpassed : ∀ i ∈ front ++ [index], u.OnChain w i := by
    intro i hi
    rw [OnChain, hbucket, hhead]
    rcases List.mem_append.1 hi with hi | hi
    · obtain ⟨before, after, rfl⟩ := List.append_of_mem hi
      rw [List.append_assoc] at hchain
      exact Passes.of_front hchain fun j hj => hlinks j (List.mem_append_left _ hj)
    · exact List.mem_singleton.1 hi ▸ Passes.of_front hchain hlinks
  have hwalk := walkChain_loops hchain hlinks hself (hnew index (hpassed index (by simp)))
    (fun i hi => hnew i (hpassed i (by simp [hi]))) u.cells.size
  have hpos : u.head (u.bucketOf w) ≠ 0 := (hpassed index (by simp)).start_ne_zero
  have hlocate : u.locate w = .error .boundReached := by
    rw [locate, if_neg hpos, hbucket, hhead, hwalk]
  simp only [put, hlocate]

end Reuse

/-! ## Histories with dropping -/

section Histories
variable [DecidableEq α] [Hashable α] [Inhabited α]

/-- The tables that come of a new one by putting values, sweeping, and dropping values that are
stored, as long as no cell that was dropped so is handed out again. -/
inductive Handled (bits : Nat) : (dropped : List Nat) → UniqueTable α → Prop where
  | new {t : UniqueTable α} (hnew : ofBits bits = .ok t) : Handled bits [] t
  | stored {dropped : List Nat} {t u : UniqueTable α} {index : Nat} (v : α)
      (h : Handled bits dropped t) (hrun : put v t = .ok index u)
      (hkept : index ∈ dropped → u = t) : Handled bits dropped u
  | refused {dropped : List Nat} {t u : UniqueTable α} {fault : Fault} (v : α)
      (h : Handled bits dropped t) (hrun : put v t = .error fault u) : Handled bits dropped u
  | dropped {dropped : List Nat} {t u : UniqueTable α} {index : Nat} {v : α}
      (h : Handled bits dropped t) (hv : t.stored? index = some v)
      (hrun : drop index t = .ok () u) : Handled bits (index :: dropped) u
  | swept {dropped : List Nat} {t u : UniqueTable α} {sweep : Sweep} (keep : Nat → Bool)
      (h : Handled bits dropped t) (hrun : retain keep t = .ok sweep u) : Handled bits dropped u

variable {t u : UniqueTable α} {dropped : List Nat} {bits index : Nat} {v : α}

theorem Handled.lingers (h : Handled bits dropped t) : t.Lingers dropped := by
  induction h with
  | new hnew => exact .new hnew
  | stored v _ hrun hkept ih =>
      obtain ⟨-, chain, hlinked⟩ := ih.consed
      rcases (ih.put hlinked v).of_ok hrun with ⟨-, -, rfl⟩ | ⟨hnew, hu, hpacked⟩
      · exact ih
      · exact ih.appended hlinked hnew hu hpacked fun hin => hu.ne (hkept hin)
  | refused v _ hrun ih =>
      obtain ⟨-, chain, hlinked⟩ := ih.consed
      obtain ⟨-, hpacked, hlayout, hcells⟩ := (ih.put hlinked v).of_error hrun
      exact ih.congr hcells hlayout hpacked
  | dropped _ hv hrun ih =>
      obtain ⟨u, hrun', hu⟩ := ih.drop hv
      rw [hrun] at hrun'
      cases hrun'
      exact hu
  | swept keep _ hrun ih => exact ((ih.retain keep).of_ok hrun).1

/-- What hash consing promises: a put answers an occupied cell with the value, unless the table is
full, no two occupied cells hold the same value, each of them is on its chain, and a sweep never
fails. -/
structure Consing (t : UniqueTable α) : Prop where
  answers : ∀ v, Outcome (put v) t (fun index u => u.stored? index = some v) fun _ _ => t.Full
  distinct : ∀ i j v, t.stored? i = some v → t.stored? j = some v → i = j
  chained : ∀ index v, t.stored? index = some v → t.OnChain v index
  sweeps : ∀ keep, ∃ sweep u, retain keep t = .ok sweep u

/-- What a table does from which the cells at `dropped` were dropped. -/
structure Frayed (t : UniqueTable α) (dropped : List Nat) : Prop where
  /-- The promises hold as long as nothing was dropped, and no longer. -/
  consing : t.Consing ↔ dropped = []
  distinct : ∀ i j v, t.stored? i = some v → t.stored? j = some v → i = j
  chained : ∀ index v, t.stored? index = some v → t.OnChain v index
  /-- A dropped cell is on the chain still, and a put of its value answers it. -/
  lingering : ∀ d ∈ dropped, t.stored? d = none ∧
    ∃ v, t.value d = .ok v ∧ t.OnChain v d ∧ put v t = .ok d t
  /-- What a put answers holds the value, and is occupied unless the value was dropped. -/
  answers : ∀ v, Outcome (put v) t
    (fun index u => u.value index = .ok v ∧
      (u.stored? index = some v ↔ ∀ d ∈ dropped, t.value d ≠ .ok v)) fun _ _ => t.Full
  /-- A sweep must keep what was dropped. -/
  sweeps : ∀ keep, Outcome (retain keep) t
    (fun _ u => (∀ d ∈ dropped, keep d = true) ∧ t.Loses u fun index => keep index = false)
    (fun fault _ => ∃ d ∈ dropped, keep d = false ∧ fault = .cellNotOccupied d)
  /-- When a dropped cell is handed out again, what is behind it is no longer on its chain, and
  gets another cell when it is put. -/
  reuse : ∀ v index u, put v t = .ok index u → index ∈ dropped → u ≠ t →
    u.stored? = update t.stored? index (some v) ∧
      ∀ other w, other ≠ index → t.stored? other = some w →
        (u.OnChain w other ↔ ¬ Passes t.link? index other) ∧
          (¬ u.OnChain w other → ∀ i x, put w u = .ok i x → i ≠ other)
  /-- A put of another value does not come to an end if that was the last cell of the chain
  already. -/
  loops : ∀ v index u, put v t = .ok index u → index ∈ dropped → u ≠ t → t.OnChain v index →
    (∀ other, Passes t.link? index other → other = index) →
      ∀ w, u.bucketOf w = u.bucketOf v → (∀ i, u.OnChain w i → u.value i ≠ .ok w) →
        put w u = .error .boundReached u

namespace Lingers

variable {chain : Nat → List Nat}

omit [DecidableEq α] [Inhabited α] in
theorem onChain (h : t.Lingers dropped)
    (hlinked : (t.revive dropped).Linked (fun _ => False) chain)
    (hv : (t.revive dropped).stored? index = some v) : t.OnChain v index :=
  (Passes.iff_mem (h.isChain hlinked v)).2 (h.mem_chain hlinked hv)

/-- The value of a dropped cell is found there. -/
theorem put_dropped (h : t.Lingers dropped)
    (hlinked : (t.revive dropped).Linked (fun _ => False) chain)
    (hv : (t.revive dropped).stored? index = some v) : UniqueTable.put v t = .ok index t := by
  have hlocate := hlinked.locate_run h.consed.layout v
  rw [locate_revive] at hlocate
  rcases hlocate with ⟨other, -, hstored, hlocate⟩ | ⟨hnew, -⟩
  · obtain rfl := hlinked.distinct other index v not_false not_false hstored hv
    simp only [UniqueTable.put, hlocate]
  · exact absurd hv (hnew index (h.mem_chain hlinked hv))

theorem answers (h : t.Lingers dropped) (v : α) : Outcome (UniqueTable.put v) t
    (fun index u => u.value index = .ok v ∧
      (u.stored? index = some v ↔ ∀ d ∈ dropped, t.value d ≠ .ok v)) fun _ _ => t.Full := by
  obtain ⟨-, chain, hlinked⟩ := h.consed
  refine (h.put hlinked v).mono ?_ fun _ _ hend => hend.1
  rintro index u (⟨-, hstored, rfl⟩ | ⟨hnew, hu, -⟩)
  · have hvalue : u.value index = .ok v :=
      (u.value_revive dropped index).symm.trans (value_of_stored hstored)
    refine ⟨hvalue, fun hv d hd hdv => ?_, fun hnone => ?_⟩
    · have hd' := (stored?_revive_of_mem hd).2 hdv
      obtain rfl := hlinked.distinct d index v not_false not_false hd' hstored
      rw [h.vacant.stored?_eq_none hd] at hv
      cases hv
    · exact h.vacant.stored?_iff.2 ⟨fun hin => hnone index hin hvalue, hstored⟩
  · have hstored : u.stored? index = some v := by rw [hu.stored, update_self]
    refine ⟨value_of_stored hstored, fun _ d hd hdv => ?_, fun _ => hstored⟩
    have hd' := (stored?_revive_of_mem hd).2 hdv
    exact hnew d (h.mem_chain hlinked hd') hd'

/-- A dropped cell that is handed out again came of no walk, but was the lowest free one. -/
theorem appended_of_put (h : t.Lingers dropped)
    (hlinked : (t.revive dropped).Linked (fun _ => False) chain)
    (hrun : UniqueTable.put v t = .ok index u) (hne : u ≠ t) :
    t.Appended u (chain (t.bucketOf v)).getLast? index v := by
  rcases (h.put hlinked v).of_ok hrun with ⟨-, -, hsame⟩ | ⟨-, hu, -⟩
  · exact absurd hsame hne
  · exact hu

end Lingers

/-- Dropping breaks the promises of hash consing at once: a table keeps them exactly as long as
nothing was dropped. -/
theorem handled_frayed (h : Handled bits dropped t) : t.Frayed dropped := by
  have hl := h.lingers
  obtain ⟨-, chain, hlinked⟩ := hl.consed
  have hdistinct : ∀ i j v, t.stored? i = some v → t.stored? j = some v → i = j :=
    fun i j v hi hj => hlinked.distinct i j v not_false not_false
      (hl.vacant.stored?_iff.1 hi).2 (hl.vacant.stored?_iff.1 hj).2
  have hchained : ∀ index v, t.stored? index = some v → t.OnChain v index := fun index v hv =>
    hl.onChain hlinked (hl.vacant.stored?_iff.1 hv).2
  have hsweeps : ∀ keep, Outcome (retain keep) t
      (fun _ u => (∀ d ∈ dropped, keep d = true) ∧ t.Loses u fun index => keep index = false)
      (fun fault _ => ∃ d ∈ dropped, keep d = false ∧ fault = .cellNotOccupied d) := fun keep =>
    (hl.retain keep).imp fun _ _ hend => hend.2
  refine {
    consing := ⟨fun hconsing => ?_, fun hnone => ?_⟩
    distinct := hdistinct
    chained := hchained
    lingering := fun d hd => ?_
    answers := hl.answers
    sweeps := hsweeps
    reuse := fun v index u hrun hin hne => ?_
    loops := fun v index u hrun hin hne hindex hend w hw hnew => ?_ }
  · obtain ⟨sweep, u, hrun⟩ := hconsing.sweeps fun _ => false
    have hkept := ((hsweeps fun _ => false).of_ok hrun).1
    exact List.eq_nil_iff_forall_not_mem.2 fun d hd => Bool.false_ne_true (hkept d hd)
  · subst hnone
    refine ⟨fun v => (hl.answers v).imp fun _ _ hend => hend.2.2 (by simp), hdistinct, hchained,
      fun keep => ?_⟩
    cases hrun : retain keep t with
    | ok sweep u => exact ⟨sweep, u, rfl⟩
    | error fault u =>
        obtain ⟨d, hd, -⟩ := (hsweeps keep).of_error hrun
        cases hd
  · obtain ⟨v, hv⟩ := hl.known d hd
    exact ⟨hl.vacant.stored?_eq_none hd, v, (stored?_revive_of_mem hd).1 hv,
      hl.onChain hlinked hv, hl.put_dropped hlinked hv⟩
  · have hu := hl.appended_of_put hlinked hrun hne
    refine ⟨hu.stored, fun other w hother hw =>
      ⟨hl.onChain_iff hlinked hu hin hother hw, fun hgone i x hrun' => ?_⟩⟩
    rintro rfl
    rcases (put_onChain hu.layout w).of_ok hrun' with hon | hfree
    · exact hgone hon
    · rw [hu.stored, update_of_ne hother, hw] at hfree
      cases hfree
  · exact put_loops hl hlinked (hl.appended_of_put hlinked hrun hne) hindex hend hw hnew

/-- A table with 5 and 9 on one chain, from which 5 was dropped. -/
private def firstDropped : UniqueTable Nat :=
  ⟨#[⟨0, 0, true⟩, ⟨5, 2, false⟩, ⟨9, 0, true⟩], 4, #[0, 1, 0, 0], 1, 2, 1⟩

/-- What putting 13 makes of it. -/
private def cellReused : UniqueTable Nat :=
  ⟨#[⟨0, 0, true⟩, ⟨13, 0, true⟩, ⟨9, 1, true⟩], 4, #[0, 1, 0, 0], 2, 2, 2⟩

/-- What putting 9 makes of this. -/
private def storedTwice : UniqueTable Nat :=
  ⟨#[⟨0, 0, true⟩, ⟨13, 3, true⟩, ⟨9, 1, true⟩, ⟨9, 0, true⟩], 4, #[0, 1, 0, 0], 4, 3, 3⟩

private theorem firstDropped_handled : Handled 2 [1] firstDropped := by
  have hnew : ofBits 2 = .ok (⟨#[⟨0, 0, true⟩], 4, #[0, 0, 0, 0], 1, 0, 0⟩ : UniqueTable Nat) := rfl
  have hfive : Handled 2 []
      (⟨#[⟨0, 0, true⟩, ⟨5, 0, true⟩], 4, #[0, 1, 0, 0], 2, 1, 1⟩ : UniqueTable Nat) :=
    .stored 5 (.new hnew) rfl (by simp)
  have hnine : Handled 2 []
      (⟨#[⟨0, 0, true⟩, ⟨5, 2, true⟩, ⟨9, 0, true⟩], 4, #[0, 1, 0, 0], 3, 2, 2⟩ : UniqueTable Nat) :=
    .stored 9 hfive rfl (by simp)
  exact .dropped hnine (v := 5) rfl rfl

/-- The theorem where the first of two values on a chain was dropped.  A put of this value answers
the free cell, and after the cell was handed out for another value the second one is stored twice. -/
theorem firstDropped_frayed :
    Handled 2 [1] firstDropped ∧ firstDropped.Frayed [1] ∧ ¬ firstDropped.Consing ∧
      put 5 firstDropped = .ok 1 firstDropped ∧ firstDropped.stored? 1 = none ∧
      (∃ u, retain (· == 2) firstDropped = .error (.cellNotOccupied 1) u) ∧
      put 13 firstDropped = .ok 1 cellReused ∧ ¬ cellReused.OnChain 9 2 ∧
      put 9 cellReused = .ok 3 storedTwice ∧
      storedTwice.stored? 2 = some 9 ∧ storedTwice.stored? 3 = some 9 := by
  have hfrayed := handled_frayed firstDropped_handled
  have hreused : put 13 firstDropped = .ok 1 cellReused := rfl
  have hne : cellReused ≠ firstDropped := fun hsame =>
    absurd (congrArg UniqueTable.occupied hsame) (by decide)
  have hpasses : Passes firstDropped.link? 1 2 := .later (by decide) rfl (.here (by decide))
  have hlost := ((hfrayed.reuse 13 1 cellReused hreused (by simp) hne).2 2 9 (by decide) rfl).1
  exact ⟨firstDropped_handled, hfrayed, fun hconsing => by simpa using hfrayed.consing.1 hconsing,
    rfl, rfl, ⟨_, rfl⟩, hreused, fun hon => hlost.1 hon hpasses, rfl, rfl, rfl⟩

/-- Where 5 was alone on the chain, its cell is linked to itself when 9 is put. -/
example : ∃ u, (do
    let index ← put 5
    drop index
    let _ ← put 9
    put 13 : TableM Nat Nat) ⟨#[⟨0, 0, true⟩], 4, #[0, 0, 0, 0], 1, 0, 0⟩ =
      .error .boundReached u :=
  ⟨_, rfl⟩

end Histories

end UniqueTable

end SymbolicOmega
