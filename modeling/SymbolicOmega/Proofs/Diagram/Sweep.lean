import SymbolicOmega.Proofs.Diagram.HashConsing

/-!
# Sweeping the chains

A sweep visits every chain, drops the cells that are not kept and links the others
anew.  It cannot fail on a table whose chains are in order, and it leaves such a table
behind: the stored values are those that were kept, and the loose ones.
-/

namespace SymbolicOmega

namespace UniqueTable

open Function

variable {α : Type}

/-- `u` holds what `t` holds, but for the cells that are gone. -/
def Loses (t u : UniqueTable α) (gone : Nat → Prop) : Prop :=
  ∀ index v, u.stored? index = some v ↔ t.stored? index = some v ∧ ¬ gone index

theorem Loses.refl (t : UniqueTable α) : t.Loses t fun _ => False := by
  simp [Loses]

theorem Loses.trans {t u w : UniqueTable α} {gone gone' : Nat → Prop} (h : t.Loses u gone)
    (h' : u.Loses w gone') : t.Loses w fun index => gone index ∨ gone' index := by
  intro index v
  rw [h' index v, h index v, and_assoc, not_or]

theorem Loses.congr {t u : UniqueTable α} {gone gone' : Nat → Prop} (h : t.Loses u gone)
    (hgone : ∀ index v, t.stored? index = some v → (gone index ↔ gone' index)) :
    t.Loses u gone' := by
  intro index v
  rw [h index v, and_congr_right_iff]
  exact fun hv => not_congr (hgone index v hv)

/-! ## One chain -/

theorem drop_run {t : UniqueTable α} (ht : t.Layout) {index : Nat} {v : α}
    (h : t.stored? index = some v) :
    ∃ u, drop index t = .ok () u ∧ u.Layout ∧ t.Loses u (· = index) ∧
      u.link? = t.link? ∧ u.buckets = t.buckets := by
  obtain ⟨hpos, c, hcell, hocc, -⟩ := stored?_eq_some.1 h
  refine ⟨_, by simp only [drop, cell, hpos, if_false, hcell, hocc, if_true]; rfl,
    ht.of_modify hpos _ _ _, ?_, ?_, rfl⟩
  · intro other v
    by_cases hindex : other = index
    · subst hindex
      simp [stored?, Array.getElem?_modify, hcell, Option.filter]
    · simp [stored?, Array.getElem?_modify, hindex, Ne.symm hindex]
  · funext other
    by_cases hindex : index = other
    · subst hindex
      simp [link?, Array.getElem?_modify, hcell]
    · simp [link?, Array.getElem?_modify, hindex]

theorem sweepChain_run (keep : Nat → Bool) {t : UniqueTable α} (ht : t.Layout) {bound start : Nat}
    {path : List Nat} (hchain : IsChain t.link? start path)
    (hstored : ∀ index ∈ path, ∃ v, t.stored? index = some v) (hbound : path.length ≤ bound)
    (kept : List Nat) (sweep : Sweep) :
    ∃ sweep' u, sweepChain keep bound start kept sweep t =
        .ok ((path.filter keep).reverse ++ kept, sweep') u ∧
      u.Layout ∧ t.Loses u (fun index => index ∈ path ∧ keep index = false) ∧
      u.link? = t.link? ∧ u.buckets = t.buckets := by
  have hnodup := hchain.nodup
  induction path generalizing t start bound kept sweep with
  | nil =>
      have hend : start = 0 := hchain
      subst hend
      exact ⟨sweep, t, by cases bound <;> rfl, ht, by simpa using Loses.refl t, rfl, rfl⟩
  | cons first rest ih =>
      obtain ⟨rfl, hpos, next, hlink, hrest⟩ := hchain
      obtain ⟨bound, rfl⟩ : ∃ n, bound = n + 1 := ⟨bound - 1, by simp at hbound; omega⟩
      obtain ⟨index, rfl⟩ : ∃ n, start = n + 1 := ⟨start - 1, by omega⟩
      obtain ⟨hfirst, hnodup⟩ := List.nodup_cons.1 hnodup
      obtain ⟨v, hv⟩ := hstored (index + 1) List.mem_cons_self
      have hfollow : followLink (index + 1) t = .ok next t := by
        obtain ⟨-, c, hcell, -⟩ := stored?_eq_some.1 hv
        have hnext : c.next = next := by simpa [link?, hcell] using hlink
        simp [followLink, UniqueTable.next, cell, hcell, hnext]
      cases hkeep : keep (index + 1) with
      | true =>
          obtain ⟨sweep', u, hrun, hlayout, hstored', hlink', hbuckets⟩ :=
            ih ht hrest (fun other hmem => hstored other (List.mem_cons_of_mem _ hmem))
              (Nat.le_of_succ_le_succ hbound) ((index + 1) :: kept)
              { sweep with visited := (index + 1) :: sweep.visited } hnodup
          refine ⟨sweep', u, ?_, hlayout, hstored'.congr fun other _ _ => ?_, hlink', hbuckets⟩
          · simpa [sweepChain, run_bind hfollow, hkeep] using hrun
          · by_cases hother : other = index + 1 <;> simp [hother, hkeep]
      | false =>
          obtain ⟨w, hdrop, hwlayout, hwstored, hwlink, hwbuckets⟩ := drop_run ht hv
          have hrestStored : ∀ other ∈ rest, ∃ v, w.stored? other = some v := by
            intro other hmem
            obtain ⟨v', hv'⟩ := hstored other (List.mem_cons_of_mem _ hmem)
            exact ⟨v', (hwstored other v').2 ⟨hv', fun heq => hfirst (heq ▸ hmem)⟩⟩
          obtain ⟨sweep', u, hrun, hlayout, hstored', hlink', hbuckets⟩ :=
            ih hwlayout (hwlink ▸ hrest) hrestStored (Nat.le_of_succ_le_succ hbound) kept
              ⟨(index + 1) :: sweep.visited, sweep.dropped + 1⟩ hnodup
          refine ⟨sweep', u, ?_, hlayout, (hwstored.trans hstored').congr fun other _ _ => ?_,
            hlink'.trans hwlink, hbuckets.trans hwbuckets⟩
          · simpa [sweepChain, run_bind hfollow, hkeep, run_bind hdrop] using hrun
          · by_cases hother : other = index + 1 <;> simp [hother, hkeep]

/-- Linking cells one after the other makes a chain of them. -/
theorem linkChain_run {t : UniqueTable α} (ht : t.Layout) {path : List Nat}
    (hpos : ∀ index ∈ path, index ≠ 0) (hlinks : ∀ index ∈ path, ∃ next, t.link? index = some next)
    (hnodup : path.Nodup) :
    ∃ u, linkChain path t = .ok () u ∧ u.Layout ∧ u.stored? = t.stored? ∧
      IsChain u.link? (path.headD 0) path ∧
      (∀ index, index ∉ path → u.link? index = t.link? index) ∧ u.buckets = t.buckets := by
  induction path generalizing t with
  | nil => exact ⟨t, rfl, ht, rfl, rfl, fun _ _ => rfl, rfl⟩
  | cons first rest ih =>
      obtain ⟨old, hold⟩ := hlinks first List.mem_cons_self
      have hfirst := hpos first List.mem_cons_self
      obtain ⟨hout, hnodup⟩ := List.nodup_cons.1 hnodup
      cases rest with
      | nil =>
          obtain ⟨u, hset, hlayout, hstored, hlink, hbuckets⟩ := setNext_run ht hfirst hold 0
          refine ⟨u, hset, hlayout, hstored, ⟨rfl, hfirst, 0, ?_, rfl⟩, fun index hindex => ?_,
            hbuckets⟩
          · rw [hlink, update_self]
          · rw [hlink, update_of_ne (by simpa using hindex)]
      | cons second others =>
          obtain ⟨w, hset, hwlayout, hwstored, hwlink, hwbuckets⟩ :=
            setNext_run ht hfirst hold second
          have hlinks' : ∀ index ∈ second :: others, ∃ next, w.link? index = some next := by
            intro index hmem
            have hne : index ≠ first := fun heq => hout (heq ▸ hmem)
            rw [hwlink, update_of_ne hne]
            exact hlinks index (List.mem_cons_of_mem _ hmem)
          obtain ⟨u, hrun, hlayout, hstored, hchain, hothers, hbuckets⟩ :=
            ih hwlayout (fun index hmem => hpos index (List.mem_cons_of_mem _ hmem)) hlinks' hnodup
          refine ⟨u, ?_, hlayout, hstored.trans hwstored, ⟨rfl, hfirst, second, ?_, hchain⟩,
            fun index hindex => ?_, hbuckets.trans hwbuckets⟩
          · simpa only [linkChain, run_bind hset] using hrun
          · rw [hothers first hout, hwlink, update_self]
          · simp only [List.mem_cons, not_or] at hindex
            rw [hothers index (by simpa using hindex.2), hwlink, update_of_ne hindex.1]

/-! ## All chains -/

section Sweep
variable [Hashable α] {loose : Nat → Prop} {chain : Nat → List Nat} {keep : Nat → Bool}
variable {t : UniqueTable α}

/-- Dropping part of one chain and linking the rest keeps the chains in order. -/
theorem Linked.shrink {u : UniqueTable α} (h : t.Linked loose chain) {bucket : Nat}
    (hbucket : bucket < t.buckets.size) (hsize : u.buckets.size = t.buckets.size)
    (hstored : t.Loses u fun index => index ∈ chain bucket ∧ keep index = false)
    (hchain : IsChain u.link? (u.head bucket) ((chain bucket).filter keep))
    (hheads : ∀ other, other ≠ bucket → u.head other = t.head other)
    (hlinks : ∀ index, index ∉ chain bucket → u.link? index = t.link? index) :
    u.Linked loose (update chain bucket ((chain bucket).filter keep)) := by
  have hbucketOf : u.bucketOf = t.bucketOf := by
    funext v
    simp only [bucketOf, hsize]
  -- a cell is on the chain of one bucket only
  have hsame : ∀ {index b b'}, b < t.buckets.size → b' < t.buckets.size → index ∈ chain b →
      index ∈ chain b' → b = b' := by
    intro index b b' hb hb' hin hin'
    obtain ⟨-, v, hv, hvb⟩ := (h.mem_chain b hb index).1 hin
    obtain ⟨-, w, hw, hwb⟩ := (h.mem_chain b' hb' index).1 hin'
    rw [hv] at hw
    cases hw
    exact hvb.symm.trans hwb
  refine ⟨?_, ?_, ?_, ?_⟩
  · intro other hlt
    rw [hsize] at hlt
    by_cases heq : other = bucket
    · subst heq
      simpa only [update_self] using hchain
    · rw [update_of_ne heq, hheads other heq]
      exact (h.isChain other hlt).congr fun index hmem =>
        hlinks index fun hin => heq (hsame hlt hbucket hmem hin)
  · intro other hlt index
    rw [hsize] at hlt
    have hmem := h.mem_chain other hlt index
    have hstored' : (∃ v, u.stored? index = some v ∧ u.bucketOf v = other) ↔
        (∃ v, t.stored? index = some v ∧ t.bucketOf v = other) ∧
          ¬ (index ∈ chain bucket ∧ keep index = false) := by
      rw [hbucketOf, ← exists_and_right]
      exact exists_congr fun v => by rw [hstored index v, and_right_comm]
    rw [hstored', ← and_assoc, ← hmem]
    by_cases heq : other = bucket
    · subst heq
      simp +contextual [List.mem_filter]
    · rw [update_of_ne heq, iff_self_and]
      exact fun hin hout => heq (hsame hlt hbucket hin hout.1)
  · intro index hloose
    obtain ⟨v, hv⟩ := h.loose_stored index hloose
    refine ⟨v, (hstored index v).2 ⟨hv, fun hin => ?_⟩⟩
    exact ((h.mem_chain bucket hbucket index).1 hin.1).1 hloose
  · intro i j v hi hj hiv hjv
    exact h.distinct i j v hi hj ((hstored i v).1 hiv).1 ((hstored j v).1 hjv).1

theorem sweepBucket_run (keep : Nat → Bool) (ht : t.Layout) (h : t.Linked loose chain)
    {bucket : Nat} (hbucket : bucket < t.buckets.size) (sweep : Sweep) :
    ∃ sweep' u, sweepBucket keep sweep bucket t = .ok sweep' u ∧ u.Layout ∧
      u.Linked loose (update chain bucket ((chain bucket).filter keep)) ∧
      u.buckets.size = t.buckets.size ∧
      t.Loses u fun index => index ∈ chain bucket ∧ keep index = false := by
  have hchain := h.isChain bucket hbucket
  have hmem := h.mem_chain bucket hbucket
  have hstored : ∀ index ∈ chain bucket, ∃ v, t.stored? index = some v :=
    fun index hin => ((hmem index).1 hin).2.imp fun v hv => hv.1
  obtain ⟨sweep', w, hsweep, hwlayout, hwstored, hwlink, hwbuckets⟩ :=
    sweepChain_run keep ht hchain hstored
      (Nat.le_trans (h.length_chain_le hbucket) (Nat.le_mul_of_pos_left _ Nat.two_pos)) [] sweep
  rw [List.append_nil] at hsweep
  obtain ⟨x, hset, hxlayout, hxstored, hxlink, hxhead, hxsize⟩ :=
    setHead_run hwlayout (hwbuckets ▸ hbucket) (((chain bucket).filter keep).headD 0)
  have hfilter : ∀ index ∈ (chain bucket).filter keep, index ∈ chain bucket :=
    fun index hin => (List.mem_filter.1 hin).1
  have hlinks : ∀ index ∈ (chain bucket).filter keep, ∃ next, x.link? index = some next := by
    intro index hin
    obtain ⟨v, hv⟩ := hstored index (hfilter index hin)
    obtain ⟨-, c, hcell, -⟩ := stored?_eq_some.1 hv
    rw [hxlink, hwlink]
    exact ⟨c.next, by simp [link?, hcell]⟩
  obtain ⟨u, hlinked, hlayout, hustored, huchain, hulink, hubuckets⟩ :=
    linkChain_run hxlayout
      (fun index hin => hchain.ne_zero_of_mem (hfilter index hin)) hlinks
      (hchain.nodup.filter _)
  have hsize : u.buckets.size = t.buckets.size := by rw [hubuckets, hxsize, hwbuckets]
  have hhead : u.head = update t.head bucket (((chain bucket).filter keep).headD 0) := by
    have hxu : u.head = x.head := funext fun _ => by simp only [head, hubuckets]
    have hwt : w.head = t.head := funext fun _ => by simp only [head, hwbuckets]
    rw [hxu, hxhead, hwt]
  have hustored' : t.Loses u fun index => index ∈ chain bucket ∧ keep index = false := by
    intro index v
    rw [hustored, hxstored, hwstored]
  refine ⟨sweep', u, ?_, hlayout, ?_, hsize, hustored'⟩
  · have hrun : sweepBucket keep sweep bucket t = (do
        let swept ← sweepChain keep (2 * t.cells.size) (t.head bucket) [] sweep
        setHead bucket (swept.1.reverse.headD 0)
        linkChain swept.1.reverse
        return swept.2) t := rfl
    rw [hrun, run_bind hsweep]
    simp only [List.reverse_reverse]
    rw [run_bind hset, run_bind hlinked]
    rfl
  · refine h.shrink hbucket hsize hustored' ?_ (fun other hne => ?_) fun index hout => ?_
    · rw [hhead, update_self]
      exact huchain
    · rw [hhead, update_of_ne hne]
    · rw [hulink index fun hin => hout (hfilter index hin), hxlink, hwlink]

/-- The chains of a list of buckets are swept one after the other. -/
private theorem sweepBuckets_run (keep : Nat → Bool) (buckets : List Nat) (ht : t.Layout)
    (h : t.Linked loose chain) (hbuckets : ∀ bucket ∈ buckets, bucket < t.buckets.size)
    (sweep : Sweep) :
    ∃ sweep' u, buckets.foldlM (sweepBucket keep) sweep t = .ok sweep' u ∧ u.Consed loose ∧
      t.Loses u fun index => (∃ bucket ∈ buckets, index ∈ chain bucket) ∧ keep index = false := by
  induction buckets generalizing t chain sweep with
  | nil => exact ⟨sweep, t, rfl, ⟨ht, chain, h⟩, by simpa using Loses.refl t⟩
  | cons bucket rest ih =>
      obtain ⟨first, w, hfirst, hwlayout, hwlinked, hwsize, hwstored⟩ :=
        sweepBucket_run keep ht h (hbuckets bucket List.mem_cons_self) sweep
      obtain ⟨sweep', u, hrun, hconsed, hstored⟩ :=
        ih hwlayout hwlinked
          (fun other hmem => hwsize ▸ hbuckets other (List.mem_cons_of_mem _ hmem)) first
      refine ⟨sweep', u, ?_, hconsed, (hwstored.trans hstored).congr fun index v _ => ?_⟩
      · rw [List.foldlM_cons, run_bind hfirst, hrun]
      · -- the rest of the walk finds this chain without the cells that are gone already
        have hmem : keep index = false → index ∉ chain bucket →
            ∀ other, index ∈ update chain bucket ((chain bucket).filter keep) other ↔
              index ∈ chain other := by
          intro hkeep hout other
          by_cases heq : other = bucket
          · subst heq
            simp [hout]
          · rw [update_of_ne heq]
        by_cases hkeep : keep index = false <;> by_cases hin : index ∈ chain bucket
        · simp [hkeep, hin]
        · simp [hkeep, hin, hmem hkeep hin]
        · simp [hkeep]
        · simp [hkeep]

omit [Hashable α] in
theorem mem_chainedBuckets {bound bucket : Nat} {rest : List Nat} :
    bucket ∈ t.chainedBuckets bound rest ↔
      bucket < bound ∧ t.head bucket ≠ 0 ∨ bucket ∈ rest := by
  induction bound generalizing rest with
  | zero => simp [chainedBuckets]
  | succ bound ih =>
      rw [chainedBuckets, ih]
      by_cases hhead : t.head bound = 0
      · rw [if_pos hhead]
        have : bucket = bound → t.head bucket = 0 := fun heq => heq ▸ hhead
        grind
      · rw [if_neg hhead, List.mem_cons]
        have : bucket = bound → t.head bucket ≠ 0 := fun heq => heq ▸ hhead
        grind

/-- The buckets that have a chain have every stored value that is not loose on one of them. -/
theorem Linked.mem_chained (h : t.Linked loose chain) (ht : t.Layout) (index : Nat) :
    (∃ bucket ∈ t.chainedBuckets t.buckets.size [], index ∈ chain bucket) ↔
      ¬ loose index ∧ ∃ v, t.stored? index = some v := by
  have hchained : ∀ bucket, bucket ∈ t.chainedBuckets t.buckets.size [] ↔
      bucket < t.buckets.size ∧ t.head bucket ≠ 0 := fun bucket => by simp [mem_chainedBuckets]
  constructor
  · rintro ⟨bucket, hbucket, hin⟩
    obtain ⟨hstrict, v, hv, -⟩ := (h.mem_chain bucket ((hchained bucket).1 hbucket).1 index).1 hin
    exact ⟨hstrict, v, hv⟩
  · rintro ⟨hstrict, v, hv⟩
    have hlt := bucketOf_lt ht v
    have hin := (h.mem_chain _ hlt index).2 ⟨hstrict, v, hv, rfl⟩
    refine ⟨t.bucketOf v, (hchained _).2 ⟨hlt, fun hhead => ?_⟩, hin⟩
    have hchain := h.isChain _ hlt
    rw [hhead] at hchain
    have hempty : chain (t.bucketOf v) = [] := hchain.unique rfl
    simp [hempty] at hin

/-- A sweep drops the cells that are neither loose nor kept, and nothing else. -/
theorem retain_run (ht : t.Consed loose) (keep : Nat → Bool) :
    ∃ sweep u, retain keep t = .ok sweep u ∧ u.Consed loose ∧
      t.Loses u fun index => ¬ loose index ∧ keep index = false := by
  obtain ⟨hlayout, chain, h⟩ := ht
  have hbuckets : ∀ bucket ∈ t.chainedBuckets t.buckets.size [], bucket < t.buckets.size := by
    intro bucket hmem
    simpa using (mem_chainedBuckets.1 hmem).elim And.left (by simp)
  obtain ⟨sweep, u, hrun, hconsed, hstored⟩ :=
    sweepBuckets_run keep _ hlayout h hbuckets ⟨[], 0⟩
  refine ⟨sweep, u, hrun, hconsed, hstored.congr fun index v hv => ?_⟩
  rw [h.mem_chained hlayout index, and_assoc, and_congr_right_iff]
  exact fun _ => and_iff_right ⟨v, hv⟩

end Sweep

end UniqueTable

end SymbolicOmega
