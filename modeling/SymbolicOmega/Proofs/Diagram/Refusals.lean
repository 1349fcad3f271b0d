import Mathlib.Order.Interval.Finset.Nat
import SymbolicOmega.Proofs.Diagram.Histories

/-!
# Refused requests

A table that has no cell for a value refuses it and leaves its cells, its chains and their count
alone.  Only the last index moves, at the first refusal of a history: it then lies one place
behind the last cell.  From then on the search of a full table runs off the end of the array
before it finds the table full, so each later refusal has another cause than the first, and it
changes nothing at all.  How many values there is room for is counted rightly all the time.
-/

namespace SymbolicOmega

namespace UniqueTable

open Function

variable {α : Type} {t u : UniqueTable α} {index : Nat} {v : α} {loose : Nat → Prop}
variable {refused : Bool}

/-- Where the last index is: at the last cell, or behind it once a request was refused. -/
def Marked (t : UniqueTable α) : (refused : Bool) → Prop
  | false => t.lastIndex + 1 = t.cells.size
  | true => t.lastIndex = t.capacity ∧ t.cells.size = t.capacity

/-- The table after a request was refused. -/
def overrun (t : UniqueTable α) : UniqueTable α :=
  { t with lastIndex := t.capacity }

/-- Why a request is refused: the first of a history because the table is full, any other because
the search for a cell leaves the array. -/
def refusal (refused : Bool) : Fault :=
  if refused then .indexOutOfRange else .storageFull

theorem overrun_of_marked (h : t.Marked true) : t.overrun = t := by
  obtain ⟨cells, capacity, buckets, minFree, lastIndex, occupied⟩ := t
  obtain rfl : lastIndex = capacity := h.1
  rfl

theorem Marked.of_modify (h : t.Marked refused) (index : Nat) (f : Cell α → Cell α)
    (minFree occupied : Nat) :
    Marked { t with cells := t.cells.modify index f, minFree, occupied } refused := by
  cases refused <;> simpa [Marked] using h

theorem updateCell_marked (index : Nat) (change : Cell α → Cell α) :
    Upholds (Marked · refused) (updateCell index change) := by
  intro t ht
  unfold Outcome updateCell
  cases t.cell index with
  | error fault => exact ht
  | ok c => exact ht.of_modify index change _ _

theorem setHead_marked (bucket index : Nat) :
    Upholds (Marked (α := α) · refused) (setHead bucket index) := fun _ ht => ht

theorem drop_marked (index : Nat) : Upholds (Marked (α := α) · refused) (drop index) := by
  intro t ht
  unfold Outcome drop
  cases t.cell index with
  | error fault => exact ht
  | ok c =>
      cases hoccupied : c.occupied with
      | false => simpa only [hoccupied, Bool.false_eq_true, if_false] using ht
      | true =>
          simp only [hoccupied, if_true]
          exact ht.of_modify index _ _ _

/-- A sweep leaves the last index where it is. -/
theorem retain_marked (keep : Nat → Bool) : Upholds (Marked (α := α) · refused) (retain keep) :=
  retain_upholds drop_marked (fun index _ => updateCell_marked index _) setHead_marked keep

section Alloc
variable [Inhabited α]

/-- A request is refused by a full table, for the cause that its last index tells, and moves
nothing but that index. -/
theorem alloc_refusal (ht : t.Layout) (hpacked : t.Packed) (hmarked : t.Marked refused) :
    Outcome alloc t (fun _ u => ¬ t.Full ∧ u.Marked refused)
      (fun fault u => t.Full ∧ u = t.overrun ∧ u.Marked true ∧ fault = refusal refused) := by
  have hlowest := alloc_lowestFree ht hpacked
  have hsize := ht.size_le
  have hminFree := hpacked.minFree_le ht
  obtain ⟨stop, -, hpassed, hend⟩ :=
    firstFree?_passes t.cells t.minFree (t.lastIndex + 1 - t.minFree)
  unfold Outcome alloc at hlowest ⊢
  cases hfound : firstFree? t.cells t.minFree (t.lastIndex + 1 - t.minFree) with
  | error fault =>
      rw [hfound] at hend hlowest
      obtain rfl := firstFree?_error hfound
      cases refused with
      | false =>
          -- while no request was refused the search stays within the array
          have hlast : t.lastIndex + 1 = t.cells.size := hmarked
          omega
      | true => exact ⟨hlowest.1, (overrun_of_marked hmarked).symm, hmarked, rfl⟩
  | ok found =>
      cases found with
      | some index =>
          rw [hfound] at hlowest
          obtain ⟨c, hcell, hfree⟩ := firstFree?_eq_some hfound
          have hlt := (Array.getElem?_eq_some_iff.1 hcell).1
          have hroom : ¬ t.capacity ≤ index := by omega
          simp only [Option.getD_some, Option.isSome_some, hroom, hlt, if_false, if_true]
            at hlowest ⊢
          exact ⟨hlowest.1.not_full (Nat.lt_of_not_le hroom), hmarked.of_modify index _ _ _⟩
      | none =>
          rw [hfound] at hend hlowest
          cases refused with
          | true =>
              -- the search would have passed the end of the array
              obtain ⟨hlast, hcells⟩ : t.lastIndex = t.capacity ∧ t.cells.size = t.capacity :=
                hmarked
              obtain ⟨c, hcell, -⟩ := hpassed t.capacity (by omega) (by omega)
              have hlt := (Array.getElem?_eq_some_iff.1 hcell).1
              omega
          | false =>
              have hlast : t.lastIndex + 1 = t.cells.size := hmarked
              by_cases hroom : t.capacity ≤ t.lastIndex + 1
              · have hcapacity : t.lastIndex + 1 = t.capacity := by omega
                simp only [Option.getD_none, Option.isSome_none, Bool.false_eq_true, if_false,
                  hroom, if_true] at hlowest ⊢
                refine ⟨hlowest.1, ?_, ⟨hcapacity, hlast.symm.trans hcapacity⟩, rfl⟩
                rw [overrun, hcapacity]
              · have hnew : ¬ t.lastIndex + 1 < t.cells.size := by omega
                simp only [Option.getD_none, Option.isSome_none, Bool.false_eq_true, if_false,
                  hroom, hnew] at hlowest ⊢
                refine ⟨hlowest.1.not_full (Nat.lt_of_not_le hroom), ?_⟩
                simpa [Marked] using hlast

/-- A value that is added is counted, unless the table is full. -/
theorem add_refusal (ht : t.Layout) (hpacked : t.Packed) (hmarked : t.Marked refused) (v : α) :
    Outcome (add v) t
      (fun _ u => ¬ t.Full ∧ u.Marked refused ∧ u.occupied = t.occupied + 1 ∧
        u.capacity = t.capacity)
      (fun fault u => t.Full ∧ u = t.overrun ∧ u.Marked true ∧ fault = refusal refused) := by
  have halloc := ((alloc_outcome ht).and (alloc_refusal ht hpacked hmarked)).and
    ((alloc_occupied t).and (alloc_capacity t rfl))
  apply Outcome.andThen (halloc.mono (fun _ _ hend => hend) fun _ _ hend => hend.1.2)
  rintro index u ⟨⟨htaken, hfull, hmarked'⟩, hoccupied, hcapacity⟩
  obtain ⟨c, hcell, -⟩ := htaken.occupied
  apply Outcome.bind
  simp only [Outcome, updateCell, cell, htaken.pos, if_false, hcell]
  exact ⟨hfull, hmarked'.of_modify index _ _ _, hoccupied, hcapacity⟩

end Alloc

/-- How many more values can be stored.  The sentry takes one of the cells. -/
def room (t : UniqueTable α) : Nat :=
  t.capacity - 1 - t.occupied

/-- The stored values are at places between the sentry and the capacity. -/
theorem population_subset (ht : t.Layout) : t.population ⊆ Finset.Ico 1 t.capacity := by
  intro index hmem
  obtain ⟨w, hw⟩ := mem_population.1 hmem
  have hpos := (stored?_eq_some.1 hw).1
  have hlt := lt_size_of_stored hw
  have hle := ht.size_le
  exact Finset.mem_Ico.2 ⟨by omega, by omega⟩

theorem Tallied.occupied_le (h : t.Tallied) : t.occupied ≤ t.capacity - 1 := by
  have hcard := Finset.card_le_card (population_subset h.1)
  rw [Nat.card_Ico] at hcard
  exact h.2.trans_le hcard

/-- A table is full exactly when its count says so. -/
theorem Tallied.full_iff (h : t.Tallied) : t.Full ↔ t.room = 0 := by
  have hsubset := population_subset h.1
  have hcard : t.room = (Finset.Ico 1 t.capacity).card - t.population.card := by
    rw [room, h.2, Nat.card_Ico]
  rw [hcard, Nat.sub_eq_zero_iff_le]
  constructor
  · intro hfull
    refine Finset.card_le_card fun index hmem => mem_population.2 ?_
    obtain ⟨hpos, hlt⟩ := Finset.mem_Ico.1 hmem
    exact hfull index (by omega) hlt
  · intro hle index hpos hlt
    rw [← mem_population, Finset.eq_of_subset_of_card_le hsubset hle]
    exact Finset.mem_Ico.2 ⟨by omega, hlt⟩

/-! ## Requests -/

/-- What may need a cell: a value that is stored outside every chain, and one that is put. -/
inductive Request (α : Type) where
  | add (v : α)
  | put (v : α)

namespace Request

variable [DecidableEq α] [Hashable α] [Inhabited α]

def run : Request α → TableM α Nat
  | add v => UniqueTable.add v
  | put v => UniqueTable.put v

/-- The loose cells after the request was answered by `index`. -/
def loosens (loose : Nat → Prop) (index : Nat) : Request α → Nat → Prop
  | add _ => fun other => loose other ∨ other = index
  | put _ => loose

end Request

/-- A value that is added always needs a cell, one that is put if no chain holds it. -/
def NeedsCell (t : UniqueTable α) (loose : Nat → Prop) : Request α → Prop
  | .add _ => True
  | .put v => ∀ index, ¬ loose index → t.stored? index ≠ some v

/-- What a refusal does: the table is full, and all that changes is the last index, if no request
was refused before. -/
structure Refusal (t u : UniqueTable α) (loose : Nat → Prop) (refused : Bool)
    (request : Request α) (fault : Fault) : Prop where
  needsCell : t.NeedsCell loose request
  full : t.room = 0
  spared : u = t.overrun
  cause : fault = refusal refused

/-- What an answer does: a value that needs a cell takes one, any other changes nothing. -/
structure Answer (t u : UniqueTable α) (loose : Nat → Prop) (request : Request α) : Prop where
  takes : t.NeedsCell loose request → u.room + 1 = t.room
  finds : ¬ t.NeedsCell loose request → u = t

section History
variable [Hashable α]

/-- A table whose chains, counts and last index are in order. -/
structure Sound (t : UniqueTable α) (loose : Nat → Prop) (refused : Bool) : Prop where
  consed : t.Consed loose
  tallied : t.Tallied
  packed : t.Packed
  marked : t.Marked refused

theorem Sound.room_of_occupied (h : t.Sound loose refused) (hfull : ¬ t.Full)
    (hoccupied : u.occupied = t.occupied + 1) (hcapacity : u.capacity = t.capacity) :
    u.room + 1 = t.room := by
  rw [h.tallied.full_iff] at hfull
  simp only [room] at hfull ⊢
  omega

theorem Sound.overrun (h : t.Sound loose refused) (hmarked : t.overrun.Marked true) :
    t.overrun.Sound loose true := by
  have hlayout := h.consed.layout
  have hoverrun : t.overrun.Layout :=
    ⟨hlayout.buckets_pos, hlayout.buckets_lt, hlayout.sentry, hlayout.size_le,
      Or.inr ⟨hmarked.2, hmarked.1.ge⟩⟩
  exact ⟨h.consed.congr hoverrun ⟨rfl, rfl⟩, ⟨hoverrun, h.tallied.2⟩, h.packed, hmarked⟩

/-- A cell that is taken outside every chain is loose. -/
theorem Added.consed (h : t.Added u index v) (ht : t.Consed loose) :
    u.Consed fun other => loose other ∨ other = index := by
  obtain ⟨hlayout, chain, hlinked⟩ := ht
  have hbucket : u.bucketOf = t.bucketOf := by
    funext w
    simp only [bucketOf, h.buckets]
  have hstored : ∀ other, other ≠ index → u.stored? other = t.stored? other := by
    intro other hother
    rw [h.stored, update_of_ne hother]
  refine ⟨h.layout, chain, ?_, ?_, ?_, ?_⟩
  · intro bucket hlt
    rw [h.buckets] at hlt
    have hfresh := hlinked.not_mem_of_free hlt h.free
    rw [head, h.buckets]
    refine (hlinked.isChain bucket hlt).congr fun other hmem => ?_
    have hother : other ≠ index := fun heq => hfresh (heq ▸ hmem)
    rw [h.link, update_of_ne hother]
  · intro bucket hlt other
    rw [h.buckets] at hlt
    have hmem := hlinked.mem_chain bucket hlt other
    by_cases hother : other = index
    · simpa [hother] using hlinked.not_mem_of_free hlt h.free
    · simpa [hother, hstored other hother, hbucket] using hmem
  · rintro other (hloose | rfl)
    · have hother : other ≠ index := by
        rintro rfl
        exact hlinked.strict_of_free h.free hloose
      rw [hstored other hother]
      exact hlinked.loose_stored other hloose
    · exact ⟨v, by rw [h.stored, update_self]⟩
  · intro i j w hi hj hiw hjw
    rw [not_or] at hi hj
    rw [hstored i hi.2] at hiw
    rw [hstored j hj.2] at hjw
    exact hlinked.distinct i j w hi.1 hj.1 hiw hjw

variable [DecidableEq α] [Inhabited α]

omit [DecidableEq α] in
theorem Sound.add (h : t.Sound loose refused) (v : α) :
    Outcome (add v) t
      (fun index u => u.Sound (fun other => loose other ∨ other = index) refused ∧
        u.room + 1 = t.room)
      (fun fault u => t.Full ∧ u = t.overrun ∧ u.Marked true ∧ fault = refusal refused) := by
  have hlayout := h.consed.layout
  have hadd := add_refusal hlayout h.packed h.marked v
  have hkept := ((add_outcome hlayout v).and (add_tallied v t h.tallied)).and
    (add_lowestFree hlayout h.packed v)
  apply (hkept.and hadd).mono _ fun _ _ hend => hend.2
  rintro index u ⟨⟨⟨hadded, htallied⟩, hlowest, hminFree⟩, hfull, hmarked, hoccupied, hcapacity⟩
  have hstored : u.stored? index = some v := by rw [hadded.stored, update_self]
  have hpacked : u.Packed := hlowest.packed hstored
    (fun other hother => by rw [hadded.stored, update_of_ne hother]) hminFree
  exact ⟨⟨hadded.consed h.consed, htallied, hpacked, hmarked⟩,
    h.room_of_occupied hfull hoccupied hcapacity⟩

/-- What a put does to the room and the last index. -/
private theorem put_refusal (h : t.Sound loose refused) (v : α) :
    Outcome (put v) t
      (fun _ u => u.Marked refused ∧
        ((∃ index, ¬ loose index ∧ t.stored? index = some v) ∧ u = t ∨
          t.NeedsCell loose (.put v) ∧ u.room + 1 = t.room))
      (fun fault u => t.NeedsCell loose (.put v) ∧ t.Full ∧ u = t.overrun ∧ u.Marked true ∧
        fault = refusal refused) := by
  refine put_links h.consed v (fun index hstrict hstored =>
    ⟨h.marked, Or.inl ⟨⟨index, hstrict, hstored⟩, rfl⟩⟩) fun hnew => ?_
  apply (add_refusal h.consed.layout h.packed h.marked v).mono _ fun _ _ hend => ⟨hnew, hend⟩
  rintro index u ⟨hfull, hmarked, hoccupied, hcapacity⟩ w hlink
  have hkept : w.Marked refused ∧ w.occupied = u.occupied ∧ w.capacity = u.capacity := by
    rcases hlink with ⟨bucket, hset⟩ | ⟨last, hset⟩
    · cases hset
      exact ⟨hmarked, rfl, rfl⟩
    · exact ⟨(updateCell_marked last _ u hmarked).of_ok hset,
        (updateCell_occupied last _ _ u rfl).of_ok hset,
        (updateCell_capacity last _ u rfl).of_ok hset⟩
  exact ⟨hkept.1, Or.inr ⟨hnew,
    h.room_of_occupied hfull (hkept.2.1.trans hoccupied) (hkept.2.2.trans hcapacity)⟩⟩

/-- One request: it is answered, and takes room if it needs a cell, or it is refused for want of
room. -/
theorem Sound.request (h : t.Sound loose refused) (request : Request α) :
    Outcome request.run t
      (fun index u => u.Sound (request.loosens loose index) refused ∧ t.Answer u loose request)
      (fun fault u => u.Sound loose true ∧ t.Refusal u loose refused request fault) := by
  have hrefused : ∀ {fault : Fault} {u : UniqueTable α}, t.NeedsCell loose request →
      t.Full ∧ u = t.overrun ∧ u.Marked true ∧ fault = refusal refused →
      u.Sound loose true ∧ t.Refusal u loose refused request fault := by
    rintro fault u hneeds ⟨hfull, rfl, hmarked, hcause⟩
    exact ⟨h.overrun hmarked, hneeds, h.tallied.full_iff.1 hfull, rfl, hcause⟩
  cases request with
  | add v =>
      exact (h.add v).mono
        (fun _ _ hend => ⟨hend.1, fun _ => hend.2, fun hneeds => absurd trivial hneeds⟩)
        fun _ _ hend => hrefused trivial hend
  | put v =>
      have hkept := ((put_outcome (v := v) h.consed).and (put_packed h.consed h.packed v)).and
        (put_tallied v t h.tallied)
      apply (hkept.and (put_refusal h v)).mono _ fun _ _ hend => hrefused hend.2.1 hend.2.2
      rintro index u ⟨⟨⟨hput, hpacked⟩, htallied⟩, hmarked, hchange⟩
      refine ⟨⟨hput.consed, htallied, hpacked, hmarked⟩, ?_⟩
      rcases hchange with ⟨⟨other, hstrict, hstored⟩, rfl⟩ | ⟨hneeds, hroom⟩
      · exact ⟨fun hneeds => absurd hstored (hneeds other hstrict), fun _ => rfl⟩
      · exact ⟨fun _ => hroom, fun hknown => absurd hneeds hknown⟩

omit [DecidableEq α] [Inhabited α] in
/-- A sweep makes room for as many values as it drops. -/
theorem Sound.retain (h : t.Sound loose refused) (keep : Nat → Bool) :
    ∃ sweep u, retain keep t = .ok sweep u ∧ u.Sound loose refused ∧
      u.room = t.room + sweep.dropped := by
  obtain ⟨sweep, u, hrun, hconsed, -⟩ := retain_run h.consed keep
  obtain ⟨htallied, htotal⟩ := retain_tallied keep h.tallied hrun
  have hcapacity := (retain_capacity keep t rfl).of_ok hrun
  have hle := h.tallied.occupied_le
  refine ⟨sweep, u, hrun, ⟨hconsed, htallied, (retain_packed keep t h.packed).of_ok hrun,
    (retain_marked keep t h.marked).of_ok hrun⟩, ?_⟩
  simp only [room]
  omega

/-! ## Histories -/

/-- The tables that come of a new one by requests and sweeps, with the cells that are loose and
whether a request was refused so far. -/
inductive Worked (bits : Nat) : (loose : Nat → Prop) → (refused : Bool) → UniqueTable α → Prop where
  | new {t : UniqueTable α} (hnew : ofBits bits = .ok t) : Worked bits (fun _ => False) false t
  | answered {loose : Nat → Prop} {refused : Bool} {t u : UniqueTable α} {index : Nat}
      (request : Request α) (h : Worked bits loose refused t)
      (hrun : request.run t = .ok index u) : Worked bits (request.loosens loose index) refused u
  | refused {loose : Nat → Prop} {refused : Bool} {t u : UniqueTable α} {fault : Fault}
      (request : Request α) (h : Worked bits loose refused t)
      (hrun : request.run t = .error fault u) : Worked bits loose true u
  | swept {loose : Nat → Prop} {refused : Bool} {t u : UniqueTable α} {sweep : Sweep}
      (keep : Nat → Bool) (h : Worked bits loose refused t)
      (hrun : UniqueTable.retain keep t = .ok sweep u) : Worked bits loose refused u

omit [DecidableEq α] in
theorem ofBits_sound {bits : Nat} (hnew : ofBits bits = .ok t) :
    t.Sound (fun _ => False) false := by
  have haccounts := ofBits_accounts hnew
  have hloose : IsReserved false = fun _ => False := by
    funext index
    simp [IsReserved]
  refine ⟨hloose ▸ haccounts.consed, haccounts.tallied, haccounts.packed, ?_⟩
  rw [ofBits] at hnew
  split at hnew
  · cases hnew
    rfl
  · cases hnew

theorem Worked.sound {bits : Nat} (h : Worked bits loose refused t) : t.Sound loose refused := by
  induction h with
  | new hnew => exact ofBits_sound hnew
  | answered request _ hrun ih => exact ((ih.request request).of_ok hrun).1
  | refused request _ hrun ih => exact ((ih.request request).of_error hrun).1
  | swept keep _ hrun ih =>
      obtain ⟨sweep, u, hrun', hsound, -⟩ := ih.retain keep
      rw [hrun] at hrun'
      cases hrun'
      exact hsound

/-- `u` comes of `t` by requests alone, so that no cell was freed.  Of these `count` needed a cell
and got one. -/
inductive Fills (loose : Nat → Prop) (t : UniqueTable α) :
    (count : Nat) → (loose' : Nat → Prop) → (u : UniqueTable α) → Prop where
  | refl : Fills loose t 0 loose t
  | stored {count index : Nat} {loose' : Nat → Prop} {u w : UniqueTable α} (request : Request α)
      (h : Fills loose t count loose' u) (hneeds : u.NeedsCell loose' request)
      (hrun : request.run u = .ok index w) :
      Fills loose t (count + 1) (request.loosens loose' index) w
  | found {count index : Nat} {loose' : Nat → Prop} {u w : UniqueTable α} (request : Request α)
      (h : Fills loose t count loose' u) (hknown : ¬ u.NeedsCell loose' request)
      (hrun : request.run u = .ok index w) : Fills loose t count (request.loosens loose' index) w
  | refused {count : Nat} {fault : Fault} {loose' : Nat → Prop} {u w : UniqueTable α}
      (request : Request α) (h : Fills loose t count loose' u)
      (hrun : request.run u = .error fault w) : Fills loose t count loose' w

/-- What is stored is taken from the room that was there, and a refusal gives none of it back. -/
theorem Fills.room_eq {count : Nat} {loose' : Nat → Prop} (h : Fills loose t count loose' u)
    (ht : t.Sound loose refused) : (∃ refused', u.Sound loose' refused') ∧ u.room + count = t.room := by
  induction h with
  | refl => exact ⟨⟨refused, ht⟩, rfl⟩
  | stored request _ hneeds hrun ih =>
      obtain ⟨⟨refused', hsound⟩, hroom⟩ := ih
      obtain ⟨hsound', hanswer⟩ := (hsound.request request).of_ok hrun
      have htakes := hanswer.takes hneeds
      exact ⟨⟨refused', hsound'⟩, by omega⟩
  | found request _ hknown hrun ih =>
      obtain ⟨⟨refused', hsound⟩, hroom⟩ := ih
      obtain ⟨hsound', hanswer⟩ := (hsound.request request).of_ok hrun
      exact ⟨⟨refused', hsound'⟩, hanswer.finds hknown ▸ hroom⟩
  | refused request _ hrun ih =>
      obtain ⟨⟨refused', hsound⟩, hroom⟩ := ih
      obtain ⟨hsound', hrefusal⟩ := (hsound.request request).of_error hrun
      exact ⟨⟨true, hsound'⟩, hrefusal.spared ▸ hroom⟩

/-- Refused requests.  After every history of values added and put and of sweeps a request either
is answered, and takes room for one value if it needs a cell, or is refused because there is no
room.  Then no cell, chain or bucket changes and no count, but the last index, which lay at the last
cell, lies behind it from the first refusal on, and every later refusal has another cause than the
first.  A sweep makes room for what it drops, and while no cell is freed exactly as many new values
are stored as there was room for. -/
theorem worked_refusals {bits : Nat} (h : Worked bits loose refused t) :
    t.Marked refused ∧
      (∀ request, Outcome (Request.run request) t (fun _ u => t.Answer u loose request)
        (fun fault u => t.Refusal u loose refused request fault)) ∧
      (∀ keep, ∃ sweep u, retain keep t = .ok sweep u ∧ u.room = t.room + sweep.dropped) ∧
      ∀ count loose' u, Fills loose t count loose' u → u.room + count = t.room ∧
        ∀ request, u.NeedsCell loose' request →
          ((∃ index w, Request.run request u = .ok index w) ↔ count < t.room) := by
  have hsound := h.sound
  refine ⟨hsound.marked, fun request => ?_, fun keep => ?_, fun count loose' u hfills => ?_⟩
  · exact (hsound.request request).mono (fun _ _ hend => hend.2) fun _ _ hend => hend.2
  · obtain ⟨sweep, u, hrun, -, hroom⟩ := hsound.retain keep
    exact ⟨sweep, u, hrun, hroom⟩
  · obtain ⟨⟨refused', hsound'⟩, hroom⟩ := hfills.room_eq hsound
    refine ⟨hroom, fun request hneeds => ?_⟩
    have hrequest := hsound'.request request
    cases hrun : request.run u with
    | ok index w =>
        have htakes := (hrequest.of_ok hrun).2.takes hneeds
        exact iff_of_true ⟨index, w, rfl⟩ (by omega)
    | error fault w =>
        have hfull := (hrequest.of_error hrun).2.full
        exact iff_of_false (by simp) (by omega)

/-- A table of one cell, which holds 5, before anything was refused. -/
private def oneCell : UniqueTable Nat :=
  ⟨#[⟨0, 0, true⟩, ⟨5, 0, true⟩], 2, #[0, 1], 2, 1, 1⟩

/-- The same table after 6 was refused and 5 was swept away. -/
private def emptied : UniqueTable Nat :=
  ⟨#[⟨0, 0, true⟩, ⟨5, 0, false⟩], 2, #[0, 0], 1, 2, 0⟩

/-- The same table after 6 was stored at last. -/
private def refilled : UniqueTable Nat :=
  ⟨#[⟨0, 0, true⟩, ⟨6, 0, true⟩], 2, #[1, 0], 2, 2, 1⟩

private theorem oneCell_worked : Worked 1 (fun _ => False) false oneCell := by
  have hnew : ofBits 1 = .ok (⟨#[⟨0, 0, true⟩], 2, #[0, 0], 1, 0, 0⟩ : UniqueTable Nat) := rfl
  exact .answered (.put 5) (.new hnew) rfl

private theorem emptied_worked : Worked 1 (fun _ => False) true emptied := by
  have hrefused : Worked 1 (fun _ => False) true oneCell.overrun :=
    .refused (.put 6) oneCell_worked rfl
  have hswept : UniqueTable.retain (fun _ => false) oneCell.overrun = .ok ⟨[1], 1⟩ emptied := rfl
  exact .swept _ hrefused hswept

/-- The theorem at two moments of one history.  The first refusal moves the last index of a table
of one cell.  After a sweep there is room for one value, and the next refusal has another cause. -/
theorem oneCell_refusals :
    oneCell.Refusal oneCell.overrun (fun _ => False) false (.put 6) .storageFull ∧
      oneCell.overrun.lastIndex ≠ oneCell.lastIndex ∧
      Fills (fun _ => False) emptied 1 (fun _ => False) refilled ∧ emptied.room = 1 ∧
      refilled.room + 1 = emptied.room ∧
      refilled.Refusal refilled (fun _ => False) true (.add 7) .indexOutOfRange := by
  have hstored : (Request.put 6).run emptied = .ok 1 refilled := rfl
  have hneeds : emptied.NeedsCell (fun _ => False) (.put 6) := by
    rintro (_ | _ | index) - <;> simp [emptied, stored?, Option.filter]
  have hfills : Fills (fun _ => False) emptied 1 (fun _ => False) refilled :=
    .stored (.put 6) .refl hneeds hstored
  have hfirst := worked_refusals oneCell_worked
  have hemptied := worked_refusals emptied_worked
  have hlast := worked_refusals (emptied_worked.answered (.put 6) hstored)
  exact ⟨(hfirst.2.1 (.put 6)).of_error rfl, by decide, hfills, rfl,
    (hemptied.2.2.2 1 _ refilled hfills).1, (hlast.2.1 (.add 7)).of_error rfl⟩

end History

end UniqueTable

end SymbolicOmega
