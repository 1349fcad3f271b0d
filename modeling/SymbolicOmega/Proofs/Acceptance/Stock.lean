import SymbolicOmega.Proofs.Acceptance.References
import SymbolicOmega.Proofs.Letters.Bookkeeping

/-!
# The stock of sets of transitions

The labels of a set of transitions stay on the books as long as there is a reference to the set, and
no longer.  References are made by creating, copying and sharing a set; letting go of one never
fails, and the last of them gives the labels back.
-/

namespace SymbolicOmega

open Workspace

variable {S : Type}

namespace Workspace

/-- The factory at position `i` holds the roots of `sets` and those of the labels of each set in
`stock`, and no others.  In stock is what there are references to, and these are all the holders
that there are. -/
structure Stocks (w : Workspace) (i : Nat) (sets : List LetterSet)
    (stock references : List (TransitionSet S)) : Prop where
  books : w.Books i (w.holders, w.nextTicket) (sets ++ stock.flatMap TransitionSet.handles)
  tickets : (stock.map TransitionSet.ticket).Nodup
  issued : ∀ set ∈ stock, set.ticket < w.nextTicket
  owner : ∀ set ∈ stock, set.owner = i
  referred : ∀ set, set ∈ stock ↔ set ∈ references
  holders : w.holders.Perm (references.map TransitionSet.ticket)

/-- The factory at position `i` holds what the sets and the references call for. -/
def Balanced (w : Workspace) (i : Nat) (sets : List LetterSet)
    (references : List (TransitionSet S)) : Prop :=
  ∃ stock, w.Stocks i sets stock references

variable {β : Type} {w w' : Workspace} {i : Nat} {tickets : List Nat × Nat}
variable {sets sets' : List LetterSet} {stock references references' : List (TransitionSet S)}
variable {set : TransitionSet S}

/-- Holders and tickets are nothing to the factories. -/
theorem Books.of_factories (h : w.Books i tickets sets) (hfactories : w'.factories = w.factories) :
    w'.Books i (w'.holders, w'.nextTicket) sets :=
  ⟨h.owner, hfactories ▸ h.holds, rfl⟩

namespace Stocks

/-- Each set in stock may be looked at as the first. -/
theorem front (h : w.Stocks i sets stock references) (hset : set ∈ stock) :
    ∃ others, w.Stocks i sets (set :: others) references := by
  obtain ⟨before, after, rfl⟩ := List.append_of_mem hset
  have hperm : (before ++ set :: after).Perm (set :: (before ++ after)) := List.perm_middle
  exact ⟨before ++ after, h.books.perm ((hperm.flatMap_right _).append_left sets),
    (hperm.map _).nodup_iff.1 h.tickets, fun _ hmem => h.issued _ (hperm.mem_iff.2 hmem),
    fun _ hmem => h.owner _ (hperm.mem_iff.2 hmem),
    fun other => hperm.mem_iff.symm.trans (h.referred other), h.holders⟩

/-- The sets in stock are told apart by their tickets. -/
theorem eq_of_ticket (h : w.Stocks i sets stock references) {other : TransitionSet S}
    (hset : set ∈ stock) (hother : other ∈ stock) (hticket : set.ticket = other.ticket) :
    set = other :=
  List.inj_on_of_nodup_map h.tickets hset hother hticket

/-- When a set has one reference, the other references are to the rest of the stock. -/
theorem others_iff {others : List (TransitionSet S)}
    (h : w.Stocks i sets (set :: others) (set :: references)) (hgone : set ∉ references)
    (other : TransitionSet S) : other ∈ others ↔ other ∈ references := by
  have hnot : set ∉ others := fun hmem =>
    (List.nodup_cons.1 h.tickets).1 (List.mem_map_of_mem hmem)
  have hiff := h.referred other
  constructor
  · intro hmem
    exact (List.mem_cons.1 (hiff.1 (List.mem_cons_of_mem set hmem))).resolve_left
      (ne_of_mem_of_not_mem hmem hnot)
  · intro hmem
    exact (List.mem_cons.1 (hiff.2 (List.mem_cons_of_mem set hmem))).resolve_left
      (ne_of_mem_of_not_mem hmem hgone)

/-- Other sets of letters may be on the books beside the stock. -/
theorem rebook (h : w.Stocks i sets stock references)
    (hw' : w'.Books i (w.holders, w.nextTicket)
      (sets' ++ stock.flatMap TransitionSet.handles)) :
    w'.Stocks i sets' stock references := by
  obtain ⟨hholders, hnext⟩ := Prod.mk.inj hw'.tickets
  exact ⟨hw'.of_factories rfl, h.tickets, hnext ▸ h.issued, h.owner, h.referred,
    hholders ▸ h.holders⟩

/-- A set with the next ticket comes into stock, with one reference. -/
theorem add (h : w.Stocks i sets stock references)
    (hbooks : w'.Books i (w.nextTicket :: w.holders, w.nextTicket + 1)
      (set.handles ++ (sets ++ stock.flatMap TransitionSet.handles)))
    (hticket : set.ticket = w.nextTicket) (howner : set.owner = i) :
    w'.Stocks i sets (set :: stock) (set :: references) := by
  obtain ⟨hholders, hnext⟩ := Prod.mk.inj hbooks.tickets
  have hbooks' : w'.Books i (w'.holders, w'.nextTicket)
      (sets ++ (set :: stock).flatMap TransitionSet.handles) :=
    (hbooks.perm (List.perm_append_comm_assoc ..)).of_factories rfl
  refine ⟨hbooks', List.nodup_cons.2 ⟨?_, h.tickets⟩, ?_,
    List.forall_mem_cons.2 ⟨howner, h.owner⟩, ?_, ?_⟩
  · intro hmem
    obtain ⟨other, hother, hsame⟩ := List.mem_map.1 hmem
    exact absurd (h.issued other hother) (by rw [hsame, hticket]; exact Nat.lt_irrefl _)
  · rw [hnext]
    exact List.forall_mem_cons.2 ⟨hticket ▸ Nat.lt_succ_self _,
      fun other hother => Nat.lt_succ_of_lt (h.issued other hother)⟩
  · exact fun other => by simp [h.referred other]
  · rw [hholders, List.map_cons, hticket]
    exact h.holders.cons _

end Stocks

namespace Balanced

theorem perm (h : w.Balanced i sets references) (hsets : sets.Perm sets')
    (hreferences : references.Perm references') : w.Balanced i sets' references' := by
  obtain ⟨stock, h⟩ := h
  exact ⟨stock, h.books.perm (hsets.append_right _), h.tickets, h.issued, h.owner,
    fun set => (h.referred set).trans hreferences.mem_iff, h.holders.trans (hreferences.map _)⟩

theorem owner (h : w.Balanced i sets references) : ∀ s ∈ sets, s.owner = i := by
  obtain ⟨stock, h⟩ := h
  exact fun s hs => h.books.owner s (List.mem_append_left _ hs)

theorem set_owner (h : w.Balanced i sets references) (hset : set ∈ references) :
    set.owner = i := by
  obtain ⟨stock, h⟩ := h
  exact h.owner set ((h.referred set).2 hset)

theorem handles_owner (h : w.Balanced i sets references) (hset : set ∈ references) :
    ∀ s ∈ set.handles, s.owner = i := by
  obtain ⟨stock, h⟩ := h
  exact fun s hs => h.books.owner s
    (List.mem_append_right _ (List.mem_flatMap.2 ⟨set, (h.referred set).2 hset, hs⟩))

/-- Trading sets of letters is nothing to the references. -/
theorem trade {x : WorkM β} {before failed : List LetterSet} {after : β → List LetterSet}
    (h : w.Balanced i (before ++ sets) references) (hx : Trades i x before after failed) :
    Outcome x w (fun b w' => w'.Balanced i (after b ++ sets) references)
      (fun fault w' => fault.Orderly ∧ w'.Balanced i (failed ++ sets) references) := by
  obtain ⟨stock, h⟩ := h
  have hbooks := h.books
  rw [List.append_assoc] at hbooks
  refine (hx w _ _ hbooks).mono (fun b w' hw' => ⟨stock, h.rebook ?_⟩) fun fault w' hend =>
    ⟨hend.1, stock, h.rebook ?_⟩
  · rwa [List.append_assoc]
  · rw [List.append_assoc]
    exact hend.2

/-- What is made comes beside what is held. -/
theorem gain {x : WorkM β} {failed : List LetterSet} {after : β → List LetterSet}
    (h : w.Balanced i sets references) (hx : Trades i x [] after failed) :
    Outcome x w (fun b w' => w'.Balanced i (after b ++ sets) references)
      (fun fault w' => fault.Orderly ∧ w'.Balanced i (failed ++ sets) references) :=
  have hnil : w.Balanced i ([] ++ sets) references := h
  hnil.trade hx

/-- A question is nothing to what is held. -/
theorem ask {x : WorkM β} (h : w.Balanced i sets references)
    (hx : ∀ tickets rest, Secures (fun w : Workspace => w.Books i tickets rest) Fault.Orderly x) :
    Outcome x w (fun _ w' => w'.Balanced i sets references)
      (fun fault w' => fault.Orderly ∧ w'.Balanced i sets references) :=
  h.gain (Trades.of_secures [] hx)

theorem create (h : w.Balanced i sets references) :
    ∃ (set : TransitionSet S) (w' : Workspace), TransitionSet.create i w = .ok set w' ∧
      w'.Balanced i sets (set :: references) := by
  obtain ⟨stock, h⟩ := h
  refine ⟨⟨w.nextTicket, i, []⟩, ⟨w.factories, w.nextTicket :: w.holders, w.nextTicket + 1⟩, rfl,
    _, h.add (h.books.of_factories rfl) rfl rfl⟩

theorem share (h : w.Balanced i sets references) (hset : set ∈ references) :
    ∃ w', set.share w = .ok () w' ∧ w'.Balanced i sets (set :: references) := by
  obtain ⟨stock, h⟩ := h
  refine ⟨_, rfl, stock, h.books.of_factories rfl, h.tickets, h.issued, h.owner, fun other => ?_,
    h.holders.cons _⟩
  rw [List.mem_cons, h.referred other]
  constructor
  · exact .inr
  · rintro (rfl | hother)
    · exact hset
    · exact hother

theorem shareAll {more : List (TransitionSet S)} :
    ∀ {w : Workspace} {references : List (TransitionSet S)}, w.Balanced i sets references →
      more ⊆ references → ∃ w', more.forM TransitionSet.share w = .ok PUnit.unit w' ∧
        w'.Balanced i sets (more ++ references) := by
  induction more with
  | nil => exact fun h _ => ⟨_, rfl, h⟩
  | cons set rest ih =>
      intro w references h hsub
      obtain ⟨hset, hrest⟩ := List.cons_subset.1 hsub
      obtain ⟨w₁, hshare, h₁⟩ := h.share hset
      obtain ⟨w₂, hrun, h₂⟩ := ih h₁ (fun _ hmem => List.mem_cons_of_mem set (hrest hmem))
      refine ⟨w₂, ?_, h₂.perm (.refl _) List.perm_middle⟩
      calc
        (set :: rest).forM TransitionSet.share w = rest.forM TransitionSet.share w₁ :=
          run_bind hshare
        _ = .ok PUnit.unit w₂ := hrun

/-- The last reference takes the set out of stock. -/
theorem letGo (h : w.Balanced i sets (set :: references)) :
    ∃ w', set.letGo w = .ok () w' ∧ w'.Balanced i sets references := by
  obtain ⟨stock, h⟩ := h
  obtain ⟨others, h⟩ := h.front ((h.referred set).2 List.mem_cons_self)
  obtain ⟨w₁, hdrop, hfactories, hholders, hnext⟩ : ∃ w₁, Workspace.letGo set.ticket w =
      .ok ((w.holders.erase set.ticket).count set.ticket) w₁ ∧ w₁.factories = w.factories ∧
        w₁.holders = w.holders.erase set.ticket ∧ w₁.nextTicket = w.nextTicket :=
    ⟨_, rfl, rfl, rfl, rfl⟩
  have hbooks := h.books.of_factories hfactories
  have hleft : w₁.holders.Perm (references.map TransitionSet.ticket) := by
    rw [hholders]
    simpa using h.holders.erase set.ticket
  rw [TransitionSet.letGo, run_bind hdrop, ← hholders]
  by_cases hlast : w₁.holders.count set.ticket = 0
  · rw [if_pos hlast]
    have hgone : set ∉ references := fun hmem =>
      List.count_eq_zero.1 hlast (hleft.mem_iff.2 (List.mem_map_of_mem hmem))
    rw [List.flatMap_cons] at hbooks
    obtain ⟨w₂, hrelease, hw₂⟩ := LetterSet.releaseAll_givesBack set.handles w₁ _ _
      (hbooks.perm (List.perm_append_comm_assoc ..))
    obtain ⟨hholders₂, hnext₂⟩ := Prod.mk.inj hw₂.tickets
    refine ⟨w₂, hrelease, others, hw₂.of_factories rfl, (List.nodup_cons.1 h.tickets).2,
      ?_, (List.forall_mem_cons.1 h.owner).2, h.others_iff hgone, hholders₂ ▸ hleft⟩
    rw [hnext₂, hnext]
    exact (List.forall_mem_cons.1 h.issued).2
  · rw [if_neg hlast]
    have hstays : set ∈ references := by
      have hmem : set.ticket ∈ references.map TransitionSet.ticket := by
        by_contra hnot
        exact hlast (List.count_eq_zero.2 (hleft.mem_iff.not.2 hnot))
      obtain ⟨other, hother, hsame⟩ := List.mem_map.1 hmem
      have hstocked := (h.referred other).2 (List.mem_cons_of_mem set hother)
      rwa [h.eq_of_ticket List.mem_cons_self hstocked hsame.symm]
    refine ⟨w₁, rfl, set :: others, hbooks, h.tickets, hnext ▸ h.issued, h.owner, fun other => ?_,
      hleft⟩
    rw [h.referred other, List.mem_cons]
    constructor
    · rintro (rfl | hother)
      · exact hstays
      · exact hother
    · exact .inr

/-- Copying labels never fails. -/
theorem copyLabels {labels : List (S × LetterSet)} (howner : ∀ entry ∈ labels, entry.2.owner = i) :
    ∀ {w : Workspace} {sets : List LetterSet}, w.Books i tickets sets →
      ∃ (copies : List (S × LetterSet)) (w' : Workspace),
        (labels.mapM fun entry => do return (entry.1, ← entry.2.copy) : WorkM (List (S × LetterSet)))
            w = .ok copies w' ∧
          w'.Books i tickets (copies.map Prod.snd ++ sets) := by
  induction labels with
  | nil => exact fun h => ⟨[], _, rfl, h⟩
  | cons entry rest ih =>
      intro w sets h
      obtain ⟨hentry, hrest⟩ := List.forall_mem_cons.1 howner
      obtain ⟨own, w₁, hcopy, hw₁⟩ := LetterSet.copy_books h hentry
      obtain ⟨copies, w₂, hcopies, hw₂⟩ := ih hrest hw₁
      refine ⟨(entry.1, own) :: copies, w₂, ?_, hw₂.perm List.perm_middle⟩
      have hfirst : (do return (entry.1, ← entry.2.copy) : WorkM (S × LetterSet)) w =
          .ok (entry.1, own) w₁ := run_bind hcopy
      rw [List.mapM_cons, run_bind hfirst, run_bind hcopies]
      rfl

/-- A copy is another set: there is no reference to it yet. -/
theorem copy (h : w.Balanced i sets references) (hset : set ∈ references) :
    ∃ (own : TransitionSet S) (w' : Workspace), set.copy w = .ok own w' ∧
      w'.Balanced i sets (own :: references) ∧ own.ticket ∉ references.map TransitionSet.ticket := by
  have hhandles := h.handles_owner hset
  have howner := h.set_owner hset
  obtain ⟨stock, h⟩ := h
  obtain ⟨copies, w₁, hcopies, hw₁⟩ := copyLabels (List.forall_mem_map.1 hhandles) h.books
  obtain ⟨hholders, hnext⟩ := Prod.mk.inj hw₁.tickets
  refine ⟨⟨w.nextTicket, set.owner, copies⟩,
    ⟨w₁.factories, w.nextTicket :: w.holders, w.nextTicket + 1⟩, ?_,
    ⟨_, h.add (hw₁.of_factories rfl) rfl howner⟩, fun hmem => ?_⟩
  · rw [← hholders, ← hnext]
    exact run_bind hcopies
  · obtain ⟨other, hother, hsame⟩ := List.mem_map.1 hmem
    exact Nat.lt_irrefl _ (hsame ▸ h.issued other ((h.referred other).2 hother))

/-- One goes on with a set that nothing else refers to. -/
theorem unshared (h : w.Balanced i sets (set :: references)) :
    ∃ (own : TransitionSet S) (w' : Workspace), set.unshared w = .ok own w' ∧
      w'.Balanced i sets (own :: references) ∧ own.ticket ∉ references.map TransitionSet.ticket := by
  have hcount : holderCount set.ticket w = .ok (w.holders.count set.ticket) w := rfl
  rw [TransitionSet.unshared, run_bind hcount]
  by_cases hone : w.holders.count set.ticket ≤ 1
  · rw [if_pos hone]
    refine ⟨set, w, rfl, h, List.count_eq_zero.1 ?_⟩
    obtain ⟨stock, h⟩ := h
    have hholders := h.holders.count_eq set.ticket
    rw [List.map_cons, List.count_cons_self] at hholders
    omega
  · rw [if_neg hone]
    obtain ⟨own, w₁, hcopy, h₁, hnew⟩ := h.copy List.mem_cons_self
    obtain ⟨w₂, hletGo, h₂⟩ := (h₁.perm (.refl _) (.swap ..)).letGo
    refine ⟨own, w₂, ?_, h₂, fun hmem => hnew (List.mem_cons_of_mem _ hmem)⟩
    rw [run_bind hcopy, run_bind hletGo]
    rfl

end Balanced

/-- The operation cannot fail: it gives these sets back and lets go of these references. -/
def Discharges (i : Nat) (x : WorkM Unit) (given : List LetterSet)
    (dropped : List (TransitionSet S)) : Prop :=
  ∀ (w : Workspace) (sets : List LetterSet) (references : List (TransitionSet S)),
    w.Balanced i (given ++ sets) (dropped ++ references) →
      ∃ w', x w = .ok () w' ∧ w'.Balanced i sets references

theorem GivesBack.discharges {x : WorkM Unit} {given : List LetterSet} (hx : GivesBack i x given) :
    Discharges i x given ([] : List (TransitionSet S)) := by
  rintro w sets references ⟨stock, h⟩
  have hbooks := h.books
  rw [List.append_assoc] at hbooks
  obtain ⟨w', hrun, hw'⟩ := hx w _ _ hbooks
  exact ⟨w', hrun, stock, h.rebook hw'⟩

namespace Discharges

variable {given given' : List LetterSet} {dropped dropped' : List (TransitionSet S)}

protected theorem bind {x y : WorkM Unit} (hx : Discharges i x given dropped)
    (hy : Discharges i y given' dropped') :
    Discharges i (do x; y) (given ++ given') (dropped ++ dropped') := by
  intro w sets references h
  rw [List.append_assoc, List.append_assoc] at h
  obtain ⟨w₁, hrun₁, h₁⟩ := hx w _ _ h
  obtain ⟨w₂, hrun₂, h₂⟩ := hy w₁ _ _ h₁
  exact ⟨w₂, (run_bind hrun₁).trans hrun₂, h₂⟩

protected theorem forM {α : Type} {f : α → WorkM Unit} {given : α → List LetterSet}
    {dropped : α → List (TransitionSet S)} (hf : ∀ a, Discharges i (f a) (given a) (dropped a))
    (list : List α) : Discharges i (list.forM f) (list.flatMap given) (list.flatMap dropped) := by
  induction list with
  | nil => exact fun w _ _ h => ⟨w, rfl, h⟩
  | cons first rest ih => exact (hf first).bind ih

/-- Where no sets of letters are given back but those of sets of transitions. -/
theorem forM_nil {α : Type} {f : α → WorkM Unit} {dropped : α → List (TransitionSet S)}
    (hf : ∀ a, Discharges i (f a) [] (dropped a)) (list : List α) :
    Discharges i (list.forM f) [] (list.flatMap dropped) := by
  have hlist := Discharges.forM hf list
  rwa [List.flatMap_eq_nil_iff.2 fun _ _ => rfl] at hlist

end Discharges

end Workspace

theorem TransitionSet.letGo_discharges {i : Nat} (set : TransitionSet S) :
    Discharges i set.letGo [] [set] :=
  fun _ _ _ h => h.letGo

theorem TransitionSet.letGoAll_discharges {i : Nat} (sets : List (TransitionSet S)) :
    Discharges i (sets.forM TransitionSet.letGo) [] sets := by
  have hsets : Discharges i (sets.forM TransitionSet.letGo) [] (sets.flatMap fun set => [set]) :=
    Discharges.forM_nil TransitionSet.letGo_discharges sets
  rwa [List.flatMap_singleton'] at hsets

/-! ## Adding transitions -/

namespace TransitionSet

variable [DecidableEq S] {i : Nat} {set : TransitionSet S} {state : S} {own : LetterSet}

/-- One label is replaced, the others stay. -/
theorem perm_setLabel {labels : List (S × LetterSet)} (hown : labels.lookup state = some own) :
    ∃ others, (labels.map Prod.snd).Perm (own :: others) ∧
      ∀ new, ((setLabel state new labels).map Prod.snd).Perm (new :: others) := by
  induction labels with
  | nil => cases hown
  | cons entry rest ih =>
      obtain ⟨x, old⟩ := entry
      by_cases hx : x = state
      · subst hx
        obtain rfl : old = own := by simpa using hown
        exact ⟨rest.map Prod.snd, .refl _, fun new => by simp [setLabel]⟩
      · have hne : (state == x) = false := beq_eq_false_iff_ne.2 (Ne.symm hx)
        simp only [List.lookup_cons, hne] at hown
        obtain ⟨others, hbefore, hafter⟩ := ih hown
        refine ⟨old :: others, (hbefore.cons old).trans (.swap ..), fun new => ?_⟩
        simp only [setLabel, if_neg hx]
        exact ((hafter new).cons old).trans (.swap ..)

/-- The set takes the label over; if its letters cannot be added, it is gone. -/
theorem insert_trades (set : TransitionSet S) (state : S) (label : LetterSet) :
    Trades i (set.insert state label) (set.handles ++ [label]) handles set.handles := by
  cases hown : set.label? state with
  | none =>
      have hhandles : handles { set with labels := set.labels ++ [(state, label)] } =
          set.handles ++ [label] := List.map_append
      rw [insert, hown, ← hhandles]
      exact Trades.pure handles _
  | some own =>
      obtain ⟨others, hbefore, hafter⟩ := perm_setLabel hown
      have hhandles : set.handles.Perm (own :: others) := hbefore
      rw [insert, hown]
      refine Trades.bind (((LetterSet.absorb_trades own label).frame others).perm
        ((hhandles.append_right [label]).trans (List.perm_append_comm.cons own))
        (fun new => (hafter new).symm) hhandles.symm) fun new => ?_
      exact Trades.pure handles { set with labels := setLabel state new set.labels }

theorem insertAll_trades (howner : set.owner = i) (state : S) :
    Trades i (set.insertAll state) set.handles handles set.handles := by
  subst howner
  have hall : Trades set.owner (LetterSet.all set.owner) [] (fun s => [s]) [] :=
    LetterSet.make_trades fun _ => Factory.acquires_pure _
  exact (hall.frame set.handles).bind fun label =>
    (insert_trades set state label).perm List.perm_append_comm (fun _ => .refl _) (.refl _)

/-- The set that is answered goes by the same ticket. -/
def Renews (set : TransitionSet S) (x : WorkM (TransitionSet S)) : Prop :=
  ∀ w, Outcome x w (fun set' _ => set'.ticket = set.ticket ∧ set'.owner = set.owner)
    fun _ _ => True

theorem insert_renews (set : TransitionSet S) (state : S) (label : LetterSet) :
    set.Renews (set.insert state label) := by
  intro w
  rw [insert]
  cases set.label? state with
  | none => exact Outcome.pure ⟨rfl, rfl⟩
  | some own =>
      exact Outcome.bind (Outcome.intro (fun _ _ _ => Outcome.pure ⟨rfl, rfl⟩)
        fun _ _ _ => trivial)

theorem insertAll_renews (set : TransitionSet S) (state : S) : set.Renews (set.insertAll state) :=
  fun _ => Outcome.bind (Outcome.intro (fun label w _ => insert_renews set state label w)
    fun _ _ _ => trivial)

omit [DecidableEq S] in
/-- A set that nothing else refers to may be changed. -/
theorem grow {x : WorkM (TransitionSet S)} {w : Workspace} {handed sets : List LetterSet}
    {references : List (TransitionSet S)} (h : w.Balanced i (handed ++ sets) (set :: references))
    (hsole : set.ticket ∉ references.map TransitionSet.ticket)
    (hx : Trades i x (set.handles ++ handed) handles set.handles) (hsame : set.Renews x) :
    Outcome x w (fun set' w' => w'.Balanced i sets (set' :: references))
      (fun fault w' => fault.Orderly ∧ w'.Balanced i sets (set :: references)) := by
  have hgone : set ∉ references := fun hmem => hsole (List.mem_map_of_mem hmem)
  obtain ⟨stock, h⟩ := h
  obtain ⟨others, h⟩ := h.front ((h.referred set).2 List.mem_cons_self)
  have hbooks : w.Books i (w.holders, w.nextTicket)
      ((set.handles ++ handed) ++ (sets ++ others.flatMap handles)) := by
    refine h.books.perm ?_
    rw [List.flatMap_cons, List.append_assoc, List.append_assoc]
    exact (List.Perm.append_left handed (List.perm_append_comm_assoc ..)).trans
      (List.perm_append_comm_assoc ..)
  have hbalanced : ∀ {w' : Workspace} {set' : TransitionSet S}, set'.ticket = set.ticket →
      set'.owner = set.owner → w'.Books i (w.holders, w.nextTicket)
        (set'.handles ++ (sets ++ others.flatMap handles)) →
      w'.Balanced i sets (set' :: references) := by
    intro w' set' hticket howner hw'
    obtain ⟨hholders, hnext⟩ := Prod.mk.inj hw'.tickets
    have hissued := h.issued
    have howners := h.owner
    have htickets := h.tickets
    rw [List.map_cons, ← hticket] at htickets
    refine ⟨set' :: others, (hw'.perm (List.perm_append_comm_assoc ..)).of_factories rfl,
      htickets, ?_, ?_, fun other => ?_, ?_⟩
    · rw [hnext]
      exact List.forall_mem_cons.2 ⟨hticket ▸ hissued set List.mem_cons_self,
        (List.forall_mem_cons.1 hissued).2⟩
    · exact List.forall_mem_cons.2 ⟨howner ▸ howners set List.mem_cons_self,
        (List.forall_mem_cons.1 howners).2⟩
    · rw [List.mem_cons, List.mem_cons, h.others_iff hgone other]
    · rw [hholders, List.map_cons, hticket]
      exact h.holders
  refine ((hx w _ _ hbooks).and (hsame w)).mono ?_ ?_
  · rintro set' w' ⟨hw', hticket, howner⟩
    exact hbalanced hticket howner hw'
  · rintro fault w' ⟨⟨hfault, hw'⟩, -⟩
    exact ⟨hfault, hbalanced rfl rfl hw'⟩

end TransitionSet

end SymbolicOmega
