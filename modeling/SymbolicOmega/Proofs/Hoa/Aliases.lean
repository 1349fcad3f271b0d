import Mathlib.Data.Set.Card
import SymbolicOmega.Hoa.Alias
import SymbolicOmega.Proofs.Acceptance.Language
import SymbolicOmega.Proofs.Automaton.Closure

/-!
# Last writer wins

A table of aliases is two maps that are kept inverse to each other.  A new binding takes
at most one entry out of each: the one of its name and the one of its index.  After any
calls, what is bound is therefore what no later call displaced, listed in the order in
which the bindings were last made.
-/

namespace SymbolicOmega

namespace Hoa

namespace Aliases

section Maps

variable {α β : Type} {map : List (α × β)} {inverse : List (β × α)}

/-- Two maps that say the same, one from `α` to `β` and one back. -/
structure Inverse (map : List (α × β)) (inverse : List (β × α)) : Prop where
  keys : (map.map Prod.fst).Nodup
  values : (inverse.map Prod.fst).Nodup
  mem_iff : ∀ a b, (a, b) ∈ map ↔ (b, a) ∈ inverse

namespace Inverse

theorem symm (h : Inverse map inverse) : Inverse inverse map :=
  ⟨h.values, h.keys, fun b a => (h.mem_iff a b).symm⟩

/-- Both maps may take a new pair, at whichever end. -/
theorem add (h : Inverse map inverse) {a : α} {b : β} (ha : ∀ entry ∈ map, entry.1 ≠ a)
    (hb : ∀ entry ∈ inverse, entry.1 ≠ b) :
    Inverse (map ++ [(a, b)]) ((b, a) :: inverse) where
  keys := by
    rw [List.map_append]
    refine h.keys.append (List.nodup_singleton a) fun key hkey hkey' => ?_
    obtain ⟨entry, hentry, rfl⟩ := List.mem_map.1 hkey
    exact ha entry hentry (List.mem_singleton.1 hkey')
  values := by
    refine List.nodup_cons.2 ⟨fun hmem => ?_, h.values⟩
    obtain ⟨entry, hentry, heq⟩ := List.mem_map.1 hmem
    exact hb entry hentry heq
  mem_iff a' b' := by
    rw [List.mem_append, List.mem_singleton, List.mem_cons, h.mem_iff, or_comm]
    simp only [Prod.mk.injEq, and_comm]

variable [DecidableEq α]

theorem lookup_iff (h : Inverse map inverse) {a : α} {b : β} :
    map.lookup a = some b ↔ (a, b) ∈ map :=
  ⟨mem_of_lookup, fun hmem => lookup_of_mem h.keys hmem⟩

/-- Both maps may forget a key of the first. -/
theorem forget (h : Inverse map inverse) (key : α) :
    Inverse (without map key) (inverse.filter (·.2 != key)) where
  keys := h.keys.sublist (List.filter_sublist.map _)
  values := h.values.sublist (List.filter_sublist.map _)
  mem_iff a b := by
    rw [without, List.mem_filter, List.mem_filter, h.mem_iff]

theorem value_unique (h : Inverse map inverse) {a : α} {b b' : β} (hb : (a, b) ∈ map)
    (hb' : (a, b') ∈ map) : b = b' :=
  Option.some.inj ((h.lookup_iff.2 hb).symm.trans (h.lookup_iff.2 hb'))

variable [DecidableEq β]

theorem lookup_swap (h : Inverse map inverse) {a : α} {b : β} :
    map.lookup a = some b ↔ inverse.lookup b = some a := by
  rw [h.lookup_iff, h.mem_iff, h.symm.lookup_iff]

/-- What leaves the other map with `key` is all that leads to `key` there. -/
theorem evict_eq (h : Inverse map inverse) (key : α) :
    evict map inverse key = inverse.filter (·.2 != key) := by
  cases hkey : map.lookup key with
  | none =>
      have hfree : ∀ entry ∈ inverse, (entry.2 != key) = true := by
        intro entry hentry
        refine bne_iff_ne.2 fun heq => ?_
        have hbound := h.lookup_iff.2 ((h.mem_iff key entry.1).2 (heq ▸ hentry))
        exact absurd (hkey.symm.trans hbound) nofun
      rw [evict, hkey, List.filter_eq_self.2 hfree]
  | some value =>
      have hvalue := h.lookup_iff.1 hkey
      rw [evict, hkey]
      refine List.filter_congr fun entry hentry => ?_
      have hentry' : (entry.2, entry.1) ∈ map := (h.mem_iff _ _).2 hentry
      have hiff : entry.1 = value ↔ entry.2 = key := by
        constructor
        · intro heq
          exact h.symm.value_unique (heq ▸ hentry) ((h.mem_iff key value).1 hvalue)
        · intro heq
          exact h.value_unique (heq ▸ hentry') hvalue
      exact Bool.eq_iff_iff.2 (by rw [bne_iff_ne, bne_iff_ne, Ne, Ne, hiff])

end Inverse

end Maps

/-! ## One call -/

/-- The two maps of a table are inverse to each other. -/
def Sound (aliases : Aliases) : Prop :=
  Inverse aliases.bindings aliases.names

namespace Sound

variable {aliases : Aliases}

theorem empty : Sound .empty :=
  ⟨List.nodup_nil, List.nodup_nil, fun _ _ => iff_of_false List.not_mem_nil List.not_mem_nil⟩

theorem index?_iff (h : aliases.Sound) {name : String} {index : Nat} :
    aliases.index? name = some index ↔ (name, index) ∈ aliases.bindings :=
  h.lookup_iff

theorem name?_iff (h : aliases.Sound) {name : String} {index : Nat} :
    aliases.name? index = some name ↔ aliases.index? name = some index :=
  h.lookup_swap.symm

/-- A call drops the bindings with its name or its index and adds its own at the end. -/
theorem bindings_insert (h : aliases.Sound) (name : String) (index : Nat) :
    (aliases.insert name index).bindings =
      aliases.bindings.filter (fun b => b.1 != name && b.2 != index) ++ [(name, index)] := by
  have hforgot := (h.forget name).symm
  rw [Aliases.insert, h.evict_eq, hforgot.evict_eq, without, List.filter_filter]
  simp only [Bool.and_comm]

theorem insert (h : aliases.Sound) (name : String) (index : Nat) :
    (aliases.insert name index).Sound := by
  have hforgot := (h.forget name).symm
  have hfree := (hforgot.forget index).symm
  rw [Sound, Aliases.insert, h.evict_eq, hforgot.evict_eq]
  refine hfree.add (fun b hb => ?_) (fun entry hentry => ?_)
  · exact bne_iff_ne.1 (List.mem_filter.1 (List.mem_of_mem_filter hb)).2
  · exact bne_iff_ne.1 (List.mem_filter.1 hentry).2

theorem mem_insert (h : aliases.Sound) {b c : String × Nat} :
    b ∈ (aliases.insert c.1 c.2).bindings ↔
      b = c ∨ b ∈ aliases.bindings ∧ b.1 ≠ c.1 ∧ b.2 ≠ c.2 := by
  rw [h.bindings_insert, List.mem_append, List.mem_filter, List.mem_singleton, or_comm]
  simp only [Bool.and_eq_true, bne_iff_ne]

end Sound

/-! ## Any calls -/

/-- `c` binds the name of `b` or its index, with a different partner. -/
def Displaces (c b : String × Nat) : Prop :=
  (c.1 = b.1 ∧ c.2 ≠ b.2) ∨ (c.2 = b.2 ∧ c.1 ≠ b.1)

/-- `b` was bound, and no later call displaced it. -/
def InForce (calls : List (String × Nat)) (b : String × Nat) : Prop :=
  ∃ before after, calls = before ++ b :: after ∧ ∀ c ∈ after, ¬ Displaces c b

/-- Call number `t` is the last that binds `b`. -/
def LastBound (calls : List (String × Nat)) (b : String × Nat) (t : Nat) : Prop :=
  calls[t]? = some b ∧ ∀ u, t < u → calls[u]? ≠ some b

theorem displaces_iff {b c : String × Nat} (hne : b ≠ c) :
    ¬ Displaces c b ↔ b.1 ≠ c.1 ∧ b.2 ≠ c.2 := by
  have hpair : ¬ (b.1 = c.1 ∧ b.2 = c.2) := fun h => hne (Prod.ext h.1 h.2)
  rw [Displaces, eq_comm (a := c.1), eq_comm (a := c.2)]
  tauto

theorem inForce_concat {calls : List (String × Nat)} {b c : String × Nat} :
    InForce (calls ++ [c]) b ↔ b = c ∨ InForce calls b ∧ b.1 ≠ c.1 ∧ b.2 ≠ c.2 := by
  by_cases hbc : b = c
  · subst hbc
    exact iff_of_true ⟨calls, [], rfl, nofun⟩ (.inl rfl)
  · rw [or_iff_right hbc, ← displaces_iff hbc]
    constructor
    · rintro ⟨before, after, hcalls, hafter⟩
      obtain rfl | ⟨after, d, rfl⟩ := List.eq_nil_or_concat after
      · exact absurd (List.append_inj_right' hcalls rfl) (by simpa using Ne.symm hbc)
      · rw [List.concat_eq_append, ← List.cons_append, ← List.append_assoc] at hcalls
        obtain ⟨hearlier, hd⟩ := List.append_inj' hcalls rfl
        obtain rfl : c = d := List.singleton_inj.1 hd
        rw [List.concat_eq_append, List.forall_mem_append, List.forall_mem_singleton] at hafter
        exact ⟨⟨before, after, hearlier, hafter.1⟩, hafter.2⟩
    · rintro ⟨⟨before, after, rfl, hafter⟩, hc⟩
      refine ⟨before, after ++ [c], by simp, ?_⟩
      exact List.forall_mem_append.2 ⟨hafter, List.forall_mem_singleton.2 hc⟩

theorem LastBound.concat {calls : List (String × Nat)} {b c : String × Nat} {t : Nat}
    (h : LastBound calls b t) (hne : c ≠ b) : LastBound (calls ++ [c]) b t := by
  have hlt := (List.getElem?_eq_some_iff.1 h.1).1
  refine ⟨(List.getElem?_append_left hlt).trans h.1, fun u hu heq => ?_⟩
  obtain ⟨hu', -⟩ := List.getElem?_eq_some_iff.1 heq
  rcases Nat.lt_or_ge u calls.length with hin | hout
  · exact h.2 u hu ((List.getElem?_append_left hin).symm.trans heq)
  · rw [List.getElem?_append_right hout, List.getElem?_singleton] at heq
    split at heq
    · exact hne (Option.some.inj heq)
    · exact absurd heq nofun

theorem lastBound_concat_self (calls : List (String × Nat)) (c : String × Nat) :
    LastBound (calls ++ [c]) c calls.length := by
  refine ⟨List.getElem?_concat_length, fun u hu heq => ?_⟩
  have hlt := (List.getElem?_eq_some_iff.1 heq).1
  rw [List.length_append, List.length_singleton] at hlt
  omega

theorem ofList_append (start calls : List (String × Nat)) :
    calls.foldl (fun aliases b => aliases.insert b.1 b.2) (ofList start) =
      ofList (start ++ calls) :=
  (List.foldl_append ..).symm

theorem ofList_concat (calls : List (String × Nat)) (c : String × Nat) :
    ofList (calls ++ [c]) = (ofList calls).insert c.1 c.2 :=
  (ofList_append calls [c]).symm

theorem ofList_sound (calls : List (String × Nat)) : (ofList calls).Sound := by
  induction calls using List.reverseRecOn with
  | nil => exact .empty
  | append_singleton calls c ih => exact ofList_concat calls c ▸ ih.insert c.1 c.2

theorem mem_ofList {calls : List (String × Nat)} {b : String × Nat} :
    b ∈ (ofList calls).bindings ↔ InForce calls b := by
  induction calls using List.reverseRecOn with
  | nil => exact iff_of_false List.not_mem_nil (by rintro ⟨before, after, h, -⟩; simp at h)
  | append_singleton calls c ih =>
      rw [ofList_concat, (ofList_sound calls).mem_insert, ih, inForce_concat]

theorem exists_lastBound {calls : List (String × Nat)} {b : String × Nat} (hb : b ∈ calls) :
    ∃ t, LastBound calls b t := by
  induction calls using List.reverseRecOn with
  | nil => exact absurd hb List.not_mem_nil
  | append_singleton calls c ih =>
      by_cases hc : c = b
      · exact ⟨calls.length, hc ▸ lastBound_concat_self calls c⟩
      · have hold := (List.mem_append.1 hb).resolve_right fun h => hc (List.mem_singleton.1 h).symm
        obtain ⟨t, ht⟩ := ih hold
        exact ⟨t, ht.concat hc⟩

theorem InForce.mem {calls : List (String × Nat)} {b : String × Nat} (h : InForce calls b) :
    b ∈ calls := by
  obtain ⟨before, after, rfl, -⟩ := h
  exact List.mem_append_right before List.mem_cons_self

/-- The bindings stand in the order of the calls that made them last. -/
theorem ofList_pairwise (calls : List (String × Nat)) :
    (ofList calls).bindings.Pairwise fun b c =>
      ∃ t u, LastBound calls b t ∧ LastBound calls c u ∧ t < u := by
  induction calls using List.reverseRecOn with
  | nil => exact List.Pairwise.nil
  | append_singleton calls d ih =>
      have hother : ∀ b ∈ (ofList calls).bindings.filter
          (fun b => b.1 != d.1 && b.2 != d.2), b ∈ (ofList calls).bindings ∧ d ≠ b := by
        intro b hb
        obtain ⟨hmem, hkept⟩ := List.mem_filter.1 hb
        exact ⟨hmem, by rintro rfl; simp at hkept⟩
      rw [ofList_concat, (ofList_sound calls).bindings_insert]
      refine List.pairwise_append.2 ⟨?_, List.pairwise_singleton _ _, fun b hb c hc => ?_⟩
      · refine (ih.filter _).imp_of_mem fun {b c} hb hc ⟨t, u, ht, hu, hlt⟩ => ?_
        exact ⟨t, u, ht.concat (hother b hb).2, hu.concat (hother c hc).2, hlt⟩
      · obtain ⟨hmem, hne⟩ := hother b hb
        obtain ⟨t, ht⟩ := exists_lastBound (mem_ofList.1 hmem).mem
        rw [List.mem_singleton.1 hc]
        refine ⟨t, calls.length, ht.concat hne, lastBound_concat_self calls d, ?_⟩
        exact (List.getElem?_eq_some_iff.1 ht.1).1

/-- What `aliases` answers after `calls`: it is a bijection in which the last writer wins. -/
structure LastWriterWins (calls : List (String × Nat)) (aliases : Aliases) : Prop where
  inverse : ∀ name index, aliases.name? index = some name ↔ aliases.index? name = some index
  bound : ∀ name index, aliases.index? name = some index ↔ InForce calls (name, index)
  listed : ∀ b, b ∈ aliases.bindings ↔ aliases.index? b.1 = some b.2
  once : aliases.bindings.Nodup
  size : aliases.size = Set.ncard { b | InForce calls b }
  order : aliases.bindings.Pairwise fun b c =>
    ∃ t u, LastBound calls b t ∧ LastBound calls c u ∧ t < u

/-- After any calls, on a table collected from any others, the last writer has won: the two
maps are inverse, a binding is present exactly if no later call displaced it, and the table
lists what is present, once each, in the order of the calls that made it last. -/
theorem lastWriterWins (start calls : List (String × Nat)) :
    LastWriterWins (start ++ calls)
      (calls.foldl (fun aliases b => aliases.insert b.1 b.2) (ofList start)) := by
  rw [ofList_append]
  have hsound := ofList_sound (start ++ calls)
  have hnodup : (ofList (start ++ calls)).bindings.Nodup := List.Nodup.of_map _ hsound.keys
  have hset : { b | InForce (start ++ calls) b } =
      ((ofList (start ++ calls)).bindings.toFinset : Set (String × Nat)) := by
    ext b
    rw [Set.mem_ofPred_eq, List.coe_toFinset, Set.mem_ofPred_eq, mem_ofList]
  exact {
    inverse := fun _ _ => hsound.name?_iff
    bound := fun _ _ => hsound.index?_iff.trans mem_ofList
    listed := fun _ => hsound.index?_iff.symm
    once := hnodup
    size := by rw [hset, Set.ncard_coe_finset, List.toFinset_card_of_nodup hnodup, Aliases.size]
    order := ofList_pairwise _ }

end Aliases

end Hoa

end SymbolicOmega
