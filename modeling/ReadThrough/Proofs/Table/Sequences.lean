import Mathlib.Data.List.Nodup
import ReadThrough.Proofs.Table.Recency

/-! # The Recency List is a List

  The links of the recency list, compared with a plain sequence of slots and generations that
  undergoes the same changes.

  - **Change**: the changes of the list, with what they mean for its links and for the sequence.
  - **Allowed**: only slots of nodes are put in front, and no linked slot is cut off.
  - **Spares**: the change is not about a sentinel for the generation that it is linked for.
  - **Traces**: the links lead along the sequence. Every change keeps this that spares the
    sentinels.
  - **Spells**: what is then read off the links, from either end and about single slots.
  - **changes_spell**: any sequence of changes of a new list.
  - **sentinel_unlinked**: what comes of it if a sentinel is not spared.
-/

namespace ReadThrough.Table.RecencyList

variable {l : RecencyList} {seq : List (Nat × Nat)} {s g : Nat}

/-! ## Changes -/

/-- A change of the list. -/
inductive Change where
  | pushFront (slot generation : Nat)
  | touch (slot generation : Nat)
  | unlink (slot generation : Nat)
  | reset
  | truncate (count : Nat)

/-- What a change does to the links. -/
def change (l : RecencyList) : Change → RecencyList
  | .pushFront slot generation => l.pushFront slot generation
  | .touch slot generation => l.touch slot generation
  | .unlink slot generation => l.unlink slot generation
  | .reset => empty
  | .truncate count => l.truncate count

namespace Change

/-- What a change does to a sequence of slots with their generations. -/
def on (seq : List (Nat × Nat)) : Change → List (Nat × Nat)
  | pushFront slot generation => (slot, generation) :: seq.filter fun p => p.1 ≠ slot
  | touch slot generation =>
    if (slot, generation) ∈ seq then (slot, generation) :: seq.erase (slot, generation) else seq
  | unlink slot generation => seq.erase (slot, generation)
  | reset => []
  | truncate _ => seq

/-- Slots of nodes are put in front, and the slots that are cut off are not linked. -/
def Allowed (seq : List (Nat × Nat)) : Change → Prop
  | pushFront slot _ => 2 ≤ slot
  | truncate count => ∀ p ∈ seq, p.1 < count
  | _ => True

instance (seq : List (Nat × Nat)) : (c : Change) → Decidable (c.Allowed seq)
  | pushFront slot _ => inferInstanceAs (Decidable (2 ≤ slot))
  | touch _ _ => inferInstanceAs (Decidable True)
  | unlink _ _ => inferInstanceAs (Decidable True)
  | reset => inferInstanceAs (Decidable True)
  | truncate count => inferInstanceAs (Decidable (∀ p ∈ seq, p.1 < count))

/-- A slot is that of a node, or it is asked for under another generation than that of the
    sentinels. -/
def Spares : Change → Prop
  | touch slot generation => 2 ≤ slot ∨ generation ≠ 0
  | unlink slot generation => 2 ≤ slot ∨ generation ≠ 0
  | _ => True

instance : (c : Change) → Decidable c.Spares
  | pushFront _ _ => inferInstanceAs (Decidable True)
  | touch slot generation => inferInstanceAs (Decidable (2 ≤ slot ∨ generation ≠ 0))
  | unlink slot generation => inferInstanceAs (Decidable (2 ≤ slot ∨ generation ≠ 0))
  | reset => inferInstanceAs (Decidable True)
  | truncate _ => inferInstanceAs (Decidable True)

/-- Each change is allowed after the ones before it. -/
def AllAllowed (seq : List (Nat × Nat)) : List Change → Prop
  | [] => True
  | c :: cs => c.Allowed seq ∧ AllAllowed (c.on seq) cs

instance decidableAllAllowed : (seq : List (Nat × Nat)) → (cs : List Change) →
    Decidable (AllAllowed seq cs)
  | _, [] => inferInstanceAs (Decidable True)
  | seq, c :: cs =>
    have := decidableAllAllowed (c.on seq) cs
    inferInstanceAs (Decidable (c.Allowed seq ∧ AllAllowed (c.on seq) cs))

end Change

/-! ## Slots and generations -/

/-- In a sequence without repeated slots, leaving out a pair is leaving out its slot. -/
theorem map_fst_erase (hnd : (seq.map Prod.fst).Nodup) (hmem : (s, g) ∈ seq) :
    (seq.erase (s, g)).map Prod.fst = (seq.map Prod.fst).erase s := by
  obtain ⟨xs, ys, rfl⟩ := List.append_of_mem hmem
  rw [List.map_append, List.map_cons] at hnd ⊢
  have hslot : s ∉ xs.map Prod.fst := fun hxs =>
    (List.nodup_append.1 hnd).2.2 s hxs s List.mem_cons_self rfl
  have hpair : (s, g) ∉ xs := fun hxs => hslot (List.mem_map_of_mem hxs)
  rw [List.erase_append_right _ hpair, List.erase_cons_head, List.erase_append_right _ hslot,
    List.erase_cons_head, List.map_append]

theorem map_fst_filter (hnd : (seq.map Prod.fst).Nodup) (s : Nat) :
    (seq.filter fun p => p.1 ≠ s).map Prod.fst = (seq.map Prod.fst).erase s := by
  rw [hnd.erase_eq_filter, List.filter_map]
  congr 2
  funext p
  simp [bne, beq_eq_decide]

/-! ## Links along a sequence -/

/-- The links lead along the slots of the sequence, which are linked for their generations. -/
structure Traces (l : RecencyList) (seq : List (Nat × Nat)) : Prop where
  linked : l.Linked (seq.map Prod.fst)
  generation : ∀ p ∈ seq, l.generation? p.1 = some p.2
  sentinel : ∀ s < 2, l.generation? s = some 0

namespace Traces

theorem empty : RecencyList.empty.Traces [] := by
  refine ⟨.empty, nofun, fun s hs => ?_⟩
  obtain rfl | rfl : s = 0 ∨ s = 1 := by omega
  · rfl
  · rfl

theorem two_le (h : l.Traces seq) (hmem : (s, g) ∈ seq) : 2 ≤ s :=
  h.linked.reserved_le (List.mem_map_of_mem hmem)

/-- A slot is linked for a generation exactly if the sequence has the two as a pair, or if it is a
    sentinel's and the generation is 0. -/
theorem isLinked_iff (h : l.Traces seq) (s g : Nat) :
    l.isLinked s g = true ↔ (s, g) ∈ seq ∨ s < 2 ∧ g = 0 := by
  rw [isLinked, beq_iff_eq]
  constructor
  · intro hlinked
    by_cases hs : s < 2
    · rw [h.sentinel s hs] at hlinked
      exact .inr ⟨hs, (Option.some.inj hlinked).symm⟩
    · have hmem : s ∈ seq.map Prod.fst :=
        (h.linked.mem_iff (Nat.le_of_not_lt hs)).2 (by simp [hlinked])
      obtain ⟨⟨t, g'⟩, hpair, rfl⟩ := List.mem_map.1 hmem
      have hgeneration := h.generation _ hpair
      rw [hlinked] at hgeneration
      exact .inl (Option.some.inj hgeneration ▸ hpair)
  · rintro (hpair | ⟨hs, rfl⟩)
    · exact h.generation (s, g) hpair
    · exact h.sentinel s hs

theorem isLinked_iff_mem (h : l.Traces seq) (hspares : 2 ≤ s ∨ g ≠ 0) :
    l.isLinked s g = true ↔ (s, g) ∈ seq := by
  rw [h.isLinked_iff s g]
  exact or_iff_left fun hsentinel =>
    hspares.elim (Nat.not_le_of_gt hsentinel.1) fun hg => hg hsentinel.2

/-! ### One change -/

theorem pushFront (h : l.Traces seq) (hs : 2 ≤ s) (g : Nat) :
    (l.pushFront s g).Traces ((Change.pushFront s g).on seq) where
  linked := by
    rw [Change.on, List.map_cons, map_fst_filter h.linked.slots_nodup]
    exact h.linked.pushFront hs g
  generation := by
    rintro ⟨t, g'⟩ hmem
    rw [generation?_pushFront]
    rcases List.mem_cons.1 hmem with heq | hold
    · obtain ⟨rfl, rfl⟩ := Prod.mk.inj heq
      exact if_pos rfl
    · obtain ⟨hold, hne⟩ := List.mem_filter.1 hold
      rw [if_neg (of_decide_eq_true hne)]
      exact h.generation _ hold
  sentinel := by
    intro t ht
    rw [generation?_pushFront, if_neg (by omega)]
    exact h.sentinel t ht

theorem touch (h : l.Traces seq) (hspares : 2 ≤ s ∨ g ≠ 0) :
    (l.touch s g).Traces ((Change.touch s g).on seq) := by
  have hgeneration (t : Nat) := generation?_touch l s g t
  rw [Change.on]
  by_cases hmem : (s, g) ∈ seq
  · have hlinked := h.linked.touch (h.two_le hmem) g
    rw [if_pos ((h.isLinked_iff_mem hspares).2 hmem),
      ← map_fst_erase h.linked.slots_nodup hmem] at hlinked
    rw [if_pos hmem]
    refine ⟨hlinked, fun p hp => ?_, fun t ht => (hgeneration t).trans (h.sentinel t ht)⟩
    -- All pairs are among those there were, in another order.
    refine (hgeneration p.1).trans (h.generation p ?_)
    rcases List.mem_cons.1 hp with rfl | hp
    · exact hmem
    · exact List.mem_of_mem_erase hp
  · have hstay : l.touch s g = l :=
      if_neg fun hlinked => hmem ((h.isLinked_iff_mem hspares).1 hlinked)
    rwa [hstay, if_neg hmem]

theorem unlink (h : l.Traces seq) (hspares : 2 ≤ s ∨ g ≠ 0) :
    (l.unlink s g).Traces ((Change.unlink s g).on seq) := by
  rw [Change.on]
  by_cases hmem : (s, g) ∈ seq
  · have hnd := h.linked.slots_nodup
    have hlinked := h.linked.unlink (h.two_le hmem) g
    rw [if_pos ((h.isLinked_iff_mem hspares).2 hmem), ← map_fst_erase hnd hmem] at hlinked
    refine ⟨hlinked, fun p hp => ?_, fun t ht => ?_⟩
    · -- The slot is no other pair's.
      have hne : p.1 ≠ s := by
        have hslot : p.1 ∈ (seq.map Prod.fst).erase s :=
          map_fst_erase hnd hmem ▸ List.mem_map_of_mem hp
        exact (hnd.mem_erase_iff.1 hslot).1
      rw [generation?_unlink, if_neg fun hcut => hne hcut.1]
      exact h.generation p (List.mem_of_mem_erase hp)
    · have hs := h.two_le hmem
      rw [generation?_unlink, if_neg fun hcut => by omega]
      exact h.sentinel t ht
  · have hstay : l.unlink s g = l :=
      if_neg fun hlinked => hmem ((h.isLinked_iff_mem hspares).1 hlinked)
    rwa [hstay, List.erase_of_not_mem hmem]

theorem truncate {count : Nat} (h : l.Traces seq) (hlt : ∀ p ∈ seq, p.1 < count) :
    (l.truncate count).Traces seq where
  linked := h.linked.truncate fun t ht => by
    obtain ⟨p, hp, rfl⟩ := List.mem_map.1 ht
    exact hlt p hp
  generation := by
    intro p hp
    rw [generation?_truncate, if_pos (Nat.lt_of_lt_of_le (hlt p hp) (Nat.le_max_left _ _))]
    exact h.generation p hp
  sentinel := by
    intro t ht
    rw [generation?_truncate, if_pos (Nat.lt_of_lt_of_le ht (Nat.le_max_right _ _))]
    exact h.sentinel t ht

theorem change (h : l.Traces seq) (c : Change) (hc : c.Allowed seq) (hspares : c.Spares) :
    (l.change c).Traces (c.on seq) := by
  cases c with
  | pushFront slot generation => exact h.pushFront hc generation
  | touch slot generation => exact h.touch hspares
  | unlink slot generation => exact h.unlink hspares
  | reset => exact empty
  | truncate count => exact h.truncate hc

/-! ### All changes -/

theorem changes (h : l.Traces seq) {cs : List Change} (hcs : Change.AllAllowed seq cs)
    (hspare : ∀ c ∈ cs, c.Spares) :
    (cs.foldl RecencyList.change l).Traces (cs.foldl Change.on seq) := by
  induction cs generalizing l seq with
  | nil => exact h
  | cons c cs ih =>
    have hfirst := h.change c hcs.1 (hspare c List.mem_cons_self)
    exact ih hfirst hcs.2 fun x hx => hspare x (List.mem_cons_of_mem c hx)

end Traces

/-! ## What is read off the links -/

/-- What is read off the list is the sequence. -/
structure Spells (l : RecencyList) (seq : List (Nat × Nat)) : Prop where
  forward : l.toList.map (fun s => (s, l.generation? s)) = seq.map fun p => (p.1, some p.2)
  backward : l.toListReverse.map (fun s => (s, l.generation? s)) =
    seq.reverse.map fun p => (p.1, some p.2)
  size : l.size = seq.length
  /-- A slot can be touched or unlinked for a generation exactly if the sequence has the pair, or if
      it is a sentinel's and the generation is 0. -/
  linked : ∀ s g, l.isLinked s g = true ↔ (s, g) ∈ seq ∨ s < 2 ∧ g = 0
  /-- Walks end at the sentinels: they may always take two more steps than there are linked slots,
      and any number of steps more would make no difference. -/
  steps : l.size + 2 ≤ l.links.size ∧ ∀ fuel, l.size ≤ fuel →
    walk l.next back fuel (l.next front) = l.toList ∧
      walk l.prev front fuel (l.prev back) = l.toListReverse

theorem Traces.spells (h : l.Traces seq) : l.Spells seq := by
  have hsize : l.size = (seq.map Prod.fst).length := h.linked.size
  have hpairs : (seq.map Prod.fst).map (fun s => (s, l.generation? s)) =
      seq.map fun p => (p.1, some p.2) := by
    rw [List.map_map]
    refine List.map_congr_left fun p hp => ?_
    rw [Function.comp_apply, h.generation p hp]
  refine ⟨?_, ?_, ?_, h.isLinked_iff, ?_, fun fuel hfuel => ?_⟩
  · rw [h.linked.toList_eq]
    exact hpairs
  · rw [h.linked.toListReverse_eq, List.map_reverse, hpairs, List.map_reverse]
  · rw [hsize, List.length_map]
  · rw [hsize]
    exact h.linked.length_add_two_le
  · rw [hsize] at hfuel
    rw [h.linked.toList_eq, h.linked.toListReverse_eq]
    exact ⟨h.linked.walk_next hfuel, h.linked.walk_prev hfuel⟩

/-- Whatever is put in front, touched, unlinked or cut off, and however often the list starts anew:
    from the front it reads as the sequence that has undergone the same, with the generations, and
    from the back as its reverse. Its length is kept, what is in it can be touched and unlinked and
    nothing else can but the sentinels, and no walk is ever cut short.

    The sentinels have to be spared: they are linked for generation 0, and nothing tells them from
    nodes when a slot is touched or unlinked. -/
theorem changes_spell (cs : List Change) (h : Change.AllAllowed [] cs)
    (hspare : ∀ c ∈ cs, c.Spares) : (cs.foldl change empty).Spells (cs.foldl Change.on []) :=
  (Traces.empty.changes h hspare).spells

/-- Of three slots, the one at the back is touched, once with another generation than its own; the
    one in front is unlinked, and the other one is put in front once more for a later generation,
    before the slots behind are cut off. -/
theorem changes_spell_reused :
    let cs : List Change := [.pushFront 5 1, .pushFront 3 2, .pushFront 9 3, .touch 5 2,
      .touch 5 1, .unlink 9 3, .pushFront 3 7, .truncate 6]
    let l := cs.foldl change empty
    Change.AllAllowed [] cs ∧ (∀ c ∈ cs, c.Spares) ∧ l.Spells [(3, 7), (5, 1)] ∧
      l.toList = [3, 5] ∧ l.toListReverse = [5, 3] ∧ l.size = 2 ∧ l.links.size = 6 ∧
      l.isLinked 3 2 = false := by
  intro cs l
  have hallowed : Change.AllAllowed [] cs := by decide +kernel
  have hspare : ∀ c ∈ cs, c.Spares := by decide +kernel
  have hseq : cs.foldl Change.on [] = [(3, 7), (5, 1)] := by decide +kernel
  exact ⟨hallowed, hspare, hseq ▸ changes_spell cs hallowed hspare, by decide +kernel,
    by decide +kernel, by decide +kernel, by decide +kernel, by decide +kernel⟩

/-- One slot is put in front, and then the sentinel at the back is unlinked for generation 0, which
    succeeds although no such pair is in the sequence. The slot is linked still, but the walk from
    the back does not find it any more, and the length is 0. -/
theorem sentinel_unlinked :
    let cs : List Change := [.pushFront 2 5, .unlink back 0]
    let l := cs.foldl change empty
    Change.AllAllowed [] cs ∧ (empty.pushFront 2 5).isLinked back 0 = true ∧
      cs.foldl Change.on [] = [(2, 5)] ∧ l.isLinked 2 5 = true ∧ l.toListReverse = [] ∧
      l.size = 0 ∧ ¬ l.Spells (cs.foldl Change.on []) := by
  intro cs l
  have hsize : l.size = 0 := by decide +kernel
  have hseq : cs.foldl Change.on [] = [(2, 5)] := by decide +kernel
  refine ⟨by decide +kernel, by decide +kernel, hseq, by decide +kernel, by decide +kernel, hsize,
    fun hspells => ?_⟩
  have hone : l.size = 1 := hspells.size.trans (congrArg List.length hseq)
  omega

end ReadThrough.Table.RecencyList
