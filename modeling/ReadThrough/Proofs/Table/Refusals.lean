import ReadThrough.Proofs.Table.Admissions

/-! # Refused Insertions

  A key that is refused stays absent. Making room for it may have cost other nodes their place, but
  only such as the predicate gave up, and only if there were more nodes than there may be.

  - **Culled**: what a trim by a predicate with a memory does, whichever nodes are linked.
  - **Refused**: what is left of a table after an insertion that was refused.
-/

namespace ReadThrough.Table

open Buckets RecencyList

variable {K P : Type} {t t' : Table K P} {node : Node K P} {p : Predicate (Node K P)}
  {asked : List (Node K P)}

/-! ## Trims -/

/-- What was to be evicted has been removed from the table `t`. Unless the list was rebuilt, the
    linked nodes that are left stay in their order. -/
structure Culled (p : Predicate (Node K P)) (t : Table K P)
    (r : Answer K P (Removal K P (List (Node K P)))) : Prop where
  removed : r.value.removed = p.evictions r.value.memory
  perm : (r.value.removed ++ r.table.nodes).Perm t.nodes
  order : r.table.byRecency = without r.value.removed t.byRecency ∨
    ¬ t.AllLinked ∧ r.table.AllLinked ∧ r.table.repairs = t.repairs + 1

/-- A walk goes on with the questions of an earlier one, the evictions of which count. -/
theorem Orderly.walk_polls (h : t.Orderly) (hgoes : p.Continues asked) {count : Nat}
    (hroom : (p.evictions asked).length ≤ count) :
    let s := t.walk p.judge (some (count - (p.evictions asked).length)) asked
    p.evictions s.memory = p.evictions asked ++ s.removed ∧
      (s.consistent = false → p.Continues s.memory ∧ ¬ t.AllLinked) := by
  let quota := some (count - (p.evictions asked).length)
  have hcount : ∀ n ∈ some count, (p.evictions asked).length ≤ n := by
    intro n hn
    obtain rfl := Option.mem_some_iff.1 hn
    exact hroom
  have hpolled := tour_polls t.byRecency.reverse hgoes hcount
  have hwalk := h.walk p.judge quota asked
  have hconsistent := h.walk_consistent p.judge quota asked
  intro s
  refine ⟨?_, fun hfalse => ?_⟩
  · show p.evictions (t.walk p.judge quota asked).memory = _ ++ (t.walk p.judge quota asked).removed
    rw [hwalk.memory, hwalk.removed]
    exact hpolled.evictions
  · -- Only at the end of the list does a walk find out that a node is missing.
    have hnot : ¬ (t.walk p.judge quota asked).consistent = true := by
      rw [Bool.not_eq_true]
      exact hfalse
    obtain ⟨hfront, hunlinked⟩ := Classical.not_imp.1 (mt hconsistent.2 hnot)
    refine ⟨?_, hunlinked⟩
    show p.Continues (t.walk p.judge quota asked).memory
    rw [hwalk.memory]
    exact hpolled.goes hfront

theorem Orderly.trim_culled (h : t.Orderly) (lastUse : List (Node K P) → P → Nat)
    (p : Predicate (Node K P)) (count : Nat) : Culled p t (t.trim lastUse p.judge count []) := by
  unfold Table.trim
  by_cases hcount : count = 0
  · rw [if_pos hcount]
    exact ⟨rfl, List.Perm.refl _, Or.inl (without_nil _).symm⟩
  rw [if_neg hcount]
  let s := t.walk p.judge (some count) []
  have hperm : (s.removed ++ s.table.nodes).Perm t.nodes := h.walk_perm p.judge (some count) []
  obtain ⟨hevictions, hmissed⟩ : p.evictions s.memory = s.removed ∧
      (s.consistent = false → p.Continues s.memory ∧ ¬ t.AllLinked) :=
    h.walk_polls .nil (Nat.zero_le count)
  unfold trimNodes
  dsimp only
  by_cases hend : (s.panic?.isSome || s.consistent || count ≤ s.removed.length) = true
  · rw [if_pos hend]
    exact ⟨hevictions.symm, hperm, Or.inl (h.walk_byRecency p.judge (some count) [])⟩
  rw [if_neg hend]
  simp only [Bool.or_eq_true, decide_eq_true_eq, not_or, Nat.not_le, Bool.not_eq_true] at hend
  obtain ⟨⟨-, hconsistent⟩, hshort⟩ := hend
  obtain ⟨hgoes, hunlinked⟩ := hmissed hconsistent
  -- The walk is resumed along the rebuilt list, with the questions of the first one.
  obtain ⟨hrebuilt, hlinked⟩ := (h.walk_orderly p.judge (some count) []).relink (lastUse s.memory)
  let s' := (s.table.relink (lastUse s.memory)).table.walk p.judge
    (some (count - s.removed.length)) s.memory
  have hperm' : (s'.removed ++ s'.table.nodes).Perm s.table.nodes := hrebuilt.walk_perm _ _ _
  have hfew : (p.evictions s.memory).length ≤ count := by
    rw [hevictions]
    exact Nat.le_of_lt hshort
  have hsecond := hrebuilt.walk_polls hgoes hfew
  rw [hevictions] at hsecond
  refine ⟨hsecond.1.symm, ?_, Or.inr ⟨hunlinked, ?_, rfl⟩⟩
  · show (s.removed ++ s'.removed ++ s'.table.nodes).Perm t.nodes
    rw [List.append_assoc]
    exact (hperm'.append_left s.removed).trans hperm
  · exact (hrebuilt.walk_allLinked_iff _ _ _).2 hlinked

/-! ## Refusals -/

/-- The key was refused by the table `t`, which is `t'` now, after the predicate had been asked. -/
structure Refused [DecidableEq K] (p : Predicate (Node K P)) (key : K) (t t' : Table K P)
    (capacity : Nat) (asked : List (Node K P)) : Prop where
  limit : capacity = t.maxCapacity
  absent : t.get? key = none ∧ t'.get? key = none
  /-- Only nodes that the predicate gave up can have gone. The others are there, and the linked ones
      in their order, unless a list from which nodes were missing was rebuilt. -/
  kept : ∃ gone, gone.Sublist (p.evictions asked) ∧ (gone ++ t'.nodes).Perm t.nodes ∧
    (t'.byRecency = without gone t.byRecency ∨
      ¬ t.AllLinked ∧ t'.AllLinked ∧ t'.repairs = t.repairs + 1)
  /-- Fewer nodes have gone than would have made room. -/
  full : capacity ≤ t'.size
  /-- A table that was not too large has lost nothing. -/
  unchanged : t.size ≤ capacity →
    t'.nodes.Perm t.nodes ∧ (t.AllLinked → t'.byRecency = t.byRecency)

theorem Orderly.refused [DecidableEq K] (h : t.Orderly) {key : K} {payload : Except String P}
    {lastUse : List (Node K P) → P → Nat} {capacity : Nat}
    (hr : t.perform (.getOrInsert key payload lastUse p) = (t', .full capacity asked)) :
    Refused p key t t' capacity asked := by
  let r := t.getOrInsert lastUse p.judge key payload []
  have htable : r.table = t' := congrArg Prod.fst hr
  have hreply : r.value.1.reply r.value.2 = .full capacity asked := congrArg Prod.snd hr
  cases hget : t.get? key with
  | some node =>
    have hoccupied : r = { table := t, value := (.occupied node key, []) } :=
      getOrInsert_present hget payload
    rw [hoccupied] at hreply
    cases hreply
  | none =>
    have hlodged : Lodged key payload (t.makeRoom lastUse p.judge []) r :=
      getOrInsert_lodged hget payload
    -- Of the four ends of an admission only one replies so.
    clear_value r
    cases hlodged with
    | unjudged => cases hreply
    | unmade => cases hreply
    | inserted => cases hreply
    | full hpanic hfull =>
      cases hreply
      subst htable
      let room := t.makeRoom lastUse p.judge []
      have hculled : Culled p t room := h.trim_culled lastUse p _
      have hroom : room.table.Orderly := h.trim lastUse p.judge [] _
      have hmax : room.table.maxCapacity = t.maxCapacity := trim_maxCapacity _ _ _ _ _
      have hperm := hculled.perm
      have hlength := hperm.length_eq
      rw [List.length_append, hroom.length_nodes, h.length_nodes] at hlength
      have hgone : room.value.removed.Sublist (p.evictions room.value.memory) :=
        hculled.removed ▸ List.Sublist.refl _
      have habsent : room.table.get? key = none := makeRoom_get? h.sound hget
      refine ⟨hmax, ⟨hget, habsent⟩, ⟨_, hgone, hperm, hculled.order⟩, hfull, fun hsize => ?_⟩
      -- With no more nodes than the maximum before, a full table has lost none.
      have hfew : room.table.maxCapacity ≤ room.table.size := hfull
      have hnone : room.value.removed = [] := by
        apply List.eq_nil_of_length_eq_zero
        have hsize' : t.size ≤ room.table.maxCapacity := hsize
        omega
      rw [hnone, List.nil_append] at hperm
      refine ⟨hperm, fun hall => ?_⟩
      rcases hculled.order with heq | ⟨hunlinked, -⟩
      · rw [heq, hnone, without_nil]
      · exact absurd hall hunlinked

end ReadThrough.Table
