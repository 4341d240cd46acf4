import Mathlib.Data.List.Dedup
import ReadThrough.Proofs.Recency.Uses

/-! # The Latest Uses

  The entries of the table stand in the order of their last uses, whatever a single caller does.

  - **dedup_concat**: a list of uses, each entry at its last one, when there is one more use.
  - **Follows**: the order is that of the last uses; **Follows.turned** is the step.
  - **moveAll_order**: this is so after every run of moves, and no move turns the order of the
    entries that it does not use.
-/

namespace ReadThrough

open Cache

variable {K V : Type}

/-! ## Lists of uses -/

/-- One more use of an entry is its last one. -/
theorem dedup_concat (us : List EntryId) (id : EntryId) :
    (us ++ [id]).dedup = (us.dedup.filter fun other => other ≠ id) ++ [id] := by
  induction us with
  | nil => rfl
  | cons first us ih =>
    rw [List.cons_append]
    by_cases hmem : first ∈ us
    · rw [List.dedup_cons_of_mem (List.mem_append_left _ hmem), List.dedup_cons_of_mem hmem, ih]
    · rw [List.dedup_cons_of_notMem hmem]
      by_cases hlast : first = id
      · rw [List.dedup_cons_of_mem (by simp [hlast]), ih, List.filter_cons_of_neg (by simp [hlast])]
      · rw [List.dedup_cons_of_notMem (by simp [hmem, hlast]), ih,
          List.filter_cons_of_pos (by simp [hlast]), List.cons_append]

/-- What is in order and without repetition is told by what there is. -/
theorem eq_filter_of_sublist {ids all : List EntryId} (hall : all.Nodup) (h : ids.Sublist all) :
    ids = all.filter (· ∈ ids) := by
  have hsub : ids.Sublist (all.filter (· ∈ ids)) := by
    have hfilter := h.filter (· ∈ ids)
    rwa [List.filter_eq_self.2 (by simp)] at hfilter
  refine hsub.eq_of_length_le ((hall.filter _).subperm fun id hid => ?_).length_le
  simpa using (List.mem_filter.1 hid).2

/-! ## Runs -/

/-- The entries of the table stand in the order of their last uses, the latest one first. -/
def Cache.Follows (us : List EntryId) (c : Cache K V) : Prop :=
  c.order.Sublist us.dedup.reverse

/-- At most one entry is used, and it comes to stand in front. -/
theorem Cache.Follows.turned {us : List EntryId} {u : Option EntryId} {tick : Nat}
    {c c' : Cache K V} (h : c.Follows us) (hturned : Turned tick u c c') :
    c'.Follows (us ++ u.toList) := by
  cases u with
  | none =>
    have hsub : c'.order.Sublist c.order := by simpa using hturned.order
    simpa [Follows] using hsub.trans h
  | some id =>
    have hothers : (fun other => decide (some id ≠ some other)) =
        fun other => decide (other ≠ id) := by
      funext other
      simp [eq_comm]
    rw [Follows, Option.toList_some, dedup_concat, List.reverse_append, ← List.filter_reverse]
    refine hturned.order.trans ?_
    rw [hothers]
    exact (h.filter _).cons_cons id

/-- What is not used is left in order. -/
theorem Cache.Turned.unused {u : Option EntryId} {tick : Nat} {c c' : Cache K V}
    (h : Turned tick u c c') : (c'.order.filter fun id => u ≠ some id).Sublist c.order := by
  refine (h.order.filter _).trans ?_
  cases u with
  | none => simp
  | some id =>
    rw [List.filter_append, List.filter_eq_nil_iff.2 (by simp), List.nil_append]
    exact List.filter_sublist.trans List.filter_sublist

namespace System

variable [DecidableEq K] {s : System K V}

/-- What a run of moves makes of the order. -/
theorem Reachable.follows_moveAll (hs : s.Reachable) (hrest : s.Resting) {us : List EntryId}
    (h : s.cache.Follows us) (ms : List (Move K V)) :
    (s.moveAll ms).cache.Follows (us ++ s.uses ms) := by
  induction ms generalizing s us with
  | nil =>
    rw [uses, List.append_nil]
    exact h
  | cons m ms ih =>
    have hnext := ih (hs.move m) (hrest.move hs m) (h.turned (hs.move_turned hrest m))
    rw [uses, ← List.append_assoc]
    exact hnext

end System

/-- After every run of a single caller the entries of the table, from the most to the least recently
    used one, are those of the table in the order of their last uses, the latest one first. No move
    turns the order of the entries that it does not use. -/
theorem moveAll_order [DecidableEq K] (config : Config) (clock : Clock) (hashOf : K → UInt64)
    (ms : List (Move K V)) :
    let s₀ : System K V := System.new config clock hashOf
    let s := s₀.moveAll ms
    s.cache.order.Perm (s.cache.table.nodes.map Table.Node.payload) ∧
      s.cache.order = (s₀.uses ms).dedup.reverse.filter
        (· ∈ s.cache.table.nodes.map Table.Node.payload) ∧
      ∀ m, ((s.move m).cache.order.filter fun id => s.use? m ≠ some id).Sublist s.cache.order := by
  intro s₀ s
  have hs₀ : s₀.Reachable := System.reachable_new config clock hashOf
  have hrest₀ : s₀.Resting := System.resting_new config clock hashOf
  have hs := hs₀.moveAll ms
  have hrest := hrest₀.moveAll hs₀ ms
  have hperm := hs.filed.complete.perm.map Table.Node.payload
  refine ⟨hperm, ?_, fun m => (hs.move_turned hrest m).unused⟩
  have hnew : s₀.cache.Follows [] := List.Sublist.refl _
  have hfollows := hs₀.follows_moveAll hrest₀ hnew ms
  have heq := eq_filter_of_sublist (List.nodup_reverse.2 (List.nodup_dedup _)) hfollows
  exact heq.trans (List.filter_congr fun id _ => decide_eq_decide.2 hperm.mem_iff)

end ReadThrough
