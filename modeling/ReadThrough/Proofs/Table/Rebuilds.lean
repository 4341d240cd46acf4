import ReadThrough.Proofs.Table.Orders

/-! # Rebuilt Lists

  Whatever has become of the recency list, rebuilding it from the table links all nodes again, by
  the ticks at which they were last used.

  - **UsedAfter**: which of two nodes is nearer the front of a rebuilt list. Since no two nodes share
    a slot, this leaves only one order of all of them.
  - **Restored**: what a rebuild leaves behind.
  - **relink_restores**: every rebuild leaves that behind, and another one changes nothing.
-/

namespace ReadThrough.Table

open Buckets

variable {K P : Type} {t u : Table K P} {ticks : P → Nat}

/-! ## The order -/

/-- Whether `a` is nearer the front of a rebuilt list than `b`: it was used at a later tick, or at
    the same one and is in the higher slot. -/
def UsedAfter (ticks : P → Nat) (a b : Node K P) : Prop :=
  ticks b.payload < ticks a.payload ∨
    ticks b.payload = ticks a.payload ∧ b.slot < a.slot

instance (ticks : P → Nat) (a b : Node K P) : Decidable (UsedAfter ticks a b) :=
  inferInstanceAs (Decidable (_ ∨ _))

/-- Nodes that were used one after the other can be listed in one order only. -/
theorem eq_of_usedAfter {ns ns' : List (Node K P)} (hperm : ns.Perm ns')
    (h : ns.Pairwise (UsedAfter ticks)) (h' : ns'.Pairwise (UsedAfter ticks)) : ns = ns' := by
  apply hperm.eq_of_pairwise ?_ h h'
  intro a b _ _ hab hba
  unfold UsedAfter at hab hba
  omega

namespace Orderly

/-- The table links its nodes in the order of their uses. -/
theorem byUse_pairwise (h : t.Orderly) (ticks : P → Nat) :
    (byUse ticks t).Pairwise fun a b => UsedAfter ticks b.2 a.2 := by
  have hlink := byUse_mayLink ticks t
  have hslots := List.pairwise_map.1 (hlink.slots_nodup h)
  apply (byUse_sorted ticks t).and hslots |>.imp_of_mem
  intro a b ha hb hab
  obtain ⟨hbefore, hne⟩ := hab
  rw [linkedBefore_iff, (hlink.mem ha).2, (hlink.mem hb).2] at hbefore
  unfold UsedAfter
  omega

theorem relink_perm (h : t.Orderly) (ticks : P → Nat) :
    (t.relink ticks).table.byRecency.Perm t.nodes := by
  have hlink := byUse_mayLink ticks t
  have hby : (t.relink ticks).table.byRecency = _ := hlink.byRecency h
  rw [hby]
  exact (List.reverse_perm _).trans hlink.nodes

theorem relink_pairwise (h : t.Orderly) (ticks : P → Nat) :
    (t.relink ticks).table.byRecency.Pairwise (UsedAfter ticks) := by
  have hby : (t.relink ticks).table.byRecency = _ := (byUse_mayLink ticks t).byRecency h
  rw [hby, List.pairwise_reverse, List.pairwise_map]
  exact h.byUse_pairwise ticks

/-- The order depends on nothing but the nodes and their ticks. -/
theorem relink_unique {ticks' : P → Nat} (h : t.Orderly) (hu : u.Orderly) (hnodes : u.nodes = t.nodes)
    (hticks : ∀ n ∈ t.nodes, ticks' n.payload = ticks n.payload) :
    (u.relink ticks').table.byRecency = (t.relink ticks).table.byRecency := by
  have hperm := hu.relink_perm ticks'
  rw [hnodes] at hperm
  apply eq_of_usedAfter (hperm.trans (h.relink_perm ticks).symm) ?_ (h.relink_pairwise ticks)
  apply (hu.relink_pairwise ticks').imp_of_mem
  intro a b ha hb hab
  unfold UsedAfter at hab ⊢
  rwa [hticks a (hperm.mem_iff.1 ha), hticks b (hperm.mem_iff.1 hb)] at hab

theorem unlink_byRecency (h : t.Orderly) {n : Node K P} (hn : n ∈ t.nodes) :
    (t.unlink n).byRecency = others n.slot t.byRecency :=
  (h.linking.unlink (h.node? hn)).byRecency_eq

end Orderly

/-! ## Rebuilding -/

/-- The list of the table `t` has been rebuilt by ticks, which leaves the table `u`. -/
structure Restored [DecidableEq K] (ticks : P → Nat) (t u : Table K P) : Prop where
  /-- The nodes with their payloads and the buckets stay, and so does everything else but the list. -/
  kept : u = { t with recency := u.recency, repairs := t.repairs + 1 }
  all : u.byRecency.Perm t.nodes
  order : u.byRecency.Pairwise (UsedAfter ticks)
  /-- Every node can be moved to the front. -/
  touch : ∀ n ∈ t.nodes, (u.perform (.touch n)).2 = .truth true ∧
    (u.perform (.touch n)).1.byRecency = n :: others n.slot u.byRecency
  /-- Every node can be taken out of the list. -/
  unlink : ∀ n ∈ t.nodes, (u.perform (.unlink n)).2 = .truth true ∧
    (u.perform (.unlink n)).1.byRecency = others n.slot u.byRecency

theorem Orderly.restored [DecidableEq K] (h : t.Orderly) (ticks : P → Nat) :
    Restored ticks t (t.relink ticks).table := by
  obtain ⟨hu, hall⟩ := h.relink ticks
  have hcomplete := hu.allLinked_iff_complete.1 hall
  exact {
    kept := rfl
    all := h.relink_perm ticks
    order := h.relink_pairwise ticks
    touch := fun n hn => ⟨congrArg Reply.truth (hall n hn), (hcomplete.touch hn).2⟩
    unlink := fun n hn => ⟨congrArg Reply.truth (hall n hn), hu.unlink_byRecency hn⟩ }

/-- However many nodes were not linked, rebuilding the list links all of them, the one that was used
    last in front, and tells how many they are. Nothing else changes, and every node can be touched
    and unlinked again. A second rebuild leaves the list as it is. A later one comes to the same order
    as long as the nodes and their ticks are the same, whatever has become of the list by then. -/
theorem relink_restores [DecidableEq K] (h : t.Reachable) (ticks : P → Nat) :
    let r := t.relink ticks
    r.value = t.size ∧ Restored ticks t r.table ∧
      (r.table.relink ticks).table = { r.table with repairs := r.table.repairs + 1 } ∧
      ∀ (u : Table K P) (ticks' : P → Nat), u.Reachable → u.nodes = t.nodes →
        (∀ n ∈ t.nodes, ticks' n.payload = ticks n.payload) →
        (u.relink ticks').table.byRecency = r.table.byRecency :=
  ⟨h.orderly.length_nodes, h.orderly.restored ticks, rfl,
    fun _ _ hu hnodes hticks => h.orderly.relink_unique hu.orderly hnodes hticks⟩

/-- The second of three nodes has left, a fourth one has its slot, and the first and the third one,
    which were used at the same tick, are not linked. They come back in front of the fourth, the third
    one first. When the first one has been touched, another rebuild puts it back. -/
theorem relink_restores_recycled :
    let insert (key tick : Nat) : Operation (Node Nat Nat) Nat Nat :=
      .getOrInsert key (.ok tick) (fun _ used => used) fun _ _ => .keep
    let node (slot generation tick : Nat) (key : Nat) : Node Nat Nat :=
      { hash := key.toUInt64, slot, generation, key, payload := tick }
    let full : Table Nat Nat :=
      ((((((Table.empty 0 9 .standard Nat.toUInt64).perform (insert 1 5)).1.perform
        (insert 2 3)).1.perform (insert 3 5)).1.perform (.remove 2)).1.perform (insert 4 3)).1
    let t := ((full.perform (.unlink (node 2 1 5 1))).1.perform (.unlink (node 4 3 5 3))).1
    let r := t.relink id
    let u := (r.table.perform (.touch (node 2 1 5 1))).1
    t.Reachable ∧ t.byRecency = [node 3 4 3 4] ∧
      r.value = t.size ∧ Restored id t r.table ∧
      r.table.byRecency = [node 4 3 5 3, node 2 1 5 1, node 3 4 3 4] ∧
      (r.table.relink id).table = { r.table with repairs := r.table.repairs + 1 } ∧
      u.byRecency = [node 2 1 5 1, node 4 3 5 3, node 3 4 3 4] ∧
      (u.relink id).table.byRecency = r.table.byRecency := by
  intro insert node full t r u
  have hfull : full.Reachable := .perform _ (.perform _ (.perform _ (.perform _ (.perform _
    (.empty 0 9 .standard _) rfl) rfl) rfl) rfl) rfl
  have ht : t.Reachable := .performOn _ (.performOn _ hfull hfull (by decide +kernel) rfl) hfull
    (by decide +kernel) rfl
  have hr : r.table.Reachable := .perform (.relink id) ht rfl
  have hu : u.Reachable := .performOn _ hr hfull (by decide +kernel) rfl
  have hnodes : u.nodes = t.nodes := by decide +kernel
  obtain ⟨hcount, hrestored, hagain, hlater⟩ := relink_restores ht id
  -- The nodes and their uses leave only one order.
  have horder : r.table.byRecency = [node 4 3 5 3, node 2 1 5 1, node 3 4 3 4] :=
    eq_of_usedAfter (hrestored.all.trans (by decide +kernel)) hrestored.order (by decide +kernel)
  have htouched : u.byRecency = _ := (hrestored.touch (node 2 1 5 1) (by decide +kernel)).2
  rw [horder] at htouched
  exact ⟨ht, by decide +kernel, hcount, hrestored, horder, hagain, htouched,
    hlater u id hu hnodes fun _ _ => rfl⟩

end ReadThrough.Table
