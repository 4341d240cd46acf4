import ReadThrough.Proofs.Table.Tours

/-! # Handles of Nodes

  What becomes of the order of a table, and of the handles of nodes that may have left it.

  - **Sheds**: nodes leave the table and those that are left stay in their order.
  - **Advances**: nodes leave the table or come to it, each with a generation of its own.
  - **Onward**: the same, and all nodes of the table are linked afterwards.
  - **Knows**: the table can tell a node from every other one that it holds, so the handle of a node
    that has left the table does nothing.
-/

namespace ReadThrough.Table

open Buckets RecencyList

variable {K P σ : Type} {t t' t'' : Table K P} {node : Node K P}

/-! ## Nodes leave -/

/-- Nodes leave the table, and those that are left stay in their order. -/
structure Sheds (t t' : Table K P) : Prop where
  complete : t'.Complete
  byRecency : t'.byRecency.Sublist t.byRecency
  generation : t'.buckets.nextGeneration = t.buckets.nextGeneration

theorem Sheds.refl (h : t.Complete) : t.Sheds t :=
  ⟨h, List.Sublist.refl _, rfl⟩

theorem Sheds.trans (h : t.Sheds t') (h' : t'.Sheds t'') : t.Sheds t'' :=
  ⟨h'.complete, h'.byRecency.trans h.byRecency, h'.generation.trans h.generation⟩

theorem removeNode_generation (b : Buckets K P) (node : Node K P) :
    (b.removeNode node).1.nextGeneration = b.nextGeneration := by
  rcases b.removeNode_cases node with heq | ⟨-, -, he⟩
  · rw [heq]
  · exact he.generation

/-- A walk takes nodes out and makes none. -/
theorem keeps_generation (judge : Judge K P σ) (g : Nat) :
    judge.Keeps fun b _ => b.nextGeneration = g where
  spare := fun _ _ _ _ _ _ _ h => h
  evict := fun b _ _ _ node _ _ h => (removeNode_generation b node).trans h

namespace Complete

variable (h : t.Complete)

include h

theorem sheds_remove [DecidableEq K] (key : K) : t.Sheds (t.remove key).1 := by
  unfold Table.remove
  split
  · exact .refl h
  · next node hget =>
    obtain ⟨hn, -⟩ := h.sound.get?_eq_some_iff.1 hget
    obtain ⟨hcomplete, hby⟩ := h.removeNode hn
    refine ⟨hcomplete, hby ▸ others_sublist _ _, ?_⟩
    rw [(removeNode_buckets node t).1, removeNode_generation]

theorem sheds_clear : t.Sheds t.clear.1 := by
  obtain ⟨hcomplete, hby⟩ := h.clear
  exact ⟨hcomplete, hby ▸ List.nil_sublist _, rfl⟩

theorem sheds_pinch : t.Sheds t.pinch.table := by
  obtain ⟨hcomplete, hby⟩ := h.pinch
  refine ⟨hcomplete, hby ▸ List.Sublist.refl _, ?_⟩
  unfold Table.pinch
  split
  · exact h.sound.pinch_contents.2.2.2
  · rfl

theorem sheds_setMaxCapacity (n : Nat) : t.Sheds (t.setMaxCapacity n) :=
  ⟨h, List.Sublist.refl _, rfl⟩

theorem sheds_sweep (lastUse : σ → P → Nat) (judge : Judge K P σ) (m : σ) :
    t.Sheds (t.sweep lastUse judge m).table := by
  obtain ⟨hcomplete, hby, -, -⟩ := h.sweep lastUse judge m
  refine ⟨hcomplete, ?_, sweep_keeps lastUse (keeps_generation judge _) rfl⟩
  rw [hby, ← List.reverse_sublist, List.reverse_reverse]
  exact judge.tour_left _ _ _

theorem sheds_trim (lastUse : σ → P → Nat) (judge : Judge K P σ) (count : Nat) (m : σ) :
    t.Sheds (t.trim lastUse judge count m).table := by
  obtain ⟨hcomplete, hby⟩ := h.trim lastUse judge count m
  exact ⟨hcomplete, hby, trim_keeps lastUse (keeps_generation judge _) count rfl⟩

end Complete

theorem shrinking_sheds : Shrinking fun t t' : Table K P => t.Complete → t.Sheds t' where
  refl := fun _ => .refl
  trans := fun hs hs' h => (hs h).trans (hs' (hs h).complete)
  setMaxCapacity := fun n _ h => h.sheds_setMaxCapacity n
  clear := fun _ h => h.sheds_clear
  pinch := fun _ h => h.sheds_pinch
  sweep := fun lastUse judge m _ h => h.sheds_sweep lastUse judge m
  trim := fun lastUse judge count m _ h => h.sheds_trim lastUse judge count m

theorem Sheds.mem (hs : t.Sheds t') (h : t.Complete) (hn : node ∈ t'.nodes) : node ∈ t.nodes :=
  h.mem_byRecency.1 (hs.byRecency.subset (hs.complete.mem_byRecency.2 hn))

/-- A key that was absent stays so. -/
theorem Sheds.absent [DecidableEq K] (hs : t.Sheds t') (h : t.Complete) {key : K}
    (hget : t.get? key = none) (n : Node K P) (hn : n ∈ t'.nodes) : n.key ≠ key :=
  h.sound.get?_eq_none_iff.1 hget n (hs.mem h hn)

/-- An absent key is inserted in front of the nodes that are left, or not at all. -/
theorem Complete.getOrInsert [DecidableEq K] (h : t.Complete) (lastUse : σ → P → Nat)
    (judge : Judge K P σ) {key : K} (hget : t.get? key = none) (payload : P) (m : σ) :
    t.Sheds (t.getOrInsert lastUse judge key (.ok payload) m).table ∨
      ∃ room, t.Sheds room ∧ (t.getOrInsert lastUse judge key (.ok payload) m).table =
        (room.insertNew key payload).table := by
  have hroom : t.Sheds (t.makeRoom lastUse judge m).table := h.sheds_trim lastUse judge _ m
  unfold Table.getOrInsert
  dsimp only
  rw [hget]
  dsimp only
  split
  · exact .inl hroom
  · split
    · exact .inl hroom
    · exact .inr ⟨_, hroom, rfl⟩

/-! ## Nodes come and go -/

/-- Nodes leave the table or come to it; those that come have generations of their own. -/
structure Advances (t t' : Table K P) : Prop where
  generation : t.buckets.nextGeneration ≤ t'.buckets.nextGeneration
  nodes : ∀ n ∈ t'.nodes, n ∈ t.nodes ∨ t.buckets.nextGeneration ≤ n.generation

theorem Advances.trans (h : t.Advances t') (h' : t'.Advances t'') : t.Advances t'' where
  generation := Nat.le_trans h.generation h'.generation
  nodes := by
    intro n hn
    rcases h'.nodes n hn with hn | hgeneration
    · exact h.nodes n hn
    · exact .inr (Nat.le_trans h.generation hgeneration)

theorem Sound.advances_insertNew (h : t.Sound) {key : K} (payload : P)
    (habsent : ∀ n ∈ t.nodes, n.key ≠ key) : t.Advances (t.insertNew key payload).table := by
  obtain ⟨-, hnodes⟩ := h.insertNew habsent payload
  obtain ⟨hbuckets, -, hvalue⟩ := insertNew_buckets key payload t
  have hinsert : (t.buckets.insert (t.hashOf key) key payload).Sound t.hashOf :=
    Buckets.Sound.insert h rfl fun s n hn => habsent n (mem_nodes.2 ⟨s, hn⟩)
  have hnext : (t.buckets.insert (t.hashOf key) key payload).nextGeneration =
      t.buckets.nextGeneration + 1 := rfl
  refine ⟨?_, fun n hn => ?_⟩
  · rcases hbuckets with heq | heq
    · rw [heq, hnext]
      exact Nat.le_succ _
    · rw [heq, hinsert.grow.1.generation, hnext]
      exact Nat.le_succ _
  · rcases (hnodes n).1 hn with rfl | hold
    · rw [hvalue]
      exact .inr (Nat.le_refl _)
    · exact .inl hold

/-- Nodes leave the table or come to it, and all that are there afterwards are linked. -/
structure Onward (t t' : Table K P) : Prop extends Advances t t' where
  complete : t'.Complete

theorem Sheds.onward (hs : t.Sheds t') (h : t.Complete) : t.Onward t' where
  complete := hs.complete
  generation := Nat.le_of_eq hs.generation.symm
  nodes := fun _ hn => .inl (hs.mem h hn)

theorem Complete.onward_insertNew (h : t.Complete) {key : K} (payload : P)
    (habsent : ∀ n ∈ t.nodes, n.key ≠ key) : t.Onward (t.insertNew key payload).table :=
  ⟨h.sound.advances_insertNew payload habsent, (h.insertNew payload habsent).1⟩

theorem Onward.trans (h : t.Onward t') (h' : t'.Onward t'') : t.Onward t'' :=
  ⟨h.toAdvances.trans h'.toAdvances, h'.complete⟩

/-! ## Handles -/

/-- The table tells the node from every other one that it holds or will hold. -/
structure Knows (t : Table K P) (node : Node K P) : Prop where
  slot : reserved ≤ node.slot
  generation : node.generation < t.buckets.nextGeneration
  unique : ∀ n ∈ t.nodes, n.generation = node.generation → n = node

theorem Sound.knows (h : t.Sound) (hn : node ∈ t.nodes) : t.Knows node := by
  obtain ⟨s, hs⟩ := mem_nodes.1 hn
  obtain ⟨rfl, hslot⟩ := h.slot s node hs
  exact ⟨hslot, h.generation _ node hs, fun n hmem => Buckets.Sound.eq_of_generation h hmem hn⟩

theorem Complete.knows (h : t.Complete) (hn : node ∈ t.nodes) : t.Knows node :=
  h.sound.knows hn

theorem Knows.advances (hk : t.Knows node) (h : t.Advances t') : t'.Knows node where
  slot := hk.slot
  generation := Nat.lt_of_lt_of_le hk.generation h.generation
  unique := by
    intro n hn hgeneration
    rcases h.nodes n hn with hold | hnew
    · exact hk.unique n hold hgeneration
    · have hlt := hk.generation
      omega

theorem Knows.onward (hk : t.Knows node) (h : t.Onward t') : t'.Knows node :=
  hk.advances h.toAdvances

/-- Only a linked node moves. -/
theorem touch_eq_self (hloose : t.isLinked node = false) : t.touch node = t := by
  unfold Table.isLinked at hloose
  unfold Table.touch
  dsimp only
  rw [RecencyList.touch, hloose, if_neg (by simp)]

theorem unlink_eq_self (hloose : t.isLinked node = false) : t.unlink node = t := by
  unfold Table.isLinked at hloose
  unfold Table.unlink
  dsimp only
  rw [RecencyList.unlink, hloose, if_neg (by simp)]

/-- The handle of a node that has left the table moves nothing. -/
theorem Knows.touch_of_not_mem (hk : t.Knows node) (h : t.Complete) (hnot : node ∉ t.nodes) :
    t.touch node = t := by
  apply touch_eq_self
  rw [Table.isLinked, RecencyList.isLinked, beq_eq_false_iff_ne]
  intro hlinked
  obtain ⟨n, hn, hgeneration⟩ := h.ordered.matched _ _ hk.slot hlinked
  have hmem : n ∈ t.nodes := mem_nodes.2 ⟨_, hn⟩
  exact hnot (hk.unique n hmem hgeneration ▸ hmem)

theorem Knows.onward_touch (hk : t.Knows node) (h : t.Complete) : t.Onward (t.touch node) := by
  by_cases hn : node ∈ t.nodes
  · exact ⟨⟨Nat.le_refl _, fun n hmem => .inl hmem⟩, (h.touch hn).1⟩
  · rw [hk.touch_of_not_mem h hn]
    exact (Sheds.refl h).onward h

end ReadThrough.Table
