import ReadThrough.Proofs.Table.Custody
import ReadThrough.Proofs.Table.Headroom

/-! # What a Pinch Leaves

  A pinch goes as far as it can, so that there is nothing that another one could give back, and
  nobody sees that it has happened.

  - **Settled**: the nodes are not sparse and the slab ends behind its last node.
  - **Pinched**: what holds of the buckets and the slab after a pinch.
  - **Unseen**: what holds of the nodes and the handles after it.
  - **pinch_invisible**: both, and operations that follow get the answers they would have got.
-/

namespace ReadThrough.Table

variable {K P : Type}

/-! ## The end of a pinch -/

namespace Buckets

variable {hashOf : K → UInt64} {b : Buckets K P}

/-- As many halvings as there are doublings from the least number of buckets on are enough. -/
theorem isSparse_shrinkFor {fuel : Nat} (h : b.heads.size ≤ LoadFactor.leastBuckets * 2 ^ fuel) :
    (shrinkFor fuel b).isSparse = false := by
  induction fuel generalizing b with
  | zero =>
    have hleast : ¬LoadFactor.leastBuckets < b.heads.size := by
      rw [Nat.pow_zero, Nat.mul_one] at h
      exact Nat.not_lt.2 h
    simp [Buckets.shrinkFor, isSparse, hleast]
  | succ fuel ih =>
    unfold Buckets.shrinkFor
    split
    · apply ih
      rw [size_heads_halve]
      rw [Nat.pow_succ, ← Nat.mul_assoc] at h
      omega
    · next hdense => exact Bool.eq_false_iff.2 hdense

/-- The occupied slots end behind an occupied one, or there are none. -/
theorem occupiedEnd_cases (b : Buckets K P) (n : Nat) :
    b.occupiedEnd n = reserved ∨ (b.node? (b.occupiedEnd n - 1)).isSome := by
  induction n with
  | zero => exact .inl rfl
  | succ n ih =>
    unfold occupiedEnd
    split
    · next hsome => exact .inr hsome
    · exact ih

/-- Buckets that cannot be pinched. -/
structure Settled (b : Buckets K P) : Prop where
  dense : b.isSparse = false
  full : b.occupiedEnd b.cells.size = b.cells.size

theorem Settled.canPinch (h : b.Settled) : b.canPinch = false := by
  rw [Buckets.canPinch, h.dense, h.full, Bool.false_or, decide_eq_false_iff_not]
  exact Nat.lt_irrefl _

theorem Sound.settled (h : b.Sound hashOf) (hcannot : b.canPinch = false) : b.Settled := by
  obtain ⟨-, hle, -⟩ := h.toStocked.occupiedEnd_spec b.cells.size
  rw [Buckets.canPinch, Bool.or_eq_false_iff, decide_eq_false_iff_not] at hcannot
  have hslab := h.slab
  exact ⟨hcannot.1, by omega⟩

theorem Sound.size_cells_cutSlab (h : b.Sound hashOf) :
    b.cutSlab.cells.size = b.occupiedEnd b.cells.size := by
  obtain ⟨-, hle, -⟩ := h.toStocked.occupiedEnd_spec b.cells.size
  have hslab := h.slab
  simp only [Buckets.cutSlab, Array.take_eq_extract, Array.size_extract]
  omega

/-- A slab that was cut ends where its occupied slots do. -/
theorem Sound.occupiedEnd_cutSlab (h : b.Sound hashOf) :
    b.cutSlab.occupiedEnd b.cutSlab.cells.size = b.cutSlab.cells.size := by
  obtain ⟨hres, hle, hall⟩ := h.cutSlab.toStocked.occupiedEnd_spec b.cutSlab.cells.size
  have hslab := h.cutSlab.slab
  rcases b.occupiedEnd_cases b.cells.size with hnone | hlast
  · rw [← h.size_cells_cutSlab] at hnone
    omega
  · -- The last slot is occupied, so it lies before the end.
    rw [← h.size_cells_cutSlab, ← h.toStocked.node?_cutSlab] at hlast
    unfold reserved at hslab hle
    have hlt := hall _ (by omega) hlast
    omega

theorem Sound.settled_pinch (h : b.Sound hashOf) : b.pinch.Settled := by
  obtain ⟨-, hs⟩ := h.shrinkFor b.heads.size.log2
  refine ⟨?_, hs.occupiedEnd_cutSlab⟩
  -- Cutting the slab does not touch the buckets.
  show (Buckets.shrinkFor b.heads.size.log2 b).isSparse = false
  apply isSparse_shrinkFor
  have hlog := Nat.lt_log2_self (n := b.heads.size)
  rw [Nat.pow_succ] at hlog
  unfold LoadFactor.leastBuckets
  omega

end Buckets

/-! ## Tables -/

variable {t : Table K P}

theorem Sound.settled_pinch (h : t.Sound) : t.pinch.table.buckets.Settled := by
  unfold Table.pinch
  split
  · exact Buckets.Sound.settled_pinch h
  · next hcannot => exact Buckets.Sound.settled h (Bool.eq_false_iff.2 hcannot)

/-- The table `u` is what a pinch of the table `t` has left. -/
structure Pinched (t u : Table K P) : Prop where
  /-- The buckets are as few as they can be, or not eight times too many. -/
  buckets : u.bucketCount = LoadFactor.leastBuckets ∨ u.capacity / 8 ≤ u.size
  /-- The slab has only the slots that hold no nodes, or ends in an occupied one. -/
  slab : u.buckets.cells.size = Buckets.reserved ∨
    (u.buckets.node? (u.buckets.cells.size - 1)).isSome
  /-- The vacant slots that were cut off are forgotten; the others are used in the same order. -/
  vacant : u.buckets.vacant = t.buckets.vacant.filter (· < u.buckets.cells.size)
  again : u.pinch = { table := u, value := false }

/-- The vacant slots of a table that was pinched. -/
theorem Sound.vacant_pinch (h : t.Sound) : t.pinch.table.buckets.vacant =
    t.buckets.vacant.filter (· < t.pinch.table.buckets.cells.size) := by
  unfold Table.pinch
  split
  · obtain ⟨hcontents, hvacant, -, -⟩ := Buckets.Sound.pinch_contents h
    obtain ⟨-, hle, -⟩ := h.toStocked.occupiedEnd_spec t.buckets.cells.size
    have hslab := h.slab
    have hsize : t.buckets.pinch.cells.size = t.buckets.occupiedEnd t.buckets.cells.size := by
      rw [← Buckets.length_contents, hcontents, List.length_take, Buckets.length_contents]
      omega
    show t.buckets.pinch.vacant = t.buckets.vacant.filter (· < t.buckets.pinch.cells.size)
    rw [hvacant, hsize]
  · refine (List.filter_eq_self.2 fun slot hslot => ?_).symm
    exact decide_eq_true (h.vacant slot hslot).1

theorem Reachable.pinched [DecidableEq K] (h : t.Reachable) : Pinched t t.pinch.table := by
  have hafter : t.pinch.table.Reachable := .perform .pinch h rfl
  have hmetered := hafter.roomy.metered
  have hsettled := Sound.settled_pinch h.orderly.sound
  obtain ⟨j, hj⟩ := hafter.orderly.sound.sized
  refine ⟨?_, ?_, Sound.vacant_pinch h.orderly.sound, ?_⟩
  · have hdense := hsettled.dense
    rw [Buckets.isSparse, Bool.and_eq_false_iff, decide_eq_false_iff_not,
      decide_eq_false_iff_not, ← hmetered] at hdense
    -- The buckets are few already, or there are enough nodes for them.
    rcases hdense with hleast | hmany
    · left
      show t.pinch.table.buckets.heads.size = _
      have hpos := Nat.two_pow_pos j
      unfold LoadFactor.leastBuckets at *
      omega
    · exact .inr (Nat.not_lt.1 hmany)
  · rcases Buckets.occupiedEnd_cases t.pinch.table.buckets t.pinch.table.buckets.cells.size with
      hnone | hlast
    · rw [hsettled.full] at hnone
      exact .inl hnone
    · rw [hsettled.full] at hlast
      exact .inr hlast
  · generalize t.pinch.table = u at hsettled
    unfold Table.pinch
    rw [hsettled.canPinch, if_neg (by simp)]

/-! ## Nothing to be seen -/

section

variable [DecidableEq K] {given : List (Node K P)}

/-- The table `u` holds what the table `t` holds, and takes the same handles of those that were
    given away. -/
structure Unseen (given : List (Node K P)) (t u : Table K P) : Prop where
  nodes : u.nodes = t.nodes
  get? : ∀ key, u.get? key = t.get? key
  byRecency : u.byRecency = t.byRecency
  size : u.size = t.size
  touch : ∀ n ∈ given, (u.perform (.touch n)).2 = (t.perform (.touch n)).2
  unlink : ∀ n ∈ given, (u.perform (.unlink n)).2 = (t.perform (.unlink n)).2
  removeNode : ∀ n ∈ given, (u.perform (.removeNode n)).2 = (t.perform (.removeNode n)).2

theorem ReachableGiving.pinch (h : ReachableGiving given t) :
    ReachableGiving given t.pinch.table := by
  have hpinched := ReachableGiving.perform .pinch h nofun
  rwa [show (t.perform .pinch).2.handles = [] from rfl, List.append_nil] at hpinched

theorem ReachableGiving.unseen (h : ReachableGiving given t) : Unseen given t t.pinch.table := by
  have ht := h.guards
  have hu := h.pinch.guards
  have htwins := ht.orderly.twins_pinch
  have hnodes : t.pinch.table.nodes = t.nodes := Sound.pinch_nodes ht.orderly.sound
  have hlinked : ∀ n ∈ given, t.pinch.table.isLinked n = t.isLinked n := fun n hn =>
    htwins.isLinked_eq (ht.knows n hn) (hu.knows n hn) rfl
  exact {
    nodes := hnodes
    get? := by
      intro key
      apply Option.ext
      intro n
      rw [Sound.get?_eq_some_iff hu.orderly.sound, Sound.get?_eq_some_iff ht.orderly.sound, hnodes]
    byRecency := ht.orderly.pinch_byRecency
    size := htwins.size
    touch := fun n hn => congrArg Reply.truth (hlinked n hn)
    unlink := fun n hn => congrArg Reply.truth (hlinked n hn)
    removeNode := fun n hn =>
      congrArg Reply.truth (htwins.removeNode (ht.knows n hn) (hu.knows n hn) rfl).2 }

/-- Every reachable table has given some nodes away. -/
theorem Reachable.exists_giving (h : t.Reachable) : ∃ given, ReachableGiving given t := by
  induction h with
  | empty initial maxCapacity loadFactor hashOf =>
    exact ⟨[], .empty initial maxCapacity loadFactor hashOf⟩
  | perform o ht hnone ih =>
    obtain ⟨given, hgiving⟩ := ih
    exact ⟨_, hgiving.perform o fun node hnode => by rw [hnone] at hnode; cases hnode⟩
  | @performOn t t' node o ht ht' hmem hnode ih ih' =>
    obtain ⟨given, hgiving⟩ := ih
    refine ⟨_, hgiving.perform o fun n hn => .inr ⟨t', ht', ?_⟩⟩
    rw [hnode] at hn
    rwa [← Option.some.inj hn]

/-- Whatever was done to a table, nobody sees that it is pinched. The nodes, their order, what is
    found and which handles are good for something stay as they are. Afterwards there is no bucket
    and no slot too many, so that another pinch changes nothing.

    Operations that follow, with handles of the table's own, get the same answers with the pinch as
    without it, except that nodes are listed in another order of slots, as long as nodes with equal
    ticks are linked in the same order whenever the list is rebuilt. Where they are not, the answers
    are those that the table may give without the pinch, in another order of such nodes. -/
theorem pinch_invisible (h : ReachableGiving given t) :
    let u := t.pinch.table
    let c : Custody K P := { table := t, given }
    let c' : Custody K P := { table := u, given }
    Unseen given t u ∧ Pinched t u ∧
      (∀ (os : List (Operation (Face K P) K P)) (o : Operation (Face K P) K P), c.RunsAlike c' os →
        (o.resumes = true → RebuiltAlike ((c.after os).rebuilt? o) ((c'.after os).rebuilt? o)) →
        o.Agree ((c.after os).ask o).2 ((c'.after os).ask o).2) ∧
      ∀ os : List (Operation (Face K P) K P),
        ∃ rs, c.Answers os rs ∧ AgreeAll os rs (c'.answers os) := by
  intro u c c'
  have hpaired : Paired c c' :=
    ⟨h.guards.orderly.twins_pinch, h.guards, h.pinch.guards, fun _ => Iff.rfl⟩
  exact ⟨h.unseen, h.knows.1.pinched, fun os o hruns hties => (hpaired.after hruns).agree o hties,
    hpaired.exists_answers⟩

end

/-- Of four nodes in too many buckets the second and the last have left. The pinch cuts the last slot
    off, so that two nodes which come later swap their slots. A list that is rebuilt after a sweep
    does not show it, unless all nodes were used at the same tick. -/
theorem pinch_invisible_swapped :
    let insert {N : Type} (key : Nat) : Operation N Nat Nat :=
      .getOrInsert key (.ok key) (fun _ used => used) fun _ _ => .keep
    let full : Table Nat Nat :=
      ((((Table.empty 20 9 .standard Nat.toUInt64).perform (insert 1)).1.perform (insert 2)).1.perform
        (insert 3)).1.perform (insert 4) |>.1
    let t := ((full.perform (.remove 2)).1.perform (.remove 4)).1
    let u := t.pinch.table
    let first : Face Nat Nat := { hash := 1, generation := 1, key := 1, payload := 1 }
    let swept : List (Operation (Face Nat Nat) Nat Nat) :=
      [insert 5, insert 6, .unlink first, .sweep (fun _ used => used) fun _ _ => .keep]
    let tied : List (Operation (Face Nat Nat) Nat Nat) :=
      [insert 5, insert 6, .relink fun _ => 0, .byRecency]
    ∃ given, ReachableGiving given t ∧ Unseen given t u ∧ Pinched t u ∧
      t.bucketCount = 32 ∧ u.bucketCount = 16 ∧
      t.buckets.vacant = [5, 3] ∧ u.buckets.vacant = [3] ∧
      let c : Custody Nat Nat := { table := t, given }
      let c' : Custody Nat Nat := { table := u, given }
      c.RunsAlike c' swept ∧
        ((c'.after swept).ask .byRecency).2 = ((c.after swept).ask .byRecency).2 ∧
        (c.after swept).table.nodes.map Node.key = [1, 6, 3, 5] ∧
        (c'.after swept).table.nodes.map Node.key = [1, 5, 3, 6] ∧
        ¬c.RunsAlike c' tied ∧ ∃ rs, c.Answers tied rs ∧ AgreeAll tied rs (c'.answers tied) := by
  intro insert full t u first swept tied
  have hgiving : ReachableGiving _ t :=
    .perform _ (.perform _ (.perform _ (.perform _ (.perform _ (.perform _
      (.empty 20 9 .standard _) nofun) nofun) nofun) nofun) nofun) nofun
  obtain ⟨hunseen, hpinched, hagree, hanswers⟩ := pinch_invisible hgiving
  refine ⟨_, hgiving, hunseen, hpinched, by decide +kernel, by decide +kernel, by decide +kernel,
    by decide +kernel, ?_⟩
  intro c c'
  -- The run with the sweep goes alike on both sides, so the general theorem speaks about it.
  have hruns : c.RunsAlike c' swept := by decide +kernel
  exact ⟨hruns, hagree swept .byRecency hruns nofun, by decide +kernel, by decide +kernel,
    by decide +kernel, hanswers tied⟩

end ReadThrough.Table
