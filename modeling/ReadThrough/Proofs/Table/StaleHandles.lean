import ReadThrough.Proofs.Table.Admissions
import ReadThrough.Proofs.Table.Handles

/-! # Stale Handles

  Whoever has been given a node can keep it as a handle for as long as they like. The node may have
  left the table since, and its slot may belong to another one.

  - **Reply.handles**: the nodes that an operation gives away.
  - **ReachableGiving**: a run of operations on one table with the nodes that it has given away so
    far.
  - **perform_advances**: every operation gives new nodes generations that no node had before.
  - **Heeds**: a handle works on its own node and on no other one.
  - **stale_handles_harmless**: a table heeds every handle that it ever gave away.
-/

namespace ReadThrough.Table

open Buckets RecencyList

variable {K P σ : Type} {t t' : Table K P} {node : Node K P} {given : List (Node K P)}

/-! ## Runs -/

/-- The nodes that a reply gives away. A predicate does not get to keep what it was asked about. -/
def Reply.handles {N : Type} : Reply N → List N
  | .found node? => node?.toList
  | .list nodes => nodes
  | .occupied node => [node]
  | .vacant node _ => [node]
  | .removed nodes _ _ => nodes
  | .done | .truth _ | .count _ | .full .. | .panicked .. => []

/-- Operations one after the other have led to the table, and have given these nodes away. A handle
    is one of them, or it comes from another table. -/
inductive ReachableGiving [DecidableEq K] : List (Node K P) → Table K P → Prop
  | empty (initial maxCapacity : Nat) (loadFactor : LoadFactor) (hashOf : K → UInt64) :
    ReachableGiving [] (Table.empty initial maxCapacity loadFactor hashOf)
  | perform {given : List (Node K P)} {t : Table K P} (o : Operation (Node K P) K P)
    (h : ReachableGiving given t)
    (hhandle : ∀ node, o.handle? = some node →
      node ∈ given ∨ ∃ t' : Table K P, t'.Reachable ∧ node ∈ t'.nodes) :
    ReachableGiving (given ++ (t.perform o).2.handles) (t.perform o).1

/-! ## Generations -/

/-- Nodes may leave the table, but none comes to it. -/
theorem Within.advances (h : t.Within t') (hs : t.Sound)
    (hgeneration : t'.buckets.nextGeneration = t.buckets.nextGeneration) : t.Advances t' where
  generation := Nat.le_of_eq hgeneration.symm
  nodes := fun n hn => .inl (h.sub hs n hn)

theorem removeNode_advances (h : t.Sound) (node : Node K P) : t.Advances (t.removeNode node).1 := by
  apply (removeNode_within node t).advances h
  rw [(removeNode_buckets node t).1, removeNode_generation]

theorem trim_advances (h : t.Sound) (lastUse : σ → P → Nat) (judge : Judge K P σ) (count : Nat)
    (m : σ) : t.Advances (t.trim lastUse judge count m).table :=
  (trim_within lastUse judge count m t).advances h
    (trim_keeps lastUse (keeps_generation judge _) count rfl)

section

variable [DecidableEq K]

theorem getOrInsert_advances (h : t.Sound) (lastUse : σ → P → Nat) (judge : Judge K P σ) (key : K)
    (payload : Except String P) (m : σ) :
    t.Advances (t.getOrInsert lastUse judge key payload m).table := by
  have hroom : t.Advances (t.makeRoom lastUse judge m).table := trim_advances h lastUse judge _ m
  cases hget : t.get? key with
  | some node =>
    rw [getOrInsert_present hget payload]
    exact ⟨Nat.le_refl _, fun n hn => .inl hn⟩
  | none =>
    have hlodged : Lodged key payload (t.makeRoom lastUse judge m) _ :=
      getOrInsert_lodged hget payload
    generalize t.getOrInsert lastUse judge key payload m = r at hlodged ⊢
    cases hlodged with
    | unjudged => exact hroom
    | full => exact hroom
    | unmade => exact hroom
    | inserted p =>
      have hsound : (t.makeRoom lastUse judge m).table.Sound := makeRoom_sound h
      exact hroom.trans (hsound.advances_insertNew p (makeRoom_absent h hget))

/-- Whatever is done to a table, a node that comes to it has a generation that none had before. -/
theorem perform_advances (h : t.Sound) (o : Operation (Node K P) K P) :
    t.Advances (t.perform o).1 := by
  have hsame {t' : Table K P} (heq : t'.buckets = t.buckets) : t.Advances t' := by
    refine ⟨Nat.le_of_eq (heq ▸ rfl), fun n hn => .inl ?_⟩
    unfold nodes at hn ⊢
    exact heq ▸ hn
  cases o with
  | getOrInsert key payload lastUse p => exact getOrInsert_advances h lastUse p.judge key payload []
  | remove key =>
    show t.Advances (t.remove key).1
    unfold Table.remove
    split
    · exact hsame rfl
    · exact removeNode_advances h _
  | removeNode handle => exact removeNode_advances h handle
  -- From here on no operation adds a node.
  | trim count lastUse p => exact trim_advances h lastUse p.judge count []
  | sweep lastUse p =>
    exact (sweep_within lastUse p.judge [] t).advances h
      (sweep_keeps lastUse (keeps_generation p.judge _) rfl)
  | resize =>
    show t.Advances t.resize.table
    unfold Table.resize
    split
    · obtain ⟨hr, -⟩ := Sound.grow h
      refine ⟨Nat.le_of_eq hr.generation.symm, fun n hn => .inl ?_⟩
      unfold nodes at hn ⊢
      rwa [hr.nodes] at hn
    · exact hsame rfl
  | pinch =>
    apply (pinch_within t).advances h
    show t.pinch.table.buckets.nextGeneration = _
    unfold Table.pinch
    split
    · exact (Sound.pinch_contents h).2.2.2
    · rfl
  | clear => exact (clear_within t).advances h rfl
  | touch | unlink | relink | setMaxCapacity | get? | byRecency | nodes | size | isEmpty | repairs =>
    exact hsame rfl

end

/-! ## What is given away -/

namespace Orderly

/-- What a walk removes was in the table. -/
theorem walk_removed (h : t.Orderly) (judge : Judge K P σ) (quota : Option Nat) (m : σ) :
    ∀ n ∈ (t.walk judge quota m).removed, n ∈ t.nodes := by
  intro n hn
  exact (h.walk_perm judge quota m).mem_iff.1 (List.mem_append_left _ hn)

theorem sweep_removed (h : t.Orderly) (lastUse : σ → P → Nat) (judge : Judge K P σ) (m : σ) :
    ∀ n ∈ (t.sweep lastUse judge m).value.removed, n ∈ t.nodes := by
  have hwalk := h.walk_removed judge none m
  unfold Table.sweep
  dsimp only
  split
  · exact hwalk
  · exact hwalk

theorem trim_removed (h : t.Orderly) (lastUse : σ → P → Nat) (judge : Judge K P σ) (count : Nat)
    (m : σ) : ∀ n ∈ (t.trim lastUse judge count m).value.removed, n ∈ t.nodes := by
  have hfirst := h.walk_removed judge (some count) m
  unfold Table.trim
  by_cases hcount : count = 0
  · rw [if_pos hcount]
    exact nofun
  rw [if_neg hcount]
  unfold trimNodes
  dsimp only
  split
  · exact hfirst
  · intro n hn
    rcases List.mem_append.1 hn with hn | hn
    · exact hfirst n hn
    · -- The second walk starts from the nodes that the first one has left.
      let s := t.walk judge (some count) m
      have hrebuilt := ((h.walk_orderly judge (some count) m).relink (lastUse s.memory)).1
      have hleft : n ∈ s.table.nodes := hrebuilt.walk_removed _ _ _ n hn
      exact (h.walk_perm judge (some count) m).mem_iff.1 (List.mem_append_right _ hleft)

variable [DecidableEq K]

/-- A node that is given away is in the table before or after the operation. -/
theorem mem_of_handles (h : t.Orderly) (o : Operation (Node K P) K P)
    (hn : node ∈ (t.perform o).2.handles) : node ∈ t.nodes ∨ node ∈ (t.perform o).1.nodes := by
  have hfound {key : K} (hget : t.get? key = some node) : node ∈ t.nodes :=
    (Sound.get?_eq_some_iff h.sound |>.1 hget).1
  cases o with
  | getOrInsert key payload lastUse p =>
    let r := t.getOrInsert lastUse p.judge key payload []
    change node ∈ (r.value.1.reply r.value.2).handles at hn
    cases hget : t.get? key with
    | some current =>
      have hr : r = { table := t, value := (.occupied current key, []) } :=
        getOrInsert_present hget payload
      rw [hr] at hn
      obtain rfl := List.mem_singleton.1 hn
      exact Or.inl (hfound hget)
    -- Only a key that gets a new node gives a handle away, and that node is in the new table.
    | none =>
      right
      show node ∈ r.table.nodes
      have hlodged : Lodged key payload (t.makeRoom lastUse p.judge []) r :=
        getOrInsert_lodged hget payload
      clear_value r
      cases hlodged with
      | unjudged => cases hn
      | full => cases hn
      | unmade => cases hn
      | inserted p' =>
        obtain rfl := List.mem_singleton.1 hn
        have hsound : (t.makeRoom lastUse p.judge []).table.Sound := makeRoom_sound h.sound
        have hinserted := hsound.insertNew (makeRoom_absent h.sound hget) p'
        exact (hinserted.2 _).2 (Or.inl rfl)
  | get? key => exact Or.inl (hfound (Option.mem_toList.1 hn))
  | remove key =>
    left
    change node ∈ (t.remove key).2.toList at hn
    unfold Table.remove at hn
    cases hget : t.get? key with
    | none =>
      rw [hget] at hn
      cases hn
    | some current =>
      rw [hget] at hn
      obtain rfl := List.mem_singleton.1 hn
      exact hfound hget
  | trim count lastUse p => exact Or.inl (h.trim_removed lastUse p.judge count [] node hn)
  | sweep lastUse p => exact Or.inl (h.sweep_removed lastUse p.judge [] node hn)
  | clear => exact Or.inl hn
  | byRecency => exact Or.inl (h.linking.mem_nodes hn)
  | nodes => exact Or.inl hn
  | touch | unlink | removeNode | relink | resize | pinch | setMaxCapacity | size | isEmpty
  | repairs => cases hn

end Orderly

section

variable [DecidableEq K]

/-- The tables of a run are reachable, and know what the run has given away. -/
theorem ReachableGiving.knows (h : ReachableGiving given t) :
    t.Reachable ∧ ∀ n ∈ given, t.Knows n ∧ ∃ t' : Table K P, t'.Reachable ∧ n ∈ t'.nodes := by
  induction h with
  | empty initial maxCapacity loadFactor hashOf =>
    exact ⟨.empty initial maxCapacity loadFactor hashOf, nofun⟩
  | @perform given t o h hhandle ih =>
    obtain ⟨ht, hgiven⟩ := ih
    -- A handle comes from the run or from another table; either way it was a node somewhere.
    have hnext : (t.perform o).1.Reachable := by
      cases hnode : o.handle? with
      | none => exact .perform o ht hnode
      | some node =>
        obtain ⟨t', ht', hmem⟩ : ∃ t' : Table K P, t'.Reachable ∧ node ∈ t'.nodes := by
          rcases hhandle node hnode with hown | hforeign
          · exact (hgiven node hown).2
          · exact hforeign
        exact .performOn o ht ht' hmem hnode
    have hadvances := perform_advances ht.orderly.sound o
    refine ⟨hnext, fun n hn => ?_⟩
    rcases List.mem_append.1 hn with hold | hnew
    · exact ⟨(hgiven n hold).1.advances hadvances, (hgiven n hold).2⟩
    · rcases ht.orderly.mem_of_handles o hnew with hbefore | hafter
      · exact ⟨(Sound.knows ht.orderly.sound hbefore).advances hadvances, t, ht, hbefore⟩
      · exact ⟨Sound.knows hnext.orderly.sound hafter, _, hnext, hafter⟩

end

/-! ## Handles at work -/

/-- The handle works on its own node as long as that is in the table, and linked if the list is
    concerned. Otherwise it does nothing. -/
structure Heeds [DecidableEq K] (t : Table K P) (node : Node K P) : Prop where
  /-- The node comes to stand in front of the others. -/
  touched : node ∈ t.byRecency → ∃ recency,
    t.perform (.touch node) = ({ t with recency }, .truth true) ∧
      Table.byRecency { t with recency } = node :: others node.slot t.byRecency
  untouched : node ∉ t.byRecency → t.perform (.touch node) = (t, .truth false)
  /-- The node leaves the list and stays in the table. -/
  unlinked : node ∈ t.byRecency → ∃ recency,
    t.perform (.unlink node) = ({ t with recency }, .truth true) ∧
      Table.byRecency { t with recency } = others node.slot t.byRecency
  notUnlinked : node ∉ t.byRecency → t.perform (.unlink node) = (t, .truth false)
  /-- The node leaves the table and, if it is linked, the list. -/
  removed : node ∈ t.nodes → ∃ buckets recency,
    t.perform (.removeNode node) = ({ t with buckets, recency }, .truth true) ∧
      (∀ n, n ∈ buckets.nodes ↔ n ∈ t.nodes ∧ n ≠ node) ∧
      Table.byRecency { t with buckets, recency } = others node.slot t.byRecency ∧
      ∀ key, Table.get? { t with buckets, recency } key =
        if key = node.key then none else t.get? key
  notRemoved : node ∉ t.nodes → t.perform (.removeNode node) = (t, .truth false)

/-- A handle of a node that is not in the list is linked nowhere, whoever has its slot. -/
theorem Knows.isLinked_eq_false (hk : t.Knows node) (h : t.Orderly) (hnot : node ∉ t.byRecency) :
    t.isLinked node = false := by
  rw [Bool.eq_false_iff]
  intro hlinked
  obtain ⟨n, hn, hgeneration⟩ := h.matched _ _ hk.slot (beq_iff_eq.1 hlinked)
  have hmem : n ∈ t.nodes := mem_nodes.2 ⟨_, hn⟩
  obtain rfl := hk.unique n hmem hgeneration
  exact hnot ((h.isLinked_iff hmem).1 hlinked)

/-- The slot of a node that has left the table does not hold it. -/
theorem Knows.removeNode_eq (hk : t.Knows node) (hnot : node ∉ t.nodes) :
    t.removeNode node = (t, false) := by
  have hloose : t.buckets.holds node = false := by
    rw [Bool.eq_false_iff]
    intro hholds
    obtain ⟨n, hn⟩ := Option.isSome_iff_exists.1 (isSome_of_holds hholds)
    have hmem : n ∈ t.nodes := mem_nodes.2 ⟨_, hn⟩
    have hgeneration : n.generation = node.generation := by simpa [holds, hn] using hholds
    exact hnot (hk.unique n hmem hgeneration ▸ hmem)
  unfold Table.removeNode Buckets.removeNode
  dsimp only
  rw [hloose, if_neg (by simp)]

theorem Knows.heeds [DecidableEq K] (hk : t.Knows node) (h : t.Orderly) : t.Heeds node where
  touched := by
    intro hn
    have hlinked : t.isLinked node = true := (h.isLinked_iff (h.linking.mem_nodes hn)).2 hn
    refine ⟨t.recency.touch node.slot node.generation, ?_, (h.linking.touch hn).byRecency_eq⟩
    show (t.touch node, Reply.truth (t.isLinked node)) = _
    rw [hlinked]
    rfl
  untouched := by
    intro hnot
    have hloose := hk.isLinked_eq_false h hnot
    show (t.touch node, Reply.truth (t.isLinked node)) = _
    rw [touch_eq_self hloose, hloose]
  unlinked := by
    intro hn
    have hmem := h.linking.mem_nodes hn
    have hlinked : t.isLinked node = true := (h.isLinked_iff hmem).2 hn
    refine ⟨t.recency.unlink node.slot node.generation, ?_,
      (h.linking.unlink (h.node? hmem)).byRecency_eq⟩
    show (t.unlink node, Reply.truth (t.isLinked node)) = _
    rw [hlinked]
    rfl
  notUnlinked := by
    intro hnot
    have hloose := hk.isLinked_eq_false h hnot
    show (t.unlink node, Reply.truth (t.isLinked node)) = _
    rw [unlink_eq_self hloose, hloose]
  -- The slot of a node that is there holds that very node, so the removal is the one of slots.
  removed := by
    intro hn
    have hremoved := h.sound.removeNode_stored (h.node? hn)
    have hlinking := h.linking.remove (h.node? hn)
    let t' : Table K P := { t with
      buckets := (t.buckets.removeNode node).1
      recency := t.recency.unlink node.slot node.generation }
    have hnodes : ∀ n, n ∈ t'.nodes ↔ n ∈ t.nodes ∧ n ≠ node :=
      fun n => h.sound.mem_removeNode hn
    refine ⟨t'.buckets, t'.recency, ?_, hnodes, hlinking.byRecency_eq, fun key => ?_⟩
    · show ((t.removeNode node).1, Reply.truth (t.removeNode node).2) = _
      unfold Table.removeNode
      dsimp only
      split
      · next heq =>
        rw [heq] at hremoved
        cases hremoved
      · next heq =>
        simp only [t', heq]
    · have hsound : t'.Sound := hlinking.ordered.sound
      show t'.get? key = _
      -- Another node with the same key would be the node itself.
      by_cases hkey : key = node.key
      · rw [if_pos hkey, hsound.get?_eq_none_iff]
        intro n hmem hsame
        obtain ⟨hmem, hne⟩ := (hnodes n).1 hmem
        exact hne (Sound.node_unique h.sound hmem hn (hsame.trans hkey))
      · rw [if_neg hkey]
        apply Option.ext
        intro n
        rw [hsound.get?_eq_some_iff, Sound.get?_eq_some_iff h.sound, hnodes, and_assoc]
        refine and_congr_right fun _ => and_iff_right_of_imp fun hsame heq => ?_
        exact hkey (hsame ▸ heq ▸ rfl)
  notRemoved := by
    intro hnot
    show ((t.removeNode node).1, Reply.truth (t.removeNode node).2) = _
    rw [hk.removeNode_eq hnot]

/-- Whatever has been done to a table since it gave a node away, with whatever handles of its own
    or of other tables: the handle works on this very node, or on none. -/
theorem stale_handles_harmless [DecidableEq K] (h : ReachableGiving given t) (hn : node ∈ given) :
    t.Heeds node := by
  obtain ⟨ht, hgiven⟩ := h.knows
  exact (hgiven node hn).1.heeds ht.orderly

/-- A key is removed and inserted again, so that its new node gets the slot of the old one. The
    handle of the old node removes nothing; that of the new one works on the new one. -/
theorem stale_handles_harmless_reused :
    let insert (key : Nat) : Operation (Node Nat Nat) Nat Nat :=
      .getOrInsert key (.ok key) (fun _ used => used) fun _ _ => .keep
    let t : Table Nat Nat :=
      (((Table.empty 0 4 .standard Nat.toUInt64).perform (insert 1)).1.perform (.remove 1)).1.perform
        (insert 1) |>.1
    let old : Node Nat Nat := { hash := 1, slot := 2, generation := 1, key := 1, payload := 1 }
    let new : Node Nat Nat := { old with generation := 2 }
    ∃ given, ReachableGiving given t ∧ old ∈ given ∧ new ∈ given ∧ t.nodes = [new] ∧
      t.Heeds old ∧ t.perform (.removeNode old) = (t, .truth false) ∧ t.Heeds new := by
  intro insert t old new
  have hgiving : ReachableGiving _ t :=
    .perform _ (.perform _ (.perform _ (.empty 0 4 .standard _) nofun) nofun) nofun
  have hold : t.Heeds old := stale_handles_harmless hgiving (by decide +kernel)
  have hnew : t.Heeds new := stale_handles_harmless hgiving (by decide +kernel)
  have hgone : old ∉ t.nodes := by decide +kernel
  exact ⟨_, hgiving, by decide +kernel, by decide +kernel, by decide +kernel, hold,
    hold.notRemoved hgone, hnew⟩

end ReadThrough.Table
