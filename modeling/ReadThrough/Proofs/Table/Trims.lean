import ReadThrough.Proofs.Table.Tours

/-! # Trims of Tables With Unlinked Nodes

  A node that was unlinked is still in the table, but no walk meets it until the list is rebuilt.
  Trims and sweeps see to that: they rebuild the list when a walk to its end has met too few nodes.

  - **Judge.Follows**: a judge that goes by a predicate and notes what it evicts; **picked** says
    what its tours remove.
  - **AllLinked**: no node of the table is unlinked. The list of such a table is complete.
  - **Sifted**: what a walk has removed by a predicate and what it has left in the table.
  - **trim_exact**: a trim removes as many nodes as it may, or all that satisfy the predicate, and
    rebuilds the list exactly if it has to.
-/

namespace ReadThrough.Table

open Buckets RecencyList

variable {K P σ : Type} {t : Table K P} {node : Node K P} {ns : List (Node K P)}

/-! ## Judges that go by a predicate -/

/-- As long as `I` holds of the nodes ahead and the memory, the judge evicts what satisfies the
    predicate, which it notes in its memory by `mark`. -/
structure Judge.Follows (judge : Judge K P σ) (evict : Node K P → Bool)
    (mark : Node K P → σ → σ) (I : List (Node K P) → σ → Prop) : Prop where
  judges : ∀ node ahead m, I (node :: ahead) m →
    judge node m = if evict node then (.evict, mark node m) else (.keep, m)
  keeps : ∀ node ahead m, I (node :: ahead) m → evict node = false → I ahead m
  evicts : ∀ node ahead m, I (node :: ahead) m → evict node = true → I ahead (mark node m)

/-- A tour has removed the first nodes that satisfy the predicate, as many as it may. -/
structure Picked (evict : Node K P → Bool) (mark : Node K P → σ → σ) (ahead : List (Node K P))
    (count : Nat) (m : σ) (o : Tour K P σ) : Prop where
  removed : o.removed = (ahead.filter evict).take count
  memory : o.memory = o.removed.foldl (fun m node => mark node m) m
  ending : o.removed.length < count → o.ending = .atFront
  panic : o.ending.panic? = none

variable {judge : Judge K P σ} {evict : Node K P → Bool} {mark : Node K P → σ → σ}
  {I : List (Node K P) → σ → Prop} {m : σ} {count : Nat}

theorem Judge.Follows.picked (h : judge.Follows evict mark I) (ahead : List (Node K P))
    (count : Nat) (m : σ) (hI : I ahead m) :
    Picked evict mark ahead count m (judge.tour ahead (some count) m) := by
  -- By induction on the nodes ahead; the invariant of the memory goes along.
  induction ahead generalizing count m with
  | nil => exact ⟨by simp [Judge.tour], rfl, fun _ => rfl, rfl⟩
  | cons node ahead ih =>
    rw [Judge.tour]
    by_cases hcount : count = 0
    · rw [if_pos (congrArg some hcount), hcount]
      exact ⟨rfl, rfl, fun hlt => absurd hlt (Nat.lt_irrefl 0), rfl⟩
    rw [if_neg (fun heq => hcount (Option.some.inj heq)), h.judges node ahead m hI]
    obtain ⟨count, rfl⟩ := Nat.exists_eq_succ_of_ne_zero hcount
    cases hevict : evict node with
    | false =>
      have hpicked := ih (count + 1) m (h.keeps node ahead m hI hevict)
      refine ⟨?_, hpicked.memory, hpicked.ending, hpicked.panic⟩
      rw [List.filter_cons_of_neg (by simp [hevict])]
      exact hpicked.removed
    | true =>
      have hpicked := ih count (mark node m) (h.evicts node ahead m hI hevict)
      refine ⟨?_, hpicked.memory, ?_, hpicked.panic⟩
      · rw [List.filter_cons_of_pos hevict, List.take_succ_cons]
        exact congrArg (node :: ·) hpicked.removed
      · intro hlt
        exact hpicked.ending (Nat.lt_of_succ_lt_succ hlt)

/-- The judge of a predicate remembers nothing. -/
theorem Judge.evicting_follows (evict : Node K P → Bool) :
    (Judge.evicting evict).Follows evict (fun _ m => m) fun _ _ => True where
  judges := by
    intro node ahead m _
    show (if evict node then Verdict.evict else .keep, ()) = _
    cases evict node <;> rfl
  keeps := fun _ _ _ _ _ => trivial
  evicts := fun _ _ _ _ _ => trivial

/-! ## Linked nodes -/

/-- Every node of the table is linked. -/
def AllLinked (t : Table K P) : Prop :=
  ∀ node ∈ t.nodes, t.isLinked node = true

namespace Orderly

/-- A node of the table is in its slot. -/
theorem node? (h : t.Orderly) (hn : node ∈ t.nodes) :
    t.buckets.node? node.slot = some node := by
  obtain ⟨slot, hslot⟩ := mem_nodes.1 hn
  rwa [(h.sound.slot slot node hslot).1]

theorem nodup (h : t.Orderly) : t.nodes.Nodup :=
  (nodup_map_nodes Node.generation h.sound.different).of_map

theorem linking (h : t.Orderly) :
    Linking t.hashOf t.buckets t.recency t.byRecency := by
  -- A linked slot holds a node, which knows the slot.
  have hheld : ∀ slot ∈ t.recency.toList,
      ∃ node, t.buckets.node? slot = some node ∧ node.slot = slot := by
    intro slot hslot
    have hres := h.linked.reserved_le hslot
    obtain ⟨g, hg⟩ := Option.isSome_iff_exists.1 ((h.linked.mem_iff hres).1 hslot)
    obtain ⟨node, hnode, -⟩ := h.matched slot g hres hg
    exact ⟨node, hnode, (h.sound.slot slot node hnode).1⟩
  have hstored : ∀ n ∈ t.byRecency, t.buckets.node? n.slot = some n := by
    intro n hn
    obtain ⟨slot, -, hslot⟩ := List.mem_filterMap.1 hn
    exact h.node? (mem_nodes.2 ⟨slot, hslot⟩)
  have hlist : t.recency.toList = t.byRecency.map Node.slot := by
    have hslots : ∀ slot ∈ t.recency.toList,
        (t.buckets.node? slot).map Node.slot = some slot := by
      intro slot hslot
      obtain ⟨node, hnode, heq⟩ := hheld slot hslot
      rw [hnode, Option.map_some, heq]
    rw [byRecency, List.map_filterMap, List.filterMap_congr hslots, List.filterMap_some]
  refine ⟨⟨{
    cells := t.buckets.contents.map (Option.map Node.content)
    vacant := t.buckets.vacant
    linked := t.byRecency.map Node.item
    maxCapacity := t.maxCapacity
    repairs := t.repairs }, ?_, rfl⟩, hstored⟩
  exact {
    ordered := h
    cells := rfl
    vacant := rfl
    linked := by
      rw [hlist, List.map_map]
      rfl
    shown := by
      intro i hi
      obtain ⟨n, hn, rfl⟩ := List.mem_map.1 hi
      exact ⟨n, hstored n hn, rfl⟩ }

theorem isLinked_iff (h : t.Orderly) (hn : node ∈ t.nodes) :
    t.isLinked node = true ↔ node ∈ t.byRecency :=
  h.linking.isLinked_iff (h.node? hn)

theorem allLinked_iff_complete (h : t.Orderly) : t.AllLinked ↔ t.Complete := by
  constructor
  · intro hall
    exact ⟨h.linking.slab, h.linking.stored, fun n hn => (h.isLinked_iff hn).1 (hall n hn)⟩
  · intro hcomplete node hn
    exact (h.isLinked_iff hn).2 (hcomplete.mem_byRecency.2 hn)

/-- The list is complete if it is as long as there are nodes. -/
theorem allLinked_iff_length (h : t.Orderly) :
    t.AllLinked ↔ t.byRecency.length = t.size := by
  have hsize : t.nodes.length = t.size := h.accounted.size.symm
  have hsub : t.byRecency ⊆ t.nodes := fun n hn => h.linking.mem_nodes hn
  have hsubperm := h.linking.nodup.subperm hsub
  rw [h.allLinked_iff_complete, ← hsize]
  constructor
  · intro hcomplete
    exact (Lined.perm hcomplete).length_eq
  · intro hlength
    have hperm := hsubperm.perm_of_length_le (Nat.le_of_eq hlength.symm)
    exact ⟨h.linking.slab, h.linking.stored, fun n hn => hperm.mem_iff.2 hn⟩

/-- A list that is rebuilt links all nodes. -/
theorem relink (h : t.Orderly) (lastUse : P → Nat) :
    (t.relink lastUse).table.Orderly ∧ (t.relink lastUse).table.AllLinked := by
  obtain ⟨s, hs, -⟩ := h.linking.slab
  have hrelinked := hs.relink lastUse
  refine ⟨Ordered.rebuilt h lastUse, fun node hn => ?_⟩
  have hitem : node.item ∈ s.items := by
    rw [hs.items]
    exact List.mem_map_of_mem hn
  have hlinked : node.item ∈ (s.relink lastUse).linked := by
    rw [Slab.relink, List.mem_reverse]
    exact List.mem_map.2 ⟨(_, node.item), List.mem_mergeSort.2
      (List.mem_map.2 ⟨node.item, hitem, rfl⟩), rfl⟩
  show (rebuiltList lastUse t.buckets).isLinked node.slot node.generation = true
  rw [hrelinked.isLinked (h.node? hn), Slab.isLinked, List.any_eq_true]
  exact ⟨node.item, hlinked, beq_self_eq_true _⟩

/-! ## Walks -/

theorem walk (h : t.Orderly) (judge : Judge K P σ) (quota : Option Nat) (m : σ) :
    Strolls t (t.walk judge quota m) (judge.tour t.byRecency.reverse quota m) :=
  h.linking.walk judge quota m

theorem walk_orderly (h : t.Orderly) (judge : Judge K P σ) (quota : Option Nat) (m : σ) :
    (t.walk judge quota m).table.Orderly :=
  walk_ordered judge quota h

/-- A walk leaves the nodes where they are that are not linked. -/
theorem walk_allLinked_iff (h : t.Orderly) (judge : Judge K P σ) (quota : Option Nat) (m : σ) :
    (t.walk judge quota m).table.AllLinked ↔ t.AllLinked := by
  have hwalk := h.walk judge quota m
  have hafter := h.walk_orderly judge quota m
  have hperm := judge.tour_perm t.byRecency.reverse quota m
  constructor
  · intro hall n hn
    rw [h.isLinked_iff hn, ← List.mem_reverse, ← hperm.mem_iff, List.mem_append]
    by_cases hremoved : n ∈ (judge.tour t.byRecency.reverse quota m).removed
    · exact Or.inl hremoved
    · have hstays := (hwalk.nodes n).2 ⟨hn, hremoved⟩
      have hlinked := (hafter.isLinked_iff hstays).1 (hall n hstays)
      rw [hwalk.byRecency_eq, List.mem_reverse] at hlinked
      exact Or.inr hlinked
  · intro hall n hstays
    obtain ⟨hn, hremoved⟩ := (hwalk.nodes n).1 hstays
    have hlinked := (h.isLinked_iff hn).1 (hall n hn)
    rw [← List.mem_reverse, ← hperm.mem_iff, List.mem_append] at hlinked
    rw [hafter.isLinked_iff hstays, hwalk.byRecency_eq, List.mem_reverse]
    exact hlinked.resolve_left hremoved

/-- Only a walk to the end of the list finds out that a node is not linked. -/
theorem walk_consistent (h : t.Orderly) (judge : Judge K P σ) (quota : Option Nat) (m : σ) :
    (t.walk judge quota m).consistent = true ↔
      ((judge.tour t.byRecency.reverse quota m).ending = .atFront → t.AllLinked) := by
  have hwalk := h.walk judge quota m
  rw [hwalk.consistent, ← h.walk_allLinked_iff judge quota m,
    (h.walk_orderly judge quota m).allLinked_iff_length, hwalk.byRecency_eq, List.length_reverse]

/-- What was in the table has been removed or is still there. -/
theorem walk_perm (h : t.Orderly) (judge : Judge K P σ) (quota : Option Nat) (m : σ) :
    ((t.walk judge quota m).removed ++ (t.walk judge quota m).table.nodes).Perm t.nodes := by
  have hwalk := h.walk judge quota m
  have hperm := judge.tour_perm t.byRecency.reverse quota m
  -- A tour removes each node once, and none that is not in the table.
  have hnodup : (judge.tour t.byRecency.reverse quota m).removed.Nodup := by
    have hall := hperm.nodup_iff.2 (List.nodup_reverse.2 h.linking.nodup)
    exact (List.nodup_append.1 hall).1
  have hremoved : ∀ n ∈ (judge.tour t.byRecency.reverse quota m).removed, n ∈ t.nodes := by
    intro n hn
    have hmem := hperm.mem_iff.1 (List.mem_append_left _ hn)
    exact h.linking.mem_nodes (List.mem_reverse.1 hmem)
  rw [hwalk.removed]
  apply (List.perm_ext_iff_of_nodup ?_ h.nodup).2
  · intro n
    rw [List.mem_append, hwalk.nodes]
    constructor
    · intro hn
      exact hn.elim (hremoved n) And.left
    · intro hn
      by_cases hmem : n ∈ (judge.tour t.byRecency.reverse quota m).removed
      · exact Or.inl hmem
      · exact Or.inr ⟨hn, hmem⟩
  · apply List.nodup_append.2
    refine ⟨hnodup, (h.walk_orderly judge quota m).nodup, ?_⟩
    intro a ha b hb heq
    exact ((hwalk.nodes b).1 hb).2 (heq ▸ ha)

end Orderly

/-! ## Trims -/

/-- Up to `count` nodes that satisfy the predicate were removed from the table `t`, which is `t'`
    now. If there were fewer, those of the linked nodes that are left do not satisfy it. -/
structure Sifted (evict : Node K P → Bool) (count : Nat) (t : Table K P) (removed : List (Node K P))
    (t' : Table K P) : Prop where
  perm : (removed ++ t'.nodes).Perm t.nodes
  evictable : ∀ n ∈ removed, evict n = true
  within : removed.length ≤ count
  spared : removed.length < count → ∀ n ∈ t'.byRecency, evict n = false

theorem Orderly.walk_sifted (h : t.Orderly) (hj : judge.Follows evict mark I)
    (hI : I t.byRecency.reverse m) (count : Nat) :
    Sifted evict count t (t.walk judge (some count) m).removed
      (t.walk judge (some count) m).table := by
  have hwalk := h.walk judge (some count) m
  have hpicked := hj.picked t.byRecency.reverse count m hI
  have hperm := judge.tour_perm t.byRecency.reverse (some count) m
  have hremoved := hwalk.removed.trans hpicked.removed
  refine ⟨h.walk_perm judge (some count) m, fun n hn => ?_, ?_, fun hlt n hn => ?_⟩
  · rw [hremoved] at hn
    exact (List.mem_filter.1 (List.mem_of_mem_take hn)).2
  · rw [hremoved]
    exact List.length_take_le _ _
  · -- A node of the list that satisfies the predicate would have been removed before the end.
    rw [hwalk.byRecency_eq, List.mem_reverse] at hn
    have hall : (judge.tour t.byRecency.reverse (some count) m).removed =
        t.byRecency.reverse.filter evict := by
      rw [hpicked.removed, List.take_of_length_le]
      rw [hremoved, List.length_take] at hlt
      omega
    have hnodup := hperm.nodup_iff.2 (List.nodup_reverse.2 h.linking.nodup)
    have hahead := hperm.mem_iff.1 (List.mem_append_right _ hn)
    by_contra hevict
    have hmem : n ∈ (judge.tour t.byRecency.reverse (some count) m).removed := by
      rw [hall]
      exact List.mem_filter.2 ⟨hahead, eq_true_of_ne_false hevict⟩
    exact List.disjoint_of_nodup_append hnodup hmem hn

namespace Sifted

variable {removed removed' : List (Node K P)} {t₁ t₂ t₃ : Table K P}

/-- A trim that is resumed, with as many nodes less as have been removed before. -/
theorem resume (h : Sifted evict count t removed t₁)
    (h' : Sifted evict (count - removed.length) t₂ removed' t₃) (hnodes : t₂.nodes = t₁.nodes) :
    Sifted evict count t (removed ++ removed') t₃ where
  perm := by
    rw [List.append_assoc]
    exact ((hnodes ▸ h'.perm).append_left removed).trans h.perm
  evictable := by
    intro n hn
    exact (List.mem_append.1 hn).elim (h.evictable n) (h'.evictable n)
  within := by
    have hfirst := h.within
    have hsecond := h'.within
    rw [List.length_append]
    omega
  spared := by
    intro hlt
    rw [List.length_append] at hlt
    apply h'.spared
    omega

/-- If no node was missed, as many nodes were removed as there may be or as satisfy the
    predicate. -/
theorem length_eq (h : Sifted evict count t removed t₁) (ht₁ : t₁.Orderly)
    (hall : removed.length < count → t₁.AllLinked) :
    removed.length = min count (t.nodes.countP evict) := by
  have hremoved : removed.countP evict = removed.length :=
    List.countP_eq_length.2 h.evictable
  have hsum : t.nodes.countP evict = removed.length + t₁.nodes.countP evict := by
    rw [← h.perm.countP_eq, List.countP_append, hremoved]
  have hwithin := h.within
  by_cases hlt : removed.length < count
  · have hnone : t₁.nodes.countP evict = 0 := by
      apply List.countP_eq_zero.2
      intro n hn hevict
      have hlinked := (ht₁.isLinked_iff hn).1 (hall hlt n hn)
      rw [h.spared hlt n hlinked] at hevict
      cases hevict
    omega
  · omega

end Sifted

/-- What a trim of the table `t` by a predicate does, whichever of its nodes are linked. -/
structure Trimmed (evict : Node K P → Bool) (count : Nat) (t : Table K P)
    (r : Answer K P (Removal K P Unit)) : Prop where
  length : r.value.removed.length = min count (t.nodes.countP evict)
  evictable : ∀ n ∈ r.value.removed, n ∈ t.nodes ∧ evict n = true
  nodup : r.value.removed.Nodup
  /-- The other nodes stay. -/
  nodes : ∀ n, n ∈ r.table.nodes ↔ n ∈ t.nodes ∧ n ∉ r.value.removed
  panic : r.value.panic? = none
  /-- The list is rebuilt, once, if the first walk removed too few nodes and had missed some. -/
  repairs : r.table.repairs = t.repairs +
    if (t.walk (Judge.evicting evict) (some count) ()).removed.length < count ∧
      ∃ n ∈ t.nodes, t.isLinked n = false then 1 else 0
  linked : r.value.removed.length < count → r.table.AllLinked

theorem allLinked_iff_not_exists : t.AllLinked ↔ ¬ ∃ n ∈ t.nodes, t.isLinked n = false := by
  simp [AllLinked]

/-- A trim either ends with its first walk or goes on along the rebuilt list. -/
theorem Orderly.trim_cases (h : t.Orderly) (lastUse : Unit → P → Nat) (evict : Node K P → Bool)
    (count : Nat) :
    let s := t.walk (Judge.evicting evict) (some count) ()
    let r := t.trim lastUse (Judge.evicting evict) count ()
    let s' := (s.table.relink (lastUse ())).table.walk (Judge.evicting evict)
      (some (count - s.removed.length)) ()
    ((s.removed.length < count → t.AllLinked) ∧ r.table = s.table ∧ r.value.removed = s.removed) ∨
      ((s.removed.length < count ∧ ¬ t.AllLinked) ∧ r.table = s'.table ∧
        r.value.removed = s.removed ++ s'.removed) := by
  intro s r s'
  have hpicked := (Judge.evicting_follows evict).picked t.byRecency.reverse count () trivial
  have hwalk := h.walk (Judge.evicting evict) (some count) ()
  have hpanic : s.panic? = none := hwalk.panic.trans hpicked.panic
  have hconsistent : s.removed.length < count → (s.consistent = true ↔ t.AllLinked) := by
    intro hlt
    rw [h.walk_consistent]
    -- A walk that removed too few nodes has come to the end of the list.
    have hending := hpicked.ending (hwalk.removed ▸ hlt)
    exact ⟨fun himp => himp hending, fun hall _ => hall⟩
  by_cases hcount : count = 0
  · left
    have hr : r = { table := t, value := { memory := (), removed := [] } } := if_pos hcount
    obtain ⟨htable, -, hremoved, -⟩ := walk_zero (Judge.evicting evict) () t
    subst hcount
    refine ⟨fun hlt => absurd hlt (Nat.not_lt_zero _), ?_, ?_⟩
    · rw [hr, htable]
    · rw [hr, hremoved]
  have hr : r = t.trimNodes lastUse (Judge.evicting evict) count () := if_neg hcount
  unfold trimNodes at hr
  by_cases hend : (s.panic?.isSome || s.consistent || count ≤ s.removed.length) = true
  · left
    rw [if_pos hend] at hr
    refine ⟨fun hlt => ?_, by rw [hr], by rw [hr]⟩
    rw [hpanic, Option.isSome_none, Bool.false_or, Bool.or_eq_true, decide_eq_true_eq] at hend
    exact (hconsistent hlt).1 (hend.resolve_right (Nat.not_le.2 hlt))
  · right
    rw [if_neg hend] at hr
    rw [hpanic, Option.isSome_none, Bool.false_or, Bool.or_eq_true, decide_eq_true_eq, not_or,
      Nat.not_le] at hend
    refine ⟨⟨hend.2, fun hall => hend.1 ((hconsistent hend.2).2 hall)⟩, ?_, ?_⟩
    · rw [hr]
    · rw [hr]

theorem trimmed_of_sifted {r : Answer K P (Removal K P Unit)} (h : t.Orderly)
    (hsifted : Sifted evict count t r.value.removed r.table) (hr : r.table.Orderly)
    (hlinked : r.value.removed.length < count → r.table.AllLinked) (hpanic : r.value.panic? = none)
    (hrepairs : r.table.repairs = t.repairs +
      if (t.walk (Judge.evicting evict) (some count) ()).removed.length < count ∧
        ∃ n ∈ t.nodes, t.isLinked n = false then 1 else 0) :
    Trimmed evict count t r where
  length := hsifted.length_eq hr hlinked
  evictable := by
    intro n hn
    exact ⟨hsifted.perm.mem_iff.1 (List.mem_append_left _ hn), hsifted.evictable n hn⟩
  nodup := (List.nodup_append.1 (hsifted.perm.nodup_iff.2 h.nodup)).1
  nodes := by
    intro n
    have hdisjoint := List.disjoint_of_nodup_append (hsifted.perm.nodup_iff.2 h.nodup)
    rw [← hsifted.perm.mem_iff, List.mem_append]
    constructor
    · intro hn
      exact ⟨Or.inr hn, fun hremoved => hdisjoint hremoved hn⟩
    · intro ⟨hn, hremoved⟩
      exact hn.resolve_left hremoved
  panic := hpanic
  repairs := hrepairs
  linked := hlinked

theorem Orderly.trimmed (h : t.Orderly) (lastUse : Unit → P → Nat) (evict : Node K P → Bool)
    (count : Nat) : Trimmed evict count t (t.trim lastUse (Judge.evicting evict) count ()) := by
  have hsteady : (Judge.evicting evict).Steady := by
    intro node m m' reason heq
    have hverdict := congrArg Prod.fst heq
    simp only [Judge.evicting] at hverdict
    split at hverdict <;> cases hverdict
  have hpanic := trim_steady (t := t) (m := ()) lastUse hsteady count
  have hj := Judge.evicting_follows evict
  have hfirst := h.walk_sifted (m := ()) hj trivial count
  have hafter := h.walk_orderly (Judge.evicting evict) (some count) ()
  rcases h.trim_cases lastUse evict count with ⟨hall, htable, hremoved⟩ | ⟨hshort, htable, hremoved⟩
  · -- The first walk was not too short, or it had missed no node.
    rw [← hremoved, ← htable] at hfirst
    refine trimmed_of_sifted h hfirst (htable ▸ hafter) ?_ hpanic ?_
    · intro hlt
      rw [htable, h.walk_allLinked_iff]
      exact hall (hremoved ▸ hlt)
    · rw [if_neg fun hcond => allLinked_iff_not_exists.1 (hall hcond.1) hcond.2, htable]
      rfl
  · -- The list is rebuilt, so the second walk misses no node.
    obtain ⟨hrebuilt, hlinked⟩ := hafter.relink (lastUse ())
    have hsecond := hrebuilt.walk_sifted (m := ()) hj trivial
      (count - (t.walk (Judge.evicting evict) (some count) ()).removed.length)
    have hresumed := hfirst.resume hsecond rfl
    rw [← hremoved, ← htable] at hresumed
    refine trimmed_of_sifted h hresumed (htable ▸ hrebuilt.walk_orderly _ _ _) ?_ hpanic ?_
    · intro _
      rw [htable, hrebuilt.walk_allLinked_iff]
      exact hlinked
    · have hunlinked : ∃ n ∈ t.nodes, t.isLinked n = false :=
        not_not.1 fun hnone => hshort.2 (allLinked_iff_not_exists.2 hnone)
      rw [if_pos ⟨hshort.1, hunlinked⟩, htable]
      rfl

/-! ## Sweeps -/

/-- The predicate ended no walk in which it was asked about these nodes, the latest one first. -/
inductive Predicate.Continues (p : Predicate (Node K P)) : List (Node K P) → Prop
  | nil : p.Continues []
  | cons {node : Node K P} {before : List (Node K P)}
    (hgoes : p before node = .keep ∨ p before node = .evict) (hbefore : p.Continues before) :
    p.Continues (node :: before)

theorem Predicate.continues_cons (p : Predicate (Node K P)) (before : List (Node K P)) :
    p.Continues (node :: before) ↔
      (p before node = .keep ∨ p before node = .evict) ∧ p.Continues before :=
  ⟨fun | .cons hgoes hbefore => ⟨hgoes, hbefore⟩, fun h => .cons h.1 h.2⟩

instance Predicate.decidableContinues (p : Predicate (Node K P)) :
    (asked : List (Node K P)) → Decidable (p.Continues asked)
  | [] => isTrue .nil
  | _ :: before =>
    have := p.decidableContinues before
    decidable_of_iff _ (p.continues_cons before).symm

/-- A tour that nothing ends goes on to its end. -/
theorem Predicate.tour_ending (p : Predicate (Node K P)) (ahead asked : List (Node K P))
    (h : p.Continues (p.judge.tour ahead none asked).memory) :
    (p.judge.tour ahead none asked).ending = .atFront := by
  induction ahead generalizing asked with
  | nil => rfl
  | cons node ahead ih =>
    have hjudge : p.judge node asked = (p asked node, node :: asked) := rfl
    rw [Judge.tour, if_neg (Option.some_ne_none 0).symm, hjudge] at h ⊢
    cases hverdict : p asked node with
    | keep =>
      rw [hverdict] at h
      exact ih (node :: asked) h
    | evict =>
      rw [hverdict] at h
      exact ih (node :: asked) h
    -- A verdict that ends the tour is the last one, so the predicate has not continued.
    | stop =>
      rw [hverdict] at h
      have hgoes := ((p.continues_cons asked).1 h).1
      rw [hverdict] at hgoes
      exact absurd hgoes (by simp)
    | panic reason =>
      rw [hverdict] at h
      have hgoes := ((p.continues_cons asked).1 h).1
      rw [hverdict] at hgoes
      exact absurd hgoes (by simp)

theorem Orderly.sweep_allLinked (h : t.Orderly) (lastUse : List (Node K P) → P → Nat)
    (p : Predicate (Node K P))
    (hgoes : p.Continues (t.sweep lastUse p.judge []).value.memory) :
    (t.sweep lastUse p.judge []).table.AllLinked := by
  have hwalk := h.walk p.judge none []
  have hmemory : (t.sweep lastUse p.judge []).value.memory = (t.walk p.judge none []).memory := by
    unfold sweep
    dsimp only
    split <;> rfl
  rw [hmemory, hwalk.memory] at hgoes
  have hending := p.tour_ending _ _ hgoes
  have hpanic : (t.walk p.judge none []).panic? = none := by
    rw [hwalk.panic, hending]
    rfl
  unfold sweep
  dsimp only
  rw [hpanic, Option.isSome_none, Bool.false_or]
  by_cases hconsistent : (t.walk p.judge none []).consistent = true
  · rw [if_pos hconsistent, h.walk_allLinked_iff]
    exact (h.walk_consistent p.judge none []).1 hconsistent hending
  · rw [if_neg hconsistent]
    exact ((h.walk_orderly p.judge none []).relink _).2

/-- A trim by a predicate removes as many nodes of the whole table as it may, or all that satisfy
    the predicate, also if some of them had been unlinked. The list is rebuilt exactly if the first
    walk came to its end too early for a node that it missed. Whenever a trim has removed fewer
    nodes than it might, or a sweep was not told to stop, all nodes are linked. -/
theorem trim_exact [DecidableEq K] (h : t.Reachable) (lastUse : Unit → P → Nat)
    (evict : Node K P → Bool) (count : Nat) (sweepUse : List (Node K P) → P → Nat)
    (p : Predicate (Node K P)) :
    Trimmed evict count t (t.trim lastUse (Judge.evicting evict) count ()) ∧
      (p.Continues (t.sweep sweepUse p.judge []).value.memory →
        (t.sweep sweepUse p.judge []).table.AllLinked) :=
  ⟨h.orderly.trimmed lastUse evict count, h.orderly.sweep_allLinked sweepUse p⟩

/-- Of four nodes the first and the third were unlinked. A trim of the odd keys, of which it may
    remove three, meets none of them, rebuilds the list and removes both. A sweep that removes nothing
    links them again, too. -/
theorem trim_exact_unlinked :
    let insert (key : Nat) : Operation (Node Nat Nat) Nat Nat :=
      .getOrInsert key (.ok key) (fun _ used => used) fun _ _ => .keep
    let node (key : Nat) : Node Nat Nat :=
      { hash := key.toUInt64, slot := key + 1, generation := key, key, payload := key }
    let full : Table Nat Nat :=
      ((((Table.empty 0 9 .standard Nat.toUInt64).perform (insert 1)).1.perform (insert 2)).1.perform
        (insert 3)).1.perform (insert 4) |>.1
    let t := ((full.perform (.unlink (node 1))).1.perform (.unlink (node 3))).1
    let odd (n : Node Nat Nat) : Bool := n.key % 2 == 1
    let spare : Predicate (Node Nat Nat) := fun _ _ => .keep
    let r := t.trim (fun _ used => used) (Judge.evicting odd) 3 ()
    let s := t.sweep (fun _ used => used) spare.judge []
    t.Reachable ∧ t.byRecency = [node 4, node 2] ∧ spare.Continues s.value.memory ∧
      Trimmed odd 3 t r ∧ r.value.removed.length = 2 ∧ r.table.repairs = 1 ∧ s.table.AllLinked := by
  intro insert node full t odd spare r s
  have hfull : full.Reachable :=
    .perform _ (.perform _ (.perform _ (.perform _ (.empty 0 9 .standard _) rfl) rfl) rfl) rfl
  have hfirst : node 1 ∈ full.nodes := by decide +kernel
  have hthird : node 3 ∈ full.nodes := by decide +kernel
  have ht : t.Reachable :=
    .performOn _ (.performOn _ hfull hfull hfirst rfl) hfull hthird rfl
  have hexact := trim_exact ht (fun _ used => used) odd 3 (fun _ used => used) spare
  have htrim : Trimmed odd 3 t r := hexact.1
  refine ⟨ht, by decide +kernel, by decide +kernel, htrim, ?_, ?_, hexact.2 (by decide +kernel)⟩
  · rw [htrim.length]
    decide +kernel
  · rw [htrim.repairs]
    decide +kernel

end ReadThrough.Table
