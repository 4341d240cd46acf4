import ReadThrough.Proofs.Table.Refinement

/-! # Walks Along a Complete List

  A walk is a tour along the linked nodes by recency, whatever the judge.

  - **Linking**: the list links nodes of the buckets in a given order; others may not be linked.
  - **Lined**: it links all of them.
  - **Judge.tour**: asks a judge about one node after the other, without links.
  - **Walk.run_tour**: a walk along the links is a tour along the nodes.
  - **Complete**: the list of a table links all its nodes. Each operation keeps this, so no walk ever
    finds that the list does not match the table.
-/

namespace ReadThrough.Table

open Buckets RecencyList

variable {K P σ : Type} {hashOf : K → UInt64} {b b' : Buckets K P} {l : RecencyList}
  {ns : List (Node K P)} {node : Node K P}

/-! ## Nodes in the order of the list -/

/-- The list links nodes of the buckets, in the order of `ns`. -/
structure Linking (hashOf : K → UInt64) (b : Buckets K P) (l : RecencyList)
    (ns : List (Node K P)) : Prop where
  slab : ∃ s, Simulates hashOf b l s ∧ s.linked = ns.map Node.item
  stored : ∀ n ∈ ns, b.node? n.slot = some n

/-- The list links the nodes of the buckets, all of them, in the order of `ns`. -/
structure Lined (hashOf : K → UInt64) (b : Buckets K P) (l : RecencyList)
    (ns : List (Node K P)) : Prop where
  slab : ∃ s, Simulates hashOf b l s ∧ s.linked = ns.map Node.item
  stored : ∀ n ∈ ns, b.node? n.slot = some n
  all : ∀ n ∈ b.nodes, n ∈ ns

/-- The nodes of a list but for the one in a slot. -/
def others (slot : Nat) (ns : List (Node K P)) : List (Node K P) :=
  ns.filter fun n => n.slot != slot

theorem others_sublist (slot : Nat) (ns : List (Node K P)) : (others slot ns).Sublist ns :=
  List.filter_sublist

theorem mem_others {slot : Nat} {n : Node K P} : n ∈ others slot ns ↔ n ∈ ns ∧ n.slot ≠ slot := by
  simp [others]

/-- The items without that of a slot are those of the other nodes. -/
theorem without_eq {s : Slab K P} (hlinked : s.linked = ns.map Node.item) (slot : Nat) :
    s.without slot = (others slot ns).map Node.item := by
  rw [Slab.without, hlinked, List.filter_map]
  rfl

namespace Linking

theorem ordered (h : Linking hashOf b l ns) : Ordered hashOf b l := by
  obtain ⟨s, hs, -⟩ := h.slab
  exact hs.ordered

theorem toList_eq (h : Linking hashOf b l ns) : l.toList = ns.map Node.slot := by
  obtain ⟨s, hs, hlinked⟩ := h.slab
  rw [hs.linked, hlinked, List.map_map]
  rfl

theorem byRecency_eq (h : Linking hashOf b l ns) : l.toList.filterMap b.node? = ns := by
  rw [h.toList_eq, List.filterMap_map]
  exact (List.filterMap_congr h.stored).trans (List.filterMap_some)

theorem slots_nodup (h : Linking hashOf b l ns) : (ns.map Node.slot).Nodup :=
  h.toList_eq ▸ h.ordered.linked.slots_nodup

theorem nodup (h : Linking hashOf b l ns) : ns.Nodup :=
  h.slots_nodup.of_map

theorem mem_nodes (h : Linking hashOf b l ns) (hn : node ∈ ns) : node ∈ b.nodes :=
  Buckets.mem_nodes.2 ⟨_, h.stored node hn⟩

/-- A node in its slot is linked if it is one of those in the list. -/
theorem isLinked_iff (h : Linking hashOf b l ns) (hnode : b.node? node.slot = some node) :
    l.isLinked node.slot node.generation = true ↔ node ∈ ns := by
  obtain ⟨s, hs, hlinked⟩ := h.slab
  rw [hs.isLinked hnode, Slab.isLinked, List.any_eq_true, hlinked]
  constructor
  · rintro ⟨item, hitem, hslot⟩
    obtain ⟨n, hn, rfl⟩ := List.mem_map.1 hitem
    have hsame : n.slot = node.slot := beq_iff_eq.1 hslot
    have hstored := h.stored n hn
    rw [hsame, hnode] at hstored
    exact Option.some.inj hstored ▸ hn
  · intro hn
    exact ⟨node.item, List.mem_map_of_mem hn, beq_self_eq_true _⟩

/-! ### The operations -/

theorem touch (h : Linking hashOf b l ns) (hn : node ∈ ns) :
    Linking hashOf b (l.touch node.slot node.generation) (node :: others node.slot ns) where
  slab := by
    obtain ⟨s, hs, hlinked⟩ := h.slab
    have hnode := h.stored node hn
    refine ⟨_, hs.touch hnode, ?_⟩
    rw [Slab.touch, ← hs.isLinked hnode, if_pos ((h.isLinked_iff hnode).2 hn)]
    exact congrArg (node.item :: ·) (without_eq hlinked node.slot)
  stored := by
    intro n hmem
    rcases List.mem_cons.1 hmem with rfl | hmem
    · exact h.stored n hn
    · exact h.stored n (mem_others.1 hmem).1

theorem insert (h : Linking hashOf b l ns) {key : K} (payload : P)
    (habsent : ∀ s n, b.node? s = some n → n.key ≠ key) :
    Linking hashOf (b.insert (hashOf key) key payload) (l.pushFront b.nextSlot b.nextGeneration)
      (b.nextNode (hashOf key) key payload :: ns) where
  slab := by
    obtain ⟨s, hs, hlinked⟩ := h.slab
    obtain ⟨hitem, hinsert⟩ := hs.insert payload habsent
    refine ⟨_, hinsert, ?_⟩
    rw [List.map_cons, hitem, ← hlinked]
    rfl
  stored := by
    obtain ⟨hle, hfree, -⟩ := h.ordered.sound.nextSlot_spec
    intro n hmem
    rcases List.mem_cons.1 hmem with rfl | hmem
    · exact (node?_insert hle _).trans (if_pos rfl)
    · have hold := h.stored n hmem
      rw [node?_insert hle, if_neg, hold]
      intro heq
      rw [heq, hfree] at hold
      cases hold

/-- Other buckets with the same nodes. -/
theorem rebucket (h : Linking hashOf b l ns) (hr : Rewired b b') (hs : b'.Sound hashOf) :
    Linking hashOf b' l ns where
  slab := by
    obtain ⟨s, hsim, hlinked⟩ := h.slab
    exact ⟨s, hsim.rebucket hr hs, hlinked⟩
  stored := by
    intro n hn
    rw [hr.node?]
    exact h.stored n hn

/-- A node that is not linked is not looked for in the list. -/
theorem unlink (h : Linking hashOf b l ns) (hnode : b.node? node.slot = some node) :
    Linking hashOf b (l.unlink node.slot node.generation) (others node.slot ns) where
  slab := by
    obtain ⟨s, hs, hlinked⟩ := h.slab
    exact ⟨_, hs.unlink hnode, without_eq hlinked node.slot⟩
  stored := fun n hmem => h.stored n (mem_others.1 hmem).1

theorem remove (h : Linking hashOf b l ns) (hnode : b.node? node.slot = some node) :
    Linking hashOf (b.removeNode node).1 (l.unlink node.slot node.generation)
      (others node.slot ns) where
  slab := by
    obtain ⟨s, hs, hlinked⟩ := h.slab
    exact ⟨_, hs.remove hnode, without_eq hlinked node.slot⟩
  stored := by
    intro n hmem
    obtain ⟨hmem, hslot⟩ := mem_others.1 hmem
    rcases h.ordered.sound.removeNode node with ⟨-, -, hafter⟩ | ⟨-, hnot⟩
    · rw [hafter, if_neg hslot, h.stored n hmem]
    · exact absurd (Buckets.mem_nodes.2 ⟨_, hnode⟩) hnot

/-! ### Along the links -/

/-- A slot of the list holds its node, which the list links; behind it the links lead on. -/
theorem step {passed ahead : List (Node K P)}
    (h : Linking hashOf b l ((node :: ahead).reverse ++ passed)) :
    b.node? node.slot = some node ∧ l.isLinked node.slot node.generation = true ∧
      node.slot ≠ front ∧ l.prev node.slot = (ahead.map Node.slot ++ [front]).head? := by
  have hn : node ∈ (node :: ahead).reverse ++ passed := by simp
  have hnode := h.stored node hn
  have hres : 2 ≤ node.slot := (h.ordered.sound.slot _ node hnode).2
  refine ⟨hnode, (h.isLinked_iff hnode).2 hn, by unfold front; omega, ?_⟩
  obtain ⟨s, hs, hlinked⟩ := h.slab
  have hsplit : s.linked = (node.item :: ahead.map Node.item).reverse ++ passed.map Node.item := by
    rw [hlinked]
    simp
  have hprev := hs.prev_eq hsplit
  rw [List.map_map] at hprev
  exact hprev

/-- Without a node, the nodes around it stay. -/
theorem others_eq {passed ahead : List (Node K P)}
    (h : Linking hashOf b l ((node :: ahead).reverse ++ passed)) :
    others node.slot ((node :: ahead).reverse ++ passed) = ahead.reverse ++ passed := by
  have hnd := h.slots_nodup
  rw [List.reverse_cons, List.append_assoc, List.singleton_append] at hnd ⊢
  rw [List.map_append, List.map_cons, List.nodup_middle, List.nodup_cons, ← List.map_append] at hnd
  have hkeep : ∀ n ∈ ahead.reverse ++ passed, (n.slot != node.slot) = true := by
    intro n hn
    rw [bne_iff_ne]
    exact fun heq => hnd.1 (heq ▸ List.mem_map_of_mem hn)
  rw [others, List.filter_append, List.filter_cons_of_neg (by simp), ← List.filter_append,
    List.filter_eq_self.2 hkeep]

end Linking

namespace Lined

theorem linking (h : Lined hashOf b l ns) : Linking hashOf b l ns :=
  ⟨h.slab, h.stored⟩

theorem ordered (h : Lined hashOf b l ns) : Ordered hashOf b l :=
  h.linking.ordered

theorem toList_eq (h : Lined hashOf b l ns) : l.toList = ns.map Node.slot :=
  h.linking.toList_eq

theorem nodup (h : Lined hashOf b l ns) : ns.Nodup :=
  h.linking.nodup

theorem isLinked (h : Lined hashOf b l ns) (hn : node ∈ ns) :
    l.isLinked node.slot node.generation = true :=
  (h.linking.isLinked_iff (h.stored node hn)).2 hn

theorem mem_iff (h : Lined hashOf b l ns) : node ∈ ns ↔ node ∈ b.nodes :=
  ⟨h.linking.mem_nodes, h.all node⟩

theorem perm (h : Lined hashOf b l ns) : ns.Perm b.nodes :=
  (List.perm_ext_iff_of_nodup h.nodup
    (nodup_map_nodes Node.generation h.ordered.sound.different).of_map).2 fun _ => h.mem_iff

theorem length_eq (h : Lined hashOf b l ns) : ns.length = b.size :=
  h.ordered.accounted.size ▸ h.perm.length_eq

/-! ### The operations -/

theorem touch (h : Lined hashOf b l ns) (hn : node ∈ ns) :
    Lined hashOf b (l.touch node.slot node.generation) (node :: others node.slot ns) where
  slab := (h.linking.touch hn).slab
  stored := (h.linking.touch hn).stored
  all := by
    intro n hmem
    by_cases hslot : n.slot = node.slot
    · have hsame := h.stored n (h.all n hmem)
      rw [hslot, h.stored node hn] at hsame
      exact Option.some.inj hsame ▸ List.mem_cons_self
    · exact List.mem_cons_of_mem _ (mem_others.2 ⟨h.all n hmem, hslot⟩)

theorem remove (h : Lined hashOf b l ns) (hn : node ∈ ns) :
    Lined hashOf (b.removeNode node).1 (l.unlink node.slot node.generation)
      (others node.slot ns) where
  slab := (h.linking.remove (h.stored node hn)).slab
  stored := (h.linking.remove (h.stored node hn)).stored
  all := by
    intro n hmem
    obtain ⟨hmem, hne⟩ := (h.ordered.sound.mem_removeNode (h.mem_iff.1 hn)).1 hmem
    refine mem_others.2 ⟨h.all n hmem, fun hslot => hne ?_⟩
    have hsame := h.stored n (h.all n hmem)
    rw [hslot, h.stored node hn] at hsame
    exact (Option.some.inj hsame).symm

theorem insert (h : Lined hashOf b l ns) {key : K} (payload : P)
    (habsent : ∀ s n, b.node? s = some n → n.key ≠ key) :
    Lined hashOf (b.insert (hashOf key) key payload) (l.pushFront b.nextSlot b.nextGeneration)
      (b.nextNode (hashOf key) key payload :: ns) where
  slab := (h.linking.insert payload habsent).slab
  stored := (h.linking.insert payload habsent).stored
  all := by
    obtain ⟨hle, -, -⟩ := h.ordered.sound.nextSlot_spec
    intro n hmem
    obtain ⟨s, hs⟩ := mem_nodes.1 hmem
    rw [node?_insert hle] at hs
    split at hs
    · exact Option.some.inj hs ▸ List.mem_cons_self
    · exact List.mem_cons_of_mem _ (h.all n (mem_nodes.2 ⟨s, hs⟩))

/-- Other buckets with the same nodes. -/
theorem rebucket (h : Lined hashOf b l ns) (hr : Rewired b b') (hs : b'.Sound hashOf) :
    Lined hashOf b' l ns where
  slab := (h.linking.rebucket hr hs).slab
  stored := (h.linking.rebucket hr hs).stored
  all := by
    intro n hn
    rw [hr.nodes] at hn
    exact h.all n hn

theorem pinch (h : Lined hashOf b l ns) :
    Lined hashOf b.pinch (l.truncate b.pinch.cells.size) ns where
  slab := by
    obtain ⟨s, hs, hlinked⟩ := h.slab
    exact ⟨_, hs.pinch, hlinked⟩
  stored := by
    intro n hn
    rw [h.ordered.sound.pinch.2]
    exact h.stored n hn
  all := by
    intro n hn
    rw [h.ordered.sound.pinch_nodes] at hn
    exact h.all n hn

theorem clear (h : Lined hashOf b l ns) : Lined hashOf b.clear .empty [] where
  slab := by
    obtain ⟨s, hs, -⟩ := h.slab
    exact ⟨_, hs.clear, rfl⟩
  stored := nofun
  all := by
    intro n hn
    obtain ⟨s, hs⟩ := mem_nodes.1 hn
    rw [node?_clear h.ordered.sound] at hs
    cases hs

end Lined

/-! ## Tours -/

/-- What a tour along nodes has led to. -/
structure Tour (K P σ : Type) where
  /-- The nodes that are left, those that the tour did not come to included. -/
  left : List (Node K P)
  /-- The nodes that were removed, in the order of their removal. -/
  removed : List (Node K P)
  /-- The memory of the judge afterwards. -/
  memory : σ
  ending : Ending

/-- The tour of which a node came first that was left in place. -/
def Tour.passing (node : Node K P) (o : Tour K P σ) : Tour K P σ :=
  { o with left := node :: o.left }

/-- The tour of which a node came first that was removed. -/
def Tour.removing (node : Node K P) (o : Tour K P σ) : Tour K P σ :=
  { o with removed := node :: o.removed }

/-- Asks the judge about one node after the other, until it stops or panics or has removed as many
    nodes as it may. -/
def Judge.tour (judge : Judge K P σ) : List (Node K P) → Option Nat → σ → Tour K P σ
  | [], _, m => { left := [], removed := [], memory := m, ending := .atFront }
  | node :: ahead, quota, m =>
    if quota = some 0 then { left := node :: ahead, removed := [], memory := m, ending := .atQuota }
    else
      match judge node m with
      | (.keep, m) => (judge.tour ahead quota m).passing node
      | (.evict, m) => (judge.tour ahead (quota.map (· - 1)) m).removing node
      | (.stop, m) => { left := node :: ahead, removed := [], memory := m, ending := .stopped }
      | (.panic reason, m) =>
        { left := node :: ahead, removed := [], memory := m, ending := .panicked reason }

variable {judge : Judge K P σ} {m : σ}

/-- The nodes that are left stay in their order. -/
theorem Judge.tour_left (judge : Judge K P σ) (ahead : List (Node K P)) (quota : Option Nat)
    (m : σ) : (judge.tour ahead quota m).left.Sublist ahead := by
  fun_induction Judge.tour judge ahead quota m with
  | case3 node ahead quota m hquota m' hjudge ih => exact ih.cons_cons node
  | case4 node ahead quota m hquota m' hjudge ih => exact ih.cons node
  | _ => exact List.Sublist.refl _

/-- Every node is left or removed. -/
theorem Judge.tour_perm (judge : Judge K P σ) (ahead : List (Node K P)) (quota : Option Nat)
    (m : σ) :
    ((judge.tour ahead quota m).removed ++ (judge.tour ahead quota m).left).Perm ahead := by
  fun_induction Judge.tour judge ahead quota m with
  | case3 node ahead quota m hquota m' hjudge ih => exact List.perm_middle.trans (ih.cons node)
  | case4 node ahead quota m hquota m' hjudge ih => exact ih.cons node
  | _ => exact List.Perm.refl _

theorem Judge.tour_length (judge : Judge K P σ) (ahead : List (Node K P)) (quota : Option Nat)
    (m : σ) : (judge.tour ahead quota m).removed.length + (judge.tour ahead quota m).left.length =
      ahead.length := by
  rw [← List.length_append]
  exact (judge.tour_perm ahead quota m).length_eq

/-- What a walk along the links has led to is what a tour along the linked nodes ahead has led to,
    where the nodes in `passed` had been left in place before. -/
structure Toured (hashOf : K → UInt64) (w : Walk K P) (passed : List (Node K P))
    (out : Walk K P × σ × Ending) (o : Tour K P σ) : Prop where
  linking : Linking hashOf out.1.buckets out.1.recency (o.left.reverse ++ passed)
  /-- Nodes that are not linked stay, and so do those that the walk leaves in place. -/
  nodes : ∀ n, n ∈ out.1.buckets.nodes ↔ n ∈ w.buckets.nodes ∧ n ∉ o.removed
  removed : out.1.removed = o.removed.reverse ++ w.removed
  memory : out.2.1 = o.memory
  ending : out.2.2 = o.ending
  dangling : out.1.dangling = w.dangling
  /-- A walk that comes to the end has met all linked nodes that are left. -/
  visited : out.2.2 = .atFront →
    out.1.visited + passed.length = w.visited + (o.left.reverse ++ passed).length

/-- The walk ends where it is. It may have counted a node that made it end. -/
theorem toured_of_ended {passed ahead : List (Node K P)} {w : Walk K P} {ending : Ending}
    {visited : Nat} (h : Linking hashOf w.buckets w.recency (ahead.reverse ++ passed))
    (hfront : ending = .atFront → ahead = [] ∧ visited = w.visited) :
    Toured hashOf w passed ({ w with visited }, m, ending)
      { left := ahead, removed := [], memory := m, ending } where
  linking := h
  nodes := fun n => by simp
  removed := rfl
  memory := rfl
  ending := rfl
  dangling := rfl
  visited := by
    intro hend
    obtain ⟨rfl, rfl⟩ := hfront hend
    rfl

theorem Walk.run_tour (judge : Judge K P σ) (m : σ) {ahead passed : List (Node K P)} {fuel : Nat}
    {w : Walk K P} (h : Linking hashOf w.buckets w.recency (ahead.reverse ++ passed))
    (hfuel : ahead.length ≤ fuel) :
    Toured hashOf w passed (Walk.run judge fuel (ahead.map Node.slot ++ [front]).head? m w)
      (judge.tour ahead w.quota m) := by
  -- The induction is on the nodes ahead; what lies behind the walk has been left in place.
  induction ahead generalizing passed fuel m w with
  | nil =>
    have hout : Walk.run judge fuel (some front) m w = (w, m, .atFront) := by
      cases fuel <;> simp [Walk.run]
    show Toured hashOf w passed (Walk.run judge fuel (some front) m w) _
    rw [hout]
    exact toured_of_ended h fun _ => ⟨rfl, rfl⟩
  | cons node ahead ih =>
    obtain ⟨fuel, rfl, hle⟩ := exists_fuel hfuel
    obtain ⟨hnode, hlinked, hne, hprev⟩ := h.step
    have hfront : some node.slot ≠ some front := fun heq => hne (Option.some.inj heq)
    show Toured hashOf w passed (Walk.run judge (fuel + 1) (some node.slot) m w) _
    rw [Walk.run, if_neg hfront, Judge.tour]
    by_cases hquota : w.quota = some 0
    · rw [if_pos hquota, if_pos hquota]
      exact toured_of_ended h (by simp)
    rw [if_neg hquota, if_neg hquota]
    simp only [hnode, hlinked, if_true, hprev]
    obtain ⟨verdict, m'⟩ := judge node m
    cases verdict with
    | keep =>
      -- The node lies behind the walk from now on.
      have hsame : (node :: ahead).reverse ++ passed = ahead.reverse ++ node :: passed := by simp
      rw [hsame] at h
      have hkept : Toured hashOf w.pass (node :: passed) _ (judge.tour ahead w.quota m') :=
        ih m' h hle
      have hleft : ((judge.tour ahead w.quota m').passing node).left.reverse ++ passed =
          (judge.tour ahead w.quota m').left.reverse ++ node :: passed := by simp [Tour.passing]
      refine ⟨hleft ▸ hkept.linking, hkept.nodes, hkept.removed, hkept.memory, hkept.ending,
        hkept.dangling, fun hfront => ?_⟩
      have hvisited := hkept.visited hfront
      have hpass : w.pass.visited = w.visited + 1 := rfl
      rw [hpass, List.length_cons] at hvisited
      rw [hleft]
      show (Walk.run judge fuel _ m' w.pass).1.visited + passed.length = _
      omega
    | evict =>
      have hn : node ∈ (node :: ahead).reverse ++ passed := by simp
      have hremoved := h.remove (h.stored node hn)
      rw [h.others_eq] at hremoved
      have hleft := ih m' (w := w.evict node) hremoved hle
      refine ⟨hleft.linking, fun n => ?_, ?_, hleft.memory, hleft.ending, hleft.dangling,
        hleft.visited⟩
      · rw [hleft.nodes]
        show n ∈ (w.buckets.removeNode node).1.nodes ∧ _ ↔ _ ∧ n ∉ node :: _
        rw [h.ordered.sound.mem_removeNode (h.mem_nodes hn), List.mem_cons, not_or, and_assoc]
        rfl
      · rw [hleft.removed]
        simp [Tour.removing, Walk.evict]
    | stop => exact toured_of_ended h (by simp)
    | panic reason => exact toured_of_ended h (by simp)

/-! ## Tables -/

/-- What a walk along the list of a table brings about is what a tour along its linked nodes does,
    from the least recently used one on. -/
structure Strolls (t : Table K P) (o : Swept K P σ) (tour : Tour K P σ) : Prop where
  linking : Linking o.table.hashOf o.table.buckets o.table.recency tour.left.reverse
  nodes : ∀ n, n ∈ o.table.nodes ↔ n ∈ t.nodes ∧ n ∉ tour.removed
  removed : o.removed = tour.removed
  memory : o.memory = tour.memory
  panic : o.panic? = tour.ending.panic?
  /-- A mismatch shows only at the end of the list: fewer nodes are left there than in the table. -/
  consistent : o.consistent = true ↔ (tour.ending = .atFront → tour.left.length = o.table.size)

theorem Strolls.byRecency_eq {t : Table K P} {o : Swept K P σ} {tour : Tour K P σ}
    (h : Strolls t o tour) : o.table.byRecency = tour.left.reverse :=
  h.linking.byRecency_eq

theorem Linking.walk {t : Table K P} (h : Linking t.hashOf t.buckets t.recency ns)
    (judge : Judge K P σ) (quota : Option Nat) (m : σ) :
    Strolls t (t.walk judge quota m) (judge.tour ns.reverse quota m) := by
  have hfuel : ns.reverse.length ≤ t.recency.links.size := by
    have hle := h.ordered.linked.length_le
    rwa [h.toList_eq, List.length_map, ← List.length_reverse] at hle
  -- The walk starts at the least recently used slot, or at the front of an empty list.
  have hlast : t.recency.prev back = (ns.reverse.map Node.slot ++ [front]).head? := by
    obtain ⟨s, hs, hlinked⟩ := h.slab
    rw [hs.prev_back, hlinked, ← List.map_reverse, List.map_map]
    rfl
  have hlinking : Linking t.hashOf t.buckets t.recency (ns.reverse.reverse ++ []) := by
    rwa [List.reverse_reverse, List.append_nil]
  have hrun := Walk.run_tour judge m
    (w := { buckets := t.buckets, recency := t.recency, quota }) hlinking hfuel
  rw [← hlast] at hrun
  exact {
    linking := by
      have hleft := hrun.linking
      rwa [List.append_nil] at hleft
    nodes := hrun.nodes
    removed := by
      have hremoved := hrun.removed
      rw [List.append_nil] at hremoved
      exact (congrArg List.reverse hremoved).trans (List.reverse_reverse _)
    memory := hrun.memory
    panic := congrArg Ending.panic? hrun.ending
    -- No link dangles, so only a walk that reaches the front can be inconsistent.
    consistent := by
      show (!Walk.dangling _ && (_ != Ending.atFront || Walk.visited _ == Buckets.size _)) = true ↔ _
      rw [hrun.dangling, Bool.not_false, Bool.true_and, Bool.or_eq_true, bne_iff_ne, beq_iff_eq,
        ← imp_iff_not_or, hrun.ending]
      apply imp_congr_right
      intro hfront
      have hvisited := hrun.visited (hrun.ending.trans hfront)
      rw [List.append_nil, List.length_reverse, List.length_nil] at hvisited
      show Walk.visited _ = _ ↔ _ = Buckets.size _
      rw [← hvisited.trans (Nat.zero_add _)]
      rfl }

/-- A walk that may remove no node changes nothing. -/
theorem walk_zero (judge : Judge K P σ) (m : σ) (t : Table K P) :
    let s := t.walk judge (some 0) m
    s.table = t ∧ s.memory = m ∧ s.removed = [] ∧ s.panic? = none := by
  have hrun (fuel : Nat) (current? : Option Nat) (w : Walk K P) (hquota : w.quota = some 0) :
      ∃ ending : Ending,
        Walk.run judge fuel current? m w = (w, m, ending) ∧ ending.panic? = none := by
    unfold Walk.run
    rw [if_pos hquota]
    split
    · exact ⟨_, rfl, rfl⟩
    · exact ⟨_, rfl, rfl⟩
  unfold walk
  dsimp only
  obtain ⟨ending, heq, hpanic⟩ := hrun t.recency.links.size (t.recency.prev back)
    { buckets := t.buckets, recency := t.recency, quota := some 0 } rfl
  rw [heq]
  exact ⟨rfl, rfl, rfl, hpanic⟩

/-- The recency list of the table links all its nodes. -/
def Complete (t : Table K P) : Prop :=
  Lined t.hashOf t.buckets t.recency t.byRecency

theorem complete_of_lined {t : Table K P} (h : Lined t.hashOf t.buckets t.recency ns) :
    t.Complete ∧ t.byRecency = ns := by
  have heq : t.byRecency = ns := h.linking.byRecency_eq
  refine ⟨?_, heq⟩
  unfold Complete
  rwa [heq]

theorem complete_empty (initial maxCapacity : Nat) (loadFactor : LoadFactor)
    (hashOf : K → UInt64) :
    (Table.empty initial maxCapacity loadFactor hashOf : Table K P).Complete where
  slab := ⟨_, (refines_empty initial maxCapacity loadFactor hashOf).simulates, rfl⟩
  stored := nofun
  all := by
    intro n hn
    rw [← Table.nodes, nodes_empty] at hn
    cases hn

namespace Complete

variable {t : Table K P}

theorem sound (h : t.Complete) : t.Sound :=
  h.ordered.sound

theorem mem_byRecency (h : t.Complete) : node ∈ t.byRecency ↔ node ∈ t.nodes :=
  h.mem_iff

theorem touch (h : t.Complete) (hn : node ∈ t.nodes) :
    (t.touch node).Complete ∧ (t.touch node).byRecency = node :: others node.slot t.byRecency :=
  complete_of_lined (Lined.touch h (h.all node hn))

theorem removeNode (h : t.Complete) (hn : node ∈ t.nodes) :
    (t.removeNode node).1.Complete ∧
      (t.removeNode node).1.byRecency = others node.slot t.byRecency := by
  have hlined := Lined.remove h (h.all node hn)
  have hstored := h.sound.removeNode_stored (h.stored node (h.all node hn))
  refine complete_of_lined ?_
  unfold Table.removeNode
  dsimp only
  split
  · next hout =>
    rw [hout] at hstored
    cases hstored
  · next hout =>
    rw [hout] at hlined
    exact hlined

theorem insertNew (h : t.Complete) {key : K} (payload : P)
    (habsent : ∀ n ∈ t.nodes, n.key ≠ key) :
    (t.insertNew key payload).table.Complete ∧ (t.insertNew key payload).table.byRecency =
      (t.insertNew key payload).value :: t.byRecency := by
  have hlined := Lined.insert h payload fun s n hn => habsent n (mem_nodes.2 ⟨s, hn⟩)
  refine complete_of_lined ?_
  unfold Table.insertNew
  dsimp only
  split
  · obtain ⟨hr, hs⟩ := hlined.ordered.sound.grow
    exact hlined.rebucket hr hs
  · exact hlined

theorem pinch (h : t.Complete) :
    t.pinch.table.Complete ∧ t.pinch.table.byRecency = t.byRecency := by
  unfold Table.pinch
  split
  · exact complete_of_lined (Lined.pinch h)
  · exact ⟨h, rfl⟩

theorem clear (h : t.Complete) : t.clear.1.Complete ∧ t.clear.1.byRecency = [] :=
  complete_of_lined (Lined.clear h)

/-- What a walk brings about is what a tour along the nodes does, from the least recently used one
    on. The list is found to match the table. -/
structure Walks (o : Swept K P σ) (tour : Tour K P σ) : Prop where
  complete : o.table.Complete
  byRecency : o.table.byRecency = tour.left.reverse
  removed : o.removed = tour.removed
  memory : o.memory = tour.memory
  panic : o.panic? = tour.ending.panic?
  consistent : o.consistent = true

theorem walk (h : t.Complete) (judge : Judge K P σ) (quota : Option Nat) (m : σ) :
    Walks (t.walk judge quota m) (judge.tour t.byRecency.reverse quota m) := by
  have hwalk := h.linking.walk judge quota m
  have hlined : Lined _ _ _ (judge.tour t.byRecency.reverse quota m).left.reverse := {
    slab := hwalk.linking.slab
    stored := hwalk.linking.stored
    all := by
      intro n hn
      obtain ⟨hn, hleft⟩ := (hwalk.nodes n).1 hn
      have hperm := judge.tour_perm t.byRecency.reverse quota m
      have hmem := hperm.mem_iff.2 (List.mem_reverse.2 (h.mem_byRecency.2 hn))
      exact List.mem_reverse.2 ((List.mem_append.1 hmem).resolve_left hleft) }
  obtain ⟨hcomplete, hby⟩ := complete_of_lined (t := (t.walk judge quota m).table) hlined
  exact {
    complete := hcomplete
    byRecency := hby
    removed := hwalk.removed
    memory := hwalk.memory
    panic := hwalk.panic
    consistent := by
      rw [hwalk.consistent]
      intro _
      rw [← List.length_reverse, hlined.length_eq]
      rfl }

/-- A walk along a complete list has nothing to report. -/
theorem walk_events (h : t.Complete) (judge : Judge K P σ) (quota : Option Nat) (m : σ) :
    (t.walk judge quota m).events = [] := by
  have hconsistent := (h.walk judge quota m).consistent
  unfold Table.walk at hconsistent ⊢
  dsimp only at hconsistent ⊢
  rw [hconsistent, Bool.or_true, if_pos rfl]

/-- A sweep is a single walk. -/
theorem sweep_eq (h : t.Complete) (lastUse : σ → P → Nat) (judge : Judge K P σ) (m : σ) :
    let s := t.walk judge none m
    t.sweep lastUse judge m =
      { table := s.table
        value := { memory := s.memory, removed := s.removed, panic? := s.panic? } } := by
  unfold Table.sweep
  dsimp only
  rw [(h.walk judge none m).consistent, Bool.or_true, if_pos rfl, h.walk_events]

theorem sweep (h : t.Complete) (lastUse : σ → P → Nat) (judge : Judge K P σ) (m : σ) :
    let o := judge.tour t.byRecency.reverse none m
    let r := t.sweep lastUse judge m
    r.table.Complete ∧ r.table.byRecency = o.left.reverse ∧ r.value.memory = o.memory ∧
      r.value.removed = o.removed := by
  have hwalk := h.walk judge none m
  rw [h.sweep_eq]
  exact ⟨hwalk.complete, hwalk.byRecency, hwalk.memory, hwalk.removed⟩

/-- A trim is a single walk. -/
theorem trim_eq (h : t.Complete) (lastUse : σ → P → Nat) (judge : Judge K P σ) (count : Nat)
    (m : σ) :
    let s := t.walk judge (some count) m
    t.trim lastUse judge count m =
      { table := s.table
        value := { memory := s.memory, removed := s.removed, panic? := s.panic? } } := by
  unfold Table.trim
  split
  · next hcount =>
    obtain ⟨htable, hmemory, hremoved, hpanic⟩ := walk_zero judge m t
    dsimp only
    rw [hcount, htable, hmemory, hremoved, hpanic]
  unfold trimNodes
  dsimp only
  rw [(h.walk judge (some count) m).consistent, Bool.or_true, Bool.true_or, if_pos rfl,
    h.walk_events]

theorem trim (h : t.Complete) (lastUse : σ → P → Nat) (judge : Judge K P σ) (count : Nat) (m : σ) :
    (t.trim lastUse judge count m).table.Complete ∧
      (t.trim lastUse judge count m).table.byRecency.Sublist t.byRecency := by
  have hwalk := h.walk judge (some count) m
  rw [h.trim_eq]
  refine ⟨hwalk.complete, ?_⟩
  dsimp only
  rw [hwalk.byRecency, ← List.reverse_sublist, List.reverse_reverse]
  exact judge.tour_left _ _ _

end Complete

end ReadThrough.Table
