import Mathlib.Data.List.Forall2
import ReadThrough.Proofs.Table.Slab
import ReadThrough.Proofs.Table.WellFormed

/-! # The Table Refines the Slab

  Whatever the hash function, a table answers as the slab does that knows no hashes.

  - **Simulates**: the slab has the keys and payloads of the buckets and the items that the recency
    list links, in its order.
  - **run_simulates**: a walk along the links is a walk along the linked items.
  - **Refines.perform**: each operation gives the same reply and leads to such a slab again.
  - **refines_slab**: so does every sequence of operations.
-/

namespace ReadThrough.Table

open Buckets RecencyList

variable {K P : Type} {hashOf : K → UInt64} {b b' : Buckets K P} {l : RecencyList} {s : Slab K P}
  {node : Node K P}

/-! ## The slab of buckets and list -/

/-- What a slot holds. -/
def Node.content (node : Node K P) : K × P :=
  (node.key, node.payload)

/-- The slab tells what the buckets hold and what the list links. -/
structure Simulates (hashOf : K → UInt64) (b : Buckets K P) (l : RecencyList) (s : Slab K P) :
    Prop where
  ordered : Ordered hashOf b l
  cells : s.cells = b.contents.map (Option.map Node.content)
  vacant : s.vacant = b.vacant
  linked : l.toList = s.linked.map Item.slot
  shown : ∀ i ∈ s.linked, ∃ node, b.node? i.slot = some node ∧ node.item = i

namespace Simulates

/-- The items are those of the nodes. -/
theorem items (h : Simulates hashOf b l s) : s.items = b.nodes.map Node.item := by
  rw [Slab.items, nodes_eq, ← List.reduceOption_map]
  congr 1
  apply List.ext_getElem?
  intro slot
  rw [List.getElem?_mapIdx, h.cells, List.getElem?_map, List.getElem?_map]
  cases hcell : b.contents[slot]? with
  | none => rfl
  | some cell =>
    cases cell with
    | none => rfl
    | some node =>
      -- A node knows its slot.
      have hslot : node.slot = slot :=
        (h.ordered.sound.slot slot node (by rw [node?_eq, hcell]; rfl)).1
      simp [Node.content, Node.item, hslot]

theorem size (h : Simulates hashOf b l s) : s.size = b.size := by
  rw [Slab.size, h.items, List.length_map, h.ordered.accounted.size]

/-- A slot is linked in the list if an item with that slot is. -/
theorem isLinked (h : Simulates hashOf b l s) (hnode : b.node? node.slot = some node) :
    l.isLinked node.slot node.generation = s.isLinked node.item := by
  have hres := (h.ordered.sound.slot _ node hnode).2
  have hmem : s.isLinked node.item = true ↔ node.slot ∈ l.toList := by
    rw [Slab.isLinked, List.any_eq_true, h.linked, List.mem_map]
    simp only [beq_iff_eq]
    rfl
  rw [Bool.eq_iff_iff, hmem, h.ordered.linked.mem_iff hres, RecencyList.isLinked, beq_iff_eq]
  constructor
  · intro hg
    rw [hg]
    rfl
  · intro hg
    obtain ⟨g, hg⟩ := Option.isSome_iff_exists.1 hg
    obtain ⟨n, hn, hgeneration⟩ := h.ordered.matched _ g hres hg
    rw [hnode] at hn
    rw [hg, ← hgeneration, Option.some.inj hn]

theorem slots_nodup (h : Simulates hashOf b l s) : (s.linked.map Item.slot).Nodup :=
  h.linked ▸ h.ordered.linked.slots_nodup

/-- The list without a slot. -/
theorem map_without (h : Simulates hashOf b l s) (slot : Nat) :
    (s.without slot).map Item.slot = l.toList.erase slot := by
  rw [h.linked, h.slots_nodup.erase_eq_filter, List.filter_map]
  rfl

theorem mem_without {i : Item K P} {slot : Nat} (hi : i ∈ s.without slot) :
    i ∈ s.linked ∧ i.slot ≠ slot := by
  simpa [Slab.without] using hi

/-! ### The operations -/

theorem touch (h : Simulates hashOf b l s) (hnode : b.node? node.slot = some node) :
    Simulates hashOf b (l.touch node.slot node.generation) (s.touch node.item) := by
  have hres := (h.ordered.sound.slot _ node hnode).2
  have htouched := (h.ordered.linked.touch hres node.generation).toList_eq
  have hordered := h.ordered.touch hres node.generation
  rw [h.isLinked hnode] at htouched
  unfold Slab.touch
  split
  · next hlinked =>
    rw [if_pos hlinked] at htouched
    refine ⟨hordered, h.cells, h.vacant, ?_, fun i hi => ?_⟩
    · rw [htouched, List.map_cons, ← h.map_without]
      rfl
    · rcases List.mem_cons.1 hi with heq | hi
      · rw [heq]
        exact ⟨node, hnode, rfl⟩
      · exact h.shown i (mem_without hi).1
  · next hlinked =>
    rw [if_neg hlinked] at htouched
    exact ⟨hordered, h.cells, h.vacant, htouched.trans h.linked, h.shown⟩

/-- The list after a node has been taken out. -/
theorem toList_unlink (h : Simulates hashOf b l s) (hnode : b.node? node.slot = some node) :
    (l.unlink node.slot node.generation).toList = (s.without node.slot).map Item.slot := by
  have hres := (h.ordered.sound.slot _ node hnode).2
  rw [(h.ordered.linked.unlink hres node.generation).toList_eq, h.map_without]
  split
  · rfl
  · next hlinked =>
    rw [List.erase_of_not_mem]
    rw [h.ordered.linked.mem_iff hres]
    intro hsome
    obtain ⟨g, hg⟩ := Option.isSome_iff_exists.1 hsome
    obtain ⟨n, hn, hgeneration⟩ := h.ordered.matched _ g hres hg
    rw [hnode] at hn
    apply hlinked
    rw [RecencyList.isLinked, hg, ← hgeneration, Option.some.inj hn]
    exact beq_self_eq_true _

theorem unlink (h : Simulates hashOf b l s) (hnode : b.node? node.slot = some node) :
    Simulates hashOf b (l.unlink node.slot node.generation) (s.unlink node.item) where
  ordered := h.ordered.unlink (h.ordered.sound.slot _ node hnode).2 _
  cells := h.cells
  vacant := h.vacant
  linked := h.toList_unlink hnode
  shown := fun i hi => h.shown i (mem_without hi).1

theorem remove (h : Simulates hashOf b l s) (hnode : b.node? node.slot = some node) :
    Simulates hashOf (b.removeNode node).1 (l.unlink node.slot node.generation)
      (s.remove node.item) := by
  have hremoved := h.ordered.sound.removeNode_stored hnode
  -- The node is stored, so it is found and its slot emptied.
  rcases b.removeNode_cases node with heq | ⟨-, -, he⟩
  · rw [heq] at hremoved
    cases hremoved
  exact {
    ordered := h.ordered.removeNode hremoved
    cells := by
      rw [he.contents, List.map_set, ← h.cells]
      rfl
    vacant := by
      rw [he.vacant, ← h.vacant]
      rfl
    linked := h.toList_unlink hnode
    shown := by
      intro i hi
      obtain ⟨hlinked, hne⟩ := mem_without hi
      obtain ⟨n, hn, hitem⟩ := h.shown i hlinked
      have hother : i.slot ≠ node.slot := hne
      exact ⟨n, by rw [he.node?, if_neg hother, hn], hitem⟩ }

theorem insert (h : Simulates hashOf b l s) {key : K} (payload : P)
    (habsent : ∀ s n, b.node? s = some n → n.key ≠ key) :
    (b.nextNode (hashOf key) key payload).item = s.nextItem key payload ∧
      Simulates hashOf (b.insert (hashOf key) key payload)
        (l.pushFront b.nextSlot b.nextGeneration) (s.insert key payload) := by
  obtain ⟨hle, hfree, hres⟩ := h.ordered.sound.nextSlot_spec
  have hlength : s.cells.length = b.cells.size := by rw [h.cells]; simp
  have hslot : (s.nextItem key payload).slot = b.nextSlot := by
    rw [Slab.nextItem, nextSlot, h.vacant, hlength]
  have hitem : (b.nextNode (hashOf key) key payload).item = s.nextItem key payload := by
    rw [Slab.nextItem, h.vacant, hlength]
    rfl
  -- The slot was empty, so it was not linked.
  have hloose : b.nextSlot ∉ l.toList := by
    intro hmem
    rw [h.linked] at hmem
    obtain ⟨i, hi, heq⟩ := List.mem_map.1 hmem
    obtain ⟨n, hn, -⟩ := h.shown i hi
    rw [heq, hfree] at hn
    cases hn
  have hpushed := (h.ordered.linked.pushFront hres b.nextGeneration).toList_eq
  rw [List.erase_of_not_mem hloose] at hpushed
  refine ⟨hitem, ?_⟩
  exact {
    ordered := h.ordered.insert payload habsent
    cells := by
      rw [contents_insert]
      simp only [Slab.insert, hslot, hlength]
      rw [h.cells]
      split
      · rw [List.map_set]
        rfl
      · rw [List.map_append]
        rfl
    vacant := by
      show s.vacant.tail = b.vacant.tail
      rw [h.vacant]
    linked := by
      rw [hpushed, h.linked]
      show _ = (s.nextItem key payload).slot :: _
      rw [hslot]
    shown := by
      intro i hi
      have hnode (slot : Nat) : (b.insert (hashOf key) key payload).node? slot =
          if slot = b.nextSlot then some (b.nextNode (hashOf key) key payload)
          else b.node? slot := node?_insert hle slot
      rcases List.mem_cons.1 hi with heq | hi
      · refine ⟨b.nextNode (hashOf key) key payload, ?_, hitem.trans heq.symm⟩
        rw [heq, hslot, hnode, if_pos rfl]
      · obtain ⟨n, hn, hshown⟩ := h.shown i hi
        refine ⟨n, ?_, hshown⟩
        rw [hnode, if_neg, hn]
        intro heq
        rw [heq, hfree] at hn
        cases hn }

/-- The slab does not know how the buckets are chained. -/
theorem rebucket (h : Simulates hashOf b l s) (hr : Rewired b b') (hs : b'.Sound hashOf) :
    Simulates hashOf b' l s where
  ordered := h.ordered.rebucket hr hs
  cells := by rw [hr.contents, h.cells]
  vacant := by rw [hr.vacant, h.vacant]
  linked := h.linked
  shown := by
    intro i hi
    rw [hr.node?]
    exact h.shown i hi

theorem clear (h : Simulates hashOf b l s) : Simulates hashOf b.clear .empty s.clear where
  ordered := h.ordered.clear
  cells := by
    rw [contents_clear h.ordered.sound]
    rfl
  vacant := rfl
  linked := rfl
  shown := by
    intro i hi
    cases hi

/-- The slab is cut where the model cuts it. -/
theorem occupiedEnd_eq (h : b.Stocked hashOf) {n : Nat} (hn : n ≤ b.cells.size) :
    b.occupiedEnd n = max 2 ((b.contents.take n).rdropWhile Option.isNone).length := by
  induction n with
  | zero => rfl
  | succ n ih =>
    have hlt : n < b.contents.length := by rwa [length_contents]
    have hnode : b.node? n = b.contents[n] := by
      rw [node?_eq, List.getElem?_eq_getElem hlt, Option.join_some]
    rw [occupiedEnd, ih (Nat.le_of_succ_le hn), hnode, List.take_add_one,
      List.getElem?_eq_getElem hlt, Option.toList_some]
    cases hcell : b.contents[n] with
    | none =>
      rw [List.rdropWhile_concat_pos _ _ _ rfl]
      rfl
    | some node =>
      have hres : 2 ≤ n := (h.slot n node (hnode.trans hcell)).2
      rw [List.rdropWhile_concat_neg _ _ _ (by simp), Option.isSome_some, if_pos rfl,
        List.length_append, List.length_take, List.length_singleton]
      omega

theorem rdropWhile_map {α β : Type} (f : α → β) (p : β → Bool) (l : List α) :
    (l.map f).rdropWhile p = (l.rdropWhile (p ∘ f)).map f := by
  rw [List.rdropWhile, List.rdropWhile, ← List.map_reverse, List.dropWhile_map,
    List.map_reverse]

/-- Where the slab is cut. -/
theorem stop_eq (h : Simulates hashOf b l s) :
    max 2 (s.cells.rdropWhile Option.isNone).length = b.occupiedEnd b.cells.size := by
  have hsame : (Option.isNone ∘ Option.map Node.content : Option (Node K P) → Bool) =
      Option.isNone := by
    funext cell
    cases cell <;> rfl
  rw [occupiedEnd_eq h.ordered.sound.toStocked (Nat.le_refl _), h.cells, rdropWhile_map, hsame,
    List.length_map, List.take_of_length_le (by rw [length_contents])]

theorem pinch (h : Simulates hashOf b l s) :
    Simulates hashOf b.pinch (l.truncate b.pinch.cells.size) s.pinch := by
  obtain ⟨hcontents, hvacant, -, -⟩ := h.ordered.sound.pinch_contents
  exact {
    ordered := h.ordered.pinch
    cells := by
      rw [hcontents, List.map_take, ← h.cells]
      simp only [Slab.pinch, h.stop_eq]
    vacant := by
      rw [hvacant, ← h.vacant]
      simp only [Slab.pinch, h.stop_eq]
    linked := h.ordered.linked_pinch.toList_eq.trans h.linked
    shown := by
      intro i hi
      rw [h.ordered.sound.pinch.2]
      exact h.shown i hi }

/-- A slab that ends with an occupied slot is not cut. -/
theorem pinch_of_full (h : Simulates hashOf b l s)
    (hfull : b.cells.size ≤ b.occupiedEnd b.cells.size) : Simulates hashOf b l s.pinch where
  ordered := h.ordered
  cells := by
    simp only [Slab.pinch, h.stop_eq]
    rw [List.take_of_length_le, h.cells]
    rwa [h.cells, List.length_map, length_contents]
  vacant := by
    simp only [Slab.pinch, h.stop_eq]
    rw [h.vacant, List.filter_eq_self]
    intro slot hslot
    have hlt := (h.ordered.sound.vacant slot hslot).1
    simp only [decide_eq_true_eq]
    omega
  linked := h.linked
  shown := h.shown

/-- The nodes by recency are those of the linked items. -/
theorem byRecency (h : Simulates hashOf b l s) :
    (l.toList.filterMap b.node?).map Node.item = s.linked := by
  have hitem : ∀ i ∈ s.linked, ((b.node? ∘ Item.slot) i).map Node.item = some i := by
    intro i hi
    obtain ⟨node, hnode, hitem⟩ := h.shown i hi
    rw [Function.comp_apply, hnode, Option.map_some, hitem]
  rw [h.linked, List.filterMap_map, List.map_filterMap, List.filterMap_congr hitem,
    List.filterMap_some]

/-- Different slots that are put in front in turn come to stand the other way round. -/
theorem linked_pushAll {slots : List Nat} (ns : List (Nat × Node K P)) (h : l.Linked slots)
    (hres : ∀ p ∈ ns, 2 ≤ p.2.slot) (hnd : (ns.map fun p => p.2.slot).Nodup)
    (hnew : ∀ p ∈ ns, p.2.slot ∉ slots) :
    (ns.foldl (fun l (_, n) => l.pushFront n.slot n.generation) l).Linked
      ((ns.map fun p => p.2.slot).reverse ++ slots) := by
  induction ns generalizing l slots with
  | nil => exact h
  | cons p ns ih =>
    obtain ⟨tick, n⟩ := p
    obtain ⟨hfirst, hrest⟩ := List.nodup_cons.1 hnd
    have hpushed := h.pushFront (hres _ List.mem_cons_self) n.generation
    rw [List.erase_of_not_mem (hnew _ List.mem_cons_self)] at hpushed
    rw [List.foldl_cons, List.map_cons, List.reverse_cons, List.append_assoc]
    apply ih hpushed
    · intro q hq
      exact hres q (List.mem_cons_of_mem _ hq)
    · exact hrest
    · intro q hq hmem
      rcases List.mem_cons.1 hmem with heq | hmem
      · exact hfirst (List.mem_map.2 ⟨q, hq, heq⟩)
      · exact hnew q (List.mem_cons_of_mem _ hq) hmem

/-- Items are linked again in the order of their nodes. -/
theorem relink (h : Simulates hashOf b l s) (lastUse : P → Nat) :
    Simulates hashOf b (rebuiltList lastUse b) (s.relink lastUse) := by
  have hordered := h.ordered.rebuilt lastUse
  let timed := b.nodes.map fun node => (lastUse node.payload, node)
  let sorted := timed.mergeSort linkedBefore
  have hstored : ∀ p ∈ sorted, b.node? p.2.slot = some p.2 := by
    intro p hp
    obtain ⟨n, hn, rfl⟩ := List.mem_map.1 (List.mem_mergeSort.1 hp)
    obtain ⟨slot, hslot⟩ := mem_nodes.1 hn
    show b.node? n.slot = some n
    rw [(h.ordered.sound.slot slot n hslot).1, hslot]
  -- The order looks only at uses and slots, and a node and its item agree in both.
  have hitems : sorted.map (fun p => (p.1, p.2.item)) =
      (s.items.map fun item => (lastUse item.payload, item)).mergeSort Slab.linkedBefore := by
    have hsort : sorted.map (fun p => (p.1, p.2.item)) =
        (timed.map fun p => (p.1, p.2.item)).mergeSort Slab.linkedBefore :=
      List.map_mergeSort fun _ _ _ _ => rfl
    rw [hsort, h.items, List.map_map, List.map_map]
    rfl
  have hlinked : (s.relink lastUse).linked = (sorted.map fun p => p.2.item).reverse := by
    simp only [Slab.relink]
    rw [← hitems, List.map_map]
    rfl
  have hslots : (sorted.map fun p => p.2.slot).Nodup := by
    have hperm := (List.mergeSort_perm timed linkedBefore).map fun p => p.2.slot
    rw [hperm.nodup_iff, List.map_map]
    refine nodup_map_nodes Node.slot fun s t m n hm hn heq => ?_
    rw [← (h.ordered.sound.slot s m hm).1, ← (h.ordered.sound.slot t n hn).1, heq]
  have hlist := linked_pushAll sorted Linked.empty
    (fun p hp => (h.ordered.sound.slot _ p.2 (hstored p hp)).2) hslots fun _ _ => List.not_mem_nil
  exact {
    ordered := hordered
    cells := h.cells
    vacant := h.vacant
    linked := by
      rw [hlinked, ← List.map_reverse, List.map_map]
      rw [List.append_nil, ← List.map_reverse] at hlist
      exact hlist.toList_eq
    shown := by
      intro i hi
      rw [hlinked, List.mem_reverse] at hi
      obtain ⟨p, hp, rfl⟩ := List.mem_map.1 hi
      exact ⟨p.2, hstored p hp, rfl⟩ }

/-! ### Walks -/

/-- The slots from the least recently used one on, as the links lead to them. -/
theorem strung_prev (h : Simulates hashOf b l s) :
    Strung l.prev (back :: ((s.linked.reverse.map Item.slot) ++ [front])) := by
  have hback := h.ordered.linked.backward
  rwa [Linked.ring_reverse, h.linked, ← List.map_reverse] at hback

theorem prev_back (h : Simulates hashOf b l s) :
    l.prev back = (s.linked.reverse.map Item.slot ++ [front]).head? :=
  h.strung_prev.1

/-- The link of an item leads to the one before it. -/
theorem prev_eq {i : Item K P} {rest passed : List (Item K P)} (h : Simulates hashOf b l s)
    (hl : s.linked = (i :: rest).reverse ++ passed) :
    l.prev i.slot = (rest.map Item.slot ++ [front]).head? := by
  have hstrung := h.strung_prev
  rw [hl] at hstrung
  have hsplit : back :: (((i :: rest).reverse ++ passed).reverse.map Item.slot ++ [front]) =
      (back :: passed.reverse.map Item.slot) ++ i.slot :: (rest.map Item.slot ++ [front]) := by
    simp
  rw [hsplit] at hstrung
  exact hstrung.next_eq

/-- The slot of a linked item holds a node that it is linked for. -/
theorem node_of_linked {i : Item K P} (h : Simulates hashOf b l s) (hi : i ∈ s.linked) :
    ∃ node, b.node? i.slot = some node ∧ node.item = i ∧
      l.isLinked i.slot node.generation = true ∧ i.slot ≠ front := by
  obtain ⟨node, hnode, hitem⟩ := h.shown i hi
  have hslot : node.slot = i.slot := by rw [← hitem]; rfl
  have hres : 2 ≤ i.slot := (h.ordered.sound.slot _ node hnode).2
  refine ⟨node, hnode, hitem, ?_, ?_⟩
  · rw [← hslot, h.isLinked (hslot ▸ hnode), hitem, Slab.isLinked, List.any_eq_true]
    exact ⟨i, hi, beq_self_eq_true _⟩
  · unfold front
    omega

/-- Without an item, the items around it stay. -/
theorem without_eq {i : Item K P} {rest passed : List (Item K P)} (h : Simulates hashOf b l s)
    (hl : s.linked = (i :: rest).reverse ++ passed) :
    s.without i.slot = rest.reverse ++ passed := by
  have hnd := h.slots_nodup
  rw [hl, List.reverse_cons, List.append_assoc, List.singleton_append] at hnd
  rw [List.map_append, List.map_cons, List.nodup_middle, List.nodup_cons, List.mem_append] at hnd
  have hkeep : ∀ j ∈ rest.reverse ++ passed, (j.slot != i.slot) = true := by
    intro j hj
    rw [bne_iff_ne]
    intro heq
    apply hnd.1
    rw [← heq]
    exact (List.mem_append.1 hj).imp (fun h => List.mem_map_of_mem h) fun h => List.mem_map_of_mem h
  rw [Slab.without, hl, List.reverse_cons, List.append_assoc, List.singleton_append,
    List.filter_append, List.filter_cons_of_neg (by simp), ← List.filter_append,
    List.filter_eq_self.2 hkeep]

end Simulates

/-- What a walk along the links has led to is what one along the items has led to, where the items
    in `passed` had been left in place before. -/
structure Followed (hashOf : K → UInt64) (w : Walk K P) (passed : List (Item K P))
    (out : Walk K P × List (Node K P) × Ending) (out' : Slab.Walked K P) : Prop where
  simulates : Simulates hashOf out.1.buckets out.1.recency out'.slab
  removed : out.1.removed.map Node.item = out'.removed.reverse ++ w.removed.map Node.item
  asked : out.2.1.map Node.item = out'.asked
  ending : out.2.2 = out'.ending
  dangling : out.1.dangling = w.dangling
  /-- A walk that comes to the end has left all items in place that are still linked. -/
  visited : out.2.2 = .atFront →
    out.1.visited + passed.length = w.visited + out'.slab.linked.length

theorem run_simulates (p : Predicate (Item K P)) {rest passed : List (Item K P)} {fuel : Nat}
    {m : List (Node K P)} {w : Walk K P} (h : Simulates hashOf w.buckets w.recency s)
    (hl : s.linked = rest.reverse ++ passed) (hfuel : rest.length ≤ fuel) :
    Followed hashOf w passed
      (Walk.run p.seeing.judge fuel (rest.map Item.slot ++ [front]).head? m w)
      (Slab.walk p rest w.quota (m.map Node.item) s) := by
  induction rest generalizing passed fuel m w s with
  | nil =>
    have hout : Walk.run p.seeing.judge fuel (some front) m w = (w, m, .atFront) := by
      cases fuel <;> simp [Walk.run]
    show Followed hashOf w passed (Walk.run p.seeing.judge fuel (some front) m w) _
    rw [hout]
    exact ⟨h, rfl, rfl, rfl, rfl, fun _ => by simp [Slab.walk, hl]⟩
  | cons i rest ih =>
    obtain ⟨fuel, rfl, hle⟩ := exists_fuel hfuel
    obtain ⟨node, hnode, hitem, hlinked, hne⟩ := h.node_of_linked (i := i) (by simp [hl])
    have hfront : some i.slot ≠ some front := fun heq => hne (Option.some.inj heq)
    have hprev := h.prev_eq hl
    show Followed hashOf w passed (Walk.run p.seeing.judge (fuel + 1) (some i.slot) m w) _
    rw [Walk.run, if_neg hfront, Slab.walk]
    by_cases hquota : w.quota = some 0
    · rw [if_pos hquota, if_pos hquota]
      exact ⟨h, rfl, rfl, rfl, rfl, fun hfront => by cases hfront⟩
    rw [if_neg hquota, if_neg hquota]
    have hjudge : p.seeing.judge node m = (p (m.map Node.item) i, node :: m) := by
      rw [Predicate.judge, Predicate.seeing, hitem]
    have hasked : (node :: m).map Node.item = i :: m.map Node.item := by
      rw [List.map_cons, hitem]
    simp only [hnode, hlinked, if_true, hprev, hjudge]
    cases p (m.map Node.item) i with
    -- The walk goes on one slot further, with this one passed.
    | keep =>
      have hl' : s.linked = rest.reverse ++ i :: passed := by simp [hl]
      have hkept := ih (m := node :: m) (w := w.pass) h hl' hle
      rw [hasked] at hkept
      refine ⟨hkept.simulates, hkept.removed, hkept.asked, hkept.ending, hkept.dangling,
        fun hfront => ?_⟩
      have hvisited := hkept.visited hfront
      simp only [Walk.pass, List.length_cons] at hvisited ⊢
      omega
    -- The walk goes on in smaller tables, in which this slot is gone on both sides.
    | evict =>
      have hslot : node.slot = i.slot := by rw [← hitem]; rfl
      have hremoved := h.remove (hslot ▸ hnode)
      rw [hitem] at hremoved
      have hleft := ih (m := node :: m) (w := w.evict node) hremoved (h.without_eq hl) hle
      rw [hasked] at hleft
      refine ⟨hleft.simulates, ?_, hleft.asked, hleft.ending, hleft.dangling, hleft.visited⟩
      rw [hleft.removed, List.reverse_cons, List.append_assoc]
      show _ ++ (node.item :: _) = _
      rw [hitem]
      rfl
    -- Here the walk ends where it stands.
    | stop => exact ⟨h, rfl, hasked, rfl, rfl, fun hfront => by cases hfront⟩
    | panic reason => exact ⟨h, rfl, hasked, rfl, rfl, fun hfront => by cases hfront⟩

/-! ## The slab of a table -/

/-- The slab tells what the table does, apart from hashes. -/
structure Refines (t : Table K P) (s : Slab K P) : Prop where
  simulates : Simulates t.hashOf t.buckets t.recency s
  maxCapacity : s.maxCapacity = t.maxCapacity
  repairs : s.repairs = t.repairs

theorem refines_empty (initial maxCapacity : Nat) (loadFactor : LoadFactor) (hashOf : K → UInt64) :
    Refines (Table.empty initial maxCapacity loadFactor hashOf : Table K P)
      (Slab.empty maxCapacity) where
  simulates := {
    ordered := .empty (Buckets.sound_empty initial loadFactor)
      (accounted_empty initial loadFactor)
    cells := rfl
    vacant := rfl
    linked := rfl
    shown := nofun }
  maxCapacity := rfl
  repairs := rfl

variable {t : Table K P} {m : List (Node K P)}

/-- Walks change neither the capacity nor the number of repairs. -/
theorem Slab.walk_limits (p : Predicate (Item K P)) (rest : List (Item K P)) (quota : Option Nat)
    (asked : List (Item K P)) (s : Slab K P) :
    (Slab.walk p rest quota asked s).slab.maxCapacity = s.maxCapacity ∧
      (Slab.walk p rest quota asked s).slab.repairs = s.repairs := by
  fun_induction Slab.walk p rest quota asked s with
  | case1 => exact ⟨rfl, rfl⟩
  | case2 => exact ⟨rfl, rfl⟩
  | case3 quota asked s item rest hquota hkeep ih => exact ih
  | case4 quota asked s item rest hquota hevict w ih => exact ih
  | case5 => exact ⟨rfl, rfl⟩
  | case6 => exact ⟨rfl, rfl⟩

namespace Refines

theorem relink (h : Refines t s) (lastUse : P → Nat) :
    Refines (t.relink lastUse).table (s.relink lastUse) where
  simulates := h.simulates.relink lastUse
  maxCapacity := h.maxCapacity
  repairs := congrArg (· + 1) h.repairs

theorem size (h : Refines t s) : s.size = t.size :=
  h.simulates.size

theorem touch (h : Refines t s) {node : Node K P} (hnode : t.buckets.node? node.slot = some node) :
    Refines (t.touch node) (s.touch node.item) := by
  have hlimits : (s.touch node.item).maxCapacity = s.maxCapacity ∧
      (s.touch node.item).repairs = s.repairs := by
    unfold Slab.touch
    split
    · exact ⟨rfl, rfl⟩
    · exact ⟨rfl, rfl⟩
  exact ⟨h.simulates.touch hnode, hlimits.1.trans h.maxCapacity, hlimits.2.trans h.repairs⟩

theorem resize (h : Refines t s) : Refines t.resize.table s := by
  unfold Table.resize
  split
  · obtain ⟨hr, hs⟩ := h.simulates.ordered.sound.grow
    exact ⟨h.simulates.rebucket hr hs, h.maxCapacity, h.repairs⟩
  · exact h

theorem pinch (h : Refines t s) : Refines t.pinch.table s.pinch := by
  unfold Table.pinch
  split
  · exact ⟨h.simulates.pinch, h.maxCapacity, h.repairs⟩
  · next hcannot =>
    have hfull : t.buckets.cells.size ≤ t.buckets.occupiedEnd t.buckets.cells.size := by
      simp only [canPinch, Bool.or_eq_true, decide_eq_true_eq, not_or] at hcannot
      omega
    exact ⟨h.simulates.pinch_of_full hfull, h.maxCapacity, h.repairs⟩

theorem isConsistent {w : Walk K P} {out : Walk K P × List (Node K P) × Ending}
    {out' : Slab.Walked K P} (h : Followed t.hashOf w [] out out') (hdangling : w.dangling = false)
    (hvisited : w.visited = 0) :
    (!out.1.dangling && (out.2.2 != .atFront || out.1.visited == out.1.buckets.size)) =
      out'.isConsistent := by
  rw [h.dangling, hdangling, Bool.not_false, Bool.true_and, Slab.Walked.isConsistent, ← h.ending]
  by_cases hfront : out.2.2 = .atFront
  · have hall := h.visited hfront
    rw [hvisited, List.length_nil, Nat.add_zero, Nat.zero_add] at hall
    rw [hall, Slab.isComplete, h.simulates.size]
  · have hne : (out.2.2 != .atFront) = true := bne_iff_ne.2 hfront
    rw [hne, Bool.true_or, Bool.true_or]

/-- A node of the table is in its slot. -/
theorem node? (h : Refines t s) {node : Node K P} (hnode : node ∈ t.nodes) :
    t.buckets.node? node.slot = some node := by
  obtain ⟨slot, hslot⟩ := mem_nodes.1 hnode
  rwa [(h.simulates.ordered.sound.slot slot node hslot).1]

theorem removeNode (h : Refines t s) {node : Node K P} (hnode : node ∈ t.nodes) :
    Refines (t.removeNode node).1 (s.remove node.item) ∧ (t.removeNode node).2 = true := by
  have hslot := h.node? hnode
  have hremoved := h.simulates.ordered.sound.removeNode_stored hslot
  have hsimulates := h.simulates.remove hslot
  unfold Table.removeNode
  dsimp only
  split
  · next hout =>
    rw [hout] at hremoved
    cases hremoved
  · next hout =>
    rw [hout] at hsimulates
    exact ⟨⟨hsimulates, h.maxCapacity, h.repairs⟩, rfl⟩

/-- What a walk through a table has led to is what one through the slab has. -/
structure Traced (o : Swept K P (List (Node K P))) (w : Slab.Walked K P) : Prop where
  refines : Refines o.table w.slab
  removed : o.removed.map Node.item = w.removed
  asked : o.memory.map Node.item = w.asked
  panic : o.panic? = w.ending.panic?
  consistent : o.consistent = w.isConsistent

theorem walk (h : Refines t s) (p : Predicate (Item K P)) (quota : Option Nat)
    (m : List (Node K P)) :
    Traced (t.walk p.seeing.judge quota m) (s.walkAll p quota (m.map Node.item)) := by
  have hfuel : s.linked.reverse.length ≤ t.recency.links.size := by
    have hle := h.simulates.ordered.linked.length_le
    rwa [h.simulates.linked, List.length_map, ← List.length_reverse] at hle
  have hlinked : s.linked = s.linked.reverse.reverse ++ [] := by simp
  have hrun := run_simulates p (m := m)
    (w := { buckets := t.buckets, recency := t.recency, quota }) h.simulates hlinked hfuel
  rw [← h.simulates.prev_back] at hrun
  obtain ⟨hcapacity, hrepairs⟩ := Slab.walk_limits p s.linked.reverse quota (m.map Node.item) s
  have hremoved := hrun.removed
  rw [List.map_nil, List.append_nil] at hremoved
  exact {
    refines := ⟨hrun.simulates, hcapacity.trans h.maxCapacity, hrepairs.trans h.repairs⟩
    removed := by
      show (Walk.removed _).reverse.map Node.item = _
      rw [List.map_reverse, hremoved, List.reverse_reverse]
      rfl
    asked := hrun.asked
    panic := congrArg Ending.panic? hrun.ending
    consistent := isConsistent hrun rfl rfl }

/-- The ticks that the memory of a walk knows are those that the items asked about tell. -/
theorem Traced.seeing {α : Type} {o : Swept K P (List (Node K P))} {w : Slab.Walked K P}
    (h : Traced o w) (f : List (Item K P) → α) : Table.seeing f o.memory = f w.asked := by
  rw [Table.seeing, h.asked]

/-- A removal from a table is one from the slab. -/
structure Matched (r : Answer K P (Removal K P (List (Node K P)))) (w : Slab.Walked K P) :
    Prop where
  refines : Refines r.table w.slab
  removed : r.value.removed.map Node.item = w.removed
  asked : r.value.memory.map Node.item = w.asked
  panic : r.value.panic? = w.ending.panic?

theorem Matched.reply {r : Answer K P (Removal K P (List (Node K P)))} {w : Slab.Walked K P}
    (h : Matched r w) : r.value.reply.map Node.item = w.reply := by
  rw [Removal.reply, Reply.map, h.removed, h.asked, h.panic]
  rfl

theorem sweep (h : Refines t s) (lastUse : List (Item K P) → P → Nat)
    (p : Predicate (Item K P)) :
    Matched (t.sweep (Table.seeing lastUse) p.seeing.judge []) (s.sweep lastUse p) := by
  have hwalk := h.walk p none []
  rw [List.map_nil] at hwalk
  unfold Table.sweep Slab.sweep
  dsimp only
  rw [hwalk.panic, hwalk.consistent, hwalk.seeing]
  split
  · exact ⟨hwalk.refines, hwalk.removed, hwalk.asked, rfl⟩
  · exact ⟨hwalk.refines.relink _, hwalk.removed, hwalk.asked, rfl⟩

theorem trim (h : Refines t s) (lastUse : List (Item K P) → P → Nat)
    (p : Predicate (Item K P)) (count : Nat) :
    Matched (t.trim (Table.seeing lastUse) p.seeing.judge count []) (s.trim lastUse p count) := by
  have hwalk := h.walk p (some count) []
  rw [List.map_nil] at hwalk
  have hlength := congrArg List.length hwalk.removed
  rw [List.length_map] at hlength
  unfold Table.trim Slab.trim
  split
  · exact ⟨h, rfl, rfl, rfl⟩
  unfold trimNodes
  dsimp only
  rw [hwalk.panic, hwalk.consistent, hwalk.seeing, hlength]
  split
  · exact ⟨hwalk.refines, hwalk.removed, hwalk.asked, rfl⟩
  · -- The walk is resumed along all items.
    have hresumed := (hwalk.refines.relink (lastUse (s.walkAll p (some count) []).asked)).walk p
      (some (count - (s.walkAll p (some count) []).removed.length))
      (t.walk p.seeing.judge (some count) []).memory
    rw [hwalk.asked] at hresumed
    refine ⟨hresumed.refines, ?_, hresumed.asked, hresumed.panic⟩
    rw [List.map_append, hwalk.removed, hresumed.removed]

/-! ### Looking keys up -/

variable [DecidableEq K]

theorem get? (h : Refines t s) (key : K) : (t.get? key).map Node.item = s.find? key := by
  have hsound : t.Sound := h.simulates.ordered.sound
  have hfind : t.get? key = t.nodes.find? fun n => n.key = key := by
    cases hfound : t.nodes.find? fun n => n.key = key with
    | none =>
      rw [hsound.get?_eq_none_iff]
      intro n hn hkey
      have hnot := List.find?_eq_none.1 hfound n hn
      simp [hkey] at hnot
    | some n =>
      rw [hsound.get?_eq_some_iff]
      exact ⟨List.mem_of_find?_eq_some hfound, by simpa using List.find?_some hfound⟩
  rw [hfind, Slab.find?, h.simulates.items, List.find?_map]
  rfl

theorem insertNew (h : Refines t s) {key : K} (payload : P) (habsent : t.get? key = none) :
    Refines (t.insertNew key payload).table (s.insert key payload) ∧
      (t.insertNew key payload).value.item = s.nextItem key payload := by
  have hsound : t.Sound := h.simulates.ordered.sound
  obtain ⟨hitem, hinsert⟩ := h.simulates.insert payload fun slot n hn =>
    hsound.get?_eq_none_iff.1 habsent n (mem_nodes.2 ⟨slot, hn⟩)
  unfold Table.insertNew
  dsimp only
  split
  · obtain ⟨hr, hs⟩ := hinsert.ordered.sound.grow
    exact ⟨⟨hinsert.rebucket hr hs, h.maxCapacity, h.repairs⟩, hitem⟩
  · exact ⟨⟨hinsert, h.maxCapacity, h.repairs⟩, hitem⟩

theorem getOrInsert (h : Refines t s) (lastUse : List (Item K P) → P → Nat)
    (p : Predicate (Item K P)) (key : K) (payload : Except String P) :
    let r := t.getOrInsert (Table.seeing lastUse) p.seeing.judge key payload []
    Refines r.table (s.getOrInsert lastUse p key payload).1 ∧
      (r.value.1.reply r.value.2).map Node.item = (s.getOrInsert lastUse p key payload).2 := by
  have hget := h.get? key
  have hroom := h.trim lastUse p (t.size + 1 - t.maxCapacity)
  have hwithin := trim_within (Table.seeing lastUse) p.seeing.judge
    (t.size + 1 - t.maxCapacity) [] t
  have hsound : t.Sound := h.simulates.ordered.sound
  unfold Table.getOrInsert Slab.getOrInsert makeRoom
  rw [← hget, h.size, h.maxCapacity]
  cases hfound : t.get? key with
  | some node => exact ⟨h, rfl⟩
  | none =>
    generalize t.trim (Table.seeing lastUse) p.seeing.judge (t.size + 1 - t.maxCapacity) [] = r
      at hroom hwithin
    generalize s.trim lastUse p (t.size + 1 - t.maxCapacity) = w at hroom
    have hasked (reply : List (Item K P) → Reply (Item K P)) :
        reply (r.value.memory.map Node.item) = reply w.asked := by rw [hroom.asked]
    -- Making room brings no node about, so the key is still absent.
    have habsent : r.table.get? key = none := by
      rw [(hwithin.sound hsound).get?_eq_none_iff]
      intro n hn
      exact hsound.get?_eq_none_iff.1 hfound n (hwithin.sub hsound n hn)
    simp only [Option.map_none]
    rw [← hroom.panic, ← hroom.refines.maxCapacity, ← hroom.refines.size]
    cases r.value.panic? with
    | some reason => exact ⟨hroom.refines, hasked (.panicked reason)⟩
    | none =>
      by_cases hfull : w.slab.maxCapacity ≤ w.slab.size
      · simp only [if_pos hfull]
        exact ⟨hroom.refines, hasked (.full _)⟩
      simp only [if_neg hfull]
      cases payload with
      | error reason => exact ⟨hroom.refines, hasked (.panicked reason)⟩
      | ok payload =>
        obtain ⟨hinserted, hitem⟩ := hroom.refines.insertNew payload habsent
        refine ⟨hinserted, ?_⟩
        show Reply.vacant (Node.item _) (List.map Node.item _) = _
        rw [hitem, hroom.asked]

/-- Each operation gives the same reply, and leads to a table and a slab that agree again. -/
theorem perform (h : Refines t s) {o : Operation (Node K P) K P} {o' : Operation (Item K P) K P}
    (ho : o.Shown o') (hheld : ∀ node, o.handle? = some node → node ∈ t.nodes) :
    Refines (t.perform o).1 (s.perform o').1 ∧
      (t.perform o).2.map Node.item = (s.perform o').2 := by
  cases ho with
  | getOrInsert key payload lastUse p => exact h.getOrInsert lastUse p key payload
  | get? key => exact ⟨h, congrArg Reply.found (h.get? key)⟩
  -- A removal by key is a look-up and then a removal of the node found.
  | remove key =>
    have hget := h.get? key
    simp only [Table.perform, Slab.perform, Table.remove]
    rw [← hget]
    cases hfound : t.get? key with
    | none => exact ⟨h, rfl⟩
    | some node =>
      have hsound : t.Sound := h.simulates.ordered.sound
      exact ⟨(h.removeNode (hsound.get?_eq_some_iff.1 hfound).1).1, rfl⟩
  | removeNode handle =>
    obtain ⟨hremoved, htrue⟩ := h.removeNode (hheld handle rfl)
    exact ⟨hremoved, congrArg Reply.truth htrue⟩
  | touch handle =>
    have hslot := h.node? (hheld handle rfl)
    exact ⟨h.touch hslot, congrArg Reply.truth (h.simulates.isLinked hslot)⟩
  | unlink handle =>
    have hslot := h.node? (hheld handle rfl)
    exact ⟨⟨h.simulates.unlink hslot, h.maxCapacity, h.repairs⟩,
      congrArg Reply.truth (h.simulates.isLinked hslot)⟩
  | trim count lastUse p =>
    have htrim := h.trim lastUse p count
    exact ⟨htrim.refines, htrim.reply⟩
  | sweep lastUse p =>
    have hsweep := h.sweep lastUse p
    exact ⟨hsweep.refines, hsweep.reply⟩
  | relink lastUse =>
    have hcount : t.nodes.length = s.size := by
      rw [Slab.size, h.simulates.items, List.length_map]
      rfl
    exact ⟨h.relink lastUse, congrArg Reply.count hcount⟩
  | resize => exact ⟨h.resize, rfl⟩
  | pinch => exact ⟨h.pinch, rfl⟩
  | clear =>
    exact ⟨⟨h.simulates.clear, h.maxCapacity, h.repairs⟩,
      congrArg Reply.list h.simulates.items.symm⟩
  | setMaxCapacity count =>
    have hs := h.simulates
    exact ⟨⟨⟨hs.ordered, hs.cells, hs.vacant, hs.linked, hs.shown⟩, rfl, h.repairs⟩, rfl⟩
  | byRecency => exact ⟨h, congrArg Reply.list h.simulates.byRecency⟩
  | nodes => exact ⟨h, congrArg Reply.list h.simulates.items.symm⟩
  | size => exact ⟨h, congrArg Reply.count h.size.symm⟩
  | isEmpty => exact ⟨h, congrArg (fun n => Reply.truth (n == 0)) h.size.symm⟩
  | repairs => exact ⟨h, congrArg Reply.count h.repairs.symm⟩

/-! ### Sequences of operations -/

theorem replies (h : Refines t s) {os : List (Operation (Node K P) K P)}
    {os' : List (Operation (Item K P) K P)} (hos : List.Forall₂ Operation.Shown os os')
    (hheld : t.Holding os) :
    (t.replies os).map (Reply.map Node.item) = s.replies os' ∧ s.Holding os' := by
  induction hos generalizing t s with
  | nil => exact ⟨rfl, trivial⟩
  | @cons o o' os os' ho hos ih =>
    obtain ⟨hnow, hlater⟩ := hheld
    obtain ⟨hnext, hreply⟩ := h.perform ho hnow
    obtain ⟨hreplies, hholding⟩ := ih hnext hlater
    refine ⟨?_, fun item hitem => ?_, hholding⟩
    · show Reply.map _ _ :: (Table.replies _ _).map _ = _ :: _
      rw [hreply, hreplies]
    · rw [ho.handle?] at hitem
      obtain ⟨node, hnode, rfl⟩ := Option.map_eq_some_iff.1 hitem
      rw [h.simulates.items]
      exact List.mem_map_of_mem (hnow node hnode)

/-- What can be asked of the slab can be asked of the table. -/
theorem exists_holding (h : Refines t s) {os' : List (Operation (Item K P) K P)}
    (hheld : s.Holding os') :
    ∃ os : List (Operation (Node K P) K P), List.Forall₂ Operation.Shown os os' ∧
      t.Holding os := by
  induction os' generalizing t s with
  | nil => exact ⟨[], .nil, trivial⟩
  | cons o' os' ih =>
    obtain ⟨hnow, hlater⟩ := hheld
    have hitems : ∀ item, o'.handle? = some item → item ∈ t.nodes.map Node.item := by
      intro item hitem
      have hmem := hnow item hitem
      rwa [h.simulates.items] at hmem
    obtain ⟨o, ho, hnode⟩ := o'.exists_shown hitems
    obtain ⟨os, hos, hholding⟩ := ih (h.perform ho hnode).1 hlater
    exact ⟨o :: os, .cons ho hos, hnode, hholding⟩

end Refines

/-- Operations that do not look at hashes, and whose handles are of nodes in the table, get the
    replies that the slab gives, whatever the hash function. So they get the same ones of a table with
    another hash function: there are such operations on it, and all of them get these replies. -/
theorem replies_hash_free [DecidableEq K] (initial maxCapacity : Nat) (loadFactor : LoadFactor)
    (hashOf : K → UInt64) {os : List (Operation (Node K P) K P)}
    {os' : List (Operation (Item K P) K P)} (hos : List.Forall₂ Operation.Shown os os')
    (hheld : (Table.empty initial maxCapacity loadFactor hashOf).Holding os) :
    ((Table.empty initial maxCapacity loadFactor hashOf).replies os).map (Reply.map Node.item) =
        (Slab.empty maxCapacity).replies os' ∧
      ∀ hash : K → UInt64,
        (∃ ops, List.Forall₂ Operation.Shown ops os' ∧
          (Table.empty initial maxCapacity loadFactor hash).Holding ops) ∧
        ∀ ops, List.Forall₂ Operation.Shown ops os' →
          (Table.empty initial maxCapacity loadFactor hash).Holding ops →
          ((Table.empty initial maxCapacity loadFactor hash).replies ops).map
              (Reply.map Node.item) =
            ((Table.empty initial maxCapacity loadFactor hashOf).replies os).map
              (Reply.map Node.item) := by
  have hrefines (hash : K → UInt64) := refines_empty (P := P) initial maxCapacity loadFactor hash
  obtain ⟨hreplies, hholding⟩ := (hrefines hashOf).replies hos hheld
  refine ⟨hreplies, fun hash => ⟨(hrefines hash).exists_holding hholding, ?_⟩⟩
  intro ops hops hheld'
  rw [hreplies]
  exact ((hrefines hash).replies hops hheld').1

/-- Two keys with one hash, a handle that moves a node to the front, and a sweep that evicts the node
    it is asked about first. -/
theorem replies_hash_free_swept :
    let tick (_ : List (Item Nat Nat)) (used : Nat) : Nat := used
    let keep : Predicate (Item Nat Nat) := fun _ _ => .keep
    let evict : Predicate (Item Nat Nat) := fun asked _ => if asked = [] then .evict else .keep
    let handle : Node Nat Nat := { hash := 7, slot := 2, generation := 1, key := 1, payload := 5 }
    let os : List (Operation (Node Nat Nat) Nat Nat) :=
      [.getOrInsert 1 (.ok 5) (seeing tick) keep.seeing,
        .getOrInsert 2 (.ok 6) (seeing tick) keep.seeing, .touch handle,
        .sweep (seeing tick) evict.seeing]
    let t : Table Nat Nat := .empty 0 2 .standard fun _ => 7
    (t.replies os).map (Reply.map Node.item) =
        [.vacant ⟨2, 1, 5⟩ [], .vacant ⟨3, 2, 6⟩ [], .truth true,
          .removed [⟨3, 2, 6⟩] none [⟨2, 1, 5⟩, ⟨3, 2, 6⟩]] ∧
      ∀ ops, List.Forall₂ Operation.Shown ops [.getOrInsert 1 (.ok 5) tick keep,
          .getOrInsert 2 (.ok 6) tick keep, .touch handle.item, .sweep tick evict] →
        (Table.empty 0 2 .standard Nat.toUInt64).Holding ops →
        ((Table.empty 0 2 .standard Nat.toUInt64).replies ops).map (Reply.map Node.item) =
          (t.replies os).map (Reply.map Node.item) := by
  intro tick keep evict handle os t
  have hos : List.Forall₂ Operation.Shown os [.getOrInsert 1 (.ok 5) tick keep,
      .getOrInsert 2 (.ok 6) tick keep, .touch handle.item, .sweep tick evict] :=
    .cons (.getOrInsert 1 _ tick keep) (.cons (.getOrInsert 2 _ tick keep)
      (.cons (.touch handle) (.cons (.sweep tick evict) .nil)))
  have hheld : t.Holding os := by
    refine ⟨nofun, nofun, fun node hnode => ?_, nofun, trivial⟩
    obtain rfl : handle = node := Option.some.inj hnode
    decide +kernel
  exact ⟨by decide +kernel,
    ((replies_hash_free 0 2 .standard (fun _ => 7) hos hheld).2 Nat.toUInt64).2⟩

end ReadThrough.Table
