import ReadThrough.Proofs.Table.Contents
import ReadThrough.Proofs.Table.Operations
import ReadThrough.Proofs.Table.Recency
import ReadThrough.Proofs.Table.Tables

/-! # The Table and its Recency List Agree

  What holds between the chains, the slab and the recency list in every table that operations lead
  to, whatever the hash function, the handles and the predicates are.

  - **Ordered**: the buckets are sound, every slot is accounted for, and a linked slot holds the
    node that it is linked for. Each operation keeps this.
  - **WellFormed**: the same spelled out for the chains, the slab and the list as they are read.
  - **Reachable.wellFormed**: every reachable table is well formed.
-/

namespace ReadThrough.Table

open Buckets RecencyList

variable {K P σ : Type}

/-! ## Buckets and list -/

/-- The buckets, whose keys are hashed by `hashOf`, are in order, and a slot that is linked holds
    the node that it is linked for. -/
structure Ordered (hashOf : K → UInt64) (b : Buckets K P) (l : RecencyList) : Prop where
  sound : b.Sound hashOf
  accounted : b.Accounted
  linked : l.Linked l.toList
  matched : ∀ s g, reserved ≤ s → l.generation? s = some g →
    ∃ node, b.node? s = some node ∧ node.generation = g

variable {hashOf : K → UInt64} {b b' : Buckets K P} {l l' : RecencyList} {node : Node K P}
  {slots : List Nat} {s : Nat}


namespace Ordered

/-- A list that links less than before matches the same buckets. -/
theorem relist (h : Ordered hashOf b l) (hl : l'.Linked slots)
    (hsub : ∀ s g, reserved ≤ s → l'.generation? s = some g → l.generation? s = some g) :
    Ordered hashOf b l' where
  sound := h.sound
  accounted := h.accounted
  linked := hl.toList_eq.symm ▸ hl
  matched := fun s g hs hg => h.matched s g hs (hsub s g hs hg)

theorem touch (h : Ordered hashOf b l) (hs : reserved ≤ s) (g : Nat) :
    Ordered hashOf b (l.touch s g) := by
  apply h.relist (h.linked.touch hs g)
  intro t g' _ hg
  rwa [generation?_touch] at hg

theorem unlink (h : Ordered hashOf b l) (hs : reserved ≤ s) (g : Nat) :
    Ordered hashOf b (l.unlink s g) := by
  apply h.relist (h.linked.unlink hs g)
  intro t g' _ hg
  rw [generation?_unlink] at hg
  split at hg
  · cases hg
  · exact hg

/-- Any node of the table can be put in front. -/
theorem pushFront (h : Ordered hashOf b l) (hnode : b.node? s = some node) :
    Ordered hashOf b (l.pushFront s node.generation) := by
  have hl := h.linked.pushFront (h.sound.slot s node hnode).2 node.generation
  refine ⟨h.sound, h.accounted, hl.toList_eq.symm ▸ hl, fun t g ht hg => ?_⟩
  rw [generation?_pushFront] at hg
  split at hg
  · next heq =>
    rw [heq]
    exact ⟨node, hnode, Option.some.inj hg⟩
  · exact h.matched t g ht hg

/-- Other buckets with the same nodes. -/
theorem rebucket (h : Ordered hashOf b l) (hr : Rewired b b') (hs : b'.Sound hashOf) :
    Ordered hashOf b' l where
  sound := hs
  accounted := h.accounted.rewire hr
  linked := h.linked
  matched := by
    intro s g hs hg
    rw [hr.node?]
    exact h.matched s g hs hg

theorem empty (hs : b.Sound hashOf) (ha : b.Accounted) : Ordered hashOf b .empty where
  sound := hs
  accounted := ha
  linked := Linked.empty
  matched := by
    intro s g hs hg
    have hlinked : s ∈ ring [] := (Linked.empty.linked s).1 (by rw [hg]; rfl)
    simp only [ring, List.nil_append, List.mem_cons, List.not_mem_nil, or_false] at hlinked
    unfold reserved at hs
    unfold front back at hlinked
    omega

/-- A node leaves the buckets and the list at once. -/
theorem removeNode (h : Ordered hashOf b l) (hremoved : (b.removeNode node).2 = true) :
    Ordered hashOf (b.removeNode node).1 (l.unlink node.slot node.generation) := by
  rcases b.removeNode_cases node with heq | ⟨-, hholds, he⟩
  · rw [heq] at hremoved
    cases hremoved
  obtain ⟨current, hcurrent⟩ := Option.isSome_iff_exists.1 (isSome_of_holds hholds)
  have hs : reserved ≤ node.slot := (h.sound.slot _ current hcurrent).2
  have hgeneration : current.generation = node.generation := by
    simpa [holds, hcurrent] using hholds
  have hl := h.linked.unlink hs node.generation
  refine ⟨h.sound.removeNode_sound node, h.accounted.removeNode node,
    hl.toList_eq.symm ▸ hl, fun t g ht hg => ?_⟩
  rw [generation?_unlink] at hg
  split at hg
  · cases hg
  next hother =>
  obtain ⟨n, hn, hng⟩ := h.matched t g ht hg
  -- The slot of the node can only have been linked for the node itself.
  have hne : t ≠ node.slot := by
    intro heq
    rw [heq, hcurrent] at hn
    rw [← Option.some.inj hn, hgeneration] at hng
    exact hother ⟨heq, by rw [← heq, hg, hng]⟩
  exact ⟨n, by rw [he.node?, if_neg hne, hn], hng⟩

/-- A node comes into the buckets and to the front of the list. -/
theorem insert (h : Ordered hashOf b l) {key : K} (payload : P)
    (habsent : ∀ s n, b.node? s = some n → n.key ≠ key) :
    Ordered hashOf (b.insert (hashOf key) key payload)
      (l.pushFront b.nextSlot b.nextGeneration) := by
  obtain ⟨hle, hfree, -⟩ := h.sound.nextSlot_spec
  have hnode (s : Nat) : (b.insert (hashOf key) key payload).node? s =
      if s = b.nextSlot then some (b.nextNode (hashOf key) key payload) else b.node? s :=
    node?_insert hle s
  -- First the node is stored; no slot of the list is its slot, which was free.
  have hinserted : Ordered hashOf (b.insert (hashOf key) key payload) l := {
    sound := h.sound.insert rfl habsent
    accounted := h.accounted.insert h.sound.toStocked _ _ _
    linked := h.linked
    matched := by
      intro s g hs hg
      obtain ⟨n, hn, hng⟩ := h.matched s g hs hg
      refine ⟨n, ?_, hng⟩
      rw [hnode, if_neg, hn]
      intro heq
      rw [heq, hfree] at hn
      cases hn }
  have hnew : (b.insert (hashOf key) key payload).node? b.nextSlot =
      some (b.nextNode (hashOf key) key payload) := by rw [hnode, if_pos rfl]
  show Ordered hashOf _ (l.pushFront b.nextSlot (b.nextNode (hashOf key) key payload).generation)
  exact hinserted.pushFront hnew

/-- Every linked slot is occupied, so it stays linked when the slab is cut. -/
theorem linked_pinch (h : Ordered hashOf b l) :
    (l.truncate b.pinch.cells.size).Linked l.toList := by
  apply h.linked.truncate
  intro s hs
  have hres := h.linked.reserved_le hs
  obtain ⟨g, hg⟩ := Option.isSome_iff_exists.1 ((h.linked.mem_iff hres).1 hs)
  obtain ⟨n, hn, -⟩ := h.matched s g hres hg
  exact lt_size_of_node? ((h.sound.pinch.2 s).trans hn)

theorem pinch (h : Ordered hashOf b l) :
    Ordered hashOf b.pinch (l.truncate b.pinch.cells.size) where
  sound := h.sound.pinch.1
  accounted := h.accounted.pinch h.sound
  linked := h.linked_pinch.toList_eq.symm ▸ h.linked_pinch
  matched := by
    intro s g hs hg
    rw [h.sound.pinch.2]
    apply h.matched s g hs
    rw [generation?_truncate] at hg
    split at hg
    · exact hg
    · cases hg

theorem clear (h : Ordered hashOf b l) : Ordered hashOf b.clear .empty :=
  .empty h.sound.clear (.clear h.sound)

/-- A list that is rebuilt from nodes of the table matches it. -/
theorem pushAll (ns : List (Nat × Node K P)) (h : Ordered hashOf b l)
    (hns : ∀ p ∈ ns, p.2 ∈ b.nodes) :
    Ordered hashOf b (ns.foldl (fun l (_, n) => l.pushFront n.slot n.generation) l) := by
  induction ns generalizing l with
  | nil => exact h
  | cons p ns ih =>
    obtain ⟨s, hs⟩ := mem_nodes.1 (hns p List.mem_cons_self)
    have hslot := (h.sound.slot s p.2 hs).1
    apply ih
    · exact h.pushFront (hslot ▸ hs)
    · intro q hq
      exact hns q (List.mem_cons_of_mem p hq)

theorem rebuilt (h : Ordered hashOf b l) (lastUse : P → Nat) :
    Ordered hashOf b (rebuiltList lastUse b) := by
  have hempty : Ordered hashOf b .empty := .empty h.sound h.accounted
  apply hempty.pushAll
  intro p hp
  obtain ⟨n, hn, rfl⟩ := List.mem_map.1 (List.mem_mergeSort.1 hp)
  exact hn

end Ordered

/-! ## Walks -/

/-- A stored node can be removed. -/
theorem Buckets.Sound.removeNode_stored (h : b.Sound hashOf) (hnode : b.node? s = some node) :
    (b.removeNode node).2 = true := by
  rcases h.removeNode node with ⟨hremoved, -, -⟩ | ⟨-, hnot⟩
  · exact hremoved
  · exact absurd (mem_nodes.2 ⟨s, hnode⟩) hnot

/-- However a walk ends, also by a panic, the list matches the buckets. -/
theorem Walk.run_ordered (judge : Judge K P σ) (fuel : Nat) (current? : Option Nat) (m : σ)
    (w : Walk K P) (h : Ordered hashOf w.buckets w.recency) :
    Ordered hashOf (Walk.run judge fuel current? m w).1.buckets
      (Walk.run judge fuel current? m w).1.recency := by
  -- The buckets and the list change only where a node is evicted.
  fun_induction Walk.run judge fuel current? m w with
  | case1 => exact h
  | case2 => exact h
  | case3 => exact h
  | case4 => exact h
  | case5 m w hquota fuel slot before? hnone hfront ih => exact ih h
  | case6 m w hquota fuel slot before? node hnode hlinked m' hkeep hfront ih => exact ih h
  | case7 m w hquota fuel slot before? node hnode hlinked m' hevict hfront ih =>
    exact ih (h.removeNode (h.sound.removeNode_stored hnode))
  | case8 => exact h
  | case9 => exact h
  | case10 m w hquota fuel slot before? node hnode hlinked hfront ih => exact ih h

variable {t : Table K P} {m : σ} (lastUse : σ → P → Nat) (judge : Judge K P σ)

theorem walk_ordered (quota : Option Nat) (h : Ordered t.hashOf t.buckets t.recency) :
    Ordered t.hashOf (t.walk judge quota m).table.buckets (t.walk judge quota m).table.recency :=
  Walk.run_ordered judge _ _ m _ h

theorem sweep_ordered (h : Ordered t.hashOf t.buckets t.recency) :
    Ordered t.hashOf (t.sweep lastUse judge m).table.buckets
      (t.sweep lastUse judge m).table.recency := by
  have hwalk := walk_ordered (m := m) judge none h
  unfold sweep
  dsimp only
  split
  · exact hwalk
  · exact hwalk.rebuilt _

theorem trim_ordered (count : Nat) (h : Ordered t.hashOf t.buckets t.recency) :
    Ordered t.hashOf (t.trim lastUse judge count m).table.buckets
      (t.trim lastUse judge count m).table.recency := by
  have hwalk := walk_ordered (m := m) judge (some count) h
  unfold trim
  split
  · exact h
  unfold trimNodes
  dsimp only
  split
  · exact hwalk
  · exact walk_ordered (t := ((t.walk judge (some count) m).table.relink _).table) judge _
      (hwalk.rebuilt _)

/-! ## Tables -/

/-- The buckets of a table and its recency list are in order. -/
def Orderly (t : Table K P) : Prop :=
  Ordered t.hashOf t.buckets t.recency

theorem insertNew_ordered {key : K} (payload : P) (h : Ordered t.hashOf t.buckets t.recency)
    (habsent : ∀ n ∈ t.nodes, n.key ≠ key) :
    Ordered t.hashOf (t.insertNew key payload).table.buckets
      (t.insertNew key payload).table.recency := by
  have hinsert : Ordered t.hashOf (t.buckets.insert (t.hashOf key) key payload)
      (t.recency.pushFront t.buckets.nextSlot t.buckets.nextGeneration) :=
    h.insert payload fun s n hn => habsent n (mem_nodes.2 ⟨s, hn⟩)
  unfold insertNew
  dsimp only
  split
  · obtain ⟨hr, hs⟩ := hinsert.sound.grow
    exact hinsert.rebucket hr hs
  · exact hinsert

theorem Orderly.getOrInsert [DecidableEq K] (key : K) (payload : Except String P)
    (h : t.Orderly) : (t.getOrInsert lastUse judge key payload m).table.Orderly := by
  have hhash : (t.makeRoom lastUse judge m).table.hashOf = t.hashOf := trim_hashOf lastUse _
  have hroom : (t.makeRoom lastUse judge m).table.Orderly := by
    unfold Orderly
    rw [hhash]
    exact trim_ordered lastUse judge _ h
  unfold Table.getOrInsert
  dsimp only
  split
  · exact h
  next hget =>
  split
  · exact hroom
  split
  · exact hroom
  split
  · exact hroom
  · next payload' =>
    -- Making room adds no node, so the key is still absent.
    have habsent : ∀ n ∈ (t.makeRoom lastUse judge m).table.nodes, n.key ≠ key := by
      intro n hn
      have hsound : t.Sound := h.sound
      exact hsound.get?_eq_none_iff.1 hget n ((trim_within lastUse judge _ m t).sub hsound n hn)
    have hinsert := insertNew_ordered payload' hroom habsent
    unfold Orderly
    rwa [(insertNew_buckets key payload' _).2.1]

theorem Orderly.removeNode (node : Node K P) (h : t.Orderly) : (t.removeNode node).1.Orderly := by
  unfold Table.removeNode
  dsimp only
  split
  · next b hout =>
    rcases t.buckets.removeNode_cases node with heq | ⟨htrue, -, -⟩
    · rw [heq] at hout
      cases hout
      exact h
    · rw [hout] at htrue
      cases htrue
  · next b hout =>
    have htrue : (t.buckets.removeNode node).2 = true := by rw [hout]
    have hremoved := Ordered.removeNode h htrue
    rw [hout] at hremoved
    exact hremoved

/-- Every operation keeps the table in order, if its handle comes from the slot of a node. -/
theorem Orderly.perform [DecidableEq K] (o : Operation (Node K P) K P) (h : t.Orderly)
    (hslot : ∀ node, o.handle? = some node → reserved ≤ node.slot) : (t.perform o).1.Orderly := by
  cases o with
  | getOrInsert key payload lastUse p => exact h.getOrInsert _ _ key payload
  | remove key =>
    show (t.remove key).1.Orderly
    unfold Table.remove
    split
    · exact h
    · exact h.removeNode _
  | removeNode handle => exact h.removeNode handle
  | touch handle => exact Ordered.touch h (hslot handle rfl) _
  | unlink handle => exact Ordered.unlink h (hslot handle rfl) _
  | trim count lastUse p =>
    show Ordered (t.trim _ _ _ _).table.hashOf _ _
    rw [trim_hashOf]
    exact trim_ordered _ _ _ h
  | sweep lastUse p =>
    show Ordered (t.sweep _ _ _).table.hashOf _ _
    rw [sweep_hashOf]
    exact sweep_ordered _ _ h
  | relink lastUse => exact Ordered.rebuilt h lastUse
  -- Growing and shrinking keep every slot and its link; only the chains are other ones.
  | resize =>
    show t.resize.table.Orderly
    unfold Table.resize
    split
    · obtain ⟨hr, hs⟩ := h.sound.grow
      exact h.rebucket hr hs
    · exact h
  | pinch =>
    show t.pinch.table.Orderly
    unfold Table.pinch
    split
    · exact Ordered.pinch h
    · exact h
  | clear => exact Ordered.clear h
  | get? | setMaxCapacity | byRecency | nodes | size | isEmpty | repairs => exact h

theorem Reachable.orderly [DecidableEq K] (h : t.Reachable) : t.Orderly := by
  induction h with
  | empty initial maxCapacity loadFactor hashOf =>
    exact Ordered.empty (Buckets.sound_empty initial loadFactor)
      (accounted_empty initial loadFactor)
  | perform o ht hnone ih =>
    apply ih.perform
    intro node hnode
    rw [hnone] at hnode
    cases hnode
  | performOn o ht ht' hmem hnode ih ih' =>
    apply ih.perform
    intro n hn
    rw [hnode] at hn
    obtain ⟨s, hs⟩ := mem_nodes.1 hmem
    obtain ⟨hslot, hres⟩ := ih'.sound.slot s _ hs
    rwa [← Option.some.inj hn, hslot]

/-! ## What is read off a table -/

theorem chainFrom_eq {cells : Array (Cell K P)} {fuel : Nat}
    (hs : Strung (next? cells) slots) (hfuel : slots.length ≤ fuel) :
    chainFrom cells fuel slots.head? = slots := by
  induction slots generalizing fuel with
  | nil => cases fuel <;> rfl
  | cons s rest ih =>
    obtain ⟨fuel, rfl, hle⟩ := exists_fuel hfuel
    show s :: chainFrom cells fuel (next? cells s) = s :: rest
    rw [hs.1, ih hs.2 hle]

/-- The chains are read off the buckets. -/
theorem Buckets.Threads.chain_eq {home : UInt64 → Nat} {chains : Nat → List Nat}
    (hc : b.Threads home chains) (hh : b.Headed chains) : b.chain = chains := by
  funext i
  rw [chain, hh i]
  exact chainFrom_eq (hc.strung i) (hc.length_le i)

theorem Buckets.Sound.chain_eq (h : b.Sound hashOf) :
    b.Threads b.index b.chain ∧ b.Headed b.chain := by
  obtain ⟨chains, hc, hh⟩ := h.threads
  rw [hc.chain_eq hh]
  exact ⟨hc, hh⟩

/-- Different nodes of the table differ in whatever tells their slots apart. -/
theorem Buckets.nodup_map_nodes {α : Type} (f : Node K P → α)
    (h : ∀ s t m n, b.node? s = some m → b.node? t = some n → f m = f n → s = t) :
    (b.nodes.map f).Nodup := by
  rw [List.nodup_iff_pairwise_ne, List.pairwise_map, nodes, List.pairwise_filterMap,
    List.pairwise_iff_getElem]
  intro s t hs ht hlt m hm n hn hsame
  have hnode {i : Nat} {k : Node K P} (hi : i < b.cells.toList.length)
      (hk : b.cells.toList[i].node? = some k) : b.node? i = some k := by
    rw [node?, Array.getElem?_eq_getElem (by simpa using hi)]
    simpa using hk
  have heq := h s t m n (hnode hs hm) (hnode ht hn) hsame
  omega

/-- No two nodes of the table share a generation. -/
theorem Buckets.Sound.eq_of_generation (h : b.Sound hashOf) {n : Node K P} (hnode : node ∈ b.nodes)
    (hn : n ∈ b.nodes) (heq : node.generation = n.generation) : node = n :=
  List.inj_on_of_nodup_map (nodup_map_nodes Node.generation h.different) hnode hn heq

/-- What holds between the chains, the slab and the recency list of a table. -/
structure WellFormed (t : Table K P) : Prop where
  /-- The number of buckets is a power of two, so a hash is masked by one less than it. -/
  bucketCount : ∃ j, t.bucketCount = 2 ^ j
  /-- The bucket array has the first slot of each chain. -/
  headed : ∀ i, t.buckets.head? i = (t.buckets.chain i).head?
  /-- The links lead along each chain and end with it. -/
  strung : ∀ i, Strung (Buckets.next? t.buckets.cells) (t.buckets.chain i)
  /-- No chain comes to a slot twice. -/
  acyclic : ∀ i, (t.buckets.chain i).Nodup
  /-- A slot is in a chain exactly if it is occupied and its masked hash is that of the chain. -/
  placed : ∀ i s, s ∈ t.buckets.chain i ↔
    ∃ node, t.buckets.node? s = some node ∧ node.hash.toNat &&& (t.bucketCount - 1) = i
  /-- A node knows the hash of its key and the slot it is in, which is no sentinel's. -/
  stored : ∀ s node, t.buckets.node? s = some node →
    node.hash = t.hashOf node.key ∧ node.slot = s ∧ 2 ≤ s
  /-- No key is stored twice. -/
  keys : (t.nodes.map Node.key).Nodup
  size : t.size = t.nodes.length
  /-- The vacant slots are the empty ones behind the sentinels, -/
  vacant : ∀ s, s ∈ t.buckets.vacant ↔
    2 ≤ s ∧ s < t.buckets.cells.size ∧ t.buckets.node? s = none
  /-- each of them once. -/
  vacantOnce : t.buckets.vacant.Nodup
  generations : (t.nodes.map Node.generation).Nodup
  nextGeneration : ∀ node ∈ t.nodes, node.generation < t.buckets.nextGeneration
  /-- The recency list leads from the front along its slots to the back and the same way back. Its
      size is their number, and no other slot is linked. -/
  linked : t.recency.Linked t.recency.toList
  /-- Each slot of the recency list holds the node that it is linked for. -/
  occupied : ∀ s ∈ t.recency.toList, ∃ node, t.buckets.node? s = some node ∧
    t.recency.generation? s = some node.generation

theorem Orderly.wellFormed (h : t.Orderly) : t.WellFormed := by
  obtain ⟨hc, hh⟩ := h.sound.chain_eq
  obtain ⟨j, hj⟩ := h.sound.sized
  have hpower : t.bucketCount = 2 ^ (4 + j) := by
    show t.buckets.heads.size = _
    rw [hj, Nat.pow_add]
    rfl
  -- Masking by one less than a power of two is taking the remainder.
  have hindex (hash : UInt64) : hash.toNat &&& (t.bucketCount - 1) = t.buckets.index hash := by
    rw [hpower, Nat.and_two_pow_sub_one_eq_mod, ← hpower]
    rfl
  exact {
    bucketCount := ⟨4 + j, hpower⟩
    headed := hh
    strung := hc.strung
    acyclic := hc.nodup
    placed := by
      intro i s
      constructor
      · intro hs
        obtain ⟨node, hnode, hhome⟩ := hc.placed i s hs
        exact ⟨node, hnode, (hindex _).trans hhome⟩
      · intro hs
        obtain ⟨node, hnode, hhome⟩ := hs
        rw [hindex] at hhome
        exact hhome ▸ hc.covered s node hnode
    stored := by
      intro s node hnode
      exact ⟨h.sound.hashed s node hnode, h.sound.slot s node hnode⟩
    keys := nodup_map_nodes Node.key h.sound.key
    size := h.accounted.size
    vacant := by
      intro s
      constructor
      · intro hs
        obtain ⟨hlt, hnone, hres⟩ := h.sound.vacant s hs
        exact ⟨hres, hlt, hnone⟩
      · intro hs
        exact h.accounted.vacant s hs.1 hs.2.1 hs.2.2
    vacantOnce := h.sound.spare
    generations := nodup_map_nodes Node.generation h.sound.different
    nextGeneration := by
      intro node hnode
      obtain ⟨s, hs⟩ := mem_nodes.1 hnode
      exact h.sound.generation s node hs
    linked := h.linked
    occupied := by
      intro s hs
      have hres := h.linked.reserved_le hs
      obtain ⟨g, hg⟩ := Option.isSome_iff_exists.1 ((h.linked.mem_iff hres).1 hs)
      obtain ⟨node, hnode, hgeneration⟩ := h.matched s g hres hg
      exact ⟨node, hnode, by rw [hg, hgeneration]⟩ }

/-- Whatever is done to tables, with whatever hash function, handles and predicates, each of them is
    well formed at every time. -/
theorem wellFormed_of_reachable [DecidableEq K] (h : t.Reachable) : t.WellFormed :=
  h.orderly.wellFormed

/-- All keys share a bucket, a sweep panics after it has removed a node, and a handle of another
    table, where the key has another hash, unlinks the node that has its slot here. -/
theorem wellFormed_of_reachable_panicked :
    let insert (key : Nat) : Operation (Node Nat Nat) Nat Nat :=
      .getOrInsert key (.ok key) (fun _ used => used) fun _ _ => .keep
    let sweep : Operation (Node Nat Nat) Nat Nat :=
      .sweep (fun _ used => used) fun asked _ => if asked = [] then .evict else .panic "again"
    let both (hashOf : Nat → UInt64) : Table Nat Nat :=
      (((Table.empty 0 2 .standard hashOf).perform (insert 1)).1.perform (insert 2)).1
    let handle : Node Nat Nat := { hash := 2, slot := 3, generation := 2, key := 2, payload := 2 }
    let t := (((both fun _ => 7).perform sweep).1.perform (.unlink handle)).1
    t.nodes = [{ handle with hash := 7 }] ∧ t.byRecency = [] ∧ t.Reachable ∧ t.WellFormed := by
  intro insert sweep both handle t
  have hboth (hashOf : Nat → UInt64) : (both hashOf).Reachable :=
    .perform _ (.perform _ (.empty 0 2 .standard hashOf) rfl) rfl
  have hother : handle ∈ (both Nat.toUInt64).nodes := by decide +kernel
  have ht : t.Reachable :=
    .performOn _ (.perform sweep (hboth _) rfl) (hboth Nat.toUInt64) hother rfl
  exact ⟨by decide +kernel, by decide +kernel, ht, wellFormed_of_reachable ht⟩

end ReadThrough.Table
