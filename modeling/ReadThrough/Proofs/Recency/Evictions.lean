import ReadThrough.Proofs.Recency.Idle
import ReadThrough.Proofs.Recency.Latest
import ReadThrough.Proofs.Table.Trims
import ReadThrough.Proofs.WriteBack.Unchanged

/-! # Evictions

  A trim of the cache evicts the entries that were used least recently among those that are not
  protected, and leaves everything else as it is.

  - **evictor_follows**: as long as every node leads to an entry of its own, an eviction makes no
    difference to the nodes ahead, so the evictor goes by what was protected at the beginning.
  - **Evicted**: some entries have been evicted, and nothing else has changed.
  - **System.isProtected**: which entries are spared, told by values, chain and open batches.
  - **evicts_least_recent**: what trims, lower limits and requests for memory evict.
-/

namespace ReadThrough

open Table

variable {K V : Type}

namespace Cache

/-! ## Tours -/

/-- Whether evictions spare an entry. -/
def spares (c : Cache K V) (id : EntryId) : Bool :=
  c.entries[id]?.all Entry.isProtected

/-- The entries that a trim evicts, from the least recently used one on. -/
def victims (n : Nat) (c : Cache K V) : List EntryId :=
  (c.order.reverse.filter fun id => !c.spares id).take n

/-- What the evictor notes about a node. -/
def evictMark (node : EntryNode K) (m : Census K V) : Census K V :=
  (markRemoved m.1 node.payload, m.2 + 1)

/-- The nodes ahead lead to entries of their own, which are what they were in `c`. -/
structure Untouched (c : Cache K V) (ahead : List (EntryNode K)) (m : Census K V) : Prop where
  distinct : ahead.Pairwise fun a b => a.payload ≠ b.payload
  same : ∀ node ∈ ahead, m.1[node.payload]? = c.entries[node.payload]?

variable {c c' : Cache K V} {ids : List EntryId} {id : EntryId}

theorem getElem?_markRemoved (es : Entries K V) (id other : EntryId) :
    (markRemoved es id)[other]? =
      es[other]?.map fun e => if id = other then { e with removed := true } else e := by
  unfold markRemoved
  rw [Array.getElem?_modify]
  by_cases heq : id = other
  · simp only [if_pos heq]
  · simp only [if_neg heq]
    exact Option.map_id'.symm

theorem evictor_follows (c : Cache K V) :
    (evictor : Judge K EntryId (Census K V)).Follows (fun node => !c.spares node.payload) evictMark
      c.Untouched where
  judges := by
    intro node ahead m h
    show evictor node (m.1, m.2) = _
    rw [evictor, h.same node List.mem_cons_self]
    show (if c.spares node.payload = true then _ else _) = _
    cases c.spares node.payload <;> rfl
  keeps := by
    intro node ahead m h _
    exact ⟨(List.pairwise_cons.1 h.distinct).2, fun n hn => h.same n (List.mem_cons_of_mem _ hn)⟩
  evicts := by
    intro node ahead m h _
    -- The mark is set on the entry of this node only, to which no node ahead leads.
    obtain ⟨hown, hdistinct⟩ := List.pairwise_cons.1 h.distinct
    refine ⟨hdistinct, fun n hn => ?_⟩
    show (markRemoved m.1 node.payload)[n.payload]? = _
    rw [getElem?_markRemoved, h.same n (List.mem_cons_of_mem _ hn)]
    simp only [if_neg (hown n hn)]
    exact Option.map_id'

/-- What the evictor remembers in the end: the evicted entries are marked and counted. -/
theorem foldl_evictMark (nodes : List (EntryNode K)) (es : Entries K V) (n : Nat) :
    let m := nodes.foldl (fun m node => evictMark node m) (es, n)
    m.2 = n + nodes.length ∧ ∀ id, m.1[id]? = es[id]?.map fun e =>
      if id ∈ nodes.map Node.payload then { e with removed := true } else e := by
  induction nodes generalizing es n with
  | nil => exact ⟨rfl, fun id => Option.map_id'.symm⟩
  | cons node nodes ih =>
    obtain ⟨hcount, hentries⟩ := ih (markRemoved es node.payload) (n + 1)
    refine ⟨?_, fun id => ?_⟩
    · show _ = n + (nodes.length + 1)
      rw [← Nat.add_assoc, Nat.add_right_comm]
      exact hcount
    · show (nodes.foldl _ (markRemoved es node.payload, n + 1)).1[id]? = _
      rw [hentries, getElem?_markRemoved, Option.map_map]
      congr 1
      funext e
      simp only [Function.comp_apply, List.map_cons, List.mem_cons]
      by_cases hid : node.payload = id
      · simp [hid]
      · simp [hid, Ne.symm hid]

/-! ## Trims -/

/-- The given entries of the table have been evicted, and nothing else has changed. -/
structure Evicted (ids : List EntryId) (c c' : Cache K V) : Prop where
  /-- The others are in the order in which they were. -/
  order : c'.order = c.order.filter fun id => id ∉ ids
  nodes : ∀ node, node ∈ c'.table.nodes ↔ node ∈ c.table.nodes ∧ node.payload ∉ ids
  /-- The evicted entries are marked as removed, and the others are what they were. -/
  entries : ∀ id, c'.entries[id]? =
    c.entries[id]?.map fun e => if id ∈ ids then { e with removed := true } else e
  size : c'.size + ids.length = c.size
  counters : c'.counters = { c.counters with evictions := c.counters.evictions + ids.length }
  chain : c'.chain = c.chain

/-- A trim is one of the table, the evictions of which are counted. -/
theorem trim_parts (n : Nat) (c : Cache K V) :
    let r := c.table.trim lastUseIn evictor n (c.entries, 0)
    (c.trim n).1.table = r.table ∧ (c.trim n).1.entries = r.value.memory.1 ∧
      (c.trim n).1.counters =
        { c.counters with evictions := c.counters.evictions + r.value.memory.2 } ∧
      (c.trim n).1.chain = c.chain ∧ (c.trim n).2 = r.value.removed.length := by
  unfold trim
  dsimp only
  split
  · next hnone => exact ⟨rfl, rfl, rfl, rfl, hnone.symm⟩
  · exact ⟨rfl, rfl, rfl, rfl, rfl⟩

theorem mem_order (hc : c.table.Complete) :
    id ∈ c.order ↔ ∃ node ∈ c.table.nodes, node.payload = id := by
  rw [order, List.mem_map]
  constructor
  · rintro ⟨node, hn, hid⟩
    exact ⟨node, hc.mem_byRecency.1 hn, hid⟩
  · rintro ⟨node, hn, hid⟩
    exact ⟨node, hc.mem_byRecency.2 hn, hid⟩

theorem order_nodup (hc : c.table.Complete) (hdistinct : Distinct c.table.buckets) :
    c.order.Nodup := by
  apply List.Nodup.map_on _ hc.nodup
  intro a ha b hb heq
  exact hdistinct a (hc.mem_byRecency.1 ha) b (hc.mem_byRecency.1 hb) heq

/-- What stays in the table stays in its order. -/
theorem order_eq_filter (hc : c.table.Complete) (hdistinct : Distinct c.table.buckets)
    (hc' : c'.table.Complete) (hsub : c'.order.Sublist c.order)
    (hnodes : ∀ node, node ∈ c'.table.nodes ↔ node ∈ c.table.nodes ∧ node.payload ∉ ids) :
    c'.order = c.order.filter fun id => id ∉ ids := by
  refine (eq_filter_of_sublist (order_nodup hc hdistinct) hsub).trans (List.filter_congr ?_)
  intro id hid
  rw [decide_eq_decide, mem_order hc']
  constructor
  · intro ⟨node, hn, heq⟩
    exact heq ▸ ((hnodes node).1 hn).2
  · intro hnot
    obtain ⟨node, hn, heq⟩ := (mem_order hc).1 hid
    exact ⟨node, (hnodes node).2 ⟨hn, heq ▸ hnot⟩, heq⟩

theorem trim_evicted (hc : c.table.Complete) (hdistinct : Distinct c.table.buckets) (n : Nat) :
    c.Evicted (c.victims n) (c.trim n).1 ∧ (c.trim n).2 = (c.victims n).length := by
  let o := (evictor : Judge K EntryId (Census K V)).tour c.table.byRecency.reverse (some n)
    (c.entries, 0)
  have hmem {node : EntryNode K} : node ∈ c.table.byRecency.reverse ↔ node ∈ c.table.nodes :=
    List.mem_reverse.trans hc.mem_byRecency
  have huntouched : c.Untouched c.table.byRecency.reverse (c.entries, 0) := by
    refine ⟨?_, fun _ _ => rfl⟩
    exact (List.nodup_reverse.2 hc.nodup).imp_of_mem fun ha hb hne heq =>
      hne (hdistinct _ (hmem.1 ha) _ (hmem.1 hb) heq)
  -- All nodes are linked, so the trim is a single tour of the list.
  have hpicked := (evictor_follows c).picked _ n _ huntouched
  have hwalk := hc.walk evictor (some n) (c.entries, 0)
  have hstrolls := hc.linking.walk evictor (some n) (c.entries, 0)
  have htrim := congrArg Answer.table (hc.trim_eq lastUseIn evictor n (c.entries, 0))
  have hvalue := congrArg Answer.value (hc.trim_eq lastUseIn evictor n (c.entries, 0))
  obtain ⟨htable, hentries, hcounters, hchain, hcount⟩ := c.trim_parts n
  rw [htrim] at htable
  have hmemory := (congrArg Removal.memory hvalue).trans (hwalk.memory.trans hpicked.memory)
  have hremoved := (congrArg Removal.removed hvalue).trans hwalk.removed
  rw [hmemory] at hentries hcounters
  rw [hremoved] at hcount
  have hids : c.victims n = o.removed.map Node.payload := by
    rw [hpicked.removed, List.map_take, victims, order, ← List.map_reverse, List.filter_map]
    rfl
  have hlength : o.removed.length = (c.victims n).length := by rw [hids, List.length_map]
  obtain ⟨hevictions, hmarked⟩ := foldl_evictMark o.removed c.entries 0
  have hnodes : ∀ node, node ∈ (c.trim n).1.table.nodes ↔
      node ∈ c.table.nodes ∧ node.payload ∉ c.victims n := by
    intro node
    rw [htable, hstrolls.nodes, hids]
    refine and_congr_right fun hn => not_congr ?_
    constructor
    · intro hremoved
      exact List.mem_map_of_mem hremoved
    · intro hid
      -- Another node leads to another entry.
      obtain ⟨node', hremoved, heq⟩ := List.mem_map.1 hid
      have hperm := Judge.tour_perm (evictor : Judge K EntryId (Census K V))
        c.table.byRecency.reverse (some n) (c.entries, 0)
      have hn' := hmem.1 (hperm.mem_iff.1 (List.mem_append_left _ hremoved))
      exact hdistinct node' hn' node hn heq ▸ hremoved
  have hcomplete : (c.trim n).1.table.Complete := htable ▸ hwalk.complete
  have hsub : (c.trim n).1.order.Sublist c.order := by
    rw [order, htable, hwalk.byRecency]
    have hleft := Judge.tour_left (evictor : Judge K EntryId (Census K V))
      c.table.byRecency.reverse (some n) (c.entries, 0)
    exact (List.reverse_sublist.1 (by rwa [List.reverse_reverse])).map _
  refine ⟨?_, hcount.trans hlength⟩
  exact {
    order := order_eq_filter hc hdistinct hcomplete hsub hnodes
    nodes := hnodes
    entries := by
      intro id
      rw [hentries, hids]
      exact hmarked id
    size := by
      have hparts : o.removed.length + o.left.length = c.table.byRecency.reverse.length :=
        Judge.tour_length _ _ _ _
      have hbefore : c.table.byRecency.length = c.size := Lined.length_eq hc
      have hafter : (c.trim n).1.table.byRecency.length = (c.trim n).1.size :=
        Lined.length_eq hcomplete
      have hleft : (c.trim n).1.table.byRecency = o.left.reverse := by rw [htable, hwalk.byRecency]
      rw [hleft, List.length_reverse] at hafter
      rw [List.length_reverse] at hparts
      omega
    counters := by rw [hcounters, hevictions, Nat.zero_add, hlength]
    chain := hchain }

/-! ## Limits and memory -/

theorem victims_zero (c : Cache K V) : c.victims 0 = [] :=
  List.take_zero

theorem evicted_nil (horder : c'.table.byRecency = c.table.byRecency)
    (hnodes : c'.table.nodes = c.table.nodes) (hsize : c'.size = c.size)
    (hentries : c'.entries = c.entries) (hcounters : c'.counters = c.counters)
    (hchain : c'.chain = c.chain) : c.Evicted [] c' where
  order := by simp [order, horder]
  nodes := by simp [hnodes]
  entries := by simp [hentries]
  size := hsize
  counters := hcounters
  chain := hchain

/-- Two caches have the same nodes and entries. What else there is no eviction changes. -/
structure Alike (c c' : Cache K V) : Prop where
  table : c'.table = c.table
  entries : c'.entries = c.entries
  counters : c'.counters = c.counters
  chain : c'.chain = c.chain

theorem Evicted.alike {c'' : Cache K V} (h : c.Evicted ids c') (ha : c'.Alike c'') :
    c.Evicted ids c'' where
  order := by
    rw [Cache.order, ha.table]
    exact h.order
  nodes := by
    intro node
    rw [ha.table]
    exact h.nodes node
  entries := by
    intro id
    rw [ha.entries]
    exact h.entries id
  size := by
    rw [Cache.size, ha.table]
    exact h.size
  counters := ha.counters.trans h.counters
  chain := ha.chain.trans h.chain

theorem Evicted.of_alike {c₀ : Cache K V} (ha : c₀.Alike c) (h : c.Evicted ids c') :
    c₀.Evicted ids c' where
  order := by
    have horder : c.order = c₀.order := by rw [Cache.order, ha.table, Cache.order]
    rw [← horder]
    exact h.order
  nodes := by
    intro node
    rw [← ha.table]
    exact h.nodes node
  entries := by
    intro id
    rw [← ha.entries]
    exact h.entries id
  size := by
    have hsize : c.size = c₀.size := by rw [Cache.size, ha.table, Cache.size]
    rw [← hsize]
    exact h.size
  counters := by
    rw [← ha.counters]
    exact h.counters
  chain := h.chain.trans ha.chain

theorem Alike.victims (ha : c.Alike c') (n : Nat) : c'.victims n = c.victims n := by
  unfold Cache.victims Cache.order spares
  rw [ha.table, ha.entries]

/-- What is reported besides does not matter. -/
theorem Evicted.emit (h : c.Evicted ids c') (e : Event) : c.Evicted ids (c'.emit e) :=
  h.alike ⟨rfl, rfl, rfl, rfl⟩

/-- A lower limit evicts as many entries as there are beyond it. -/
theorem setMaxCapacity_evicted (hc : c.table.Complete) (hdistinct : Distinct c.table.buckets)
    (n : Nat) : c.Evicted (c.victims (c.size - max n 1)) (c.setMaxCapacity n) := by
  let limited : Cache K V := { c with table := c.table.setMaxCapacity n }
  have hexcess : limited.table.size - limited.table.maxCapacity = c.size - max n 1 := rfl
  unfold setMaxCapacity
  dsimp only
  by_cases hnone : limited.table.size - limited.table.maxCapacity = 0
  · rw [if_pos hnone, ← hexcess, hnone, victims_zero]
    exact evicted_nil rfl rfl rfl rfl rfl rfl
  · rw [if_neg hnone, ← hexcess]
    let excess := limited.table.size - limited.table.maxCapacity
    have htrim := (trim_evicted (c := limited) hc hdistinct excess).1
    -- The order and the entries are those of before, and so are the victims.
    have hevicted : c.Evicted (c.victims excess) (limited.trim excess).1 :=
      ⟨htrim.order, htrim.nodes, htrim.entries, htrim.size, htrim.counters, htrim.chain⟩
    exact hevicted.emit _

theorem Evicted.pinch (h : c.Evicted ids c') (hc' : c'.table.Complete) :
    c.Evicted ids c'.pinch.1 := by
  obtain ⟨hcomplete, hby⟩ := hc'.pinch
  have hsize : c'.pinch.1.size = c'.size := by
    have hafter : c'.table.pinch.table.byRecency.length = c'.pinch.1.size :=
      Lined.length_eq hcomplete
    rw [← hafter, hby]
    exact Lined.length_eq hc'
  exact {
    order := (congrArg (List.map Node.payload) hby).trans h.order
    nodes := by
      intro node
      rw [← h.nodes, ← hc'.mem_byRecency, ← hby, hcomplete.mem_byRecency]
      rfl
    entries := h.entries
    size := hsize ▸ h.size
    counters := h.counters
    chain := h.chain }

theorem relieve_evicted (hc : c.table.Complete) (hdistinct : Distinct c.table.buckets)
    (level : Pressure) : c.Evicted (c.victims (level.target c.size)) (c.relieve level) := by
  have htrim := (trim_evicted hc hdistinct (level.target c.size)).1
  have hcomplete : (c.trim (level.target c.size)).1.table.Complete := by
    rw [(c.trim_parts _).1]
    exact (hc.trim _ _ _ _).1
  cases level with
  | low => exact htrim.emit _
  | critical => exact (htrim.pinch hcomplete).emit _

end Cache

/-! ## Protected entries -/

namespace System

/-- Whether an entry is pending or dirty, or in the dirty chain or an open batch in direct mode. -/
def isProtected (s : System K V) (id : EntryId) : Bool :=
  (s.cache.valueOf id).isPending || (s.cache.valueOf id).isDirty || s.linked.contains id ||
    s.dispatched.contains id

/-- The entries of the table that are not protected, from the least recently used one on. -/
def unprotected (s : System K V) : List EntryId :=
  s.cache.order.reverse.filter fun id => !s.isProtected id

variable {s : System K V} {c : Cache K V} {ids : List EntryId} {id : EntryId}

theorem Sound.spares_eq (hs : s.Sound) {e : Entry K V} (he : s.cache.entries[id]? = some e) :
    s.cache.spares id = s.isProtected id := by
  have hmember : e.inChain = (s.linked.contains id || s.dispatched.contains id) := by
    rw [Bool.eq_iff_iff, Bool.or_eq_true, List.contains_iff_mem, List.contains_iff_mem,
      ← hs.isMember_iff]
    constructor
    · intro hin
      exact ⟨e, he, hin⟩
    · intro ⟨e', he', hin⟩
      rw [he] at he'
      exact Option.some.inj he' ▸ hin
  rw [Cache.spares, isProtected, Cache.valueOf_eq he, he, Option.all_some, Entry.isProtected,
    hmember, ← Bool.or_assoc]

theorem mem_unprotected : id ∈ s.unprotected ↔ id ∈ s.cache.order ∧ s.isProtected id = false := by
  rw [unprotected, List.mem_filter, List.mem_reverse, Bool.not_eq_true']

/-- Evictions leave the dirty chain alone. -/
theorem linked_of_evicted (h : s.cache.Evicted ids c) :
    ({ s with cache := c } : System K V).linked = s.linked := by
  -- The links are no part of what an eviction changes, so a walk along them goes the same way.
  have hnext (id : EntryId) :
      DirtyChain.next? c.entries id = DirtyChain.next? s.cache.entries id := by
    rw [DirtyChain.next?, DirtyChain.next?, h.entries, Option.bind_map]
    congr 1
    funext e
    simp only [Function.comp_apply]
    split <;> rfl
  have hwalk (fuel : Nat) (id? : Option EntryId) :
      DirtyChain.walk c.entries fuel id? = DirtyChain.walk s.cache.entries fuel id? := by
    induction fuel generalizing id? with
    | zero => rfl
    | succ fuel ih =>
      cases id? with
      | none => rfl
      | some id => rw [DirtyChain.walk, DirtyChain.walk, ih, hnext]
  have hnone (i : Nat) : c.entries.size ≤ i ↔ s.cache.entries.size ≤ i := by
    rw [← Array.getElem?_eq_none_iff, h.entries, Option.map_eq_none_iff,
      Array.getElem?_eq_none_iff]
  have hsize : c.entries.size = s.cache.entries.size :=
    Nat.le_antisymm ((hnone _).2 (Nat.le_refl _)) ((hnone _).1 (Nat.le_refl _))
  show DirtyChain.toList c.entries c.chain = DirtyChain.toList s.cache.entries s.cache.chain
  rw [DirtyChain.toList, DirtyChain.toList, h.chain, hwalk, hsize]

/-- Whoever was protected before an eviction is so afterwards, and nobody else. -/
theorem isProtected_of_evicted (h : s.cache.Evicted ids c) (id : EntryId) :
    ({ s with cache := c } : System K V).isProtected id = s.isProtected id := by
  have hvalue : c.valueOf id = s.cache.valueOf id := by
    rw [Cache.valueOf, Cache.valueOf, h.entries, Option.map_map]
    congr 2
    funext e
    simp only [Function.comp_apply]
    split <;> rfl
  rw [isProtected, isProtected, linked_of_evicted h]
  show ((c.valueOf id).isPending || _ || _ || s.dispatched.contains id) = _
  rw [hvalue]

section

variable [DecidableEq K]

theorem Reachable.victims_eq (hs : s.Reachable) (n : Nat) :
    s.cache.victims n = s.unprotected.take n := by
  rw [Cache.victims, unprotected]
  congr 1
  apply List.filter_congr
  intro id hid
  obtain ⟨node, hn, rfl⟩ := (Cache.mem_order hs.filed.complete).1 (List.mem_reverse.1 hid)
  obtain ⟨e, he⟩ := hs.keyed.exists_entry node hn
  rw [hs.sound.spares_eq he]

theorem unprotected_length_le (hs : s.Reachable) : s.unprotected.length ≤ s.cache.size := by
  have hsize : s.cache.table.byRecency.length = s.cache.size := Lined.length_eq hs.filed.complete
  have hle := List.length_filter_le (fun id => !s.isProtected id) s.cache.order.reverse
  rwa [List.length_reverse, Cache.order, List.length_map, hsize] at hle

omit [DecidableEq K] in
/-- If all that are not protected have been evicted, the protected entries are left. -/
theorem order_of_evicted_all (h : s.cache.Evicted s.unprotected c) :
    c.order = s.cache.order.filter s.isProtected := by
  rw [h.order]
  apply List.filter_congr
  intro id hid
  rw [decide_not, Bool.not_eq_eq_eq_not, Bool.eq_iff_iff, decide_eq_true_eq, mem_unprotected,
    Bool.not_eq_true']
  exact ⟨And.right, fun hnot => ⟨hid, hnot⟩⟩

end

end System

/-- In every state, also while callbacks are running, a trim evicts as many entries as it may, those
    that were used least recently among the ones that are neither pending nor dirty nor in the dirty
    chain or an open batch in direct mode, and changes nothing else. So a lower limit is reached
    unless only protected entries are left, a critical request for memory leaves exactly these, and a
    low one evicts a quarter of the entries, rounded up, if there are so many that are not protected. -/
theorem evicts_least_recent [DecidableEq K] {s : System K V} (hs : s.Reachable) (n : Nat) :
    let limited : System K V := { s with cache := s.cache.setMaxCapacity n }
    let quarter := (s.cache.size + 3) / 4
    s.cache.Evicted (s.unprotected.take n) (s.cache.trim n).1 ∧
      (s.cache.trim n).2 = min n s.unprotected.length ∧
      (limited.cache.size ≤ max n 1 ∨ ∀ id ∈ limited.cache.order, limited.isProtected id = true) ∧
      (s.cache.relieve .critical).order = s.cache.order.filter s.isProtected ∧
      s.cache.Evicted (s.unprotected.take quarter) (s.cache.relieve .low) ∧
      (s.cache.relieve .low).size + min quarter s.unprotected.length = s.cache.size := by
  intro limited quarter
  have hc := hs.filed.complete
  have hdistinct := hs.keyed.distinct
  have htrim := Cache.trim_evicted hc hdistinct n
  have hlimited := Cache.setMaxCapacity_evicted hc hdistinct n
  have hcritical := Cache.relieve_evicted hc hdistinct .critical
  have hlow := Cache.relieve_evicted hc hdistinct .low
  -- The victims of every trim are the first unprotected entries.
  rw [hs.victims_eq] at htrim hlimited hcritical hlow
  refine ⟨htrim.1, ?_, ?_, ?_, hlow, ?_⟩
  · rw [htrim.2, List.length_take]
  · by_cases hle : s.cache.size - max n 1 ≤ s.unprotected.length
    · -- Enough entries are not protected to come down to the limit.
      left
      have hsize := hlimited.size
      rw [List.length_take, Nat.min_eq_left hle] at hsize
      show (s.cache.setMaxCapacity n).size ≤ max n 1
      omega
    · -- All of them were evicted, and what was protected before is so afterwards.
      right
      intro id hid
      rw [List.take_of_length_le (by omega)] at hlimited
      rw [System.isProtected_of_evicted hlimited]
      rw [System.order_of_evicted_all hlimited] at hid
      exact (List.mem_filter.1 hid).2
  · rw [Pressure.target, List.take_of_length_le (System.unprotected_length_le hs)] at hcritical
    exact System.order_of_evicted_all hcritical
  · have hsize := hlow.size
    rwa [List.length_take] at hsize

/-- While a load runs there are two entries with values, one that a batch in direct mode has and one
    in the dirty chain. -/
theorem evicts_least_recent_loading :
    let s : System Nat Nat := (System.new {} (.manual 0) fun _ => 0).moveAll
      [.start (.put 1 5), .start (.update 2), .reply (.value 6), .upkeep (.drain "b" 1 false),
       .start (.put 3 7), .start (.update 4), .reply (.value 8), .start (.get 1),
       .start (.load 5 0 false)]
    s.Reachable ∧ s.cache.order = [4, 0, 3, 2, 1] ∧ s.unprotected = [2, 0] ∧
      s.cache.Evicted [2] (s.cache.trim 1).1 ∧ (s.cache.trim 1).2 = 1 ∧
      (s.cache.relieve .critical).order = [4, 3, 1] ∧
      (s.cache.relieve .low).size = 3 := by
  intro s
  have hs : s.Reachable := (System.reachable_new {} (.manual 0) fun _ => 0).moveAll _
  obtain ⟨hevicted, hcount, -, hcritical, -, hlow⟩ := evicts_least_recent hs 1
  have hunprotected : s.unprotected = [2, 0] := by decide +kernel
  rw [hunprotected] at hevicted hcount hlow
  refine ⟨hs, by decide +kernel, hunprotected, hevicted, hcount, ?_, ?_⟩
  · rw [hcritical]
    decide +kernel
  · have hsize : s.cache.size = 5 := by decide +kernel
    rw [hsize] at hlow
    exact Nat.add_right_cancel hlow

end ReadThrough
