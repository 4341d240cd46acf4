import ReadThrough.Proofs.Runs.Dealings
import ReadThrough.Proofs.Runs.Tenants
import ReadThrough.Proofs.Table.Handles

/-! # The Order of the Entries

  What moves an entry to the most recently used end, and what a step makes of the others.

  - **order**: the entries of the table, from the most to the least recently used one.
  - **Turned**: what one use, or none, makes of the order and of the ticks.
  - **Filed**: the recency list links all nodes of the table, which knows the handles of the calls.
  - **Reachable.filed**: this is so whatever is done, so no walk ever finds the list broken.
-/

namespace ReadThrough

open Cache Entries

variable {K V : Type}

/-! ## Ticks -/

/-- The entry was last used when it was before. -/
def Entry.SameUse (e e' : Entry K V) : Prop :=
  e'.lastAccess = e.lastAccess

namespace Entry

variable {e e' : Entry K V}

theorem Relinked.sameUse (h : e.Relinked e') : e.SameUse e' := by
  obtain ⟨n, rfl⟩ := h
  rfl

theorem Leaves.sameUse (h : e.Leaves e') : e.SameUse e' := by
  obtain ⟨inChain, next?, rfl, -⟩ := h
  rfl

theorem sameUse_retire (held : Held) (e : Entry K V) : e.SameUse (e.retire held) := by
  unfold retire
  dsimp only
  split <;> rfl

theorem lenient_sameUse : Lenient (SameUse : Entry K V → Entry K V → Prop) where
  refl := fun _ => rfl
  trans := fun h k => k.trans h
  removed := fun _ => rfl
  detach := fun _ => rfl
  retire := sameUse_retire

end Entry

theorem Batch.Finished.sameUse {b : Batch} {how : Finish} {id : EntryId} {e e' : Entry K V}
    (h : b.Finished how id e e') : e.SameUse e' := by
  obtain ⟨n, d, ⟨-, rfl⟩ | ⟨i, version, -, rfl⟩, rfl⟩ := h
  · rfl
  · cases Batch.fate how b.copyOn (decide (i < b.consumed)) version e <;> rfl

namespace Call

variable {held : Held} {call : Call K V} {node : EntryNode K} {e e' : Entry K V}
  {stage : Stage K V}

/-- Looking at an entry is not a use of it yet. -/
theorem Inspects.sameUse (h : call.Inspects held node e e' stage) : e.SameUse e' := by
  cases h <;> rfl

theorem Settles.sameUse {r : Return V} {epoch : Nat} {prior : ValueState V}
    (h : call.Settles r node epoch prior e e' stage) : e.SameUse e' := by
  cases h with
  | restored outcome stage hstage hvalue hload =>
    unfold Entry.restore
    split <;> rfl
  | _ => rfl

theorem InspectsAt.sameUse {id : EntryId} (h : call.InspectsAt held node stage id e e') :
    e.SameUse e' := by
  by_cases hid : id = node.payload
  · exact (h.1 hid).sameUse
  · exact (h.2 hid).sameUse

theorem SettlesAt.sameUse {r : Return V} {epoch : Nat} {prior : ValueState V} {id : EntryId}
    (h : call.SettlesAt r node epoch prior stage id e e') : e.SameUse e' := by
  by_cases hid : id = node.payload
  · exact (h.1 hid).sameUse
  · exact (h.2 hid).sameUse

end Call

namespace Cache

variable {es es' : Entries K V} {c c' c'' : Cache K V} {node : EntryNode K} {tick now : Nat}
  {u : Option EntryId}

theorem lastUse_of_each (h : Each (fun _ => Entry.SameUse) es es') (id : EntryId) :
    lastUse es' id = lastUse es id := by
  unfold lastUse
  cases he : es[id]? with
  | none =>
    have hnone : es'[id]? = none := by
      rw [Array.getElem?_eq_none_iff, h.1]
      exact Array.getElem?_eq_none_iff.1 he
    rw [hnone]
  | some e =>
    obtain ⟨e', he', hsame⟩ := h.2 id e he
    rw [he']
    exact hsame

theorem lastUse_stamp {e : Entry K V} {j : EntryId} (he : es[j]? = some e) (id : EntryId) :
    lastUse (es.modify j (Entry.stamp now)) id =
      if j = id then max (lastUse es id) now else lastUse es id := by
  unfold lastUse
  rw [Array.getElem?_modify]
  split
  · next heq =>
    subst heq
    rw [he]
    rfl
  · rfl

/-- A new entry was last used when it was made. -/
theorem lastUse_push (key : K) (state : ValueState V) (id : EntryId) :
    lastUse (es.push (Entry.new key state now)) id =
      if es.size = id then max (lastUse es id) now else lastUse es id := by
  unfold lastUse
  rw [Array.getElem?_push]
  split
  · next heq => simp [heq, Entry.new]
  · next hne => rw [if_neg (Ne.symm hne)]

/-! ## Turns -/

/-- The entries of the table, from the most to the least recently used one. -/
def order (c : Cache K V) : List EntryId :=
  c.table.byRecency.map Table.Node.payload

/-- At most one entry is used, at a tick. It stands in front afterwards if it is in the table, the
    others that are left are in their order, and none of them has been used. -/
structure Turned (tick : Nat) (u : Option EntryId) (c c' : Cache K V) : Prop where
  order : c'.order.Sublist (u.toList ++ c.order.filter fun id => u ≠ some id)
  stamps : ∀ id, lastUse c'.entries id =
    if u = some id then max (lastUse c.entries id) tick else lastUse c.entries id

theorem turned_of_each (horder : c'.order.Sublist c.order)
    (h : Each (fun _ => Entry.SameUse) c.entries c'.entries) (tick : Nat) :
    Turned tick none c c' where
  order := by simpa using horder
  stamps := by simpa using lastUse_of_each h

theorem order_sublist (h : c.table.Sheds c'.table) : c'.order.Sublist c.order :=
  h.byRecency.map _

/-- Before a use others may have left. -/
theorem Turned.after (h : Turned now none c c') (h' : Turned tick u c' c'') :
    Turned tick u c c'' where
  order := by
    have hsub : c'.order.Sublist c.order := by simpa using h.order
    exact h'.order.trans (List.Sublist.append (List.Sublist.refl _) (hsub.filter _))
  stamps := by
    intro id
    have hsame : lastUse c'.entries id = lastUse c.entries id := by simpa using h.stamps id
    rw [h'.stamps, hsame]

/-! ### Single uses -/

/-- The handle of a node that leads to an entry, and to no other one in the table. -/
structure Handles (c : Cache K V) (node : EntryNode K) : Prop where
  known : c.table.Knows node
  entry : ∃ e, c.entries[node.payload]? = some e
  own : ∀ n ∈ c.table.nodes, n.payload = node.payload → n = node

theorem use_turned (hc : c.table.Complete) (h : c.Handles node) :
    Turned now (some node.payload) c (c.use node now) where
  order := by
    show List.Sublist ((c.table.touch node).byRecency.map Table.Node.payload) _
    by_cases hn : node ∈ c.table.nodes
    · rw [(hc.touch hn).2, List.map_cons]
      refine List.Sublist.cons_cons _ ?_
      -- The other nodes lead to other entries, so taking the entry out takes nothing else out.
      have hothers : ∀ id ∈ (Table.others node.slot c.table.byRecency).map Table.Node.payload,
          decide (some node.payload ≠ some id) = true := by
        intro id hid
        obtain ⟨n, hn', rfl⟩ := List.mem_map.1 hid
        obtain ⟨hmem, hslot⟩ := Table.mem_others.1 hn'
        rw [decide_eq_true_eq]
        intro heq
        exact hslot (congrArg Table.Node.slot
          (h.own n (hc.mem_byRecency.1 hmem) (Option.some.inj heq).symm))
      rw [← List.filter_eq_self.2 hothers]
      exact ((Table.others_sublist _ _).map _).filter _
    · -- The handle of a node that has left moves nothing.
      rw [h.known.touch_of_not_mem hc hn]
      refine List.Sublist.cons _ ?_
      rw [List.filter_eq_self.2]
      · exact List.Sublist.refl _
      · intro id hid
        obtain ⟨n, hn', rfl⟩ := List.mem_map.1 hid
        have hmem := hc.mem_byRecency.1 hn'
        rw [decide_eq_true_eq]
        intro heq
        exact hn (h.own n hmem (Option.some.inj heq).symm ▸ hmem)
  stamps := by
    intro id
    obtain ⟨e, he⟩ := h.entry
    exact (lastUse_stamp he id).trans (by simp)

end Cache

/-! ## Insertions -/

namespace Call

variable [DecidableEq K] {c : Cache K V} {call : Call K V} {now : Nat}

theorem insert_table (call : Call K V) (now : Nat) (c : Cache K V) :
    (call.insert now c).1.table = (c.table.getOrInsert lastUseIn evictor call.request.key
      (.ok c.entries.size) (c.entries, 0)).table := by
  unfold insert consult startLoader
  dsimp only
  split
  · split <;> rfl
  · split <;> rfl
  · split <;> rfl
  · rfl

theorem insert_onward (h : c.table.Complete) (call : Call K V) (now : Nat) :
    c.table.Onward (call.insert now c).1.table := by
  rw [insert_table]
  cases hget : c.table.get? call.request.key with
  | some node =>
    have hsame : (c.table.getOrInsert lastUseIn evictor call.request.key (.ok c.entries.size)
        (c.entries, 0)).table = c.table := by
      unfold Table.getOrInsert
      rw [hget]
    rw [hsame]
    exact (Table.Sheds.refl h).onward h
  | none =>
    obtain hsheds | ⟨room, hsheds, htable⟩ :=
      h.getOrInsert lastUseIn evictor hget c.entries.size (c.entries, 0)
    · exact hsheds.onward h
    · rw [htable]
      exact (hsheds.onward h).trans (hsheds.complete.onward_insertNew _ (hsheds.absent h hget))

/-- An absent key that is inserted comes to stand in front; some of the others may be evicted. -/
theorem insert_turned (now : Nat) (h : c.table.Complete)
    (hget : c.table.get? call.request.key = none)
    (hlt : ∀ n ∈ c.table.nodes, n.payload < c.entries.size) :
    Turned now (((call.insert now c).1.table.get? call.request.key).map Table.Node.payload) c
      (call.insert now c).1 := by
  have hinserts := insert_inserts ((evictor_spared c.table.hashOf c.table.buckets c.entries).and
    (Entry.lenient_sameUse.evictor c.entries)) call now c
    ⟨spared_start h.sound, Entry.lenient_sameUse.each_refl c.entries⟩
  have htable := insert_table call now c
  have hdone := h.getOrInsert lastUseIn evictor hget c.entries.size (c.entries, 0)
  rw [← htable] at hdone
  generalize call.insert now c = out at hinserts hdone
  -- Whether the key was inserted shows both in the table and in the entries.
  cases hinserts with
  | found node hsome => cases hget.symm.trans hsome
  | @refused c' stage m hnone hkeep hhash hentries hchain hstage =>
    obtain ⟨hsound, habsent⟩ := hkeep.1.room hhash h.sound hget
    rcases hdone with hsheds | ⟨room, hsheds, heq⟩
    · -- There was no room, whatever has been evicted.
      rw [show c'.table.get? call.request.key = none from hsound.get?_eq_none_iff.2 habsent]
      exact turned_of_each (order_sublist hsheds) (hentries ▸ hkeep.2) now
    · obtain ⟨-, hnodes⟩ := hsheds.complete.sound.insertNew (hsheds.absent h hget) c.entries.size
      rw [← heq] at hnodes
      exact absurd (Table.insertNew_key _ _ room) (habsent _ ((hnodes _).2 (.inl rfl)))
  | @made c' stage room m hnone hkeep hhash heq hentries hchain hstage =>
    obtain ⟨hroom, habsent⟩ := hkeep.1.room hhash h.sound hget
    obtain ⟨hsound, hnodes⟩ := hroom.insertNew habsent c.entries.size
    rw [← heq] at hsound hnodes
    have hnew := (hnodes _).2 (.inl rfl)
    have hkey := Table.insertNew_key call.request.key c.entries.size room
    rcases hdone with hsheds | ⟨room', hsheds, heq'⟩
    · exact absurd hkey (hsheds.absent h hget _ hnew)
    have hfound := hsound.get?_eq_some_iff.2 ⟨hnew, hkey⟩
    refine ⟨?_, fun id => ?_⟩
    · show c'.order.Sublist _
      -- The new entry is none of those that the table had.
      have hothers : ∀ id ∈ c.order, decide (some c.entries.size ≠ some id) = true := by
        intro id hid
        obtain ⟨n, hn, rfl⟩ := List.mem_map.1 hid
        have hsize := hlt n (h.mem_byRecency.1 hn)
        rw [decide_eq_true_eq]
        exact fun heq => Nat.ne_of_gt hsize (Option.some.inj heq)
      rw [hfound, Option.map_some, Table.insertNew_payload, List.filter_eq_self.2 hothers, order,
        heq', (hsheds.complete.insertNew _ (hsheds.absent h hget)).2, List.map_cons,
        Table.insertNew_payload]
      exact (hsheds.byRecency.map Table.Node.payload).cons_cons _
    · show lastUse c'.entries id = _
      rw [hfound, hentries, lastUse_push, lastUse_of_each hkeep.2, hkeep.1.size, Option.map_some,
        Table.insertNew_payload]
      simp

theorem lookup_sheds (h : c.table.Complete) (r : Request K V) :
    c.table.Sheds (lookup r c).1.table := by
  have hsame := Table.Sheds.refl h
  unfold lookup
  split
  · next key =>
    have hremoved := h.sheds_remove key
    split
    · exact hsame
    · next table node hremove =>
      rw [hremove] at hremoved
      exact hremoved
  · split
    · exact hsame
    · split <;> exact hsame

theorem advance_onward (h : c.table.Complete)
    (hknows : ∀ node, call.node? = some node → c.table.Knows node) (held : Held) :
    c.table.Onward (call.advance held c).1.table := by
  have hsame := (Table.Sheds.refl h).onward h
  unfold advance
  dsimp only
  cases hcase : call.stage with
  | lookup => exact (lookup_sheds h call.request).onward h
  | inspect node now =>
    dsimp only
    rw [inspect_table]
    exact hsame
  | insert now => exact insert_onward h call now
  | giveBack error? => cases error? <;> exact hsame
  | parked node epoch =>
    dsimp only
    rw [wake_cache]
    exact hsame
  | release node now outcome => cases outcome <;> exact hsame
  | touch node now outcome =>
    have hnode : call.node? = some node := by rw [node?, hcase]
    exact (hknows node hnode).onward_touch h
  | _ => exact hsame

end Call

/-! ## Systems -/

namespace System

variable {s : System K V} {u : Upkeep}

/-- What is done at once uses nothing. -/
theorem keepUp_turned (hs : s.Sound) (h : s.cache.table.Complete) (u : Upkeep) (tick : Nat) :
    Turned tick none s.cache (s.keepUp u).cache := by
  refine turned_of_each (order_sublist (keepUp_shrinks Table.shrinking_sheds u s h)) ?_ tick
  cases hclosed : u.closed? with
  | none => exact keepUp_each Entry.lenient_sameUse hclosed
  | some name =>
    cases keepUp_closes hs hclosed with
    | nothing hb heach => exact heach.imp fun _ _ _ => Entry.Leaves.sameUse
    | finishes b how hb hu heach => exact heach.imp fun _ _ _ => Batch.Finished.sameUse
    | drops b es hb heach hlast =>
      exact heach.comp hlast fun _ _ _ _ h k => Entry.lenient_sameUse.trans h.sameUse k.sameUse

variable [DecidableEq K]

/-- The recency list links all nodes of the table, and the handles of the calls lead to their own
    entries, whether these are still in the table or not. -/
structure Filed (s : System K V) : Prop where
  complete : s.cache.table.Complete
  handles : ∀ call ∈ s.calls, ∀ node, call.node? = some node → s.cache.Handles node

theorem handles_of_mem (hk : s.Keyed) (h : s.cache.table.Complete) {node : EntryNode K}
    (hn : node ∈ s.cache.table.nodes) : s.cache.Handles node where
  known := h.knows hn
  entry := by
    obtain ⟨e, he, -⟩ := hk.nodes node hn
    exact ⟨e, he⟩
  own := fun n hmem hid => hk.distinct n hmem node hn hid

theorem act_onward (h : s.Filed) (a : Action K V) :
    s.cache.table.Onward (s.act a).cache.table := by
  have hsame := (Table.Sheds.refl h.complete).onward h.complete
  cases a with
  | spawn r => cases r <;> exact hsame
  | advance i =>
    refine withCall_cases (P := fun t => s.cache.table.Onward t.cache.table) (fun _ => hsame)
      fun call hi => ?_
    exact Call.advance_onward h.complete
      (fun node hnode => (h.handles call (List.mem_of_getElem? hi) node hnode).known) s.held
  | resume r i =>
    refine withCall_cases (P := fun t => s.cache.table.Onward t.cache.table) (fun _ => hsame)
      fun call hi => ?_
    rw [Call.resume_table]
    exact hsame
  | expire i =>
    refine withCall_cases (P := fun t => s.cache.table.Onward t.cache.table) (fun _ => hsame)
      fun call hi => ?_
    rw [Call.expire_table]
    exact hsame
  | collect i keepAs =>
    unfold act collect
    dsimp only
    split <;> exact hsame
  | upkeep u => exact (keepUp_shrinks Table.shrinking_sheds u s h.complete).onward h.complete

/-- A handle goes on leading to its own entry: the entries of new nodes are new. -/
theorem handles_act (h : s.Filed) (hs : s.Sound) (hk : s.Keyed) {node : EntryNode K}
    (hnode : s.cache.Handles node) (a : Action K V) : (s.act a).cache.Handles node where
  known := hnode.known.onward (act_onward h a)
  entry := by
    obtain ⟨e, he⟩ := hnode.entry
    obtain ⟨e', he', -⟩ := (act_leads hs a).sameKeys hs.ledger node.payload e he
    exact ⟨e', he'⟩
  own := by
    intro n hn hid
    rcases act_tenants hk hn with hold | ⟨hnew, -⟩
    · exact hnode.own n hold hid
    · obtain ⟨e, he⟩ := hnode.entry
      rw [← hid, hnew, Array.getElem?_size] at he
      cases he

theorem Filed.act (h : s.Filed) (hs : s.Sound) (hk : s.Keyed) (a : Action K V) :
    (s.act a).Filed where
  complete := (act_onward h a).complete
  handles := by
    intro call' hmem node hnode
    -- The call was there, or it starts, or it acts: then it had its handle, or found it now.
    rcases mem_act_calls hmem with hcall | ⟨r, -, rfl⟩ | ⟨i, call, ha, hi, rfl⟩
    · exact handles_act h hs hk (h.handles call' hcall node hnode) a
    · rw [Call.node?, Call.start_stage] at hnode
      cases hnode
    · rcases onCall_node hk ha hi hnode with hown | ⟨hn, -⟩ | ⟨hn, -⟩
      · exact handles_act h hs hk (h.handles call (List.mem_of_getElem? hi) node hown) a
      · exact handles_act h hs hk (handles_of_mem hk h.complete hn) a
      · exact handles_of_mem (hk.act hs a) (act_onward h a).complete hn

theorem Filed.actAll (h : s.Filed) (hs : s.Sound) (hk : s.Keyed) (as : List (Action K V)) :
    (s.actAll as).Filed := by
  induction as generalizing s with
  | nil => exact h
  | cons a as ih => exact ih (h.act hs hk a) (hs.act a) (hk.act hs a)

theorem Reachable.filed (h : s.Reachable) : s.Filed := by
  obtain ⟨config, clock, hashOf, as, rfl⟩ := h
  refine Filed.actAll ⟨Table.complete_empty _ _ _ _, ?_⟩ (sound_new config clock hashOf)
    (keyed_new config clock hashOf) as
  intro call hmem
  cases hmem

end System

end ReadThrough
