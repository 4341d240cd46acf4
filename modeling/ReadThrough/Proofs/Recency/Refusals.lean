import ReadThrough.Proofs.Recency.Evictions
import ReadThrough.Proofs.Recency.Uses
import ReadThrough.Proofs.Table.Refusals

/-! # Refusals

  A call that finds no room for its key leaves all protected entries where they are. In a cache that
  is not too large it leaves everything where it is.

  - **Refused**: what is left of a cache after a call that found no room.
  - **insert_refused**: the critical section that finds no room, whatever other calls are about.
  - **start_refused**: a whole call of a single caller.
  - **refusal_keeps**: what tables and caches keep of their nodes and entries.
-/

namespace ReadThrough

open Cache Entries

variable {K V : Type}

/-- The capacity for want of which a call has come to nothing. A load has to give its reservation
    back before it says so. -/
def Stage.refusal? : Stage K V → Option Nat
  | .giveBack (some (.capacityExhausted capacity)) => some capacity
  | .done (.failed (.capacityExhausted capacity)) => some capacity
  | _ => none

/-- There was no room for the key in the system `s`, the cache of which is `c` now. -/
structure System.Refused [DecidableEq K] (s : System K V) (key : K) (capacity : Nat)
    (c : Cache K V) : Prop where
  limit : capacity = s.cache.table.maxCapacity
  absent : s.cache.table.get? key = none ∧ c.table.get? key = none
  /-- Only entries that were not protected can have been evicted, and nothing else has changed. -/
  kept : ∃ ids, ids.Sublist s.unprotected ∧ s.cache.Evicted ids c
  /-- Fewer entries have gone than would have made room. -/
  full : capacity ≤ c.size
  /-- A cache that was not too large is as it was. -/
  unchanged : s.cache.size ≤ capacity → s.cache.Evicted [] c

/-! ## The insertion -/

namespace Call

variable [DecidableEq K] {call : Call K V} {now capacity : Nat} {c : Cache K V}

omit [DecidableEq K] in
theorem start_alike (r : Request K V) (c : Cache K V) : c.Alike (start r c).1 := by
  cases r <;> exact ⟨rfl, rfl, rfl, rfl⟩

theorem lookup_refusal? (r : Request K V) (c : Cache K V) : (lookup r c).2.refusal? = none := by
  unfold lookup
  repeat' split
  all_goals rfl

/-- The insertion that the table refuses. -/
theorem insert_refuses (h : (call.insert now c).2.refusal? = some capacity) :
    let r := c.table.getOrInsert lastUseIn evictor call.request.key (.ok c.entries.size)
      (c.entries, 0)
    r.value.1 = .full capacity ∧ (call.insert now c).1.entries = r.value.2.1 ∧
      (call.insert now c).1.counters =
        { c.counters with evictions := c.counters.evictions + r.value.2.2 } ∧
      (call.insert now c).1.chain = c.chain := by
  intro r
  have hanswer : (c.consult fun table entries => (table.getOrInsert lastUseIn evictor
      call.request.key (.ok entries.size) (entries, 0)).map fun value =>
        ((value.1, value.2.2), value.2.1)) =
      ({ c with
         table := r.table, entries := r.value.2.1, log := r.events.reverse ++ c.log },
       (r.value.1, r.value.2.2)) := rfl
  unfold insert at h ⊢
  dsimp only at h ⊢
  rw [hanswer] at h ⊢
  clear_value r
  dsimp only at h ⊢
  -- Only a full table is refused; the other answers lead to other stages.
  cases hentrance : r.value.1 with
  | occupied node key =>
    rw [hentrance] at h
    dsimp only at h
    split at h <;> cases h
  | vacant node =>
    rw [hentrance] at h
    unfold startLoader at h
    dsimp only at h
    split at h <;> cases h
  | panicked reason =>
    rw [hentrance] at h
    cases h
  | full m =>
    rw [hentrance] at h
    dsimp only at h ⊢
    split at h
    · cases h
      exact ⟨rfl, rfl, rfl, rfl⟩
    · cases h
      exact ⟨rfl, rfl, rfl, rfl⟩

/-- An insertion that is refused has been preceded by as many evictions as are allowed. -/
theorem insert_evicted (hc : c.table.Complete) (hdistinct : Distinct c.table.buckets)
    (h : (call.insert now c).2.refusal? = some capacity) :
    c.table.get? call.request.key = none ∧
      (call.insert now c).1.table.get? call.request.key = none ∧
      capacity = c.table.maxCapacity ∧ capacity ≤ (call.insert now c).1.size ∧
      c.Evicted (c.victims (c.size + 1 - c.table.maxCapacity)) (call.insert now c).1 := by
  obtain ⟨hfull, hentries, hcounters, hchain⟩ := insert_refuses h
  have htable := insert_table call now c
  generalize (call.insert now c).1 = c' at hentries hcounters hchain htable
  cases hget : c.table.get? call.request.key with
  -- A key that is there is not refused.
  | some node =>
    rw [Table.getOrInsert_present hget] at hfull
    cases hfull
  | none =>
    let excess := c.size + 1 - c.table.maxCapacity
    have hlodged : Table.Lodged call.request.key (.ok c.entries.size)
        (c.table.makeRoom lastUseIn evictor (c.entries, 0)) _ :=
      Table.getOrInsert_lodged hget (.ok c.entries.size)
    generalize c.table.getOrInsert lastUseIn evictor call.request.key (.ok c.entries.size)
      (c.entries, 0) = r at hfull hentries hcounters htable hlodged
    cases hlodged with
    | unjudged => cases hfull
    | unmade => cases hfull
    | inserted => cases hfull
    | full hpanic hle =>
      obtain rfl := Table.Entrance.full.inj hfull
      obtain ⟨htrim, hmarked, hcounted, hkept, -⟩ := c.trim_parts excess
      -- Room is made by a trim of the table, so the cache is as a trim of its own would leave it.
      have halike : (c.trim excess).1.Alike c' :=
        ⟨htable.trans htrim.symm, hentries.trans hmarked.symm, hcounters.trans hcounted.symm,
          hchain.trans hkept.symm⟩
      refine ⟨rfl, ?_, Table.trim_maxCapacity _ _ _ _ _, ?_,
        (trim_evicted hc hdistinct excess).1.alike halike⟩
      · rw [htable]
        exact Table.makeRoom_get? hc.sound hget
      · rw [Cache.size, htable]
        exact hle

end Call

namespace System

variable [DecidableEq K] {s : System K V} {c c' : Cache K V} {call : Call K V} {k : K}
  {node : EntryNode K} {capacity n now : Nat} {stage : Stage K V}

/-- A critical section that finds no room, in a state in which any other calls may be about. -/
theorem Reachable.insert_refused (hs : s.Reachable) (ha : s.cache.Alike c)
    (h : (call.insert now c).2.refusal? = some capacity) :
    s.Refused call.request.key capacity (call.insert now c).1 := by
  have hcomplete : c.table.Complete := ha.table ▸ hs.filed.complete
  have hdistinct : Distinct c.table.buckets := ha.table ▸ hs.keyed.distinct
  obtain ⟨hget, habsent, hlimit, hfull, hevicted⟩ := Call.insert_evicted hcomplete hdistinct h
  rw [ha.table] at hget hlimit
  rw [ha.victims, hs.victims_eq] at hevicted
  have hgone := Evicted.of_alike ha hevicted
  refine ⟨hlimit, ⟨hget, habsent⟩, ⟨_, List.take_sublist _ _, hgone⟩, hfull, fun hsmall => ?_⟩
  -- The cache is as large as before, so none of its entries has gone.
  have hsize := hgone.size
  generalize s.unprotected.take _ = ids at hgone hsize
  obtain rfl := List.eq_nil_of_length_eq_zero (l := ids) (by omega)
  exact hgone

theorem Refused.alike (h : s.Refused k capacity c) (ha : c.Alike c') : s.Refused k capacity c' where
  limit := h.limit
  absent := ⟨h.absent.1, by rw [ha.table]; exact h.absent.2⟩
  kept := by
    obtain ⟨ids, hids, hevicted⟩ := h.kept
    exact ⟨ids, hids, hevicted.alike ha⟩
  full := by
    rw [Cache.size, ha.table]
    exact h.full
  unchanged := fun hsmall => (h.unchanged hsmall).alike ha

/-! ## Single callers -/

/-- The call has come to rest, and if it says that there is no room, its key was refused. -/
structure Told (s : System K V) (k : K) (q : Cache K V × Call K V) : Prop where
  rests : q.2.stage.rests = true
  refused : ∀ capacity, q.2.stage = .done (.failed (.capacityExhausted capacity)) →
    s.Refused k capacity q.1

/-- After `n` critical sections at most the call is `Told`; a call that waits gives its wait up for
    that. -/
abbrev Tells (s : System K V) (k : K) (n : Nat) (p : Cache K V × Call K V) : Prop :=
  s.HaltsWith (fun q => s.Told k (q.2.expire q.1)) n p

/-- The call comes to rest with something else to say. -/
theorem tells_other (hrests : stage.rests = true) (hother : stage.refusal? = none) :
    s.Tells k n (c, call.goTo stage) := by
  apply HaltsWith.halts (Call.halted_of_rests hrests)
  rw [Call.expire_awake c (Stage.ne_parked_of_rests hrests)]
  refine ⟨hrests, fun capacity hdone => ?_⟩
  have hstage : stage = .done (.failed (.capacityExhausted capacity)) := hdone
  rw [hstage] at hother
  cases hother

theorem tells_touch (tick : Nat) {outcome : Outcome V}
    (hother : (Stage.done outcome : Stage K V).refusal? = none) :
    s.Tells k (n + 1) (c, call.goTo (.touch node tick outcome)) :=
  .goes rfl (tells_other rfl hother)

/-- A call that waits gives its wait up: nobody else is running. -/
theorem tells_parked {e : Entry K V} (he : c.entries[node.payload]? = some e)
    (hpending : e.value = .pending) :
    s.Tells k n (c, call.goTo (.parked node e.epoch)) := by
  refine .halts rfl ?_
  rw [Call.expire_parked he hpending]
  exact ⟨rfl, nofun⟩

/-- A call that looks at an entry of the table does not insert one. -/
theorem tells_inspect (hs : s.Reachable) (hn : node ∈ s.cache.table.nodes)
    (hentries : c.entries = s.cache.entries) (hstage : call.stage = .inspect node now)
    (hproper : call.Proper) (hsuits : ∀ key, call.request ≠ .invalidate key) :
    s.Tells k 2 (c, call) := by
  obtain ⟨e, he, hpresent⟩ := hs.tenants.present node hn
  rw [← hentries] at he
  refine .goes (by rw [Call.isHalted, hstage]) ?_
  rw [Call.advance_inspect _ _ hstage]
  obtain ⟨e', he', hinspects⟩ :=
    Call.inspect_inspects (s.withLatest (c, call)).held now hproper hsuits he
  show s.Tells k 1 ((Call.inspect (s.withLatest (c, call)).held call node now c).1,
    call.goTo (Call.inspect (s.withLatest (c, call)).held call node now c).2)
  generalize Call.inspect (s.withLatest (c, call)).held call node now c = out at he' hinspects
  obtain ⟨c', stage⟩ := out
  cases hinspects with
  | restarts hremoved =>
    -- Only the entry of a node that has left the table makes a call look its key up again.
    rw [hpresent] at hremoved
    cases hremoved
  | parks hpending => exact tells_parked he' hpending
  | givesUp => exact tells_other rfl rfl
  | takes v tick => exact tells_touch tick rfl
  | takesEmpty tick => exact tells_touch tick rfl
  | misses outcome hpeek hr =>
    refine tells_other rfl ?_
    rcases hr with ⟨key, -, rfl⟩ | rfl <;> rfl
  | refuses => exact .goes rfl (tells_other rfl rfl)
  | loads => exact tells_other rfl rfl
  | updates => exact tells_other rfl rfl
  | puts key content v tick => exact tells_touch tick rfl
  | marks key v tick => exact tells_touch tick rfl

/-- A call that finds its key has no need of room. -/
theorem tells_present (hs : s.Reachable) {r : Request K V}
    (hget : s.cache.table.get? r.key = some node) : s.Tells k 3 (Call.start r s.cache) := by
  obtain ⟨htable, hentries, -⟩ := Call.start_cache r s.cache
  obtain ⟨hn, -⟩ := hs.filed.complete.sound.get?_eq_some_iff.1 hget
  refine .goes (by rw [Call.isHalted, Call.start_stage]) ?_
  rw [Call.start_advance]
  by_cases hr : ∃ key, r = .invalidate key
  · obtain ⟨key, rfl⟩ := hr
    rw [Call.lookup_forgets (htable ▸ hget)]
    exact .goes rfl (tells_other rfl rfl)
  · have hsuits (key : K) : r ≠ .invalidate key := fun heq => hr ⟨key, heq⟩
    rw [Call.lookup_found hsuits (htable ▸ hget)]
    exact tells_inspect hs hn hentries rfl ((Call.start_proper r s.cache).goTo _)
      (by rw [Call.goTo, Call.start_request]; exact hsuits)

/-- A call that is about to insert its key is refused, or it finds room. -/
theorem tells_insertion (hs : s.Reachable) (ha : s.cache.Alike c)
    (hget : s.cache.table.get? call.request.key = none) (hstage : call.stage = .insert now) :
    s.Tells call.request.key 2 (c, call) := by
  have hrefused {capacity : Nat} (h : (call.insert now c).2.refusal? = some capacity) :
      s.Refused call.request.key capacity (call.insert now c).1 := hs.insert_refused ha h
  have hinserts := Call.insert_inserts (lenient_quiet.evictor c.entries) call now c
    (Entries.Quiet.refl c.entries)
  have hadvance (held : Held) : call.advance held c =
      ((call.insert now c).1, call.goTo (call.insert now c).2) := by
    rw [Call.advance, hstage]
  refine .goes (by rw [Call.isHalted, hstage]) ?_
  rw [hadvance]
  generalize call.insert now c = out at hinserts hrefused
  cases hinserts with
  -- The key is absent, so nobody has been faster.
  | found m hsome =>
    rw [ha.table, hget] at hsome
    cases hsome
  | refused m hnone hkeep hhash _ hchain hnext =>
    obtain ⟨limit, rfl | rfl⟩ := hnext
    · -- The reservation of a load is given back first.
      refine .goes rfl (.halts rfl ⟨rfl, fun capacity hdone => ?_⟩)
      cases hdone
      exact (hrefused rfl).alike ⟨rfl, rfl, rfl, rfl⟩
    · refine .halts rfl ⟨rfl, fun capacity hdone => ?_⟩
      cases hdone
      exact hrefused rfl
  -- There was room, and whatever the call comes to is no refusal.
  | made room m hnone hkeep hhash _ _ hchain hnext =>
    subst hnext
    unfold Call.inserted
    split
    · exact tells_other rfl rfl
    · exact tells_other rfl rfl

theorem tells_absent (hs : s.Reachable) {r : Request K V}
    (hget : s.cache.table.get? r.key = none) : s.Tells r.key 4 (Call.start r s.cache) := by
  have halike := Call.start_alike r s.cache
  have hrequest (stage : Stage K V) : ((Call.start r s.cache).2.goTo stage).request = r :=
    Call.start_request r s.cache
  have hinsertion {c : Cache K V} (now : Nat) (ha : s.cache.Alike c) :
      s.Tells r.key 2 (c, (Call.start r s.cache).2.goTo (.insert now)) := by
    let call := (Call.start r s.cache).2.goTo (.insert now)
    have hkey : call.request.key = r.key := congrArg Request.key (hrequest _)
    have htells : s.Tells call.request.key 2 (c, call) :=
      tells_insertion hs ha (by rw [hkey]; exact hget) rfl
    rwa [hkey] at htells
  refine .goes (by rw [Call.isHalted, Call.start_stage]) ?_
  rw [Call.start_advance]
  have hother := Call.lookup_refusal? r (Call.start r s.cache).1
  rcases Call.lookup_absent (halike.table ▸ hget) with ⟨outcome, c', hlookup, -⟩ | hlookup | hlookup
  · rw [hlookup] at hother ⊢
    exact tells_other rfl hother
  · rw [hlookup]
    exact (hinsertion _ halike).mono (by decide)
  · -- A load reserves before it inserts, and it may be turned away.
    rw [hlookup]
    refine .goes rfl ?_
    show s.Tells r.key 2 ((Call.start r s.cache).1.reserveLoad, (Call.start r s.cache).2.goTo
      (if (Call.start r s.cache).1.atLoadLimit then .refuse _ else .insert _))
    split
    · exact .goes rfl (tells_other rfl rfl)
    · exact hinsertion _ ⟨halike.table, halike.entries, halike.counters, halike.chain⟩

/-- A whole call that ends for want of room, while nobody else is running. -/
theorem Reachable.start_refused (hs : s.Reachable) {r : Request K V}
    (h : (s.start r).outcome? s.calls.length = some (.failed (.capacityExhausted capacity))) :
    s.Refused r.key capacity (s.start r).cache := by
  have htells : s.Tells r.key 4 (Call.start r s.cache) := by
    cases hget : s.cache.table.get? r.key with
    | none => exact tells_absent hs hget
    | some node => exact (tells_present hs hget).mono (by decide)
  obtain ⟨q, htold, -, hstart⟩ := htells.start (by decide) fun q hq _ =>
    Call.halted_of_rests hq.rests
  rw [hstart, outcome?, withLatest_getElem?, Option.map_some] at h
  rw [hstart]
  apply htold.refused capacity
  split at h
  · next outcome hdone =>
    obtain rfl := Option.some.inj h
    exact Option.some.inj hdone
  · cases h

end System

/-- A key for which a table has no room stays absent, and so does one for which a cache has none.
    A table that has not more nodes than it may have keeps all of them, and their order if all of
    them are linked. A larger one keeps all that the predicate did not give up, and too many of its
    nodes to leave room. The list is rebuilt at most if nodes were missing from it.

    All nodes of a cache are linked. It keeps all protected entries, in their order, and if it has
    not more entries than it may have, then it keeps all of them. That goes for the critical section
    in which a call is refused, in every state that any number of callers can bring about, and for
    the whole call if nobody else is running. -/
theorem refusal_keeps {P : Type} [DecidableEq K] {t : Table K P} (ht : t.Reachable)
    {s : System K V} (hs : s.Reachable) :
    (∀ key payload lastUse p t' capacity asked,
      t.perform (.getOrInsert key payload lastUse p) = (t', .full capacity asked) →
        Table.Refused p key t t' capacity asked) ∧
    (∀ (call : Call K V) now capacity, (call.insert now s.cache).2.refusal? = some capacity →
      s.Refused call.request.key capacity (call.insert now s.cache).1) ∧
    (∀ r capacity,
      (s.start r).outcome? s.calls.length = some (.failed (.capacityExhausted capacity)) →
        s.Refused r.key capacity (s.start r).cache) := by
  refine ⟨?_, ?_, ?_⟩
  · intro key payload lastUse p t' capacity asked h
    exact ht.orderly.refused h
  · intro call now capacity h
    exact hs.insert_refused ⟨rfl, rfl, rfl, rfl⟩ h
  · intro r capacity h
    exact hs.start_refused h

/-- The capacity of a full table of three nodes is lowered to one, and so is that of a cache with
    three dirty entries, the first of which is written back after that. -/
theorem refusal_keeps_lowered :
    let insert (key : Nat) (p : Table.Predicate (Table.Node Nat Nat)) :
        Table.Operation (Table.Node Nat Nat) Nat Nat :=
      .getOrInsert key (.ok key) (fun _ used => used) p
    let spare : Table.Predicate (Table.Node Nat Nat) := fun _ _ => .keep
    let first : Table.Predicate (Table.Node Nat Nat) := fun _ n =>
      if n.key = 1 then .evict else .keep
    let node (key : Nat) : Table.Node Nat Nat :=
      { hash := key.toUInt64, slot := key + 1, generation := key, key, payload := key }
    let t : Table Nat Nat :=
      ((((Table.empty 0 3 .standard Nat.toUInt64).perform (insert 1 spare)).1.perform
        (insert 2 spare)).1.perform (insert 3 spare)).1.perform (.setMaxCapacity 1) |>.1
    let asked := [node 3, node 2, node 1]
    let s : System Nat Nat := (System.new { maxCapacity := 3 } (.manual 0) fun _ => 0).moveAll
      [.start (.update 1), .reply (.value 5), .start (.update 2), .reply (.value 6),
       .start (.update 3), .reply (.value 7), .upkeep (.setMaxCapacity 1),
       .upkeep (.drain "b" 1 false), .upkeep (.next "b" none), .upkeep (.finish "b" .commit)]
    let call := (Call.start (.put 4 8) s.cache).2
    t.Reachable ∧ s.Reachable ∧
      Table.Refused first 4 t (t.perform (insert 4 first)).1 1 asked ∧
      s.Refused 4 1 (call.insert 0 s.cache).1 ∧ s.Refused 4 1 (s.start (.load 4 0 false)).cache := by
  intro insert spare first node t asked s call
  have ht : t.Reachable :=
    .perform _ (.perform _ (.perform _ (.perform _ (.empty 0 3 .standard _) rfl) rfl) rfl) rfl
  have hs : s.Reachable :=
    (System.reachable_new { maxCapacity := 3 } (.manual 0) fun _ => 0).moveAll _
  -- The table refuses the key, and the cache refuses it to a put and to a load.
  obtain ⟨htable, hinsert, hstart⟩ := refusal_keeps ht hs
  have hfull : (t.perform (insert 4 first)).2 = .full 1 asked := by decide +kernel
  refine ⟨ht, hs, ?_, ?_, ?_⟩
  · exact htable 4 (.ok 4) _ first _ 1 asked (Prod.ext rfl hfull)
  · exact hinsert call 0 1 (by decide +kernel)
  · exact hstart (.load 4 0 false) 1 (by decide +kernel)

/-- A refusal can cost a node its place in a table that is too large, and it can put a node back
    into the list that was not in it. -/
theorem refusal_disturbs :
    let insert (key : Nat) (p : Table.Predicate (Table.Node Nat Nat)) :
        Table.Operation (Table.Node Nat Nat) Nat Nat :=
      .getOrInsert key (.ok key) (fun _ used => used) p
    let spare : Table.Predicate (Table.Node Nat Nat) := fun _ _ => .keep
    let first : Table.Predicate (Table.Node Nat Nat) := fun _ n =>
      if n.key = 1 then .evict else .keep
    let node (key : Nat) : Table.Node Nat Nat :=
      { hash := key.toUInt64, slot := key + 1, generation := key, key, payload := key }
    let single : Table Nat Nat :=
      ((Table.empty 0 1 .standard Nat.toUInt64).perform (insert 1 spare)).1
    let lowered : Table Nat Nat :=
      (((Table.empty 0 2 .standard Nat.toUInt64).perform (insert 1 spare)).1.perform
        (insert 2 spare)).1.perform (.setMaxCapacity 1) |>.1
    let unlinked := (single.perform (.unlink (node 1))).1
    let r := lowered.perform (insert 3 first)
    let q := unlinked.perform (insert 2 spare)
    (lowered.Reachable ∧ r.2 = .full 1 [node 2, node 1] ∧
      lowered.nodes = [node 1, node 2] ∧ r.1.nodes = [node 2]) ∧
    unlinked.Reachable ∧ q.2 = .full 1 [node 1] ∧
      unlinked.byRecency = [] ∧ q.1.byRecency = [node 1] := by
  intro insert spare first node single lowered unlinked r q
  have hlowered : lowered.Reachable :=
    .perform _ (.perform _ (.perform _ (.empty 0 2 .standard _) rfl) rfl) rfl
  have hsingle : single.Reachable := .perform _ (.empty 0 1 .standard _) rfl
  have hmem : node 1 ∈ single.nodes := by decide +kernel
  have hunlinked : unlinked.Reachable := .performOn _ hsingle hsingle hmem rfl
  refine ⟨⟨hlowered, ?_, ?_, ?_⟩, hunlinked, ?_, ?_, ?_⟩ <;> decide +kernel

end ReadThrough
