import ReadThrough.Proofs.Loads.Panics

/-! # Updaters That Fail

  An update remembers what its entry had, and gives it back when its updater fails or panics.

  - **Return.failure?**: what an update comes to whose updater returns no value.
  - **UpdaterRuns**: an update has found its entry and its updater runs.
  - **Undone**: the updater has come to nothing; all that is left of the update is the epoch of its
    entry, and that a value which was let go has been taken back or found gone.
  - **Undone.asFound**: the key is as it was found, whatever it had.
-/

namespace ReadThrough

open Cache Entries

variable {K V : Type}

/-- What an update comes to whose updater fails or panics. -/
def Return.failure? : Return V → Option (Outcome V)
  | .fail reason => some (.failed (.updater reason))
  | .panic reason => some (.panicked reason)
  | _ => none

/-- What an entry is after an update that has come to nothing. -/
def Entry.attempted (held : Held) (e : Entry K V) : Entry K V :=
  { e.resolve held with epoch := e.epoch + 1 }

/-- A value that is taken back is kept alive again. -/
theorem ValueState.kept_resolve (held : Held) (state : ValueState V) :
    (state.resolve held).kept = state.peek held := by
  cases state with
  | detached v => by_cases h : held v.id <;> simp [resolve, kept, peek, h]
  | _ => rfl

/-- Giving back what the entry had before it became pending. -/
theorem Entry.restore_begin (held : Held) (e : Entry K V) :
    e.begin.restore (e.epoch + 1) (e.value.resolve held) = e.attempted held := by
  simp [restore, isPendingAt, begin, ValueState.isPending, attempted, resolve]

namespace System

variable [DecidableEq K] {s : System K V} {k : K} {node : EntryNode K} {e : Entry K V}
  {q : Cache K V × Call K V} {r : Return V} {outcome : Outcome V}

/-! ## The updater runs -/

/-- An update that finds its key looks at the entry. -/
theorem haltsWith_update {P : Cache K V × Call K V → Prop} {n : Nat} (hget : s.nodeAt k = some node)
    (he : s.cache.entries[node.payload]? = some e)
    (h : ∀ call : Call K V, call.request = .update k →
      s.HaltsWith P n ((Call.inspectUpdate s.held call node e s.cache).1,
        call.goTo (Call.inspectUpdate s.held call node e s.cache).2)) :
    s.HaltsWith P (n + 2) (Call.start (.update k) s.cache) := by
  let call := (Call.start (.update k) s.cache).2
  let found := call.goTo (.inspect node s.cache.now)
  have hget' : s.cache.table.get? k = some node := hget
  have hlookup (held : Held) : call.advance held s.cache = (s.cache, found) := by
    simp [call, found, Call.start, Call.advance, Call.lookup, Call.goTo, Request.key, hget']
  have hheld : (s.withLatest (s.cache, found)).held = s.held := withLatest_held rfl
  have hinspect : found.advance s.held s.cache =
      ((Call.inspectUpdate s.held found node e s.cache).1,
        found.goTo (Call.inspectUpdate s.held found node e s.cache).2) := by
    have hstage : found.stage = .inspect node s.cache.now := rfl
    rw [Call.advance_inspect _ _ hstage, Call.inspect, he]
    rfl
  show s.HaltsWith _ (n + 2) (s.cache, call)
  refine .goes rfl ?_
  rw [hlookup]
  refine .goes rfl ?_
  rw [hheld, hinspect]
  exact h found rfl

omit [DecidableEq K] in
/-- An update has made its entry pending and runs its updater. -/
structure UpdaterRuns (node : EntryNode K) (e : Entry K V) (s : System K V)
    (q : Cache K V × Call K V) : Prop where
  stage : q.2.stage = .running node (e.epoch + 1) (e.value.resolve s.held)
  request : ∃ key, q.2.request = .update key
  cache : q.1 = s.cache.modify node.payload Entry.begin

/-- An update of a key that is present and not pending runs its updater at once. -/
theorem start_update_runs (hget : s.nodeAt k = some node)
    (he : s.cache.entries[node.payload]? = some e) (hpresent : e.removed = false)
    (hidle : e.value ≠ .pending) :
    ∃ q, s.UpdaterRuns node e q ∧ s.start (.update k) = s.withLatest q := by
  have hsettled : e.value.isPending = false := by
    rw [Bool.eq_false_iff]
    exact fun hpending => hidle ((ValueState.isPending_iff _).1 hpending)
  refine HaltsWith.start_awake (n := 2) (haltsWith_update hget he fun call hr => ?_) (by decide)
    fun q hq => by simp [hq.stage]
  have hinspect : Call.inspectUpdate s.held call node e s.cache =
      (s.cache.modify node.payload Entry.begin,
        .running node (e.epoch + 1) (e.value.resolve s.held)) := by
    simp [Call.inspectUpdate, hpresent, hsettled]
  rw [hinspect]
  exact .halts rfl ⟨rfl, ⟨k, hr⟩, rfl⟩

/-! ## The updater comes to nothing -/

omit [DecidableEq K] in
/-- An update has come to nothing. -/
structure Undone (node : EntryNode K) (e : Entry K V) (outcome : Outcome V) (s t : System K V) :
    Prop where
  outcome : t.outcome? s.calls.length = some outcome
  /-- The entry has its value or its empty result again, with the same ticks, marks, version and
      place in the chain. -/
  own : t.cache.entries[node.payload]? = some (e.attempted s.held)
  others : ∀ id, id ≠ node.payload → t.cache.entries[id]? = s.cache.entries[id]?
  size : t.cache.entries.size = s.cache.entries.size
  /-- Nothing else of the system has changed but that the failure was reported. -/
  rest : ∃ entries log call,
    t = { s with cache := { s.cache with entries, log }, calls := s.calls ++ [call] }
  /-- The same values are held, but for the one that the outcome holds. -/
  held : t.held = s.held

omit [DecidableEq K] in
/-- An updater that fails or panics ends its update, which gives the entry back. -/
theorem UpdaterRuns.resume (h : s.UpdaterRuns node e q) (hr : r.failure? = some outcome) :
    ∃ log, q.2.resume r q.1 =
      ({ q.1.modify node.payload (Entry.restore (e.epoch + 1) (e.value.resolve s.held)) with log },
        q.2.goTo (.done outcome)) := by
  obtain ⟨key, hrequest⟩ := h.request
  unfold Call.resume
  rw [h.stage, hrequest]
  cases r with
  | fail reason =>
    obtain rfl := Option.some.inj hr
    exact ⟨_, rfl⟩
  | panic reason =>
    obtain rfl := Option.some.inj hr
    exact ⟨_, rfl⟩
  | _ => cases hr

/-- All that is left of the update then is the epoch of the entry. -/
theorem UpdaterRuns.fails (h : s.UpdaterRuns node e q) (he : s.cache.entries[node.payload]? = some e)
    (hr : r.failure? = some outcome) :
    s.Undone node e outcome ((s.withLatest q).reply r s.calls.length) := by
  obtain ⟨log, hresume⟩ := h.resume hr
  let c : Cache K V :=
    { q.1.modify node.payload (Entry.restore (e.epoch + 1) (e.value.resolve s.held)) with log }
  let ended := q.2.goTo (.done outcome)
  -- The entry has its prior value back, and only the epoch is another one.
  have hentries (id : EntryId) : c.entries[id]? =
      if id = node.payload then some (e.attempted s.held) else s.cache.entries[id]? := by
    show (q.1.entries.modify _ _)[id]? = _
    rw [h.cache, modify_entries]
    simp only [Array.getElem?_modify]
    by_cases hid : id = node.payload
    · subst hid
      simp [he, Entry.restore_begin]
    · simp [hid, Ne.symm hid]
  -- The call has ended, so carrying it on adds nothing.
  have hreply : (s.withLatest q).reply r s.calls.length = s.withLatest (c, ended) := by
    have hact : (s.withLatest q).resume r s.calls.length = s.withLatest (c, ended) :=
      (withLatest_act (a := .resume r s.calls.length) rfl).trans (congrArg s.withLatest hresume)
    have hhalts : s.HaltsWith (· = (c, ended)) 0 (c, ended) := .halts rfl rfl
    obtain ⟨q', rfl, hcarry⟩ := hhalts.carryOn_awake (by decide) fun q hq => by
      rw [hq]
      exact nofun
    rw [reply, hact, hcarry]
  -- A failure makes no value that anybody could hold.
  have hheld : (s.withLatest (c, ended)).held = s.held := by
    refine withLatest_held ?_
    cases r with
    | fail reason =>
      obtain rfl := Option.some.inj hr
      rfl
    | panic reason =>
      obtain rfl := Option.some.inj hr
      rfl
    | _ => cases hr
  rw [hreply]
  refine ⟨?_, (hentries _).trans (if_pos rfl), fun id hid => (hentries id).trans (if_neg hid), ?_,
    ?_, hheld⟩
  · simp [outcome?, ended, Call.goTo]
  · show c.entries.size = _
    simp [c, h.cache]
  · have hcache : c = { s.cache with entries := c.entries, log } := by
      simp only [c, h.cache]
      rfl
    exact ⟨_, log, ended, congrArg (fun c => s.withLatest (c, ended)) hcache⟩

namespace Undone

variable {t : System K V} (h : s.Undone node e outcome t)

include h

omit [DecidableEq K] in
theorem table : t.cache.table = s.cache.table := by
  obtain ⟨entries, log, call, rfl⟩ := h.rest
  rfl

theorem nodeAt (key : K) : t.nodeAt key = s.nodeAt key :=
  congrArg (Table.get? · key) h.table

omit [DecidableEq K] in
theorem value (id : EntryId) :
    t.cache.valueOf id =
      if id = node.payload then e.value.resolve s.held else s.cache.valueOf id := by
  split
  · next hid => rw [hid, valueOf_eq h.own]; rfl
  · next hid => rw [Cache.valueOf, h.others id hid, ← Cache.valueOf]

/-- Every key gives what it gave before. -/
theorem valueAt (he : s.cache.entries[node.payload]? = some e) (key : K) :
    t.valueAt key = s.valueAt key := by
  have hpeek (id : EntryId) : t.cache.peek t.held id = s.cache.peek s.held id := by
    rw [Cache.peek, Cache.peek, h.value, h.held]
    split
    · next hid => rw [ValueState.peek_resolve, hid, valueOf_eq he]
    · rfl
  rw [System.valueAt, System.valueAt, h.nodeAt]
  simp only [hpeek]

omit [DecidableEq K] in
theorem linked (hs : s.Sound) (he : s.cache.entries[node.payload]? = some e) :
    t.linked = s.linked := by
  have hchain : t.cache.chain = s.cache.chain := by
    obtain ⟨entries, log, call, rfl⟩ := h.rest
    rfl
  refine hs.linked_congr hchain h.size fun id => ?_
  by_cases hid : id = node.payload
  · rw [hid, DirtyChain.next?_eq he, DirtyChain.next?_eq h.own]
    rfl
  · rw [DirtyChain.next?, DirtyChain.next?, h.others id hid]

/-- The key of the update is as it was found, whatever it had. -/
theorem asFound (hget : s.nodeAt k = some node) (he : s.cache.entries[node.payload]? = some e) :
    s.AsFound k t where
  get := fun v? hv => by
    rw [getReturns_iff] at hv ⊢
    rw [h.valueAt he, hv]
  contains := by rw [contains_eq, contains_eq, h.valueAt he]
  empty := fun m hm hempty => by
    obtain rfl : m = node := Option.some.inj (hm.symm.trans hget)
    refine ⟨(h.nodeAt k).trans hget, ?_⟩
    rw [valueOf_eq he] at hempty
    rw [h.value, if_pos rfl, hempty]
    rfl

end Undone

end System

/-- An update of a key that is present and not pending runs its updater on the value that the key
    has. If that fails or panics at once, nothing is left of the update but the epoch of the entry: it
    has what it had, its ticks, its version and its places in the order of uses, in the chain and in
    batches, and everything else is as it was. -/
theorem failed_update_undone [DecidableEq K] {s : System K V} (hs : s.Reachable) {k : K}
    {node : EntryNode K} (hget : s.nodeAt k = some node) (hidle : ¬ s.Pending k) {r : Return V}
    {outcome : Outcome V} (hr : r.failure? = some outcome) :
    let updating := s.start (.update k)
    let t := updating.reply r s.calls.length
    ∃ e call, s.cache.entries[node.payload]? = some e ∧
      updating.calls[s.calls.length]? = some call ∧ call.isRunning = true ∧
      call.current? = s.valueAt k ∧ s.Undone node e outcome t ∧ t.linked = s.linked ∧
      t.cache.order = s.cache.order ∧ t.cache.stats = s.cache.stats ∧ s.AsFound k t := by
  intro updating t
  obtain ⟨hnode, -⟩ := hs.keyed.table.get?_eq_some_iff.1 hget
  obtain ⟨e, he, hpresent⟩ := hs.tenants.present node hnode
  have hsettled : e.value ≠ .pending := fun hpending =>
    hidle ⟨node, hget, by rw [valueOf_eq he, hpending]; rfl⟩
  obtain ⟨q, hq, hstart⟩ := System.start_update_runs hget he hpresent hsettled
  -- The updater runs at once, since nobody else has a callback on the entry.
  have hundone : s.Undone node e outcome t := by
    show s.Undone node e outcome ((s.start (.update k)).reply r s.calls.length)
    rw [hstart]
    exact hq.fails he hr
  refine ⟨e, q.2, he, ?_, ?_, ?_, hundone, hundone.linked hs.sound he, ?_, ?_,
    hundone.asFound hget he⟩
  · rw [show updating = _ from hstart, System.withLatest_getElem?]
  · rw [Call.isRunning, hq.stage]
  · rw [Call.current?, hq.stage, System.valueAt, hget, Option.bind_some, Cache.peek, valueOf_eq he]
    exact e.value.kept_resolve s.held
  · exact congrArg (fun t : Table K EntryId => t.byRecency.map Table.Node.payload) hundone.table
  · obtain ⟨entries, log, call, h⟩ := hundone.rest
    rw [h]
    rfl

/-- The updater of a changed entry that is in an open batch panics, and that of an entry with an
    empty result fails. -/
theorem failed_update_undone_drained :
    let s₀ : System Nat Nat := System.new {} (.manual 0) fun _ => 0
    let s := s₀.moveAll [.start (.update 2), .reply (.value 5), .collect none,
      .upkeep (.drain "b" 1 false), .start (.load 1 0 true), .reply .empty, .collect none]
    let t := (s.start (.update 2)).reply (.panic "no") s.calls.length
    let u := (s.start (.update 1)).reply (.fail "no") s.calls.length
    s.dispatched = [0] ∧ s.cache.valueOf 0 = .dirty ⟨0, 5⟩ ∧ s.cache.valueOf 1 = .missing ∧
      s.AsFound 2 t ∧ s.AsFound 1 u := by
  intro s₀ s t u
  have hs := (System.reachable_new {} (.manual 0) fun _ => 0 : s₀.Reachable).moveAll
    [.start (.update 2), .reply (.value 5), .collect none, .upkeep (.drain "b" 1 false),
     .start (.load 1 0 true), .reply .empty, .collect none]
  have hdrained : s.nodeAt 2 =
      some { hash := 0, slot := 2, generation := 1, key := 2, payload := 0 } := by decide +kernel
  have hempty : s.nodeAt 1 =
      some { hash := 0, slot := 3, generation := 2, key := 1, payload := 1 } := by decide +kernel
  obtain ⟨-, -, -, -, -, -, -, -, -, -, hfirst⟩ :=
    failed_update_undone hs hdrained (by decide +kernel) (r := .panic "no") rfl
  obtain ⟨-, -, -, -, -, -, -, -, -, -, hsecond⟩ :=
    failed_update_undone hs hempty (by decide +kernel) (r := .fail "no") rfl
  exact ⟨by decide +kernel, by decide +kernel, by decide +kernel, hfirst, hsecond⟩

end ReadThrough
