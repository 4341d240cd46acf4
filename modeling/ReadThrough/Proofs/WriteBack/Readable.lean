import ReadThrough.Proofs.WriteBack.Reads
import ReadThrough.Proofs.WriteBack.Survival

/-! # What Is Not Written Back Stays Readable

  Whoever asks for a key whose value is not written back finds this value, without a loader. Only
  an update that is running hides it.

  - **Changes**: an update returns a value, or a mark finds one.
  - **Offers**: what whoever asks for the key finds.
  - **changes_readable**: from a change on the value is offered, until the key is updated once more
    or forgotten, or a batch that is closed marks its entry clean.
-/

namespace ReadThrough

open Cache Entries

variable {K V : Type}

/-! ## Values that change -/

namespace Call

variable {held : Held} {call : Call K V} {node : EntryNode K} {e e' : Entry K V}
  {stage : Stage K V} {v : Value V} {key : K}

/-- An update that comes to a value makes its entry a dirty member, with a version of its own. -/
theorem Settles.enlisted {r : Return V} {epoch : Nat} {prior : ValueState V}
    (h : call.Settles r node epoch prior e e' stage) (hrequest : call.request = .update key)
    (hreturns : stage.outcome? = some (.value (some v))) :
    e'.value = .dirty v ∧ e'.inChain = true ∧ e.version < e'.version := by
  cases h with
  | updated content w now next? hresult hr =>
    cases hreturns
    exact ⟨rfl, rfl, Nat.lt_succ_self _⟩
  | restored outcome stage hstage hvalue hload =>
    have houtcome : stage.outcome? = some outcome := by
      rcases hstage with rfl | ⟨now, rfl⟩ <;> rfl
    rw [houtcome] at hreturns
    rw [Option.some.inj hreturns] at hvalue
    cases hvalue
  | loaded w now hr => simp [hrequest, Request.isLoad] at hr
  | empty now hr => simp [hrequest, Request.isLoad] at hr
  | failed now error hr => simp [hrequest, Request.isLoad] at hr

theorem inspect_mark {c : Cache K V} {now : Nat} (he : c.entries[node.payload]? = some e)
    (hpeek : e.value.peek held = some v) (hrequest : call.request = .mark key) :
    (inspect held call node now c).2 = .touch node c.now (.marked true) := by
  simp only [inspect, he, hrequest, inspectMark, hpeek]
  rfl

/-- A mark that comes to a value leaves it in the entry. -/
theorem Inspects.marked (h : call.Inspects held node e e' stage)
    (hpeek : e.value.peek held = some v) (hreturns : stage.outcome? = some (.marked true)) :
    e'.value = .dirty v := by
  cases h with
  | marks key w now next? hr hw =>
    rw [hpeek] at hw
    obtain rfl := Option.some.inj hw
    rfl
  | misses outcome hnone hr =>
    rw [hpeek] at hnone
    cases hnone
  | _ => cases hreturns

end Call

/-! ## Changes -/

namespace System

variable [DecidableEq K] {s s' : System K V} {node : EntryNode K} {e : Entry K V} {v : Value V}
  {k : K} {i : Nat} {call : Call K V}

/-- A call makes a change of the key: it leaves `v` in the entry that the key leads to, as a value
    that is not written back. The entry that a call has looked up may have left the table since;
    then it is not the key that is changed. -/
inductive Changes (k : K) (v : Value V) (s : System K V) : System K V → Prop where
  /-- An update returns the value, and its entry is in the table. -/
  | update {node : EntryNode K} {i : Nat} (content : V)
      (hget : s.cache.table.get? k = some node)
      (hends : s.calls[i]?.bind Call.updates? = some node.payload)
      (hreturns : (s.act (.resume (.value content) i)).calls[i]?.bind (·.stage.outcome?) =
        some (.value (some v))) : Changes k v s (s.act (.resume (.value content) i))
  /-- A mark has found the value, and its entry is in the table. -/
  | mark {node : EntryNode K} {i : Nat} (hget : s.cache.table.get? k = some node)
      (hlooks : s.calls[i]?.bind Call.marks? = some node.payload)
      (hpeek : s.cache.peek s.held node.payload = some v)
      (hreturns : (s.act (.advance i)).calls[i]?.bind (·.stage.outcome?) = some (.marked true)) :
      Changes k v s (s.act (.advance i))
  /-- A mark that nobody interferes with finds the value. -/
  | markAtOnce {node : EntryNode K} (hget : s.cache.table.get? k = some node)
      (hpeek : s.cache.peek s.held node.payload = some v) : Changes k v s (s.start (.mark k))

/-- An update that returns a value leaves it in the entry. -/
theorem unwritten_of_update {content : V} (hs : s.Reachable)
    (hget : s.cache.table.get? k = some node)
    (hends : s.calls[i]?.bind Call.updates? = some node.payload)
    (hreturns : (s.act (.resume (.value content) i)).calls[i]?.bind (·.stage.outcome?) =
      some (.value (some v))) : (s.act (.resume (.value content) i)).Unwritten node v := by
  obtain ⟨hpresent, -⟩ := hs.keyed.table.get?_eq_some_iff.1 hget
  obtain ⟨e, he, -⟩ := hs.tenants.present node hpresent
  obtain ⟨call, hi, hcall⟩ := Option.bind_eq_some_iff.1 hends
  unfold Call.updates? at hcall
  split at hcall
  · next key m epoch prior hrequest hstage =>
    have hid := Option.some.inj hcall
    rw [← hid] at he
    obtain ⟨e', he', hsettles⟩ := Call.resume_settles (.value content) hstage he
    rw [act_getElem? rfl hi] at hreturns
    refine ⟨?_, .inl ⟨e', ?_, (hsettles.enlisted hrequest hreturns).1⟩⟩
    · rw [act_cache rfl hi]
      exact (Call.resume_table _ _ _).symm ▸ hpresent
    · rw [← hid]
      show (s.act (.resume (.value content) i)).cache.entries[m.payload]? = some e'
      rw [act_cache rfl hi]
      exact he'
  · cases hcall

/-- A mark that finds a value leaves it in the entry. -/
theorem unwritten_of_mark (hs : s.Reachable) (hget : s.cache.table.get? k = some node)
    (hlooks : s.calls[i]?.bind Call.marks? = some node.payload)
    (hpeek : s.cache.peek s.held node.payload = some v)
    (hreturns : (s.act (.advance i)).calls[i]?.bind (·.stage.outcome?) = some (.marked true)) :
    (s.act (.advance i)).Unwritten node v := by
  obtain ⟨hpresent, -⟩ := hs.keyed.table.get?_eq_some_iff.1 hget
  obtain ⟨e, he, -⟩ := hs.tenants.present node hpresent
  obtain ⟨call, hi, hcall⟩ := Option.bind_eq_some_iff.1 hlooks
  have hmem := List.mem_of_getElem? hi
  rw [Cache.peek, valueOf_eq he] at hpeek
  unfold Call.marks? at hcall
  split at hcall
  · next key m now hrequest hstage =>
    have hid := Option.some.inj hcall
    rw [← hid] at he
    have hsuits := hs.orderly call hmem
    rw [hstage] at hsuits
    -- The call looks at the entry that it is about to mark.
    obtain ⟨e', he', hinspects⟩ :=
      Call.inspect_inspects s.held now (hs.sound.proper call hmem) hsuits he
    have hadvance := Call.advance_inspect s.held s.cache hstage
    rw [act_getElem? rfl hi, Action.onCall, hadvance] at hreturns
    have hcache : (s.act (.advance i)).cache = (call.inspect s.held m now s.cache).1 := by
      rw [act_cache rfl hi, Action.onCall, hadvance]
    refine ⟨?_, .inl ⟨e', ?_, hinspects.marked hpeek hreturns⟩⟩
    · rw [hcache, Call.inspect_table]
      exact hpresent
    · rw [← hid]
      show (s.act (.advance i)).cache.entries[m.payload]? = some e'
      rw [hcache]
      exact he'
  · cases hcall

/-! ## A mark that nobody interferes with -/

/-- A mark of the key has started, and it has found the node. -/
def marking (k : K) (node : EntryNode K) (s : System K V) : System K V :=
  { s with calls := s.calls ++ [(Call.start (.mark k) s.cache).2.goTo (.inspect node s.cache.now)] }

omit [DecidableEq K] in
theorem marking_getElem? (k : K) (node : EntryNode K) (s : System K V) :
    (s.marking k node).calls[s.calls.length]? =
      some ((Call.start (.mark k) s.cache).2.goTo (.inspect node s.cache.now)) :=
  List.getElem?_concat_length

omit [DecidableEq K] in
theorem marking_held : (s.marking k node).held = s.held :=
  withLatest_held (p := (s.cache, (Call.start (.mark k) s.cache).2.goTo
    (.inspect node s.cache.now))) rfl

theorem spawn_mark (hget : s.cache.table.get? k = some node) :
    (s.act (.spawn (.mark k))).act (.advance s.calls.length) = s.marking k node := by
  have hlookup : (Call.start (.mark k) s.cache).2.advance s.held s.cache =
      (s.cache, (Call.start (.mark k) s.cache).2.goTo (.inspect node s.cache.now)) := by
    simp [Call.start, Call.advance, Call.lookup, Call.goTo, Request.key, hget]
  rw [act_spawn, withLatest_act rfl, withLatest_held rfl]
  exact congrArg (fun p => s.withLatest p) hlookup

theorem marking_touches (he : s.cache.entries[node.payload]? = some e)
    (hpeek : e.value.peek s.held = some v) :
    ((s.marking k node).act (.advance s.calls.length)).calls[s.calls.length]? =
      some ((Call.start (.mark k) s.cache).2.goTo
        (.touch node s.cache.now (.marked true))) := by
  have hinspect : (Call.inspect s.held
      ((Call.start (.mark k) s.cache).2.goTo (.inspect node s.cache.now)) node s.cache.now
      s.cache).2 = .touch node s.cache.now (.marked true) := Call.inspect_mark he hpeek rfl
  rw [act_getElem? rfl (marking_getElem? k node s), Action.onCall, Call.advance_inspect _ _ rfl,
    marking_held]
  exact congrArg (fun stage => some (Call.goTo _ stage)) hinspect

/-- A mark that finds its key looks at the entry and records the use. -/
theorem start_mark (hget : s.cache.table.get? k = some node)
    (he : s.cache.entries[node.payload]? = some e) (hpeek : e.value.peek s.held = some v) :
    s.start (.mark k) =
      ((s.marking k node).act (.advance s.calls.length)).act (.advance s.calls.length) := by
  have hfound := marking_getElem? k node s
  have htouches := marking_touches (k := k) he hpeek
  have hdone := act_getElem? (a := .advance s.calls.length) rfl htouches
  have hrun : (s.act (.spawn (.mark k))).runCall s.calls.length stepLimit =
      ((s.marking k node).act (.advance s.calls.length)).act (.advance s.calls.length) := by
    rw [show stepLimit = 29 + 1 + 1 + 1 from rfl, runCall_succ (spawn_getElem? _ s) rfl,
      spawn_mark hget, runCall_succ hfound rfl, runCall_succ htouches rfl,
      runCall_halted hdone rfl]
  rw [← hrun] at hdone ⊢
  exact carryOn_done hdone rfl

/-- A mark that nobody interferes with leaves the value that it finds in the entry. -/
theorem unwritten_of_markAtOnce (hs : s.Reachable) (hget : s.cache.table.get? k = some node)
    (hpeek : s.cache.peek s.held node.payload = some v) :
    (s.start (.mark k)).Reachable ∧ (s.start (.mark k)).Unwritten node v := by
  obtain ⟨hpresent, -⟩ := hs.keyed.table.get?_eq_some_iff.1 hget
  obtain ⟨e, he, -⟩ := hs.tenants.present node hpresent
  have hvalue : e.value.peek s.held = some v := by
    rw [← valueOf_eq he]
    exact hpeek
  have hfound := marking_getElem? k node s
  have htouches := marking_touches (k := k) he hvalue
  have hmarking : (s.marking k node).Reachable := by
    rw [← spawn_mark hget]
    exact hs.actAll [.spawn (.mark k), .advance s.calls.length]
  -- The second step writes the mark; the third one only ends the call.
  have hmarked : ((s.marking k node).act (.advance s.calls.length)).Unwritten node v := by
    refine unwritten_of_mark hmarking hget ?_ ?_ ?_
    · rw [hfound]
      rfl
    · rw [marking_held]
      exact hpeek
    · rw [htouches]
      rfl
  have hreachable := hmarking.actAll [.advance s.calls.length]
  rw [start_mark hget he hvalue]
  refine ⟨hreachable.actAll [.advance s.calls.length], ?_⟩
  refine hmarked.act hreachable (spares_advance fun call hi => ?_)
  rw [htouches] at hi
  obtain rfl := Option.some.inj hi
  exact nofun

theorem Changes.unwritten (h : s.Changes k v s') (hs : s.Reachable) :
    s'.Reachable ∧ ∃ node, node.key = k ∧ s'.Unwritten node v := by
  have hkey {node : EntryNode K} (hget : s.cache.table.get? k = some node) : node.key = k :=
    (hs.keyed.table.get?_eq_some_iff.1 hget).2
  cases h with
  | @update _ i content hget hends hreturns =>
    refine ⟨hs.actAll [.resume (.value content) i], _, hkey hget, ?_⟩
    exact unwritten_of_update hs hget hends hreturns
  | @mark _ i hget hlooks hpeek hreturns =>
    refine ⟨hs.actAll [.advance i], _, hkey hget, ?_⟩
    exact unwritten_of_mark hs hget hlooks hpeek hreturns
  | markAtOnce hget hpeek =>
    obtain ⟨hreachable, hunwritten⟩ := unwritten_of_markAtOnce hs hget hpeek
    exact ⟨hreachable, _, hkey hget, hunwritten⟩

/-! ## What is offered -/

/-- Whoever asks for the key finds the value: a test says that there is one; a read that nobody
    interferes with returns it and reports nothing, so that no loader starts; and a read that others
    interfere with comes nearer to it when it goes on now. -/
structure Offers (k : K) (v : Value V) (s : System K V) : Prop where
  contains : s.cache.contains s.held k = true
  finds : ∀ r : Request K V, r.reads = true → r.key = k →
    (s.start r).outcome? s.calls.length = some (.value (some v)) ∧
      (s.start r).cache.log = s.cache.log
  brings : ∀ node ∈ s.cache.table.get? k, ∀ i call n, s.calls[i]? = some call →
    call.request.reads = true → call.request.key = k → call.stage.Short node v (n + 1) →
    ∃ call', (s.act (.advance i)).calls[i]? = some call' ∧ call'.request = call.request ∧
      call'.stage.Short node v n ∧ (s.act (.advance i)).cache.log = s.cache.log

/-- While no callback is running for the key, a value that is not written back is offered. -/
theorem Unwritten.offers (h : s.Unwritten node v) (hs : s.Reachable) (hrest : s.AtRest node.key) :
    s.Offers node.key v where
  contains := by
    obtain ⟨e, he, hv, -⟩ := h.visible hs hrest
    have hget : s.cache.table.get? node.key = some node :=
      hs.keyed.table.get?_eq_some_iff.2 ⟨h.present, rfl⟩
    simp [Cache.contains, hget, Cache.peek, valueOf_eq he, hv, ValueState.peek]
  finds := fun r hreads hkey => h.finds hs hrest hreads hkey
  brings := by
    intro m hm i call n hi hreads hkey hshort
    obtain ⟨hpresent, hsame⟩ := hs.keyed.table.get?_eq_some_iff.1 hm
    obtain rfl := hs.keyed.table.node_unique hpresent h.present hsame
    exact h.brings hs hrest hi hreads hkey hshort

end System

/-- From an update or a mark on, the value of a key is found by whoever asks for it, without a
    loader, at every point at which no callback is running for the key, until the key is updated
    once more or forgotten, or a batch that is closed marks its entry clean: whatever is evicted,
    trimmed, put or updated in vain, however the clock moves, and whatever becomes of batches. -/
theorem changes_readable [DecidableEq K] {s s' : System K V} (hs : s.Reachable) {k : K}
    {v : Value V} (hchanges : s.Changes k v s') {as : List (Action K V)}
    (has : s'.Throughout (System.Spares k) as) (hrest : (s'.actAll as).AtRest k) :
    (s'.actAll as).Offers k v := by
  obtain ⟨hs', node, rfl, hunwritten⟩ := hchanges.unwritten hs
  have hlast : (s'.actAll as).Unwritten node v := hunwritten.actAll hs' has
  exact hlast.offers (hs'.actAll as) hrest

/-- A value that is drained in copy-on mode, looked at by every kind of eviction, put again, and
    updated in vain while its batch is committed. -/
theorem changes_readable_drained :
    let s : System Nat Nat := (System.new {} (.manual 0) fun _ => 0).actAll
      [.spawn (.update 1), .advance 0, .advance 0]
    let s' := s.act (.resume (.value 5) 0)
    let as : List (Action Nat Nat) :=
      [.advance 0, .collect 0 none, .upkeep (.drain "b" 10 true), .upkeep (.trim 9),
       .upkeep (.setMaxCapacity 0), .upkeep (.idleTrim 1000), .upkeep (.evictIdle 1),
       .upkeep (.relieve .critical), .upkeep (.advanceClock 1000), .spawn (.put 1 7), .advance 0,
       .advance 0, .advance 0, .spawn (.update 1), .advance 1, .advance 1,
       .upkeep (.finish "b" .commit), .resume (.fail "no") 1]
    s.Changes 1 ⟨0, 5⟩ s' ∧ (s'.actAll as).Offers 1 ⟨0, 5⟩ := by
  intro s s' as
  obtain ⟨node, hget⟩ : ∃ node, s.cache.table.get? 1 = some node :=
    Option.isSome_iff_exists.1 (by decide +kernel)
  have hentry : (s.cache.table.get? 1).map Table.Node.payload = some 0 := by decide +kernel
  have hid : node.payload = 0 := by
    rw [hget] at hentry
    exact Option.some.inj hentry
  have hchanges : s.Changes 1 ⟨0, 5⟩ s' :=
    .update 5 hget (by rw [hid]; decide +kernel) (by decide +kernel)
  exact ⟨hchanges, changes_readable ⟨_, _, _, _, rfl⟩ hchanges (by decide +kernel)
    (by decide +kernel)⟩

end ReadThrough
