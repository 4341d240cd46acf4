import ReadThrough.Proofs.Recency.Uses
import ReadThrough.Proofs.Runs.Owners
import ReadThrough.Proofs.WriteBack.Exactness

/-! # Rejected Calls

  A call that is rejected, since its key stays pending for too long or since too many loads are in
  flight, has done nothing, and leaves nothing behind but that it is counted.

  - **CacheError.tally**: the counter that belongs to a rejection.
  - **Balks**: what a look at an entry makes of a call that waits or is rejected.
  - **Balked**: the call is rejected and the cache is as it was; **HaltsWith** carries it along the
    critical sections.
  - **Rejected**: the whole system is as it was.
  - **not_running_of_outcome**: a call that comes to an outcome by itself has run no callback.
-/

namespace ReadThrough

open Cache Entries

variable {K V : Type}

/-- The counter that belongs to a rejection goes up by one. -/
def CacheError.tally : CacheError → Counters → Counters
  | .loadTimeout _, k => { k with loadTimeouts := k.loadTimeouts + 1 }
  | .overload _, k => { k with overloads := k.overloads + 1 }
  | _, k => k

/-- The error of a call that was rejected, or that is about to be told so. -/
def Stage.rejection? : Stage K V → Option CacheError
  | .done (.failed error) => if error.isTransient then some error else none
  | _ => none

/-! ## Looking at an entry -/

namespace Call

/-- The call has looked at an entry at most: a load takes a value back that was let go, or finds that
    it is gone. -/
def Looks (held : Held) (call : Call K V) (id : EntryId) (c c' : Cache K V) : Prop :=
  c' = c ∨ (call.request.isLoad = true ∧ c' = c.modify id (Entry.resolve held))

/-- What a look at an entry makes of a call that waits or is rejected. -/
inductive Balks (held : Held) (call : Call K V) (node : EntryNode K) (c : Cache K V) :
    Cache K V × Stage K V → Prop where
  /-- It waits for what is in flight. -/
  | parks (c' : Cache K V) (e : Entry K V) (he : c'.entries[node.payload]? = some e)
      (hpending : e.value = .pending) (h : Looks held call node.payload c c') :
      Balks held call node c (c', .parked node e.epoch)
  /-- It has no time to wait. -/
  | givesUp (c' : Cache K V) (hnow : call.timeout = 0) (h : Looks held call node.payload c c') :
      Balks held call node c (giveUp 0 c')
  /-- It has reserved one load too many. -/
  | refuses (c' : Cache K V) (hload : call.request.isLoad = true)
      (h : Looks held call node.payload c c') :
      Balks held call node c (c'.reserveLoad, .refuse c'.loadLimit)
  /-- It comes to rest with something else to say. -/
  | rests (c' : Cache K V) (stage : Stage K V) (h : stage.rests = true)
      (hnot : stage.rejection? = none) : Balks held call node c (c', stage)
  /-- It is to record a use and comes to rest then. -/
  | touches (c' : Cache K V) (tick : Nat) (outcome : Outcome V)
      (hnot : (Stage.done outcome : Stage K V).rejection? = none) :
      Balks held call node c (c', .touch node tick outcome)

variable {held : Held} {call : Call K V} {node : EntryNode K} {e : Entry K V} {c : Cache K V}

/-- A call that finds its entry pending waits, or it gives up at once. -/
theorem park_balks {c' : Cache K V} (he : c'.entries[node.payload]? = some e)
    (hpending : e.value = .pending) (h : Looks held call node.payload c c') :
    Balks held call node c (park call node e c') := by
  unfold park
  split
  · next hnow => exact .givesUp c' hnow h
  · exact .parks c' e he hpending h

theorem inspectLoad_balks {key : K} {expire : Nat} {acceptEmpty : Bool} {now : Nat}
    (hr : call.request = .load key expire acceptEmpty)
    (he : c.entries[node.payload]? = some e) (hpresent : e.removed = false) :
    Balks held call node c (inspectLoad held call expire acceptEmpty node now e c) := by
  have hload : call.request.isLoad = true := by rw [hr, Request.isLoad]
  have hlooks : Looks held call node.payload c (c.modify node.payload (Entry.resolve held)) :=
    .inr ⟨hload, rfl⟩
  unfold inspectLoad
  rw [if_neg (by simp [hpresent])]
  cases hfind : e.find held c.nullPolicy expire acceptEmpty now with
  | hit v? => exact .touches _ now (.value v?) rfl
  | pending =>
    have hpending := find_pending hfind
    refine park_balks ?_ hpending hlooks
    rw [modify_entries, Array.getElem?_modify, if_pos rfl, he, Option.map_some,
      resolve_of_pending held hpending]
  | load =>
    dsimp only
    split
    · exact .refuses _ hload hlooks
    · exact .rests _ _ rfl rfl

/-- A look at the entry of a node in the table. -/
theorem inspect_balks (held : Held) (call : Call K V) (now : Nat)
    (he : c.entries[node.payload]? = some e) (hpresent : e.removed = false) :
    Balks held call node c (inspect held call node now c) := by
  have hsame : Looks held call node.payload c c := .inl rfl
  unfold inspect
  rw [he]
  cases hr : call.request with
  | get key =>
    simp only [inspectGet]
    split
    · exact .touches _ _ _ rfl
    · exact .rests _ _ rfl rfl
  | load key expire acceptEmpty => exact inspectLoad_balks hr he hpresent
  | update key =>
    simp only [inspectUpdate, hpresent, Bool.false_eq_true, if_false]
    split
    · next hpending => exact park_balks he ((ValueState.isPending_iff _).1 hpending) hsame
    · exact .rests _ _ rfl rfl
  | put key content =>
    simp only [inspectPut, hpresent, Bool.false_eq_true, if_false]
    split
    · next hpending => exact park_balks he ((ValueState.isPending_iff _).1 hpending) hsame
    · split <;> exact .touches _ _ _ rfl
  | mark key =>
    simp only [inspectMark]
    split
    · exact .rests _ _ rfl rfl
    · exact .touches _ _ _ rfl
  | invalidate key => exact .rests _ _ rfl rfl

theorem lookup_rejection? [DecidableEq K] (r : Request K V) (c : Cache K V) :
    (lookup r c).2.rejection? = none := by
  unfold lookup
  repeat' split
  all_goals rfl

end Call

/-! ## Single callers -/

namespace System

variable [DecidableEq K] {s : System K V} {c : Cache K V} {call : Call K V} {k : K}
  {node : EntryNode K} {error : CacheError} {n now : Nat} {stage : Stage K V}

/-- A call on the key was rejected in the system `s`, the cache of which is `c` now. -/
structure Balked (s : System K V) (k : K) (error : CacheError) (c : Cache K V) : Prop where
  /-- The call says by which setting it was rejected. -/
  setting : error = .loadTimeout s.cache.pendingTimeout ∨ error = .overload s.cache.loadLimit
  /-- The entries are as before, but that a value of the key which was let go may have been taken back
      or found gone. -/
  entries : c.entries = s.cache.entries ∨ ∃ node, s.nodeAt k = some node ∧
    c.entries = s.cache.entries.modify node.payload (Entry.resolve s.held)
  /-- The rejection was counted and reported, and a put has brought its value along. -/
  rest : ∃ entries nextValue log, c =
    { s.cache with entries, nextValue, log, counters := error.tally s.cache.counters }

/-- The call has come to rest, and if it was rejected, the cache is as it was. -/
structure Replied (s : System K V) (k : K) (q : Cache K V × Call K V) : Prop where
  rests : q.2.stage.rests = true
  balked : ∀ error, q.2.stage.rejection? = some error → s.Balked k error q.1

/-- After `n` critical sections at most the call has `Replied`; a call that waits gives its wait up
    for that. -/
abbrev Replies (s : System K V) (k : K) (n : Nat) (p : Cache K V × Call K V) : Prop :=
  s.HaltsWith (fun q => s.Replied k (q.2.expire q.1)) n p

/-- The call comes to rest with something else to say. -/
theorem replies_other (hrests : stage.rests = true) (hnot : stage.rejection? = none) :
    s.Replies k n (c, call.goTo stage) := by
  apply HaltsWith.halts (Call.halted_of_rests hrests)
  rw [Call.expire_awake c (Stage.ne_parked_of_rests hrests)]
  refine ⟨hrests, fun error hrejected => ?_⟩
  have hstage : stage.rejection? = some error := hrejected
  rw [hstage] at hnot
  cases hnot

/-- What a call knows of the cache before it is rejected: the cache is as the call has found it. -/
structure Before (s : System K V) (r : Request K V) (c : Cache K V) (call : Call K V) : Prop where
  cache : ∃ nextValue, c = { s.cache with nextValue }
  request : call.request = r
  timeout : call.timeout = s.cache.pendingTimeout

omit [DecidableEq K] in
theorem before_start (r : Request K V) (s : System K V) :
    s.Before r (Call.start r s.cache).1 (Call.start r s.cache).2 := by
  cases r <;> exact ⟨⟨_, rfl⟩, rfl, rfl⟩

/-- The cache is as the call has found it, but that the call has looked at the entry of its key. -/
def Looked (s : System K V) (k : K) (c : Cache K V) : Prop :=
  ∃ entries nextValue, c = { s.cache with entries, nextValue } ∧
    (entries = s.cache.entries ∨ ∃ node, s.nodeAt k = some node ∧
      entries = s.cache.entries.modify node.payload (Entry.resolve s.held))

theorem Before.looked {r : Request K V} (h : s.Before r c call) : s.Looked k c := by
  obtain ⟨nextValue, rfl⟩ := h.cache
  exact ⟨_, nextValue, rfl, .inl rfl⟩

/-- A call that looks at the entry of its key leaves the cache as it has found it, but for a value
    that was let go. -/
theorem Before.looks {r : Request K V} (h : s.Before r c call) (hproper : call.Proper)
    (hget : s.nodeAt k = some node) (hstage : call.stage = .inspect node now) {c' : Cache K V}
    (hlooks : Call.Looks (s.withLatest (c, call)).held call node.payload c c') : s.Looked k c' := by
  rcases hlooks with rfl | ⟨hload, rfl⟩
  · exact h.looked
  · -- A load holds no value, so it does not matter for what is still held.
    have hown : call.own? = none := by
      unfold Call.Proper at hproper
      split at hproper
      · next hr =>
        rw [hr] at hload
        cases hload
      · exact hproper
    have hheld : (s.withLatest (c, call)).held = s.held :=
      withLatest_held (by rw [Call.holdings, hstage]; simp [hown])
    obtain ⟨nextValue, rfl⟩ := h.cache
    rw [hheld]
    exact ⟨_, nextValue, rfl, .inr ⟨node, hget, rfl⟩⟩

theorem Looked.giveUp (h : s.Looked k c) {seconds : Nat} (hnow : seconds = s.cache.pendingTimeout) :
    s.Balked k (.loadTimeout seconds) (Call.giveUp seconds c).1 := by
  obtain ⟨entries, nextValue, rfl, hentries⟩ := h
  exact ⟨.inl (by rw [hnow]), hentries, entries, nextValue, _, rfl⟩

/-- The reservation of a load that is rejected is given back. -/
theorem Looked.refuse (h : s.Looked k c) :
    s.Balked k (.overload c.loadLimit) (Call.refuse c.loadLimit c.reserveLoad).1 := by
  obtain ⟨entries, nextValue, rfl, hentries⟩ := h
  exact ⟨.inr rfl, hentries, entries, nextValue, _, rfl⟩

/-- A call that waits gives its wait up: nobody else is running. -/
theorem Looked.replies_parked (h : s.Looked k c) (htimeout : call.timeout = s.cache.pendingTimeout)
    {e : Entry K V} (he : c.entries[node.payload]? = some e) (hpending : e.value = .pending) :
    s.Replies k n (c, call.goTo (.parked node e.epoch)) := by
  refine .halts rfl ?_
  rw [Call.expire_parked he hpending]
  refine ⟨rfl, fun error herror => ?_⟩
  obtain rfl := Option.some.inj herror
  exact h.giveUp htimeout

/-- A load that has reserved one load too many gives it back. -/
theorem Looked.replies_refuse (h : s.Looked k c) :
    s.Replies k (n + 1) (c.reserveLoad, call.goTo (.refuse c.loadLimit)) := by
  refine .goes rfl (.halts rfl ⟨rfl, fun error herror => ?_⟩)
  obtain rfl := Option.some.inj herror
  exact h.refuse

/-- A call that looks at the entry of its key. -/
theorem replies_inspect {r : Request K V} (h : s.Before r c call) (hproper : call.Proper)
    (hget : s.nodeAt k = some node) (hstage : call.stage = .inspect node now) {e : Entry K V}
    (he : c.entries[node.payload]? = some e) (hpresent : e.removed = false) :
    s.Replies k 2 (c, call) := by
  have hbalks := Call.inspect_balks (s.withLatest (c, call)).held call now he hpresent
  refine .goes (by rw [Call.isHalted, hstage]) ?_
  rw [Call.advance_inspect _ _ hstage]
  show s.Replies k 1 ((Call.inspect (s.withLatest (c, call)).held call node now c).1,
    call.goTo (Call.inspect (s.withLatest (c, call)).held call node now c).2)
  generalize Call.inspect (s.withLatest (c, call)).held call node now c = out at hbalks
  cases hbalks with
  | parks c' e he hpending hlooks =>
    exact (h.looks hproper hget hstage hlooks).replies_parked h.timeout he hpending
  | givesUp c' hnow hlooks =>
    refine .halts rfl ⟨rfl, fun error herror => ?_⟩
    obtain rfl := Option.some.inj herror
    exact (h.looks hproper hget hstage hlooks).giveUp (hnow.symm.trans h.timeout)
  | refuses c' hload hlooks => exact (h.looks hproper hget hstage hlooks).replies_refuse
  | rests c' stage hrests hnot => exact replies_other hrests hnot
  | touches c' tick outcome hnot => exact .goes rfl (replies_other rfl hnot)

/-- A call that is about to insert its key is not rejected any more. -/
theorem replies_insertion (hget : c.table.get? call.request.key = none)
    (hstage : call.stage = .insert now) : s.Replies k 2 (c, call) := by
  have hinserts := Call.insert_inserts (lenient_quiet.evictor c.entries) call now c
    (Entries.Quiet.refl c.entries)
  have hadvance (held : Held) : call.advance held c =
      ((call.insert now c).1, call.goTo (call.insert now c).2) := by
    rw [Call.advance, hstage]
  refine .goes (by rw [Call.isHalted, hstage]) ?_
  rw [hadvance]
  generalize call.insert now c = out at hinserts
  cases hinserts with
  | found m hsome =>
    rw [hget] at hsome
    cases hsome
  | refused m hnone hkeep hhash hentries hchain hnext =>
    obtain ⟨capacity, rfl | rfl⟩ := hnext
    · exact .goes rfl (replies_other rfl rfl)
    · exact replies_other rfl rfl
  | made room m hnone hkeep hhash htable hentries hchain hnext =>
    subst hnext
    unfold Call.inserted
    split
    · exact replies_other rfl rfl
    · exact replies_other rfl rfl

/-- A call that does not find its key. A load reserves before it inserts, and it may be rejected. -/
theorem replies_absent {r : Request K V} (hget : s.nodeAt r.key = none) :
    s.Replies r.key 4 (Call.start r s.cache) := by
  have hbefore := before_start r s
  obtain ⟨htable, -, -⟩ := Call.start_cache r s.cache
  have habsent : (Call.start r s.cache).1.table.get? r.key = none := htable ▸ hget
  have hkey (stage : Stage K V) : ((Call.start r s.cache).2.goTo stage).request.key = r.key :=
    congrArg Request.key (Call.start_request r s.cache)
  refine .goes (by rw [Call.isHalted, Call.start_stage]) ?_
  rw [Call.start_advance]
  have hpasses := Call.lookup_rejection? r (Call.start r s.cache).1
  rcases Call.lookup_absent habsent with ⟨outcome, c', hlookup, -⟩ | hlookup | hlookup
  · rw [hlookup] at hpasses ⊢
    exact replies_other rfl hpasses
  · rw [hlookup]
    exact (replies_insertion (by rw [hkey]; exact habsent) rfl).mono (by decide)
  · rw [hlookup]
    refine .goes rfl ?_
    show s.Replies r.key 2 ((Call.start r s.cache).1.reserveLoad, (Call.start r s.cache).2.goTo
      (if (Call.start r s.cache).1.atLoadLimit then .refuse _ else .insert _))
    split
    · exact hbefore.looked.replies_refuse
    · exact replies_insertion (by rw [hkey]; exact habsent) rfl

/-- A call that finds its key. -/
theorem replies_present (hs : s.Reachable) {r : Request K V} (hget : s.nodeAt r.key = some node) :
    s.Replies r.key 3 (Call.start r s.cache) := by
  obtain ⟨htable, hentries, -⟩ := Call.start_cache r s.cache
  have hpresent : (Call.start r s.cache).1.table.get? r.key = some node := htable ▸ hget
  obtain ⟨hn, -⟩ := hs.filed.complete.sound.get?_eq_some_iff.1 hget
  obtain ⟨e, he, hkept⟩ := hs.tenants.present node hn
  rw [← hentries] at he
  refine .goes (by rw [Call.isHalted, Call.start_stage]) ?_
  rw [Call.start_advance]
  by_cases hr : ∃ key, r = .invalidate key
  · obtain ⟨key, rfl⟩ := hr
    have hforgets : (Call.start (.invalidate key) s.cache).1.table.get? key = some node := hpresent
    rw [Call.lookup_forgets hforgets]
    exact .goes rfl (replies_other rfl rfl)
  · rw [Call.lookup_found (fun key heq => hr ⟨key, heq⟩) hpresent]
    have hbefore : s.Before r (Call.start r s.cache).1
        ((Call.start r s.cache).2.goTo (.inspect node (Call.start r s.cache).1.now)) :=
      ⟨(before_start r s).cache, (before_start r s).request, (before_start r s).timeout⟩
    exact replies_inspect hbefore ((Call.start_proper r s.cache).goTo _) hget rfl he hkept

/-- A whole call that is rejected, while nobody else is running. -/
theorem Reachable.start_balked (hs : s.Reachable) {r : Request K V}
    (h : (s.start r).outcome? s.calls.length = some (.failed error))
    (hrejected : error.isTransient = true) :
    ∃ q, s.start r = s.withLatest q ∧ q.2.stage = .done (.failed error) ∧
      s.Balked r.key error q.1 := by
  have hreplies : s.Replies r.key 4 (Call.start r s.cache) := by
    cases hget : s.nodeAt r.key with
    | none => exact replies_absent hget
    | some node => exact (replies_present hs hget).mono (by decide)
  obtain ⟨q, hreplied, -, hstart⟩ := hreplies.start (by decide) fun q hq _ =>
    Call.halted_of_rests hq.rests
  rw [hstart, outcome?, withLatest_getElem?, Option.map_some] at h
  split at h
  · next outcome hdone =>
    obtain rfl := Option.some.inj h
    have hstage := Option.some.inj hdone
    refine ⟨_, hstart, hstage, hreplied.balked error ?_⟩
    rw [hstage, Stage.rejection?, if_pos hrejected]
  · cases h

/-- A call that has come to an outcome by itself has run no callback on the way. -/
theorem not_running_of_outcome {r : Request K V} {outcome : Outcome V}
    (h : (s.start r).outcome? s.calls.length = some outcome) {fuel : Nat} (hfuel : fuel ≤ stepLimit) :
    ((s.spawn r).runCall s.calls.length fuel).calls[s.calls.length]?.any Call.isRunning = false := by
  by_contra hruns
  obtain ⟨call, hi, hrunning⟩ :
      ∃ call, ((s.spawn r).runCall s.calls.length fuel).calls[s.calls.length]? = some call ∧
        call.isRunning = true := by
    simpa [Option.any_eq_true] using hruns
  obtain ⟨node, epoch, prior, hstage⟩ :
      ∃ node epoch prior, call.stage = .running node epoch prior := by
    unfold Call.isRunning at hrunning
    split at hrunning
    · next node epoch prior hstage => exact ⟨node, epoch, prior, hstage⟩
    · cases hrunning
  have hhalted : call.isHalted = true := by rw [Call.isHalted, hstage]
  -- A call stays where its callback runs.
  have hrun : (s.spawn r).runCall s.calls.length stepLimit =
      (s.spawn r).runCall s.calls.length fuel := by
    rw [← Nat.add_sub_cancel' hfuel, runCall_add, runCall_halted hi hhalted]
  have hstart : s.start r = (s.spawn r).runCall s.calls.length fuel := by
    rw [start, carryOn, hrun, expire_eq hi (by simp [hstage]), runCall_halted hi hhalted]
  rw [hstart, outcome?, hi, Option.map_some, hstage] at h
  cases h

namespace Balked

variable (h : s.Balked k error c)

include h

theorem table : c.table = s.cache.table := by
  obtain ⟨entries, nextValue, log, rfl⟩ := h.rest
  rfl

theorem chain : c.chain = s.cache.chain := by
  obtain ⟨entries, nextValue, log, rfl⟩ := h.rest
  rfl

/-- An entry is as before, but that a value which was let go may have been taken back or found
    gone. -/
theorem each {id : EntryId} {e : Entry K V} (he : s.cache.entries[id]? = some e) :
    c.entries[id]? = some e ∨ c.entries[id]? = some (e.resolve s.held) := by
  rcases h.entries with hsame | ⟨node, -, hresolved⟩
  · exact .inl (hsame ▸ he)
  · rw [hresolved, Array.getElem?_modify, he]
    split
    · exact .inr rfl
    · exact .inl rfl

theorem linked (hs : s.Sound) : c.chain.toList c.entries = s.linked := by
  have hsize : c.entries.size = s.cache.entries.size := by
    rcases h.entries with hsame | ⟨node, -, hresolved⟩
    · rw [hsame]
    · rw [hresolved, Array.size_modify]
  refine hs.linked_congr h.chain hsize fun id => ?_
  cases he : s.cache.entries[id]? with
  | none =>
    have hge : s.cache.entries.size ≤ id := Array.getElem?_eq_none_iff.1 he
    have hnone : c.entries[id]? = none := Array.getElem?_eq_none_iff.2 (hsize ▸ hge)
    rw [DirtyChain.next?, DirtyChain.next?, he, hnone]
  | some e =>
    rw [DirtyChain.next?_eq he]
    rcases h.each he with hsame | hresolved
    · exact DirtyChain.next?_eq hsame
    · exact (DirtyChain.next?_eq hresolved).trans rfl

end Balked

end System

/-- A call that is rejected while nobody else makes progress has run no callback. It is counted, in
    the one counter that is for it, and nothing else has come of it: the table with its order of uses,
    the dirty chain, the batches, the loads in flight, the callbacks that run and the entries that
    wait for them are as they were, and so are all other entries, but that the value of its key which
    was let go may have been taken back or found gone. -/
theorem rejected_without_effect [DecidableEq K] {s : System K V} (hs : s.Reachable)
    {r : Request K V} {error : CacheError}
    (h : (s.start r).outcome? s.calls.length = some (.failed error))
    (hrejected : error.isTransient = true) :
    let t := s.start r
    (∀ fuel ≤ System.stepLimit, ((s.spawn r).runCall s.calls.length fuel).calls[s.calls.length]?.any
      Call.isRunning = false) ∧
    s.Balked r.key error t.cache ∧
    (∃ call, t = { s with cache := t.cache, calls := s.calls ++ [call] }) ∧
    t.linked = s.linked ∧ t.cache.order = s.cache.order ∧
    (∀ id, t.callbacks id = s.callbacks id) ∧
    ∀ (id : EntryId) (e : Entry K V), s.cache.entries[id]? = some e →
      t.cache.entries[id]? = some e ∨ t.cache.entries[id]? = some (e.resolve s.held) := by
  intro t
  obtain ⟨q, ht, hdone, hbalked⟩ := hs.start_balked h hrejected
  -- The call is done, so it has no callback that could be told from those of before.
  have hnone : q.2.flights = [] := by
    rw [Call.flights, hdone]
    rfl
  have hcache : t.cache = q.1 := congrArg System.cache ht
  refine ⟨fun fuel hfuel => System.not_running_of_outcome h hfuel, hcache ▸ hbalked, ⟨q.2, ?_⟩, ?_,
    ?_, fun id => ?_, fun id e he => ?_⟩
  · rw [hcache]
    exact ht
  · rw [System.linked, hcache]
    exact hbalked.linked hs.sound
  · rw [hcache]
    exact congrArg (fun t : Table K EntryId => t.byRecency.map Table.Node.payload) hbalked.table
  · rw [show t = _ from ht]
    simp [System.callbacks, System.withLatest, hnone]
  · rw [hcache]
    exact hbalked.each he

/-- While a loader runs, which is all that is allowed, an update of its key waits in vain, and
    a load of another key is one too many. -/
theorem rejected_without_effect_limited :
    let s : System Nat Nat := (System.new { loadLimit := 1 } (.manual 0) fun _ => 0).moveAll
      [.start (.load 1 0 false)]
    s.Balked 1 (.loadTimeout 5) (s.start (.update 1)).cache ∧
      s.Balked 2 (.overload 1) (s.start (.load 2 0 false)).cache := by
  intro s
  have hs : s.Reachable := (System.reachable_new _ (.manual 0) fun _ => 0).moveAll _
  exact ⟨(rejected_without_effect hs (r := .update 1) (by decide +kernel) rfl).2.1,
    (rejected_without_effect hs (r := .load 2 0 false) (by decide +kernel) rfl).2.1⟩

end ReadThrough
