import ReadThrough.Proofs.Expiry.Dates
import ReadThrough.Proofs.Runs.Solo
import ReadThrough.Proofs.Runs.Tenants

/-! # The Courses of Loads and Puts

  How a load and a put end that nobody interferes with, and what they make of the entries.

  - **reachesLoader**: the loader of a load runs, or the load has failed on the way to it.
  - **start_load_absent**, **start_load_hit**, **start_load_miss**: the courses of a load, by what
    it finds.
  - **Puts**: how a put ends.
  - **put_waits**, **put_takes**, **put_installs**: what a put makes of the entry that it finds.
  - **start_put**: the course of every put.
-/

namespace ReadThrough

open Cache Entries

variable {K V : Type}

/-- The loader of a load runs, or the load has failed on the way to it. -/
def Stage.reachesLoader : Stage K V → Bool
  | .running .. => true
  | .done (.failed (.overload _)) => true
  | .done (.failed (.capacityExhausted _)) => true
  | _ => false

theorem Stage.ne_parked_of_reachesLoader {stage : Stage K V} (h : stage.reachesLoader = true)
    (node : EntryNode K) (epoch : Nat) : stage ≠ .parked node epoch := by
  rintro rfl
  cases h

namespace System

variable [DecidableEq K] {s : System K V} {k : K} {expire : Nat} {acceptEmpty : Bool}
  {node : EntryNode K} {e : Entry K V} {p : Cache K V × Call K V}

/-! ## Loads -/

/-- A load that has found too many loads in flight fails. -/
theorem haltsWith_refuse {limit n : Nat} (hp : p.2.stage = .refuse limit) :
    s.HaltsWith (fun q => q.2.stage.reachesLoader = true) (n + 1) p := by
  refine .goes (by rw [Call.isHalted, hp]) (.halts ?_ ?_)
  all_goals rw [Call.advance, hp]; rfl

/-- A load that is about to insert an absent key starts its loader, or there is no room. -/
theorem haltsWith_insert {now : Nat} (hp : p.2.stage = .insert now)
    (hload : p.2.request.isLoad = true) (hget : p.1.table.get? p.2.request.key = none) :
    s.HaltsWith (fun q => q.2.stage.reachesLoader = true) 2 p := by
  refine .goes (by rw [Call.isHalted, hp]) ?_
  have hadvance : p.2.advance (s.withLatest p).held p.1 =
      ((p.2.insert now p.1).1, p.2.goTo (p.2.insert now p.1).2) := by rw [Call.advance, hp]
  have hinserts := Call.insert_inserts (lenient_quiet.evictor p.1.entries) p.2 now p.1
    (Entries.Quiet.refl p.1.entries)
  rw [hadvance]
  generalize p.2.insert now p.1 = out at hinserts
  cases hinserts with
  -- The key is absent, and nobody has been faster.
  | found node hsome =>
    rw [hget] at hsome
    cases hsome
  | refused m hnone hkeep hhash hentries hchain hstage =>
    obtain ⟨capacity, rfl | rfl⟩ := hstage
    · -- The reservation of the load is given back first.
      exact .goes rfl (.halts rfl rfl)
    · exact .halts rfl rfl
  -- The request is a load, so the new entry is pending and the loader runs.
  | made room m hnone hkeep hhash htable hentries hchain hstage =>
    have hruns (new : EntryNode K) : p.2.inserted new = .running new 1 .unassigned := by
      unfold Call.inserted
      split
      · next key content hrequest =>
        rw [hrequest] at hload
        cases hload
      · rfl
    subst hstage
    rw [hruns]
    exact .halts rfl rfl

/-- A load of an absent key starts its loader, or it fails on the way to it. -/
theorem start_load_absent (hget : s.cache.table.get? k = none) (expire : Nat)
    (acceptEmpty : Bool) : ∃ q, q.2.stage.reachesLoader = true ∧
      s.start (.load k expire acceptEmpty) = s.withLatest q := by
  refine HaltsWith.start_awake (n := 4) ?_ (by decide) fun _ => Stage.ne_parked_of_reachesLoader
  let call := (Call.start (.load k expire acceptEmpty) s.cache).2
  have hlookup (held : Held) : call.advance held s.cache =
      (s.cache, call.goTo (.reserve s.cache.now)) := by
    simp [call, Call.start, Call.advance, Call.lookup, Call.goTo, Request.key, hget]
  show s.HaltsWith _ 4 (s.cache, call)
  refine .goes rfl ?_
  rw [hlookup]
  refine .goes rfl ?_
  show s.HaltsWith _ 2 (s.cache.reserveLoad,
    call.goTo (if s.cache.atLoadLimit then .refuse s.cache.loadLimit else .insert s.cache.now))
  split
  · exact haltsWith_refuse rfl
  · exact haltsWith_insert rfl rfl hget

/-- A load that finds its key looks at the entry. -/
theorem haltsWith_load {P : Cache K V × Call K V → Prop} {n : Nat}
    (hget : s.cache.table.get? k = some node) (he : s.cache.entries[node.payload]? = some e)
    (h : ∀ call : Call K V, call.request = .load k expire acceptEmpty → call.own? = none →
      s.HaltsWith P n
        ((Call.inspectLoad s.held call expire acceptEmpty node s.cache.now e s.cache).1,
          call.goTo (Call.inspectLoad s.held call expire acceptEmpty node s.cache.now e
            s.cache).2)) :
    s.HaltsWith P (n + 2) (Call.start (.load k expire acceptEmpty) s.cache) := by
  let call := (Call.start (.load k expire acceptEmpty) s.cache).2
  let found := call.goTo (.inspect node s.cache.now)
  have hlookup (held : Held) : call.advance held s.cache = (s.cache, found) := by
    simp [call, found, Call.start, Call.advance, Call.lookup, Call.goTo, Request.key, hget]
  have hheld : (s.withLatest (s.cache, found)).held = s.held := withLatest_held rfl
  have hinspect : found.advance s.held s.cache =
      ((Call.inspectLoad s.held found expire acceptEmpty node s.cache.now e s.cache).1,
        found.goTo (Call.inspectLoad s.held found expire acceptEmpty node s.cache.now e
          s.cache).2) := by
    have hstage : found.stage = .inspect node s.cache.now := rfl
    rw [Call.advance_inspect _ _ hstage, Call.inspect, he]
    rfl
  show s.HaltsWith _ (n + 2) (s.cache, call)
  refine .goes rfl ?_
  rw [hlookup]
  refine .goes rfl ?_
  rw [hheld, hinspect]
  exact h found rfl rfl

/-- A load that finds something usable returns it, and reports nothing. -/
theorem start_load_hit {v? : Option (Value V)} (hget : s.cache.table.get? k = some node)
    (he : s.cache.entries[node.payload]? = some e) (hpresent : e.removed = false)
    (hfind : e.find s.held s.cache.nullPolicy expire acceptEmpty s.cache.now = .hit v?) :
    ∃ q, (q.2.stage = .done (.value v?) ∧ q.1.log = s.cache.log) ∧
      s.start (.load k expire acceptEmpty) = s.withLatest q := by
  refine HaltsWith.start_awake (n := 3) (haltsWith_load hget he fun call _ _ => ?_) (by decide)
    fun q hq => by simp [hq.1]
  simp only [Call.inspectLoad, hpresent, hfind, Bool.false_eq_true, if_false]
  exact .goes rfl (.halts rfl ⟨rfl, rfl⟩)

/-- A load that finds nothing usable starts its loader, or it fails on the way to it. -/
theorem start_load_miss (hget : s.cache.table.get? k = some node)
    (he : s.cache.entries[node.payload]? = some e) (hpresent : e.removed = false)
    (hfind : e.find s.held s.cache.nullPolicy expire acceptEmpty s.cache.now = .load) :
    ∃ q, q.2.stage.reachesLoader = true ∧
      s.start (.load k expire acceptEmpty) = s.withLatest q := by
  refine HaltsWith.start_awake (n := 3) (haltsWith_load hget he fun call _ _ => ?_) (by decide)
    fun _ => Stage.ne_parked_of_reachesLoader
  simp only [Call.inspectLoad, hpresent, hfind, Bool.false_eq_true, if_false]
  split
  · exact haltsWith_refuse rfl
  · exact .halts rfl rfl

/-! ## Puts -/

/-- A put of the key has just started. -/
abbrev putting (k : K) (content : V) (s : System K V) : System K V :=
  s.act (.spawn (.put k content))

/-- How a put ends that nobody interferes with. -/
inductive Puts (k : K) (content : V) (s : System K V) (q : Cache K V × Call K V) : Prop where
  /-- It puts nothing in place: it has found a value, or it has failed. -/
  | leaves (outcome : Outcome V) (hdone : q.2.stage = .done outcome)
      (hwhy : (s.putting k content).cache.contains (s.putting k content).held k = true ∨
        outcome.value? = none)
      (hentries : Each (fun _ => Entry.Aged) s.cache.entries q.1.entries)
  /-- It puts its value in place for the entry that the key leads to then. -/
  | places (node : EntryNode K) (v : Value V) (hdone : q.2.stage = .done (.value (some v)))
      (hwhy : (s.putting k content).cache.contains (s.putting k content).held k = false)
      (hget : q.1.table.get? k = some node)
      (hplace : ∀ e', q.1.entries[node.payload]? = some e' →
        e'.value = .ready v ∧ e'.lastReady = s.cache.now)
      (hothers : ∀ id e', id ≠ node.payload → q.1.entries[id]? = some e' →
        ∃ e, s.cache.entries[id]? = some e ∧ e.Aged e')

theorem Puts.done {content : V} {q : Cache K V × Call K V} (h : s.Puts k content q) :
    ∃ outcome, q.2.stage = .done outcome := by
  cases h with
  | leaves outcome hdone => exact ⟨outcome, hdone⟩
  | places node v hdone => exact ⟨_, hdone⟩

/-- The call that puts a value, at a stage. -/
def putCall (k : K) (content : V) (s : System K V) (stage : Stage K V) : Call K V :=
  (Call.start (.put k content) s.cache).2.goTo stage

theorem put_insert (hk : s.Keyed) (content : V)
    (hget : s.cache.table.get? k = none) :
    s.HaltsWith (fun q => s.Puts k content (q.2.expire q.1)) 2
      ((s.putting k content).cache, s.putCall k content (.insert s.cache.now)) := by
  have hcontains : (s.putting k content).cache.contains (s.putting k content).held k = false := by
    have hget' : (s.putting k content).cache.table.get? k = none := hget
    simp [Cache.contains, hget']
  let c := (s.putting k content).cache
  let call := s.putCall k content (.insert s.cache.now)
  have hadvance (held : Held) : call.advance held c =
      ((call.insert s.cache.now c).1, call.goTo (call.insert s.cache.now c).2) := rfl
  have hinserts := Call.insert_inserts
    ((evictor_spared c.table.hashOf c.table.buckets c.entries).and
      (Entry.tolerant_aged.evictor c.entries)) call s.cache.now c
    ⟨spared_start hk.table, Entry.tolerant_aged.each_refl c.entries⟩
  show s.HaltsWith _ 2 (c, call)
  refine .goes rfl ?_
  rw [hadvance]
  generalize call.insert s.cache.now c = out at hinserts
  cases hinserts with
  | found node hsome => cases hget.symm.trans hsome
  | @refused c' stage m hnone hkeep hhash hentries hchain hstage =>
    have haged : Each (fun _ => Entry.Aged) s.cache.entries c'.entries := by
      rw [hentries]
      exact hkeep.2
    obtain ⟨capacity, rfl | rfl⟩ := hstage
    · exact .goes rfl (.halts rfl (.leaves _ rfl (.inr rfl) haged))
    · exact .halts rfl (.leaves _ rfl (.inr rfl) haged)
  | @made c' stage room m hnone hkeep hhash htable hentries hchain hstage =>
    -- Making room leaves the key absent, so it leads to the new entry afterwards, and every other
    -- entry has aged at most.
    obtain ⟨hroom, habsent⟩ := hkeep.1.room hhash hk.table hnone
    obtain ⟨hsound, hnodes⟩ := hroom.insertNew habsent c.entries.size
    have hkey := Table.insertNew_key call.request.key c.entries.size room
    have hid := Table.insertNew_payload (t := room) call.request.key c.entries.size
    generalize (room.insertNew call.request.key c.entries.size).value = node at *
    subst hstage
    refine .halts rfl (.places node _ rfl hcontains ?_ (fun e' he' => ?_) fun id e' hne he' => ?_)
    · show c'.table.get? k = some node
      rw [htable]
      exact hsound.get?_eq_some_iff.2 ⟨(hnodes node).2 (.inl rfl), hkey⟩
    · have hentry : c'.entries[node.payload]? = some e' := he'
      rw [hentries, hid, ← hkeep.1.size, Array.getElem?_push_size] at hentry
      obtain rfl := Option.some.inj hentry
      exact ⟨rfl, rfl⟩
    · have hentry : c'.entries[id]? = some e' := he'
      rw [hentries, Array.getElem?_push, if_neg (by rw [hkeep.1.size, ← hid]; exact hne)] at hentry
      exact hkeep.2.backward hentry

/-- The call keeps alive the value that it is to put, and no other. -/
theorem putCall_held (content : V) (now : Nat) (c : Cache K V) :
    (s.withLatest (c, s.putCall k content (.inspect node now))).held = (s.putting k content).held :=
  withLatest_held_congr (q := Call.start (.put k content) s.cache) rfl

/-- The key is found if its entry has a live value. -/
theorem putting_contains (content : V) (hget : s.cache.table.get? k = some node)
    (he : s.cache.entries[node.payload]? = some e) :
    (s.putting k content).cache.contains (s.putting k content).held k =
      (e.value.peek (s.putting k content).held).isSome := by
  have hget' : (s.putting k content).cache.table.get? k = some node := hget
  have he' : (s.putting k content).cache.entries[node.payload]? = some e := he
  simp [Cache.contains, hget', Cache.peek, valueOf_eq he']

/-- What a put comes to that has looked at an entry. -/
def putFinds (k : K) (content : V) (node : EntryNode K) (e : Entry K V) (s : System K V) :
    Cache K V × Call K V :=
  let call := s.putCall k content (.inspect node s.cache.now)
  let found := Call.inspectPut (s.putting k content).held call node s.cache.now e
    (s.putting k content).cache
  (found.1, call.goTo found.2)

/-- A put that finds a callback running waits for it, in vain: nobody else is running. -/
theorem put_waits (content : V) (he : s.cache.entries[node.payload]? = some e)
    (hpresent : e.removed = false) (hpending : e.value = .pending) :
    s.HaltsWith (fun q => s.Puts k content (q.2.expire q.1)) 1 (s.putFinds k content node e) := by
  let c := (s.putting k content).cache
  let call := s.putCall k content (.inspect node s.cache.now)
  have he' : c.entries[node.payload]? = some e := he
  have hparks (held : Held) :
      Call.inspectPut held call node s.cache.now e c = Call.park call node e c := by
    simp [Call.inspectPut, hpresent, hpending, ValueState.isPending]
  rw [putFinds, hparks, Call.park]
  split
  · exact .halts rfl (.leaves _ rfl (.inr rfl) (Entry.tolerant_aged.each_refl _))
  · refine .halts rfl ?_
    have hexpire : (call.goTo (.parked node e.epoch)).expire c =
        ((Call.giveUp call.timeout c).1, call.goTo (Call.giveUp call.timeout c).2) := by
      simp [Call.expire, Call.goTo, Call.wake, he', Entry.isPendingAt, hpending,
        ValueState.isPending]
    rw [hexpire]
    exact .leaves _ rfl (.inr rfl) (Entry.tolerant_aged.each_refl _)

/-- A put that finds a value leaves it in place. -/
theorem put_takes (content : V) (hget : s.cache.table.get? k = some node)
    (he : s.cache.entries[node.payload]? = some e) (hpresent : e.removed = false) {v : Value V}
    (hpending : e.value ≠ .pending) (hpeek : e.value.peek (s.putting k content).held = some v) :
    s.HaltsWith (fun q => s.Puts k content (q.2.expire q.1)) 1 (s.putFinds k content node e) := by
  let call := s.putCall k content (.inspect node s.cache.now)
  let held := (s.putting k content).held
  have htakes : Call.inspectPut held call node s.cache.now e (s.putting k content).cache =
      ((s.putting k content).cache.modify node.payload (Entry.resolve held),
        .touch node s.cache.now (.value (some v))) := by
    simp [Call.inspectPut, hpresent, ValueState.isPending_iff, hpending, held, hpeek]
  have hresolved : Each (fun _ => Entry.Aged) s.cache.entries
      (s.cache.entries.modify node.payload (Entry.resolve held)) :=
    Entry.tolerant_aged.each_modify (Entry.tolerant_aged.each_refl _) _ (Entry.aged_resolve held)
  rw [putFinds, htakes]
  refine .goes rfl (.halts rfl (.leaves _ rfl (.inl ?_) ?_))
  · rw [putting_contains content hget he, hpeek]
    rfl
  · exact Entry.tolerant_aged.each_modify hresolved _ (Entry.tolerant_aged.stamp _)

/-- A put that finds no value puts its own in place. -/
theorem put_installs (content : V) (hget : s.cache.table.get? k = some node)
    (he : s.cache.entries[node.payload]? = some e) (hpresent : e.removed = false)
    (hpending : e.value ≠ .pending) (hpeek : e.value.peek (s.putting k content).held = none) :
    s.HaltsWith (fun q => s.Puts k content (q.2.expire q.1)) 1 (s.putFinds k content node e) := by
  let call := s.putCall k content (.inspect node s.cache.now)
  let held := (s.putting k content).held
  let v : Value V := ⟨s.cache.nextValue, content⟩
  have hputs : Call.inspectPut held call node s.cache.now e (s.putting k content).cache =
      (((s.putting k content).cache.modify node.payload (Entry.resolve held)).modify node.payload
          (Entry.install (.ready v) s.cache.now), .touch node s.cache.now (.value (some v))) := by
    have hown : call.own? = some v := rfl
    simp [Call.inspectPut, hpresent, ValueState.isPending_iff, hpending, held, hpeek, hown]
  let placed := ((s.cache.entries.modify node.payload (Entry.resolve held)).modify node.payload
    (Entry.install (.ready v) s.cache.now)).modify node.payload (Entry.stamp s.cache.now)
  rw [putFinds, hputs]
  refine .goes rfl (.halts rfl (.places node v rfl ?_ hget
    (fun e' (he' : placed[node.payload]? = some e') => ?_)
    fun id e' hne (he' : placed[id]? = some e') => ?_))
  · rw [putting_contains content hget he, hpeek]
    rfl
  · simp only [placed, Array.getElem?_modify, if_pos, he, Option.map_some] at he'
    obtain rfl := Option.some.inj he'
    exact ⟨rfl, rfl⟩
  · simp only [placed, Array.getElem?_modify, if_neg hne.symm] at he'
    exact ⟨e', he', .refl e'⟩

/-- A put that looks at an entry. -/
theorem put_inspect (content : V) (hget : s.cache.table.get? k = some node)
    (he : s.cache.entries[node.payload]? = some e) (hpresent : e.removed = false) :
    s.HaltsWith (fun q => s.Puts k content (q.2.expire q.1)) 2
      ((s.putting k content).cache, s.putCall k content (.inspect node s.cache.now)) := by
  have he' : (s.putting k content).cache.entries[node.payload]? = some e := he
  have hstage : (s.putCall k content (.inspect node s.cache.now)).stage =
      .inspect node s.cache.now := rfl
  have hadvance : (s.putCall k content (.inspect node s.cache.now)).advance
      (s.putting k content).held (s.putting k content).cache = s.putFinds k content node e := by
    rw [Call.advance_inspect _ _ hstage, Call.inspect, he']
    rfl
  refine .goes rfl ?_
  rw [putCall_held, hadvance]
  by_cases hpending : e.value = .pending
  · exact put_waits content he hpresent hpending
  cases hpeek : e.value.peek (s.putting k content).held with
  | some v => exact put_takes content hget he hpresent hpending hpeek
  | none => exact put_installs content hget he hpresent hpending hpeek

/-- A put goes where the lookup of its key leads it. -/
theorem put_lookup (held : Held) (k : K) (content : V) (s : System K V) :
    (s.putCall k content .lookup).advance held (s.putting k content).cache =
      ((s.putting k content).cache, s.putCall k content <|
        match s.cache.table.get? k with
        | some node => .inspect node s.cache.now
        | none => .insert s.cache.now) := by
  cases hget : s.cache.table.get? k with
  | none =>
    have hget' : (s.putting k content).cache.table.get? k = none := hget
    simp only [putCall, Call.start, Call.advance, Call.lookup, Call.goTo, Request.key, hget']
    rfl
  | some node =>
    have hget' : (s.putting k content).cache.table.get? k = some node := hget
    simp only [putCall, Call.start, Call.advance, Call.lookup, Call.goTo, Request.key, hget']
    rfl

/-- A put either puts nothing in place, or it puts its value in place at the current tick. -/
theorem start_put (hs : s.Reachable) (k : K) (content : V) :
    ∃ q, s.Puts k content q ∧ s.start (.put k content) = s.withLatest q := by
  have hhalts : s.HaltsWith (fun q => s.Puts k content (q.2.expire q.1)) 3
      (Call.start (.put k content) s.cache) := by
    show s.HaltsWith _ 3 ((s.putting k content).cache, s.putCall k content .lookup)
    refine .goes rfl ?_
    rw [put_lookup]
    cases hget : s.cache.table.get? k with
    | none => exact put_insert hs.keyed content hget
    | some node =>
      obtain ⟨hmem, -⟩ := hs.keyed.table.get?_eq_some_iff.1 hget
      obtain ⟨e, he, hpresent⟩ := hs.tenants.present node hmem
      exact put_inspect content hget he hpresent
  obtain ⟨q, hq, -, hstart⟩ := hhalts.start (by decide) fun q hq _ => by
    obtain ⟨outcome, hdone⟩ := hq.done
    rw [Call.isHalted, hdone]
  exact ⟨q.2.expire q.1, hq, hstart⟩

end System

end ReadThrough
