import ReadThrough.Proofs.Expiry.Deposits
import ReadThrough.Proofs.Recency.Order

/-! # Uses

  Which moves of a single caller use an entry, told by what the caller sees, and what a move makes
  of the order.

  - **isUse**: the outcomes that are uses of the entry asked for.
  - **use?**: the entry that a move uses: one that it makes, or one that it ends with such an outcome
    of.
  - **Answered**: a call has come to rest, and has used its entry if its outcome says so.
  - **move_turned**: every move turns the order by the use that it makes, if any.
-/

namespace ReadThrough

open Cache Entries

variable {K V : Type}

/-! ## What counts as a use -/

/-- Whether an outcome is a use of the entry that was asked for. A value that is forgotten, and the
    lack of one that a load has not found out, are none. -/
def Outcome.isUse (r : Request K V) : Outcome V → Bool
  | .value (some _) =>
    match r with
    | .invalidate _ => false
    | .mark _ => false
    | _ => true
  | .value none => r.isLoad
  | .marked found => found
  | _ => false

/-- Whether a call has ended with a use. -/
def Stage.isUse (r : Request K V) : Stage K V → Bool
  | .done outcome => outcome.isUse r
  | _ => false

/-- Whether a call goes on no further by itself, and waits for nobody else: its callback runs, or it
    is done. -/
def Stage.rests : Stage K V → Bool
  | .running .. => true
  | .done _ => true
  | _ => false

theorem Stage.ne_parked_of_rests {stage : Stage K V} (h : stage.rests = true) (node : EntryNode K)
    (epoch : Nat) : stage ≠ .parked node epoch := by
  rintro rfl
  cases h

theorem Call.halted_of_rests {call : Call K V} (h : call.stage.rests = true) :
    call.isHalted = true := by
  unfold Call.isHalted
  generalize call.stage = stage at h
  cases stage <;> first | rfl | cases h

namespace System

variable [DecidableEq K]

/-- The entry that a move uses. A call that starts uses the entry that it makes for an absent key;
    otherwise a call uses its entry when it ends, if its outcome is a use. -/
def use? (s : System K V) : Move K V → Option EntryId
  | .start r =>
    match s.cache.table.get? r.key with
    | none => ((s.start r).cache.table.get? r.key).map Table.Node.payload
    | some node =>
      if ((s.start r).outcome? s.calls.length).any (Outcome.isUse r) then some node.payload
      else none
  | .reply r =>
    let i := s.calls.length - 1
    match s.calls[i]? with
    | none => none
    | some call =>
      match call.stage with
      | .running node _ _ =>
        if ((s.reply r i).outcome? i).any (Outcome.isUse call.request) then some node.payload
        else none
      | _ => none
  | .collect _ => none
  | .upkeep _ => none

/-- The entries that a run uses, the earliest use first. -/
def uses (s : System K V) : List (Move K V) → List EntryId
  | [] => []
  | m :: ms => (s.use? m).toList ++ (s.move m).uses ms

end System

/-! ## Calls at rest -/

/-- The call, which deals with the entry of a node, has come to rest, and it has used the entry at a
    tick if its outcome says so. -/
structure Cache.Answered (tick : Nat) (node : EntryNode K) (c : Cache K V)
    (q : Cache K V × Call K V) : Prop where
  rests : q.2.stage.rests = true
  turned : Turned tick (if q.2.stage.isUse q.2.request then some node.payload else none) c q.1

namespace Cache

variable {c c' : Cache K V} {node : EntryNode K} {tick now : Nat} {call : Call K V}
  {outcome : Outcome V}

theorem Handles.congr (h : c.Handles node) (htable : c'.table = c.table)
    (heach : Each (fun _ => Entry.SameUse) c.entries c'.entries) : c'.Handles node where
  known := htable ▸ h.known
  entry := by
    obtain ⟨e, he⟩ := h.entry
    obtain ⟨e', he', -⟩ := heach.2 node.payload e he
    exact ⟨e', he'⟩
  own := htable ▸ h.own

theorem turned_of_table (htable : c'.table = c.table)
    (heach : Each (fun _ => Entry.SameUse) c.entries c'.entries) : Turned tick none c c' := by
  refine turned_of_each ?_ heach tick
  rw [order, htable]
  exact List.Sublist.refl _

theorem Turned.modify (h : Turned now none c c') {id : EntryId} {f : Entry K V → Entry K V}
    (hf : ∀ e : Entry K V, e.SameUse (f e)) : Turned now none c (c'.modify id f) :=
  h.after (turned_of_table rfl
    (Entry.lenient_sameUse.each_modify (Entry.lenient_sameUse.each_refl _) id hf))

/-- Table and entries are all that counts. -/
theorem Turned.congr {c'' : Cache K V} {u : Option EntryId} (h : Turned tick u c c')
    (htable : c''.table = c'.table) (hentries : c''.entries = c'.entries) :
    Turned tick u c c'' where
  order := by
    rw [Cache.order, htable]
    exact h.order
  stamps := by
    rw [hentries]
    exact h.stamps

theorem Turned.atAnyTick (h : Turned now none c c') (tick : Nat) : Turned tick none c c' :=
  ⟨h.order, by simpa using h.stamps⟩

/-- The call ends without a use. -/
theorem answered_done (hno : outcome.isUse call.request = false)
    (h : Turned now none c c') : Answered tick node c (c', call.goTo (.done outcome)) where
  rests := rfl
  turned := by
    have hunused : (call.goTo (.done outcome)).stage.isUse (call.goTo (.done outcome)).request =
        false := hno
    rw [hunused, if_neg (by simp)]
    exact h.atAnyTick tick

/-- The call ends with a use. -/
theorem answered_use (huse : outcome.isUse call.request = true) (hc : c'.table.Complete)
    (hnode : c'.Handles node) (h : Turned now none c c') :
    Answered tick node c (c'.use node tick, call.goTo (.done outcome)) where
  rests := rfl
  turned := by
    have hused : (call.goTo (.done outcome)).stage.isUse (call.goTo (.done outcome)).request =
        true := huse
    rw [hused, if_pos rfl]
    exact h.after (use_turned hc hnode)

/-- The callback starts. -/
theorem answered_running {m : EntryNode K} {epoch : Nat} {prior : ValueState V}
    (h : Turned now none c c') :
    Answered tick node c (c', call.goTo (.running m epoch prior)) where
  rests := rfl
  turned := h.atAnyTick tick

end Cache

namespace Call

variable {held : Held} {c : Cache K V} {call : Call K V} {node m : EntryNode K} {now tick : Nat}
  {outcome : Outcome V}

/-- A use is recorded at the tick at which the entry was found, or at the current one. -/
theorem inspect_tick (h : (inspect held call node now c).2 = .touch m tick outcome) :
    tick = now ∨ tick = c.now := by
  unfold inspect at h
  split at h
  · cases h
  split at h
  · -- A get records its use at the current tick.
    unfold inspectGet at h
    dsimp only at h
    split at h
    · cases h
      exact .inr rfl
    · cases h
  · -- A load records its use at the tick at which it has found the entry.
    unfold inspectLoad park giveUp startLoader at h
    dsimp only at h
    split at h
    · cases h
    split at h
    · cases h
      exact .inl rfl
    · split at h <;> cases h
    · split at h <;> cases h
  · -- An update records no use before its callback has ended.
    unfold inspectUpdate park giveUp at h
    dsimp only at h
    split at h
    · cases h
    · split at h
      · split at h <;> cases h
      · cases h
  · -- A put goes by the tick at which it has found the entry.
    unfold inspectPut park giveUp at h
    dsimp only at h
    split at h
    · cases h
    · split at h
      · split at h <;> cases h
      · split at h <;> cases h <;> exact .inl rfl
  · -- A mark goes by the current tick.
    unfold inspectMark at h
    dsimp only at h
    split at h
    · cases h
    · cases h
      exact .inr rfl
  · cases h

theorem start_cache (r : Request K V) (c : Cache K V) : (start r c).1.table = c.table ∧
    (start r c).1.entries = c.entries ∧ (start r c).1.now = c.now := by
  cases r <;> exact ⟨rfl, rfl, rfl⟩

/-- The first step of a call looks its key up. -/
theorem start_advance [DecidableEq K] (r : Request K V) (held : Held) (c : Cache K V) :
    (start r c).2.advance held (start r c).1 =
      ((lookup r (start r c).1).1, (start r c).2.goTo (lookup r (start r c).1).2) := by
  rw [advance, start_stage, start_request]

theorem lookup_found [DecidableEq K] {r : Request K V} (hr : ∀ key, r ≠ .invalidate key)
    (hget : c.table.get? r.key = some node) : lookup r c = (c, .inspect node c.now) := by
  cases r with
  | invalidate key => exact absurd rfl (hr key)
  | _ => simp only [lookup, hget]

/-- Forgetting a key takes its node out, and the entry is retired next. -/
theorem lookup_forgets [DecidableEq K] {key : K} (hget : c.table.get? key = some node) :
    lookup (.invalidate key : Request K V) c =
      ({ c with table := (c.table.removeNode node).1 }, .retire node) := by
  have hremove : c.table.remove key = ((c.table.removeNode node).1, some node) := by
    rw [Table.remove, hget]
  simp only [lookup, hremove]

/-- There is nothing to forget. -/
theorem lookup_forgotten [DecidableEq K] {key : K} (hget : c.table.get? key = none) :
    lookup (.invalidate key : Request K V) c = (c, .done (.value none)) := by
  have hremove : c.table.remove key = (c.table, none) := by
    rw [Table.remove, hget]
  simp only [lookup, hremove]

/-- A call that does not find its key ends, or it goes on to insert it; a load reserves first. -/
theorem lookup_absent [DecidableEq K] {r : Request K V} (hget : c.table.get? r.key = none) :
    (∃ outcome c', lookup r c = (c', .done outcome) ∧ c'.table = c.table ∧
      c'.entries = c.entries) ∨ lookup r c = (c, .insert c.now) ∨
        lookup r c = (c, .reserve c.now) := by
  cases r with
  | get key =>
    refine .inl ⟨.value none, c.countMiss.emit .miss, ?_, rfl, rfl⟩
    simp only [lookup, hget]
  | load key expire acceptEmpty =>
    refine .inr (.inr ?_)
    simp only [lookup, hget]
  | mark key =>
    refine .inl ⟨.marked false, c, ?_, rfl, rfl⟩
    simp only [lookup, hget]
  | invalidate key => exact .inl ⟨.value none, c, lookup_forgotten hget, rfl, rfl⟩
  | _ =>
    refine .inr (.inl ?_)
    simp only [lookup, hget]

/-- The wait for an entry that is pending still is given up. -/
theorem expire_parked {e : Entry K V} (he : c.entries[node.payload]? = some e)
    (hpending : e.value = .pending) : (call.goTo (.parked node e.epoch)).expire c =
      ((giveUp call.timeout c).1, call.goTo (giveUp call.timeout c).2) := by
  simp [expire, goTo, wake, he, Entry.isPendingAt, hpending, ValueState.isPending]

/-- What is left of a call when its callback has ended: nothing, or a use to be recorded, after the
    load has been given back. -/
inductive Ends (call : Call K V) (node : EntryNode K) (now : Nat) : Stage K V → Prop where
  | closes (outcome : Outcome V) (hno : outcome.isUse call.request = false) :
      Ends call node now (.done outcome)
  | uses (outcome : Outcome V) (huse : outcome.isUse call.request = true) :
      Ends call node now (.touch node now outcome)
  | loads (v? : Option (Value V)) (huse : Outcome.isUse call.request (.value v?) = true) :
      Ends call node now (.release node now (.value v?))
  | fails (error : CacheError) : Ends call node now (.release node now (.failed error))
  | panics (reason : String) : Ends call node now (.release node now (.panicked reason))

theorem resume_ends {epoch : Nat} {prior : ValueState V} (r : Return V) (c : Cache K V)
    (hstage : call.stage = .running node epoch prior)
    (hsuits : Stage.Suits call.request (.running node epoch prior)) :
    ∃ stage, (call.resume r c).2 = call.goTo stage ∧ call.Ends node c.now stage := by
  unfold resume
  rw [hstage]
  rcases hsuits with ⟨key, hr⟩ | ⟨hload, -⟩
  · rw [hr]
    cases r with
    | value content => exact ⟨_, rfl, .uses _ (by rw [hr]; rfl)⟩
    | empty => exact ⟨_, rfl, .closes _ (by rw [hr]; rfl)⟩
    | fail reason => exact ⟨_, rfl, .closes _ rfl⟩
    | panic reason => exact ⟨_, rfl, .closes _ rfl⟩
  · cases hr : call.request with
    | load key expire acceptEmpty =>
      cases r with
      | value content => exact ⟨_, rfl, .loads _ (by rw [hr]; rfl)⟩
      | empty => exact ⟨_, rfl, .loads _ (by rw [hr]; rfl)⟩
      | fail reason => exact ⟨_, rfl, .fails _⟩
      | panic reason => exact ⟨_, rfl, .panics _⟩
    | _ => rw [hr] at hload; cases hload

end Call

namespace System

variable [DecidableEq K] {s : System K V} {c c₀ : Cache K V} {call : Call K V}
  {node : EntryNode K} {now tick n : Nat} {outcome : Outcome V}

/-! ### Single steps -/

/-- After `n` critical sections at most the call is `Answered`; a call that waits gives its wait up
    for that. -/
abbrev Answers (tick : Nat) (node : EntryNode K) (c₀ : Cache K V) (s : System K V) (n : Nat)
    (p : Cache K V × Call K V) : Prop :=
  s.HaltsWith (fun q => Answered tick node c₀ (q.2.expire q.1)) n p

theorem haltsWith_done (hno : outcome.isUse call.request = false) (h : Turned now none c₀ c) :
    s.Answers tick node c₀ n (c, call.goTo (.done outcome)) :=
  .halts rfl (answered_done hno h)

theorem haltsWith_running {m : EntryNode K} {epoch : Nat} {prior : ValueState V}
    (h : Turned now none c₀ c) :
    s.Answers tick node c₀ n (c, call.goTo (.running m epoch prior)) :=
  .halts rfl (answered_running h)

theorem haltsWith_touch (huse : outcome.isUse call.request = true) (hc : c.table.Complete)
    (hnode : c.Handles node) (h : Turned now none c₀ c) :
    s.Answers tick node c₀ (n + 1) (c, call.goTo (.touch node tick outcome)) :=
  .goes rfl (.halts rfl (answered_use huse hc hnode h))

/-- A call that waits gives its wait up: nobody else is running. -/
theorem haltsWith_parked {e : Entry K V} (he : c.entries[node.payload]? = some e)
    (hpending : e.value = .pending) (h : Turned now none c₀ c) :
    s.Answers tick node c₀ n (c, call.goTo (.parked node e.epoch)) := by
  refine .halts rfl ?_
  rw [Call.expire_parked he hpending]
  have hno : Outcome.isUse call.request (.failed (.loadTimeout call.timeout) : Outcome V) = false :=
    rfl
  exact answered_done hno (h.congr rfl rfl)

/-! ### The entry of a present key -/

/-- A call that looks at an entry of the table uses it if it finds in it what it is after. -/
theorem haltsWith_inspect (h : s.Filed) (ht : s.Tenants) (hk : s.Keyed)
    (hn : node ∈ s.cache.table.nodes) (htable : c.table = s.cache.table)
    (hentries : c.entries = s.cache.entries) (hnow : c.now = now)
    (hstage : call.stage = .inspect node now) (hproper : call.Proper)
    (hsuits : ∀ key, call.request ≠ .invalidate key) :
    s.Answers now node s.cache 2 (c, call) := by
  obtain ⟨e, he, hpresent⟩ := ht.present node hn
  rw [← hentries] at he
  refine .goes (by rw [Call.isHalted, hstage]) ?_
  rw [Call.advance_inspect _ _ hstage]
  let held := (s.withLatest (c, call)).held
  obtain ⟨e', he', hinspects⟩ := Call.inspect_inspects held now hproper hsuits he
  have hlooks : Each (call.InspectsAt held node (Call.inspect held call node now c).2) c.entries
      (Call.inspect held call node now c).1.entries := Call.inspect_each hproper hsuits
  have heach := hlooks.imp (S := fun _ => Entry.SameUse) fun _ _ _ => Call.InspectsAt.sameUse
  have htable' := Call.inspect_table held call node now c
  have htick {m : EntryNode K} {tick : Nat} {outcome : Outcome V}
      (htouch : (Call.inspect held call node now c).2 = .touch m tick outcome) : tick = now :=
    (Call.inspect_tick htouch).elim id fun heq => heq.trans hnow
  show s.HaltsWith _ 1 ((Call.inspect held call node now c).1,
    call.goTo (Call.inspect held call node now c).2)
  generalize Call.inspect held call node now c = out at he' hinspects heach htable' htick
  obtain ⟨c', stage⟩ := out
  rw [htable] at htable'
  rw [hentries] at heach
  have hturned : Turned now none s.cache c' := turned_of_table htable' heach
  have hcomplete : c'.table.Complete := htable' ▸ h.complete
  have hhandles : c'.Handles node := (handles_of_mem hk h.complete hn).congr htable' heach
  have htouches {tick : Nat} {outcome : Outcome V} (htick : tick = now)
      (huse : outcome.isUse call.request = true) :
      s.Answers now node s.cache 1 (c', call.goTo (.touch node tick outcome)) := by
    subst htick
    exact haltsWith_touch huse hcomplete hhandles hturned
  cases hinspects with
  | restarts hremoved =>
    -- Only the entry of a node that has left the table makes a call look its key up again.
    rw [hpresent] at hremoved
    cases hremoved
  | parks hpending => exact haltsWith_parked he' hpending hturned
  | givesUp seconds hpending => exact haltsWith_done rfl hturned
  | takes v tick hpeek hr =>
    refine htouches (htick rfl) ?_
    rcases hr with ⟨key, hr⟩ | hr | ⟨key, content, hr⟩
    · rw [hr]
      rfl
    · unfold Outcome.isUse
      cases hrequest : call.request <;> first | rfl | (rw [hrequest] at hr; cases hr)
    · rw [hr]
      rfl
  | takesEmpty tick hr hmissing => exact htouches (htick rfl) hr
  | misses outcome hpeek hr =>
    refine haltsWith_done ?_ hturned
    rcases hr with ⟨key, hr, rfl⟩ | rfl
    · rw [hr]
      rfl
    · rfl
  | refuses policy key expire acceptEmpty tick limit hr hfind =>
    exact .goes rfl (haltsWith_done rfl (hturned.congr rfl rfl))
  | loads policy key expire acceptEmpty tick hr hfind => exact haltsWith_running hturned
  | updates key hr hpending => exact haltsWith_running hturned
  | puts key content v tick hr hpeek hpending =>
    refine htouches (htick rfl) ?_
    rw [hr]
    rfl
  | marks key v tick next? hr hpeek => exact htouches (htick rfl) rfl

/-- A call that finds its key looks at the entry, unless it is to forget it. -/
theorem haltsWith_found (hs : s.Reachable) {r : Request K V} (hr : ∀ key, r ≠ .invalidate key)
    (hget : s.cache.table.get? r.key = some node) :
    s.Answers s.cache.now node s.cache 3 (Call.start r s.cache) := by
  obtain ⟨hn, -⟩ := hs.filed.complete.sound.get?_eq_some_iff.1 hget
  obtain ⟨htable, hentries, hnow⟩ := Call.start_cache r s.cache
  refine .goes (by rw [Call.isHalted, Call.start_stage]) ?_
  rw [Call.start_advance, Call.lookup_found hr (htable ▸ hget), hnow]
  exact haltsWith_inspect hs.filed hs.tenants hs.keyed hn htable hentries hnow rfl
    ((Call.start_proper r s.cache).goTo _) (by rw [Call.goTo, Call.start_request]; exact hr)

/-- A call that is to forget its key takes the node out, and uses nothing. -/
theorem haltsWith_invalidate (h : s.Filed) {key : K} (hget : s.cache.table.get? key = some node) :
    s.Answers s.cache.now node s.cache 3 (Call.start (.invalidate key) s.cache) := by
  let call := (Call.start (.invalidate key) s.cache).2
  let c : Cache K V := { s.cache with table := (s.cache.table.removeNode node).1 }
  have hremove : s.cache.table.remove key = ((s.cache.table.removeNode node).1, some node) := by
    rw [Table.remove, hget]
  have hlookup (held : Held) : call.advance held s.cache = (c, call.goTo (.retire node)) := by
    show ((Call.lookup (.invalidate key) s.cache).1,
      call.goTo (Call.lookup (.invalidate key) s.cache).2) = _
    rw [Call.lookup_forgets hget]
  have hsheds := h.complete.sheds_remove key
  rw [hremove] at hsheds
  have heach : Each (fun _ => Entry.SameUse) s.cache.entries c.entries :=
    Entry.lenient_sameUse.each_refl _
  have hsub : c.order.Sublist s.cache.order := order_sublist hsheds
  have hturned := turned_of_each hsub heach s.cache.now
  show s.HaltsWith _ 3 (s.cache, call)
  refine .goes rfl ?_
  rw [hlookup]
  refine .goes rfl (haltsWith_done ?_ ((hturned.modify (Entry.sameUse_retire _)).congr rfl rfl))
  cases Cache.peek _ _ node.payload <;> rfl

/-! ### The entry of an absent key -/

/-- The call has come to rest, and the entry that its key leads to now is the one that it has used,
    at the current tick. -/
structure Made (s : System K V) (k : K) (q : Cache K V × Call K V) : Prop where
  rests : q.2.stage.rests = true
  turned : Turned s.cache.now ((q.1.table.get? k).map Table.Node.payload) s.cache q.1

/-- The key is absent as before. -/
theorem made_of_table {k : K} {p : Cache K V × Call K V} (hget : s.cache.table.get? k = none)
    (hrests : p.2.stage.rests = true) (htable : p.1.table = s.cache.table)
    (hentries : p.1.entries = s.cache.entries) : s.Made k p where
  rests := hrests
  turned := by
    rw [htable, hget]
    exact turned_of_table htable (hentries ▸ Entry.lenient_sameUse.each_refl _)

/-- A call that is about to insert its key does so, or there is no room. -/
theorem haltsWith_insertion (hs : s.Reachable) (call : Call K V)
    (hget : s.cache.table.get? call.request.key = none) (htable : c.table = s.cache.table)
    (hentries : c.entries = s.cache.entries)
    (hstage : call.stage = .insert s.cache.now) :
    s.HaltsWith (s.Made call.request.key) 2 (c, call) := by
  have hlt (n : EntryNode K) (hn : n ∈ c.table.nodes) : n.payload < c.entries.size := by
    obtain ⟨e, he, -⟩ := hs.keyed.nodes n (htable ▸ hn)
    exact hentries ▸ (Array.getElem?_eq_some_iff.1 he).1
  have hsame : Turned s.cache.now none s.cache c :=
    turned_of_table htable (hentries ▸ Entry.lenient_sameUse.each_refl _)
  have hturned := hsame.after (Call.insert_turned s.cache.now (htable ▸ hs.filed.complete)
    (htable ▸ hget) hlt)
  have hinserts := Call.insert_inserts (lenient_quiet.evictor c.entries) call s.cache.now c
    (Entries.Quiet.refl c.entries)
  have hadvance (held : Held) : call.advance held c =
      ((call.insert s.cache.now c).1, call.goTo (call.insert s.cache.now c).2) := by
    rw [Call.advance, hstage]
  refine .goes (by rw [Call.isHalted, hstage]) ?_
  rw [hadvance]
  generalize call.insert s.cache.now c = out at hinserts hturned
  cases hinserts with
  -- The key is absent, so nobody has been faster.
  | found m hsome =>
    rw [htable, hget] at hsome
    cases hsome
  | refused m hnone hkeep hhash _ hchain hnext =>
    obtain ⟨capacity, rfl | rfl⟩ := hnext
    · -- The reservation of a load is given back first.
      exact .goes rfl (.halts rfl ⟨rfl, hturned.congr rfl rfl⟩)
    · exact .halts rfl ⟨rfl, hturned⟩
  -- Puts are done, and for other calls the callback runs; both have been turned.
  | made room m hnone hkeep hhash _ _ hchain hnext =>
    subst hnext
    unfold Call.inserted
    split
    · exact .halts rfl ⟨rfl, hturned⟩
    · exact .halts rfl ⟨rfl, hturned⟩

/-- A load that may not run its loader now ends. -/
theorem haltsWith_refusal {k : K} {c : Cache K V} {call : Call K V} {limit n : Nat}
    (hget : s.cache.table.get? k = none) (htable : c.table = s.cache.table)
    (hentries : c.entries = s.cache.entries) :
    s.HaltsWith (s.Made k) (n + 1) (c, call.goTo (.refuse limit)) :=
  .goes rfl (.halts rfl (made_of_table hget rfl htable hentries))

/-- A call that does not find its key makes an entry for it, or it ends. -/
theorem haltsWith_absent (hs : s.Reachable) {r : Request K V}
    (hget : s.cache.table.get? r.key = none) :
    s.HaltsWith (s.Made r.key) 4 (Call.start r s.cache) := by
  obtain ⟨htable, hentries, hnow⟩ := Call.start_cache r s.cache
  have hrequest (stage : Stage K V) : ((Call.start r s.cache).2.goTo stage).request = r :=
    Call.start_request r s.cache
  refine .goes (by rw [Call.isHalted, Call.start_stage]) ?_
  rw [Call.start_advance]
  rcases Call.lookup_absent (htable ▸ hget) with ⟨outcome, c', hlookup, htable', hentries'⟩ |
    hlookup | hlookup
  · rw [hlookup]
    exact .halts rfl (made_of_table hget rfl (htable'.trans htable) (hentries'.trans hentries))
  · rw [hlookup, hnow]
    have hhalts := haltsWith_insertion hs ((Call.start r s.cache).2.goTo (.insert s.cache.now))
      (by rw [hrequest]; exact hget) htable hentries rfl
    rw [hrequest] at hhalts
    exact hhalts.mono (by decide)
  · -- A load reserves before it inserts, and it may be refused.
    rw [hlookup, hnow]
    refine .goes rfl ?_
    show s.HaltsWith _ 2 ((Call.start r s.cache).1.reserveLoad, (Call.start r s.cache).2.goTo
      (if (Call.start r s.cache).1.atLoadLimit then .refuse _ else .insert s.cache.now))
    split
    · exact haltsWith_refusal hget htable hentries
    · have hhalts := haltsWith_insertion (c := (Call.start r s.cache).1.reserveLoad) hs
        ((Call.start r s.cache).2.goTo (.insert s.cache.now))
        (by rw [hrequest]; exact hget) htable hentries rfl
      rw [hrequest] at hhalts
      exact hhalts

/-! ## Starts -/

omit [DecidableEq K] in
theorem withLatest_isUse (r : Request K V) (p : Cache K V × Call K V) (s : System K V) :
    ((s.withLatest p).outcome? s.calls.length).any (Outcome.isUse r) = p.2.stage.isUse r := by
  rw [outcome?, withLatest_getElem?, Option.map_some]
  cases p.2.stage <;> rfl

theorem Reachable.haltsWith_present (hs : s.Reachable) {r : Request K V}
    (hget : s.cache.table.get? r.key = some node) :
    s.Answers s.cache.now node s.cache 3 (Call.start r s.cache) := by
  cases r with
  | invalidate key => exact haltsWith_invalidate hs.filed hget
  | _ => exact haltsWith_found hs nofun hget

/-- A call that starts goes on until it is at rest. -/
theorem Reachable.start_turned (hs : s.Reachable) (r : Request K V) :
    ∃ q, s.start r = s.withLatest q ∧ q.2.stage.rests = true ∧
      Turned s.cache.now (s.use? (.start r)) s.cache q.1 := by
  cases hget : s.cache.table.get? r.key with
  | none =>
    obtain ⟨q, hmade, hstart⟩ := (haltsWith_absent hs hget).start_awake (by decide)
      fun q hq => Stage.ne_parked_of_rests hq.rests
    have huse : s.use? (.start r) = (q.1.table.get? r.key).map Table.Node.payload := by
      simp only [use?, hget, hstart, withLatest_cache]
    exact ⟨q, hstart, hmade.rests, huse ▸ hmade.turned⟩
  | some node =>
    obtain ⟨q, ⟨hanswered, hrequest⟩, -, hstart⟩ := (hs.haltsWith_present hget).request.start
      (by decide) fun q hq _ => Call.halted_of_rests hq.1.rests
    refine ⟨_, hstart, hanswered.rests, ?_⟩
    have huse : s.use? (.start r) =
        if (q.2.expire q.1).2.stage.isUse r then some node.payload else none := by
      simp only [use?, hget, hstart, withLatest_isUse]
    have hturned := hanswered.turned
    rw [Call.expire_request, hrequest, Call.start_request] at hturned
    exact huse ▸ hturned

/-! ## Replies -/

/-- A callback that has ended comes to rest. -/
theorem haltsWith_resume {epoch : Nat} {prior : ValueState V} (hc : c.table.Complete)
    (hnode : c.Handles node) (hstage : call.stage = .running node epoch prior)
    (hsuits : call.stage.Suits call.request) (r : Return V) :
    s.Answers c.now node c 2 (call.resume r c) := by
  have htable := Call.resume_table r c call
  have heach := (Call.resume_each (c := c) r hstage).imp (S := fun _ => Entry.SameUse)
    fun _ _ _ => Call.SettlesAt.sameUse
  rw [hstage] at hsuits
  obtain ⟨stage, hcall, hends⟩ := Call.resume_ends r c hstage hsuits
  generalize call.resume r c = out at htable heach hcall
  obtain ⟨c', call'⟩ := out
  subst hcall
  have hturned : Turned c.now none c c' := turned_of_table htable heach
  have hcomplete : c'.table.Complete := htable ▸ hc
  have hhandles := hnode.congr htable heach
  cases hends with
  | closes outcome hno => exact haltsWith_done hno hturned
  | uses outcome huse =>
    exact (haltsWith_touch (n := 0) huse hcomplete hhandles hturned).mono (by decide)
  | loads v? huse =>
    exact .goes rfl (haltsWith_touch huse hcomplete
      (hhandles.congr rfl (Entry.lenient_sameUse.each_refl _)) (hturned.congr rfl rfl))
  | fails error => exact .goes rfl (haltsWith_done rfl (hturned.congr rfl rfl))
  | panics reason => exact .goes rfl (haltsWith_done rfl (hturned.congr rfl rfl))

/-- All calls are at rest, as they are between the moves of a single caller. -/
def Resting (s : System K V) : Prop :=
  ∀ call ∈ s.calls, call.stage.rests = true

omit [DecidableEq K] in
theorem Resting.withLatest {p q : Cache K V × Call K V} (h : (s.withLatest p).Resting)
    (hq : q.2.stage.rests = true) : (s.withLatest q).Resting := by
  intro call hmem
  rcases List.mem_append.1 hmem with hold | hnew
  · exact h call (List.mem_append_left _ hold)
  · rw [List.mem_singleton.1 hnew]
    exact hq

omit [DecidableEq K] in
/-- A system whose latest call is known is what that call makes of the others. -/
theorem exists_withLatest (hi : s.calls[s.calls.length - 1]? = some call) :
    ∃ t : System K V, s = t.withLatest (s.cache, call) ∧ s.calls.length - 1 = t.calls.length := by
  refine ⟨{ s with calls := s.calls.dropLast }, ?_, List.length_dropLast.symm⟩
  have hlast : s.calls.getLast? = some call := by rw [List.getLast?_eq_getElem?, hi]
  have hcalls : s.calls.dropLast ++ [call] = s.calls := List.dropLast_append_getLast? call hlast
  simp [withLatest, hcalls]

/-- The callback of the latest call returns, and the call goes on. -/
theorem reply_latest {t : System K V} (ht : s = t.withLatest (s.cache, call))
    (hlength : s.calls.length - 1 = t.calls.length) (r : Return V) :
    s.reply r (s.calls.length - 1) =
      (t.withLatest (call.resume r s.cache)).carryOn t.calls.length := by
  have hresume : s.resume r (s.calls.length - 1) = t.withLatest (call.resume r s.cache) := by
    rw [hlength]
    nth_rewrite 1 [ht]
    exact withLatest_act (a := .resume r t.calls.length) rfl
  rw [reply, hresume, hlength]

/-- Nothing is running that could end. -/
theorem reply_of_halted {r : Return V} {i : Nat}
    (h : ∀ call, s.calls[i]? = some call → ∃ outcome, call.stage = .done outcome) :
    s.reply r i = s := by
  have hresume : s.resume r i = s := by
    cases hi : s.calls[i]? with
    | none => exact withCall_eq_self hi
    | some call =>
      obtain ⟨outcome, hdone⟩ := h call hi
      obtain ⟨hlt, hcall⟩ := List.getElem?_eq_some_iff.1 hi
      rw [resume, withCall_eq hi, Call.resume, hdone]
      simp [← hcall]
  rw [reply, hresume]
  cases hi : s.calls[i]? with
  | none =>
    have hrun (fuel : Nat) : s.runCall i fuel = s := by
      cases fuel with
      | zero => rfl
      | succ fuel => simp [runCall, hi]
    rw [carryOn, hrun, expire, withCall_eq_self hi, hrun]
  | some call =>
    obtain ⟨outcome, hdone⟩ := h call hi
    have hrun := runCall_halted hi (by rw [Call.isHalted, hdone]) stepLimit
    exact (carryOn_done (hrun.symm ▸ hi) hdone).trans hrun

/-- A reply ends the latest call if its callback runs, and is none otherwise. -/
theorem Reachable.reply_turned (hs : s.Reachable) (hrest : s.Resting) (r : Return V) :
    Turned s.cache.now (s.use? (.reply r)) s.cache (s.reply r (s.calls.length - 1)).cache ∧
      (s.reply r (s.calls.length - 1)).Resting := by
  -- Without a callback that could end the reply does nothing, and it is no use.
  have hidle (huse : s.use? (.reply r) = none)
      (h : ∀ call, s.calls[s.calls.length - 1]? = some call →
        ∃ outcome, call.stage = .done outcome) :
      Turned s.cache.now (s.use? (.reply r)) s.cache (s.reply r (s.calls.length - 1)).cache ∧
        (s.reply r (s.calls.length - 1)).Resting := by
    rw [huse, reply_of_halted h]
    exact ⟨turned_of_table rfl (Entry.lenient_sameUse.each_refl _), hrest⟩
  cases hi : s.calls[s.calls.length - 1]? with
  | none => exact hidle (by simp only [use?, hi]) fun call hcall => by rw [hi] at hcall; cases hcall
  | some call =>
    have hmem := List.mem_of_getElem? hi
    have hcase := hrest call hmem
    cases hstage : call.stage with
    | done outcome =>
      exact hidle (by simp only [use?, hi, hstage]) fun call' hcall =>
        ⟨outcome, Option.some.inj (hi.symm.trans hcall) ▸ hstage⟩
    | running node epoch prior =>
      obtain ⟨t, ht, hlength⟩ := exists_withLatest hi
      have hnode : s.cache.Handles node :=
        hs.filed.handles call hmem node (by rw [Call.node?, hstage])
      have hhalts := (haltsWith_resume (s := t) hs.filed.complete hnode hstage
        (hs.orderly call hmem) r).request
      obtain ⟨q, ⟨hanswered, hrequest⟩, -, hcarry⟩ := hhalts.carryOn (by decide)
        fun q hq _ => Call.halted_of_rests hq.1.rests
      have hreply : s.reply r (s.calls.length - 1) = t.withLatest (q.2.expire q.1) :=
        (reply_latest ht hlength r).trans hcarry
      -- Whether the reply is a use shows where the call comes to a halt.
      have huse : s.use? (.reply r) =
          if (q.2.expire q.1).2.stage.isUse call.request then some node.payload else none := by
        simp only [use?, hi, hstage, hreply]
        rw [hlength, withLatest_isUse]
      have hturned := hanswered.turned
      rw [Call.expire_request, hrequest, Call.resume_request] at hturned
      rw [huse, hreply]
      exact ⟨hturned, (ht ▸ hrest).withLatest hanswered.rests⟩
    | _ => rw [hstage] at hcase; cases hcase

/-! ## Moves -/

theorem Resting.start (h : s.Resting) (hs : s.Reachable) (r : Request K V) :
    (s.start r).Resting := by
  obtain ⟨q, hstart, hrests, -⟩ := hs.start_turned r
  rw [hstart]
  intro call hmem
  rcases List.mem_append.1 hmem with hold | hnew
  · exact h call hold
  · rw [List.mem_singleton.1 hnew]
    exact hrests

theorem Resting.move (h : s.Resting) (hs : s.Reachable) (m : Move K V) : (s.move m).Resting := by
  cases m with
  | start r => exact h.start hs r
  | reply r => exact (hs.reply_turned h r).2
  | collect keepAs => exact fun call hmem => h call (collect_calls_subset _ keepAs s hmem)
  | upkeep u =>
    intro call hmem
    exact h call (keepUp_calls u s ▸ hmem)

/-- A move of a single caller moves at most one entry to the front, the one that it uses. -/
theorem Reachable.move_turned (hs : s.Reachable) (hrest : s.Resting) (m : Move K V) :
    Turned s.cache.now (s.use? m) s.cache (s.move m).cache := by
  cases m with
  | start r =>
    obtain ⟨q, hstart, -, hturned⟩ := hs.start_turned r
    exact (congrArg System.cache hstart).symm ▸ hturned
  | reply r => exact (hs.reply_turned hrest r).1
  | collect keepAs =>
    have hcache : (s.move (.collect keepAs)).cache = s.cache := by
      unfold System.move collect
      dsimp only
      split <;> rfl
    rw [hcache]
    exact turned_of_table rfl (Entry.lenient_sameUse.each_refl _)
  | upkeep u => exact keepUp_turned hs.sound hs.filed.complete u _

omit [DecidableEq K] in
theorem resting_new (config : Config) (clock : Clock) (hashOf : K → UInt64) :
    (System.new config clock hashOf : System K V).Resting :=
  fun _ hcall => absurd hcall List.not_mem_nil

theorem Resting.moveAll (h : s.Resting) (hs : s.Reachable) (ms : List (Move K V)) :
    (s.moveAll ms).Resting := by
  induction ms generalizing s with
  | nil => exact h
  | cons m ms ih => exact ih (h.move hs m) (hs.move m)

end System

end ReadThrough
