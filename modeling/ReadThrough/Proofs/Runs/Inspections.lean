import ReadThrough.Proofs.Runs.Bystanders

/-! # What Calls Do to Their Entries

  A call deals with the entry that it refers to in two ways: it looks at it, and its callback for
  it ends. What comes of that depends on the entry and on the request alone.

  - **Suits**: which stages a call with a request goes through.
  - **Inspects**: what a look at an entry makes of the entry and of the call.
  - **Settles**: what the end of a callback makes of them.
  - **Passes**: all other critical sections, which leave the states of all entries alone.
  - **act_own**: what an action makes of the entry that its call refers to.
  - **Orderly**: in every reachable system the calls are at stages that suit their requests.
-/

namespace ReadThrough

open Cache Entries

variable {K V : Type}

/-! ## Stages that suit a request -/

/-- Whether a request is for a load. -/
def Request.isLoad : Request K V → Bool
  | .load .. => true
  | _ => false

/-- Whether a request inserts its key if that is absent. -/
def Request.inserts : Request K V → Bool
  | .load .. => true
  | .update _ => true
  | .put .. => true
  | _ => false

/-- The outcome that a call has come to. -/
def Stage.outcome? : Stage K V → Option (Outcome V)
  | .release _ _ outcome => some outcome
  | .touch _ _ outcome => some outcome
  | .done outcome => some outcome
  | _ => none

/-- A stage that calls with a request go through. -/
def Stage.Suits (r : Request K V) : Stage K V → Prop
  | .inspect .. => ∀ key, r ≠ .invalidate key
  | .reserve _ => r.isLoad = true
  | .insert _ => r.inserts = true
  | .running _ _ prior => (∃ key, r = .update key) ∨ (r.isLoad = true ∧ prior = .unassigned)
  | .retire _ => ∃ key, r = .invalidate key
  | _ => True

namespace Call

variable {held : Held} {c : Cache K V} {call : Call K V} {node : EntryNode K} {now : Nat}
  {e : Entry K V}

theorem lookup_suits [DecidableEq K] (r : Request K V) (c : Cache K V) :
    (lookup r c).2.Suits r := by
  unfold lookup
  split
  · next key =>
    split
    · trivial
    · exact ⟨key, rfl⟩
  · next hname =>
    split
    · exact hname
    · cases r with
      | invalidate key => exact absurd rfl (hname key)
      | _ => trivial

theorem insert_suits [DecidableEq K] (hs : c.table.Sound) (hr : call.request.inserts = true) :
    (call.insert now c).2.Suits call.request := by
  have hinserts := insert_spared call now hs
  generalize call.insert now c = out at hinserts
  cases hinserts with
  | found _ _ _ _ _ hstage => rcases hstage with rfl | rfl <;> trivial
  | refused _ _ _ _ _ _ hstage => rcases hstage with ⟨_, rfl | rfl⟩ <;> trivial
  | made _ _ _ _ _ _ _ _ hstage =>
    subst hstage
    unfold inserted
    cases hrequest : call.request with
    | load key expire acceptEmpty => exact .inr ⟨rfl, rfl⟩
    | update key => exact .inl ⟨key, rfl⟩
    | put key content => trivial
    | _ =>
      rw [hrequest] at hr
      cases hr

/-! ## Looking at an entry -/

/-- What a look at the entry `e` of the node makes of the entry and of the call. -/
inductive Inspects (held : Held) (call : Call K V) (node : EntryNode K) (e : Entry K V) :
    Entry K V → Stage K V → Prop where
  /-- The entry has left the table. -/
  | restarts (hremoved : e.removed = true) : Inspects held call node e e .lookup
  /-- An operation is in flight, and the call waits for it. -/
  | parks (hpending : e.value = .pending) : Inspects held call node e e (.parked node e.epoch)
  /-- An operation is in flight, and the call has no time. -/
  | givesUp (seconds : Nat) (hpending : e.value = .pending) :
      Inspects held call node e e (.done (.failed (.loadTimeout seconds)))
  /-- There is a value. -/
  | takes (v : Value V) (now : Nat) (hpeek : e.value.peek held = some v)
      (hr : (∃ key, call.request = .get key) ∨ call.request.isLoad = true ∨
        ∃ key content, call.request = .put key content) :
      Inspects held call node e (e.resolve held) (.touch node now (.value (some v)))
  /-- There is an empty result that will do. -/
  | takesEmpty (now : Nat) (hr : call.request.isLoad = true) (hmissing : e.value = .missing) :
      Inspects held call node e (e.resolve held) (.touch node now (.value none))
  /-- There is no value, and the call asks for nothing else. -/
  | misses (outcome : Outcome V) (hpeek : e.value.peek held = none)
      (hr : (∃ key, call.request = .get key ∧ outcome = .value none) ∨ outcome = .marked false) :
      Inspects held call node e (e.resolve held) (.done outcome)
  /-- A load would have to start, but too many are in flight. -/
  | refuses (policy : NullPolicy) (key : K) (expire : Nat) (acceptEmpty : Bool) (now limit : Nat)
      (hr : call.request = .load key expire acceptEmpty)
      (hfind : e.find held policy expire acceptEmpty now = .load) :
      Inspects held call node e (e.resolve held) (.refuse limit)
  /-- A load starts. -/
  | loads (policy : NullPolicy) (key : K) (expire : Nat) (acceptEmpty : Bool) (now : Nat)
      (hr : call.request = .load key expire acceptEmpty)
      (hfind : e.find held policy expire acceptEmpty now = .load) :
      Inspects held call node e (e.resolve held).begin (.running node (e.epoch + 1) .unassigned)
  /-- An update starts. -/
  | updates (key : K) (hr : call.request = .update key) (hpending : e.value ≠ .pending) :
      Inspects held call node e e.begin (.running node (e.epoch + 1) (e.value.resolve held))
  /-- There is no value, and the call puts its own in place. -/
  | puts (key : K) (content : V) (v : Value V) (now : Nat) (hr : call.request = .put key content)
      (hpeek : e.value.peek held = none) (hpending : e.value ≠ .pending) :
      Inspects held call node e ((e.resolve held).install (.ready v) now)
        (.touch node now (.value (some v)))
  /-- There is a value, and it is marked. -/
  | marks (key : K) (v : Value V) (now : Nat) (next? : Option EntryId)
      (hr : call.request = .mark key) (hpeek : e.value.peek held = some v) :
      Inspects held call node e { (e.resolve held).enlist v with nextDirty? := next? }
        (.touch node now (.marked true))

theorem resolve_of_pending (held : Held) (h : e.value = .pending) : e.resolve held = e := by
  have hvalue : e.value.resolve held = e.value := by rw [h]; rfl
  rw [Entry.resolve, hvalue]

theorem park_inspects (he : c.entries[node.payload]? = some e) (hpending : e.value = .pending) :
    ∃ e', (park call node e c).1.entries[node.payload]? = some e' ∧
      call.Inspects held node e e' (park call node e c).2 := by
  unfold park
  split
  · exact ⟨e, he, .givesUp 0 hpending⟩
  · exact ⟨e, he, .parks hpending⟩

/-- The value that can be had from what a load finds usable. -/
theorem find_hit {policy : NullPolicy} {expire : Nat} {acceptEmpty : Bool} {v? : Option (Value V)}
    (h : e.find held policy expire acceptEmpty now = .hit v?) :
    (∃ v, v? = some v ∧ e.value.peek held = some v) ∨ (v? = none ∧ e.value = .missing) := by
  unfold Entry.find at h
  cases hvalue : e.value with
  | pending => simp [hvalue] at h
  | dirty v =>
    simp only [hvalue] at h
    exact .inl ⟨v, (Entry.Finding.hit.inj h).symm, rfl⟩
  | missing =>
    simp only [hvalue] at h
    split at h
    · exact .inr ⟨(Entry.Finding.hit.inj h).symm, rfl⟩
    · cases h
  | _ =>
    -- What is neither pending, dirty nor missing is served if it can be had and is fresh.
    simp only [hvalue] at h
    split at h
    · next v hpeek =>
      split at h
      · exact .inl ⟨v, (Entry.Finding.hit.inj h).symm, hpeek⟩
      · cases h
    · cases h

theorem find_pending {policy : NullPolicy} {expire : Nat} {acceptEmpty : Bool}
    (h : e.find held policy expire acceptEmpty now = .pending) : e.value = .pending := by
  by_contra hne
  unfold Entry.find at h
  cases hvalue : e.value with
  | pending => exact hne hvalue
  | _ =>
    simp only [hvalue] at h
    repeat' split at h
    all_goals cases h

theorem inspectGet_inspects {key : K} (he : c.entries[node.payload]? = some e)
    (hr : call.request = .get key) :
    ∃ e', (inspectGet held node e c).1.entries[node.payload]? = some e' ∧
      call.Inspects held node e e' (inspectGet held node e c).2 := by
  have he' : (c.entries.modify node.payload (Entry.resolve held))[node.payload]? =
      some (e.resolve held) := by simp [Array.getElem?_modify, he]
  unfold inspectGet
  cases hpeek : e.value.peek held with
  | some v => exact ⟨_, he', .takes v _ hpeek (.inl ⟨key, hr⟩)⟩
  | none => exact ⟨_, he', .misses _ hpeek (.inl ⟨key, hr, rfl⟩)⟩

theorem inspectLoad_inspects {key : K} {expire : Nat} {acceptEmpty : Bool}
    (he : c.entries[node.payload]? = some e) (hr : call.request = .load key expire acceptEmpty) :
    ∃ e', (inspectLoad held call expire acceptEmpty node now e c).1.entries[node.payload]? =
        some e' ∧
      call.Inspects held node e e' (inspectLoad held call expire acceptEmpty node now e c).2 := by
  have he' : (c.entries.modify node.payload (Entry.resolve held))[node.payload]? =
      some (e.resolve held) := by simp [Array.getElem?_modify, he]
  have hload : call.request.isLoad = true := by rw [hr]; rfl
  unfold inspectLoad
  dsimp only
  split
  · next hremoved => exact ⟨e, he, .restarts hremoved⟩
  split
  · -- The entry can answer, with a value or with the empty result that is cached.
    next v? hfind =>
    rcases find_hit hfind with ⟨v, rfl, hpeek⟩ | ⟨rfl, hmissing⟩
    · exact ⟨_, he', .takes v _ hpeek (.inr (.inl hload))⟩
    · exact ⟨_, he', .takesEmpty _ hload hmissing⟩
  · -- Some callback runs for the entry, so the call waits for it or gives up.
    next hfind =>
    have hpending := find_pending hfind
    rw [resolve_of_pending held hpending] at he'
    exact park_inspects (c := c.modify node.payload (Entry.resolve held)) he' hpending
  · -- The entry is to be loaded, unless too many loads are running.
    next hfind =>
    split
    · exact ⟨_, he', .refuses _ key expire acceptEmpty now _ hr hfind⟩
    · refine ⟨_, ?_, .loads _ key expire acceptEmpty now hr hfind⟩
      show ((c.entries.modify node.payload (Entry.resolve held)).modify node.payload
        Entry.begin)[node.payload]? = _
      rw [Array.getElem?_modify, if_pos rfl, he']
      rfl

theorem inspectUpdate_inspects {key : K} (he : c.entries[node.payload]? = some e)
    (hr : call.request = .update key) :
    ∃ e', (inspectUpdate held call node e c).1.entries[node.payload]? = some e' ∧
      call.Inspects held node e e' (inspectUpdate held call node e c).2 := by
  unfold inspectUpdate
  split
  · next hremoved => exact ⟨e, he, .restarts hremoved⟩
  split
  · next hpending => exact park_inspects he ((ValueState.isPending_iff e.value).1 hpending)
  · next hpending =>
    rw [ValueState.isPending_iff] at hpending
    refine ⟨e.begin, ?_, .updates key hr hpending⟩
    simp [Array.getElem?_modify, he]

theorem inspectPut_inspects {key : K} {content : V} {own : Value V}
    (he : c.entries[node.payload]? = some e) (hr : call.request = .put key content)
    (hown : call.own? = some own) :
    ∃ e', (inspectPut held call node now e c).1.entries[node.payload]? = some e' ∧
      call.Inspects held node e e' (inspectPut held call node now e c).2 := by
  have he' : (c.entries.modify node.payload (Entry.resolve held))[node.payload]? =
      some (e.resolve held) := by simp [Array.getElem?_modify, he]
  unfold inspectPut
  rw [hown]
  split
  · next hremoved => exact ⟨e, he, .restarts hremoved⟩
  split
  · next hpending => exact park_inspects he ((ValueState.isPending_iff e.value).1 hpending)
  next hpending =>
  rw [ValueState.isPending_iff] at hpending
  dsimp only
  -- A put takes the value that is there, and installs its own if there is none.
  cases hpeek : e.value.peek held with
  | some v => exact ⟨_, he', .takes v _ hpeek (.inr (.inr ⟨key, content, hr⟩))⟩
  | none =>
    refine ⟨_, ?_, .puts key content own now hr hpeek hpending⟩
    show ((c.entries.modify node.payload (Entry.resolve held)).modify node.payload
      (Entry.install (.ready own) now))[node.payload]? = _
    rw [Array.getElem?_modify, if_pos rfl, he']
    rfl

theorem inspectMark_inspects {key : K} (he : c.entries[node.payload]? = some e)
    (hr : call.request = .mark key) :
    ∃ e', (inspectMark held node e c).1.entries[node.payload]? = some e' ∧
      call.Inspects held node e e' (inspectMark held node e c).2 := by
  have he' : (c.entries.modify node.payload (Entry.resolve held))[node.payload]? =
      some (e.resolve held) := by simp [Array.getElem?_modify, he]
  unfold inspectMark
  cases hpeek : e.value.peek held with
  | none => exact ⟨_, he', .misses _ hpeek (.inr rfl)⟩
  | some v =>
    dsimp only
    rw [makeDirty_entries]
    obtain ⟨e'', he'', n, rfl⟩ := (enlist_each node.payload v
      (c.entries.modify node.payload (Entry.resolve held)) c.chain).2 _ _ he'
    rw [if_pos rfl] at he''
    exact ⟨_, he'', .marks key v _ n hr hpeek⟩

/-- What a call makes of the entry that it looks at, and where it stands then. -/
theorem inspect_inspects (held : Held) (now : Nat) (hproper : call.Proper)
    (hsuits : ∀ key, call.request ≠ .invalidate key) (he : c.entries[node.payload]? = some e) :
    ∃ e', (inspect held call node now c).1.entries[node.payload]? = some e' ∧
      call.Inspects held node e e' (inspect held call node now c).2 := by
  unfold Proper at hproper
  unfold inspect
  rw [he]
  dsimp only
  cases hr : call.request with
  | get key => exact inspectGet_inspects he hr
  | load key expire acceptEmpty => exact inspectLoad_inspects he hr
  | update key => exact inspectUpdate_inspects he hr
  | put key content =>
    rw [hr] at hproper
    obtain ⟨own, hown⟩ := hproper
    exact inspectPut_inspects he hr hown
  | mark key => exact inspectMark_inspects he hr
  | invalidate key => exact absurd hr (hsuits key)

theorem advance_inspect [DecidableEq K] (held : Held) (c : Cache K V)
    (hstage : call.stage = .inspect node now) :
    call.advance held c =
      ((inspect held call node now c).1, call.goTo (inspect held call node now c).2) := by
  rw [advance, hstage]

/-! ## The end of a callback -/

/-- What the end of a callback makes of the entry `e` that it ran for, and of the call. -/
inductive Settles (call : Call K V) (r : Return V) (node : EntryNode K) (epoch : Nat)
    (prior : ValueState V) (e : Entry K V) : Entry K V → Stage K V → Prop where
  /-- The loader has found a value. -/
  | loaded (v : Value V) (now : Nat) (hr : call.request.isLoad = true) :
      Settles call r node epoch prior e (e.install (.ready v) now)
        (.release node now (.value (some v)))
  /-- The loader has found that there is none. -/
  | empty (now : Nat) (hr : call.request.isLoad = true) :
      Settles call r node epoch prior e (e.install .missing now) (.release node now (.value none))
  /-- The loader has failed. -/
  | failed (now : Nat) (error : CacheError) (hr : call.request.isLoad = true) :
      Settles call r node epoch prior e (e.fail epoch error) (.release node now (.failed error))
  /-- The updater has made a value. -/
  | updated (content : V) (v : Value V) (now : Nat) (next? : Option EntryId)
      (hresult : r = .value content) (hr : call.request.isLoad = false) :
      Settles call r node epoch prior e
        { (e.install (.dirty v) now).enlist v with nextDirty? := next? }
        (.touch node now (.value (some v)))
  /-- The loader has panicked, or the updater has not made a value. -/
  | restored (outcome : Outcome V) (stage : Stage K V)
      (hstage : stage = .done outcome ∨ ∃ now, stage = .release node now outcome)
      (hvalue : outcome.value? = none)
      (hload : call.request.isLoad = true → ∀ v?, outcome ≠ .value v?) :
      Settles call r node epoch prior e (e.restore epoch prior) stage

theorem settleLoad_settles {epoch : Nat} {prior : ValueState V} {r : Return V}
    (he : c.entries[node.payload]? = some e) (hr : call.request.isLoad = true) :
    ∃ e', (settleLoad node epoch prior r c).1.entries[node.payload]? = some e' ∧
      call.Settles r node epoch prior e e' (settleLoad node epoch prior r c).2 := by
  have hmod (f : Entry K V → Entry K V) :
      (c.entries.modify node.payload f)[node.payload]? = some (f e) := by
    simp [Array.getElem?_modify, he]
  cases r with
  | value content => exact ⟨_, hmod _, .loaded _ _ hr⟩
  | empty => exact ⟨_, hmod _, .empty _ hr⟩
  | fail reason => exact ⟨_, hmod _, .failed _ _ hr⟩
  | panic reason =>
    exact ⟨_, hmod _, .restored (.panicked reason) _ (.inr ⟨_, rfl⟩) rfl fun _ _ => nofun⟩

theorem settleUpdate_settles {epoch : Nat} {prior : ValueState V} {r : Return V}
    (he : c.entries[node.payload]? = some e) (hr : call.request.isLoad = false) :
    ∃ e', (settleUpdate node epoch prior r c).1.entries[node.payload]? = some e' ∧
      call.Settles r node epoch prior e e' (settleUpdate node epoch prior r c).2 := by
  have hmod (f : Entry K V → Entry K V) :
      (c.entries.modify node.payload f)[node.payload]? = some (f e) := by
    simp [Array.getElem?_modify, he]
  have hrestored (outcome : Outcome V) (hvalue : outcome.value? = none) :
      call.Settles r node epoch prior e (e.restore epoch prior) (.done outcome) := by
    refine .restored outcome _ (.inl rfl) hvalue fun hload => ?_
    rw [hr] at hload
    cases hload
  cases r with
  -- Only a value changes the entry; with any other end it gets back what it had.
  | value content =>
    unfold settleUpdate
    dsimp only
    rw [makeDirty_entries]
    obtain ⟨e', he', n, rfl⟩ := (enlist_each node.payload (c.allocate content).2
      (c.entries.modify node.payload (Entry.install (.dirty (c.allocate content).2) c.now))
      c.chain).2 _ _ (hmod _)
    rw [if_pos rfl] at he'
    exact ⟨_, he', .updated content _ _ n rfl hr⟩
  | empty => exact ⟨_, hmod _, hrestored (.value none) rfl⟩
  | fail reason => exact ⟨_, hmod _, hrestored (.failed (.updater reason)) rfl⟩
  | panic reason => exact ⟨_, hmod _, hrestored (.panicked reason) rfl⟩

/-- What a callback that ends makes of its entry, and where its call stands then. -/
theorem resume_settles {epoch : Nat} {prior : ValueState V} (r : Return V)
    (hstage : call.stage = .running node epoch prior) (he : c.entries[node.payload]? = some e) :
    ∃ e', (call.resume r c).1.entries[node.payload]? = some e' ∧
      call.Settles r node epoch prior e e' (call.resume r c).2.stage := by
  unfold resume
  rw [hstage]
  dsimp only
  split
  · next hr => exact settleLoad_settles he (by rw [hr]; rfl)
  · next hr =>
    refine settleUpdate_settles he ?_
    cases hrequest : call.request with
    | load key expire acceptEmpty => exact absurd hrequest (hr key expire acceptEmpty)
    | _ => rfl

/-! ## Other critical sections -/

/-- The call goes on without a change of any entry but of the time of its latest use. No callback
    starts or ends, and a call that would insert its key does not come to a value. -/
structure Passes (call : Call K V) (c : Cache K V) (out : Cache K V × Stage K V) : Prop where
  entries : ∀ id, CalmAt false id c.entries out.1.entries
  flights : out.2.flights = call.flights
  value : call.stage.outcome? = none → call.request.inserts = true →
    ∀ v?, out.2.outcome? ≠ some (.value v?)

theorem passes_of_same {stage : Stage K V} {out : Cache K V × Stage K V}
    (hentries : out.1.entries = c.entries) (hstage : call.stage = stage)
    (hflights : out.2.flights = stage.flights)
    (hvalue : call.request.inserts = true → ∀ v?, out.2.outcome? ≠ some (.value v?)) :
    call.Passes c out where
  entries := fun _ => calmAt_of_same (by rw [hentries])
  flights := by rw [hflights, flights, hstage]
  value := fun _ => hvalue

theorem lookup_outcome [DecidableEq K] {r : Request K V} (hr : r.inserts = true)
    (c : Cache K V) : (lookup r c).2.outcome? = none := by
  unfold lookup
  cases r with
  | load key expire acceptEmpty =>
    dsimp only
    split <;> rfl
  | update key =>
    dsimp only
    split <;> rfl
  | put key content =>
    dsimp only
    split <;> rfl
  | _ => cases hr

theorem wake_outcome (call : Call K V) (node : EntryNode K) (epoch : Nat) (c : Cache K V)
    (v? : Option (Value V)) : (wake call node epoch c).2.outcome? ≠ some (.value v?) := by
  unfold wake
  repeat' split
  all_goals simp [Stage.outcome?]

/-- Every critical section in which a call neither looks at its entry nor inserts or retires it. -/
theorem advance_passes [DecidableEq K] (held : Held) (c : Cache K V)
    (hinspect : ∀ node now, call.stage ≠ .inspect node now)
    (hinsert : ∀ now, call.stage ≠ .insert now) (hretire : ∀ node, call.stage ≠ .retire node) :
    call.Passes c ((call.advance held c).1, (call.advance held c).2.stage) := by
  unfold advance
  dsimp only
  cases hcase : call.stage with
  | lookup =>
    refine passes_of_same (lookup_entries _ c) hcase (lookup_rests call.request c).2 ?_
    intro hr v?
    show (lookup call.request c).2.outcome? ≠ _
    rw [lookup_outcome hr]
    exact nofun
  | inspect node now => exact absurd hcase (hinspect node now)
  | reserve now =>
    have hrests := reserve_rests now c
    unfold reserve at hrests ⊢
    refine passes_of_same rfl hcase hrests.2 fun _ v? => ?_
    show (if c.atLoadLimit then Stage.refuse c.loadLimit else .insert now).outcome? ≠ _
    split <;> exact nofun
  | refuse limit => exact passes_of_same rfl hcase rfl fun _ _ => nofun
  | insert now => exact absurd hcase (hinsert now)
  | giveBack error? =>
    cases error? <;> exact passes_of_same rfl hcase rfl fun _ _ => nofun
  | parked node epoch =>
    refine passes_of_same ?_ hcase (wake_rests call node epoch c).2 fun _ => ?_
    · show (wake call node epoch c).1.entries = c.entries
      rw [wake_cache]
    · exact wake_outcome call node epoch c
  | running node epoch prior => exact passes_of_same rfl hcase rfl fun _ _ => nofun
  -- The callback is over already: a reservation is given back, and the outcome is counted.
  | release node now outcome =>
    refine ⟨fun id => ?_, ?_, fun hnone => ?_⟩
    · cases outcome <;> exact .refl id _
    · rw [flights, hcase]
      cases outcome <;> rfl
    · rw [hcase] at hnone
      cases hnone
  -- The stamp is the one thing that a call changes here.
  | touch node now outcome =>
    refine ⟨fun id => calmAt_modify (Entry.calm_stamp now), ?_, fun hnone => ?_⟩
    · rw [flights, hcase]
      rfl
    · rw [hcase] at hnone
      cases hnone
  | retire node => exact absurd hcase (hretire node)
  | done outcome =>
    refine ⟨fun id => .refl id _, ?_, fun hnone => ?_⟩
    · rw [flights, hcase]
      rfl
    · rw [hcase] at hnone
      cases hnone

theorem expire_passes (c : Cache K V) (call : Call K V) :
    call.Passes c ((call.expire c).1, (call.expire c).2.stage) := by
  unfold expire
  split
  · next node epoch hstage =>
    have hsame : (wake call node epoch c).1.entries = c.entries := by rw [wake_cache]
    have hrests := (wake_rests call node epoch c).2
    have houtcome := wake_outcome call node epoch c
    generalize wake call node epoch c = out at hsame hrests houtcome
    obtain ⟨c', stage⟩ := out
    -- The wait is over already, or it is given up now.
    cases stage with
    | parked node' epoch' => exact passes_of_same hsame hstage rfl fun _ _ => nofun
    | _ => exact passes_of_same hsame hstage hrests fun _ => houtcome
  · exact ⟨fun id => .refl id _, rfl, fun hnone _ v? => by rw [hnone]; exact nofun⟩

/-- The end of a callback that does not run. -/
theorem resume_passes (r : Return V) (c : Cache K V)
    (hrunning : ∀ node epoch prior, call.stage ≠ .running node epoch prior) :
    call.Passes c ((call.resume r c).1, (call.resume r c).2.stage) := by
  unfold resume
  split
  · next node epoch prior hstage => exact absurd hstage (hrunning node epoch prior)
  · exact ⟨fun id => .refl id _, rfl, fun hnone _ v? => by rw [hnone]; exact nofun⟩

/-! ## The next stage -/

theorem Inspects.suits {e' : Entry K V} {stage : Stage K V}
    (h : call.Inspects held node e e' stage) : stage.Suits call.request := by
  cases h with
  | loads policy key expire acceptEmpty now hr hfind =>
    rw [hr]
    exact .inr ⟨rfl, rfl⟩
  | updates key hr hpending => exact .inl ⟨key, hr⟩
  | _ => trivial

theorem wake_suits (call : Call K V) (node : EntryNode K) (epoch : Nat) (c : Cache K V) :
    (wake call node epoch c).2.Suits call.request := by
  unfold wake
  repeat' split
  all_goals trivial

theorem advance_suits [DecidableEq K] (held : Held) (hs : c.table.Sound) (hproper : call.Proper)
    (h : call.stage.Suits call.request) : (call.advance held c).2.stage.Suits call.request := by
  unfold advance
  dsimp only
  cases hcase : call.stage with
  | lookup => exact lookup_suits call.request c
  | inspect node now =>
    rw [hcase] at h
    show (inspect held call node now c).2.Suits call.request
    cases he : c.entries[node.payload]? with
    -- Without an entry the call is done.
    | none =>
      unfold inspect
      rw [he]
      trivial
    | some e =>
      obtain ⟨e', -, hinspects⟩ := inspect_inspects held now hproper h he
      exact hinspects.suits
  -- Only loads take reservations, so the insertion that follows is one of a load.
  | reserve now =>
    rw [hcase] at h
    show (if c.atLoadLimit then Stage.refuse c.loadLimit else .insert now).Suits call.request
    split
    · trivial
    · cases hr : call.request with
      | load key expire acceptEmpty => rfl
      | _ =>
        rw [hr] at h
        cases h
  | insert now =>
    rw [hcase] at h
    exact insert_suits hs h
  | giveBack error? => cases error? <;> trivial
  | parked node epoch =>
    exact wake_suits call node epoch c
  | running node epoch prior =>
    rw [hcase] at h
    exact h
  | release node now outcome => cases outcome <;> trivial
  | _ => trivial

theorem resume_suits (r : Return V) (c : Cache K V) (h : call.stage.Suits call.request) :
    (call.resume r c).2.stage.Suits call.request := by
  unfold resume
  split
  · dsimp only
    split
    · cases r <;> trivial
    · cases r <;> trivial
  · exact h

theorem expire_suits (c : Cache K V) (h : call.stage.Suits call.request) :
    (call.expire c).2.stage.Suits call.request := by
  unfold expire
  split
  · next node epoch hstage =>
    have hwake := wake_suits call node epoch c
    generalize wake call node epoch c = out at hwake
    obtain ⟨c', stage⟩ := out
    cases stage with
    | parked node' epoch' => trivial
    | _ => exact hwake
  · exact h

end Call

/-! ## The calls of a system -/

namespace System

variable [DecidableEq K] {s : System K V} {a : Action K V} {i : Nat} {call : Call K V}

/-- What a call may do in an action that is about it. -/
theorem onCall_cases (ha : a.call? = some i) (held : Held) (c : Cache K V) (call : Call K V) :
    (∃ node now, a = .advance i ∧ call.stage = .inspect node now) ∨
    (∃ now, a = .advance i ∧ call.stage = .insert now) ∨
    (∃ node, a = .advance i ∧ call.stage = .retire node) ∨
    (∃ r node epoch prior, a = .resume r i ∧ call.stage = .running node epoch prior) ∨
    (call.Passes c ((a.onCall held c call).1, (a.onCall held c call).2.stage) ∧
      c.table.Within (a.onCall held c call).1.table) := by
  cases a with
  | advance j =>
    obtain rfl := Option.some.inj ha
    -- Only these three critical sections touch the entry or the table.
    have hpasses (hinspect : ∀ node now, call.stage ≠ .inspect node now)
        (hinsert : ∀ now, call.stage ≠ .insert now) (hretire : ∀ node, call.stage ≠ .retire node) :=
      And.intro (Call.advance_passes held c hinspect hinsert hretire)
        (Call.advance_within held c call hinsert)
    cases hstage : call.stage with
    | inspect node now => exact .inl ⟨node, now, rfl, rfl⟩
    | insert now => exact .inr (.inl ⟨now, rfl, rfl⟩)
    | retire node => exact .inr (.inr (.inl ⟨node, rfl, rfl⟩))
    | _ => exact .inr (.inr (.inr (.inr (hpasses (by simp [hstage]) (by simp [hstage])
        (by simp [hstage])))))
  -- A callback can only end if it is running.
  | resume r j =>
    obtain rfl := Option.some.inj ha
    have hwithin : c.table.Within (call.resume r c).1.table := by
      rw [Call.resume_table]
      exact .refl _
    by_cases hrunning : ∃ node epoch prior, call.stage = .running node epoch prior
    · obtain ⟨node, epoch, prior, hstage⟩ := hrunning
      exact .inr (.inr (.inr (.inl ⟨r, node, epoch, prior, rfl, hstage⟩)))
    · refine .inr (.inr (.inr (.inr ⟨Call.resume_passes r c fun node epoch prior hstage => ?_,
        hwithin⟩)))
      exact hrunning ⟨node, epoch, prior, hstage⟩
  -- Giving a wait up is a matter of the call alone.
  | expire j =>
    have hwithin : c.table.Within (call.expire c).1.table := by
      rw [Call.expire_table]
      exact .refl _
    exact .inr (.inr (.inr (.inr ⟨Call.expire_passes c call, hwithin⟩)))
  | _ => cases ha

/-- What a call makes of the entry that it refers to, unless it is about to retire it: it looks at
    the entry, its callback for the entry ends, or it leaves the entry alone. -/
theorem act_own {node : EntryNode K} {e : Entry K V} (ha : a.call? = some i)
    (hi : s.calls[i]? = some call) (hproper : call.Proper)
    (hsuits : call.stage.Suits call.request) (hnode : call.node? = some node)
    (hretire : call.stage ≠ .retire node) (he : s.cache.entries[node.payload]? = some e) :
    ∃ e', (s.act a).cache.entries[node.payload]? = some e' ∧
      (call.flights = [] ∧
          call.Inspects s.held node e e' (a.onCall s.held s.cache call).2.stage ∨
        (∃ r epoch prior, a = .resume r i ∧ call.stage = .running node epoch prior ∧
          call.Settles r node epoch prior e e' (a.onCall s.held s.cache call).2.stage) ∨
        e.Calm false e' ∧ (a.onCall s.held s.cache call).2.flights = call.flights) := by
  rw [act_cache ha hi]
  unfold Call.node? at hnode
  rcases onCall_cases ha s.held s.cache call with ⟨m, now, rfl, hstage⟩ | ⟨now, rfl, hstage⟩ |
    ⟨m, rfl, hstage⟩ | ⟨r, m, epoch, prior, rfl, hstage⟩ | ⟨hpasses, -⟩
  · -- The call looks at its entry.
    rw [hstage] at hnode hsuits
    obtain rfl := Option.some.inj hnode
    obtain ⟨e', he', hinspects⟩ := Call.inspect_inspects s.held now hproper hsuits he
    rw [Action.onCall, Call.advance_inspect _ _ hstage]
    exact ⟨e', he', .inl ⟨by rw [Call.flights, hstage]; rfl, hinspects⟩⟩
  · -- A call that inserts its key has no entry yet.
    rw [hstage] at hnode
    cases hnode
  · -- A call that retires its entry is excluded.
    rw [hstage] at hnode
    obtain rfl := Option.some.inj hnode
    exact absurd hstage hretire
  · -- The callback of the call ends.
    rw [hstage] at hnode
    obtain rfl := Option.some.inj hnode
    obtain ⟨e', he', hsettles⟩ := Call.resume_settles r hstage he
    exact ⟨e', he', .inr (.inl ⟨r, epoch, prior, rfl, hstage, hsettles⟩)⟩
  · -- Any other step leaves the entry alone.
    obtain ⟨e', he', hcalm⟩ := hpasses.entries node.payload e he
    exact ⟨e', he', .inr (.inr ⟨hcalm, hpasses.flights⟩)⟩

/-- Every call is at a stage that suits its request. -/
def Orderly (s : System K V) : Prop :=
  ∀ call ∈ s.calls, call.stage.Suits call.request

theorem Orderly.act (h : s.Orderly) (hs : s.Sound) (hk : s.Keyed) (a : Action K V) :
    (s.act a).Orderly := by
  intro call' hmem
  rcases mem_act_calls hmem with hold | ⟨r, rfl, rfl⟩ | ⟨i, call, ha, hi, rfl⟩
  · exact h call' hold
  · cases r <;> trivial
  · have hcall := List.mem_of_getElem? hi
    rw [onCall_request]
    cases a with
    | advance j => exact Call.advance_suits s.held hk.table (hs.proper call hcall) (h call hcall)
    | resume r j => exact Call.resume_suits r s.cache (h call hcall)
    | expire j => exact Call.expire_suits s.cache (h call hcall)
    | _ => cases ha

theorem Orderly.actAll (h : s.Orderly) (hs : s.Sound) (hk : s.Keyed) (as : List (Action K V)) :
    (s.actAll as).Orderly := by
  induction as generalizing s with
  | nil => exact h
  | cons a as ih => exact ih (h.act hs hk a) (hs.act a) (hk.act hs a)

theorem Reachable.orderly (h : s.Reachable) : s.Orderly := by
  obtain ⟨config, clock, hashOf, as, rfl⟩ := h
  refine Orderly.actAll (fun call hmem => ?_) (sound_new config clock hashOf)
    (keyed_new config clock hashOf) as
  cases hmem

end System

end ReadThrough
