import ReadThrough.Proofs.Loads.Records
import ReadThrough.Proofs.Loads.Reservations

/-! # What Waiting Calls Come To

  A call that finds its key pending waits for the operation of that epoch. When it wakes up the
  operation may be long over, and others may have started, ended and left their own traces on the
  entry since.

  - **Blameless**: in every reachable system only loads fail with the error of a loader.
  - **wake_pending**, **wake_failed**, **wake_retries**: the ways in which a wait goes on.
  - **Heeds**: what a call comes to that has waited for the operation of an epoch, in terms of how
    that operation ended in the run.
  - **waiters_heed**: every call that waits does so, and updates and puts start again.
-/

namespace ReadThrough

open Cache Entries

variable {K V : Type}

/-! ## Errors of loaders -/

/-- Whether a call at a stage has come to the error of a loader. -/
def Stage.blamesLoader (stage : Stage K V) : Bool :=
  match stage.outcome? with
  | some (.failed (.loader _)) => true
  | _ => false

namespace Call

variable {held : Held} {c : Cache K V} {call : Call K V} {node : EntryNode K} {e e' : Entry K V}
  {stage : Stage K V}

theorem Inspects.blameless (h : call.Inspects held node e e' stage) :
    stage.blamesLoader = false := by
  cases h with
  | misses outcome hpeek hr => rcases hr with ⟨key, -, rfl⟩ | rfl <;> rfl
  | _ => rfl

theorem lookup_blameless [DecidableEq K] (r : Request K V) (c : Cache K V) :
    (lookup r c).2.blamesLoader = false := by
  unfold lookup
  repeat' split
  all_goals rfl

theorem insert_blameless [DecidableEq K] (hs : c.table.Sound) (call : Call K V) (now : Nat) :
    (call.insert now c).2.blamesLoader = false := by
  have h := insert_spared call now hs
  generalize call.insert now c = out at h
  cases h with
  | found _ _ _ _ _ hstage => rcases hstage with rfl | rfl <;> rfl
  | refused _ _ _ _ _ _ hstage => rcases hstage with ⟨_, rfl | rfl⟩ <;> rfl
  | made _ _ _ _ _ _ _ _ hstage =>
    subst hstage
    unfold inserted
    split <;> rfl

/-- Of the calls that wait only loads take over the error of a loader. -/
theorem wake_blameless (hr : call.request.isLoad = false) (node : EntryNode K) (epoch : Nat)
    (c : Cache K V) : (wake call node epoch c).2.blamesLoader = false := by
  unfold wake
  split
  · rfl
  split
  · rfl
  split
  · next hload hfailure =>
    rw [hload] at hr
    cases hr
  · rfl

theorem settleUpdate_blameless (node : EntryNode K) (epoch : Nat) (prior : ValueState V)
    (r : Return V) (c : Cache K V) :
    (settleUpdate node epoch prior r c).2.blamesLoader = false := by
  cases r <;> rfl

/-- A call that is no load does not come to the error of a loader in a critical section. -/
theorem advance_blameless [DecidableEq K] (held : Held) (hs : c.table.Sound) (hproper : call.Proper)
    (hsuits : call.stage.Suits call.request) (hr : call.request.isLoad = false)
    (hreserved : call.isReserved = false) (h : call.stage.blamesLoader = false) :
    (call.advance held c).2.stage.blamesLoader = false := by
  unfold isReserved at hreserved
  unfold advance
  dsimp only
  cases hstage : call.stage with
  | lookup => exact lookup_blameless call.request c
  | inspect node now =>
    rw [hstage] at hsuits
    show (inspect held call node now c).2.blamesLoader = false
    cases he : c.entries[node.payload]? with
    | none =>
      unfold inspect
      rw [he]
      rfl
    | some e =>
      obtain ⟨e', -, hinspects⟩ := inspect_inspects held now hproper hsuits he
      exact hinspects.blameless
  | reserve now =>
    show (if c.atLoadLimit then Stage.refuse c.loadLimit else .insert now).blamesLoader = false
    split <;> rfl
  | insert now => exact insert_blameless hs call now
  | giveBack error? =>
    rw [hstage] at hreserved
    cases hreserved
  -- Of those that wait, only a load takes the error of the loader over.
  | parked node epoch => exact wake_blameless hr node epoch c
  -- Only a load has a reservation to release.
  | release node now outcome =>
    rw [hstage] at hreserved
    cases hreserved
  | touch node now outcome =>
    rw [hstage] at h
    exact h
  | done outcome =>
    rw [hstage] at h
    exact h
  | _ => rfl

theorem resume_blameless (r : Return V) (c : Cache K V) (hr : call.request.isLoad = false)
    (h : call.stage.blamesLoader = false) : (call.resume r c).2.stage.blamesLoader = false := by
  unfold resume
  split
  · next node epoch prior hstage =>
    cases hrequest : call.request with
    | load key expire acceptEmpty =>
      rw [hrequest] at hr
      cases hr
    | _ => exact settleUpdate_blameless node epoch prior r c
  · exact h

theorem expire_blameless (c : Cache K V) (hr : call.request.isLoad = false)
    (h : call.stage.blamesLoader = false) : (call.expire c).2.stage.blamesLoader = false := by
  unfold expire
  split
  · next node epoch hstage =>
    have hwake := wake_blameless hr node epoch c
    dsimp only
    split
    · rfl
    · exact hwake
  · exact h

end Call

namespace System

/-- Only loads come to the error of a loader. -/
def Blameless (s : System K V) : Prop :=
  ∀ call ∈ s.calls, call.request.isLoad = false → call.stage.blamesLoader = false

variable [DecidableEq K] {s : System K V}

theorem Blameless.act (h : s.Blameless) (hs : s.Reachable) (a : Action K V) :
    (s.act a).Blameless := by
  intro call' hmem hr
  rcases mem_act_calls hmem with hold | ⟨r, rfl, rfl⟩ | ⟨i, call, ha, hi, rfl⟩
  · exact h call' hold hr
  · rw [Call.start_stage]
    rfl
  · have hcall := List.mem_of_getElem? hi
    rw [onCall_request] at hr
    cases a with
    | advance j =>
      refine Call.advance_blameless s.held hs.keyed.table (hs.sound.proper call hcall)
        (hs.orderly call hcall) hr (Bool.eq_false_iff.2 fun hreserved => ?_) (h call hcall hr)
      rw [hs.accounted.onlyLoads call hcall hreserved] at hr
      cases hr
    | resume r j => exact Call.resume_blameless r s.cache hr (h call hcall hr)
    | expire j => exact Call.expire_blameless s.cache hr (h call hcall hr)
    | _ => cases ha

theorem Blameless.actAll (h : s.Blameless) (hs : s.Reachable) (as : List (Action K V)) :
    (s.actAll as).Blameless := by
  induction as generalizing s with
  | nil => exact h
  | cons a as ih => exact ih (h.act hs a) (hs.actAll [a])

theorem Reachable.blameless (h : s.Reachable) : s.Blameless := by
  obtain ⟨config, clock, hashOf, as, rfl⟩ := h
  refine Blameless.actAll (fun call hmem => ?_) ⟨config, clock, hashOf, [], rfl⟩ as
  cases hmem

end System

/-! ## The end of a wait -/

namespace Call

/-- The entry and the epoch of the operation that a call waits for. -/
def awaits? (call : Call K V) : Option (EntryId × Nat) :=
  match call.stage with
  | .parked node epoch => some (node.payload, epoch)
  | _ => none

variable {c : Cache K V} {call : Call K V} {node : EntryNode K} {epoch : Nat} {e : Entry K V}

theorem exists_parked {id : EntryId} (h : call.awaits? = some (id, epoch)) :
    ∃ node, call.stage = .parked node epoch ∧ node.payload = id := by
  unfold awaits? at h
  split at h
  · next node n hstage =>
    obtain ⟨rfl, rfl⟩ := Prod.mk.inj (Option.some.inj h)
    exact ⟨node, hstage, rfl⟩
  · cases h

/-- While the operation is in flight the call goes on waiting. -/
theorem wake_pending (he : c.entries[node.payload]? = some e) (h : e.isPendingAt epoch = true) :
    (wake call node epoch c).2 = .parked node epoch := by
  rw [wake, he]
  dsimp only
  rw [if_pos h]

/-- A load fails with the load that it has waited for. -/
theorem wake_failed {error : CacheError} (he : c.entries[node.payload]? = some e)
    (h : e.isPendingAt epoch = false) (hr : call.request.isLoad = true)
    (hfailure : e.failure? = some (epoch, error)) :
    (wake call node epoch c).2 = .done (.failed error) := by
  have hat : e.failureAt epoch = some error := by
    rw [Entry.failureAt, hfailure]
    exact if_pos rfl
  rw [wake, he]
  dsimp only
  rw [if_neg (by simp [h]), hat]
  cases hrequest : call.request with
  | load key expire acceptEmpty => rfl
  | _ =>
    rw [hrequest] at hr
    cases hr

/-- In all other cases the call starts again. -/
theorem wake_retries (he : c.entries[node.payload]? = some e) (h : e.isPendingAt epoch = false)
    (hretries : call.request.isLoad = false ∨ ∀ error, e.failure? ≠ some (epoch, error)) :
    (wake call node epoch c).2 = .lookup := by
  rw [wake, he]
  dsimp only
  rw [if_neg (by simp [h])]
  split
  · next error hload hat =>
    rcases hretries with hr | hnone
    · rw [hload] at hr
      cases hr
    · unfold Entry.failureAt at hat
      split at hat
      · next failed error' hfailure =>
        split at hat
        · next heq =>
          subst heq
          exact absurd hfailure (hnone error')
        · cases hat
      · cases hat
  · rfl

/-- Only a load fails when it wakes up, and only with the failure that is recorded for its epoch. -/
theorem failed_of_wake {error : CacheError} (he : c.entries[node.payload]? = some e)
    (h : e.isPendingAt epoch = false)
    (hfailed : (wake call node epoch c).2 = .done (.failed error)) :
    call.request.isLoad = true ∧ e.failure? = some (epoch, error) := by
  have hretries (h' : call.request.isLoad = false ∨ ∀ error, e.failure? ≠ some (epoch, error)) :
      False := by
    rw [wake_retries he h h'] at hfailed
    cases hfailed
  have hload : call.request.isLoad = true := by
    by_contra hr
    exact hretries (.inl (Bool.eq_false_iff.2 hr))
  refine ⟨hload, ?_⟩
  by_contra hother
  refine hretries (.inr fun error' hfailure => hother ?_)
  rw [wake_failed he h hload hfailure] at hfailed
  obtain rfl : error' = error := by simpa using hfailed
  exact hfailure

/-- A call that waits has just looked at its entry, or it has waited before. -/
theorem advance_parked [DecidableEq K] {held : Held} (hs : c.table.Sound)
    (h : (call.advance held c).2.stage = .parked node epoch) :
    (∃ m now, call.stage = .inspect m now) ∨ ∃ m n, call.stage = .parked m n := by
  unfold advance at h
  dsimp only [goTo] at h
  cases hstage : call.stage with
  | inspect m now => exact .inl ⟨m, now, rfl⟩
  | parked m n => exact .inr ⟨m, n, rfl⟩
  | lookup =>
    rw [hstage] at h
    dsimp only at h
    unfold lookup at h
    repeat' split at h
    all_goals cases h
  | reserve now =>
    rw [hstage] at h
    dsimp only at h
    unfold reserve at h
    split at h <;> cases h
  -- An insertion ends with another look-up, a refusal, a callback or a put.
  | insert now =>
    rw [hstage] at h
    have hinserts := insert_spared call now hs
    dsimp only at h
    generalize call.insert now c = out at h hinserts
    cases hinserts with
    | found _ _ _ _ _ hnext => rcases hnext with rfl | rfl <;> cases h
    | refused _ _ _ _ _ _ hnext => rcases hnext with ⟨_, rfl | rfl⟩ <;> cases h
    | made _ _ _ _ _ _ _ _ hnext =>
      subst hnext
      unfold inserted at h
      split at h <;> cases h
  | giveBack error? =>
    rw [hstage] at h
    cases error? <;> cases h
  | release m now outcome =>
    rw [hstage] at h
    cases outcome <;> cases h
  | _ =>
    rw [hstage] at h
    cases h

/-- Whoever has no time left gives up while the operation is in flight. -/
theorem expire_pending (hstage : call.stage = .parked node epoch)
    (he : c.entries[node.payload]? = some e) (h : e.isPendingAt epoch = true) :
    (call.expire c).2.stage = .done (.failed (.loadTimeout call.timeout)) := by
  have hwake : (wake call node epoch c).2 = .parked node epoch := wake_pending he h
  unfold expire
  rw [hstage]
  dsimp only
  split
  · rfl
  · next hnot => exact (hnot (wake call node epoch c).1 node epoch (Prod.ext rfl hwake)).elim

/-- Whoever has no time left goes on all the same if the operation is over. -/
theorem expire_over (hstage : call.stage = .parked node epoch)
    (he : c.entries[node.payload]? = some e) (h : e.isPendingAt epoch = false) :
    (call.expire c).2.stage = (wake call node epoch c).2 := by
  unfold expire
  rw [hstage]
  dsimp only
  split
  · next c' m n heq =>
    rw [wake, he] at heq
    dsimp only at heq
    rw [if_neg (by simp [h])] at heq
    split at heq <;> cases heq
  · rfl

end Call

/-! ## What a wait comes to -/

/-- Whether a call is about to look its key up, as it does when it starts again. -/
def Stage.startsAgain : Stage K V → Bool
  | .lookup => true
  | _ => false

theorem Stage.eq_lookup_of_startsAgain {stage : Stage K V} (h : stage.startsAgain = true) :
    stage = .lookup := by
  cases stage <;> first | rfl | cases h

namespace System

variable [DecidableEq K]

/-- What a call comes to when it looks whether its wait is over, or when its time is up. It has
    waited for the operation of an epoch of an entry, and the run so far was `as`. -/
structure Heeds (s : System K V) (as : List (Action K V)) (id : EntryId) (epoch : Nat)
    (call : Call K V) (stage : Stage K V) : Prop where
  /-- It only fails with the error of a loader if it is a load and this very load has failed with
      the error. -/
  blames : ∀ reason, stage = .done (.failed (.loader reason)) → call.request.isLoad = true ∧
    s.Sometime (Ends ⟨id, epoch, true, .fail reason⟩) as
  /-- It does fail with the error if the load has failed and nothing was put in place since, nor has
      another load failed. -/
  fails : ∀ reason before a after, as = before ++ a :: after →
    (s.actAll before).Ends ⟨id, epoch, true, .fail reason⟩ a →
    ¬ ((s.actAll before).act a).Sometime (Rewrites id) after →
    call.request.isLoad = true → stage = .done (.failed (.loader reason))
  /-- It starts again if it has waited for an update, or for a load that found something or
      panicked. -/
  restarts : ∀ loads r, s.Sometime (Ends ⟨id, epoch, loads, r⟩) as →
    (loads = true → ∀ reason, r ≠ .fail reason) → stage = .lookup
  /-- It goes on waiting or gives up while the callback of the operation runs. -/
  waits : ∀ call' ∈ (s.actAll as).calls, ∀ node' prior,
    call'.stage = .running node' epoch prior → node'.payload = id →
    (∃ node, stage = .parked node epoch) ∨
      stage = .done (.failed (.loadTimeout call.timeout))
  /-- An update or a put goes on waiting, starts again or gives up. -/
  retries : call.request.isLoad = false → (∃ node, stage = .parked node epoch) ∨
    stage = .lookup ∨ stage = .done (.failed (.loadTimeout call.timeout))

variable {s : System K V} {as : List (Action K V)} {call : Call K V} {node : EntryNode K}
  {epoch : Nat} {e : Entry K V}

/-- Whoever still waits, or gives up because the operation is still in flight. -/
theorem heeds_of_pending {stage : Stage K V} (hs : s.Reachable)
    (he : (s.actAll as).cache.entries[node.payload]? = some e)
    (hpending : e.isPendingAt epoch = true)
    (hstage : stage = .parked node epoch ∨ stage = .done (.failed (.loadTimeout call.timeout))) :
    s.Heeds as node.payload epoch call stage := by
  -- What is in flight has not ended yet.
  have hnever (f : Landing V) (hid : f.entry = node.payload) (hepoch : f.epoch = epoch) :
      ¬ s.Sometime (Ends f) as := by
    intro hended
    obtain ⟨e', he', -, hover⟩ := over_of_sometime hs hended
    rw [hid] at he'
    obtain rfl : e' = e := Option.some.inj (he'.symm.trans he)
    rw [hepoch, hpending] at hover
    cases hover
  refine ⟨fun reason heq => ?_, fun reason before a after hsplit hends _ _ => ?_,
    fun loads r hended _ => ?_, fun _ _ _ _ _ _ => ?_, fun _ => ?_⟩
  · rcases hstage with rfl | rfl <;> cases heq
  · refine absurd ?_ (hnever ⟨node.payload, epoch, true, .fail reason⟩ rfl rfl)
    rw [hsplit, sometime_append]
    exact .inr (.inl hends)
  · exact absurd hended (hnever ⟨node.payload, epoch, loads, r⟩ rfl rfl)
  · exact hstage.imp_left fun h => ⟨node, h⟩
  · rcases hstage with h | h
    · exact .inl ⟨node, h⟩
    · exact .inr (.inr h)

/-- Whoever wakes up after the operation. -/
theorem heeds_of_over {stage : Stage K V} (hs : s.Reachable)
    (hblank : s.failureOf node.payload = none)
    (he : (s.actAll as).cache.entries[node.payload]? = some e)
    (hover : e.isPendingAt epoch = false)
    (hstage : stage = (Call.wake call node epoch (s.actAll as).cache).2) :
    s.Heeds as node.payload epoch call stage := by
  subst hstage
  -- What the entry remembers of the epoch is the failure of its load.
  have horigin {error : CacheError} (hfailure : e.failure? = some (epoch, error)) :
      ∃ reason, error = .loader reason ∧
        s.Sometime (Ends ⟨node.payload, epoch, true, .fail reason⟩) as := by
    refine (record_origin hs ((failureOf_eq he).trans hfailure)).resolve_left fun hold => ?_
    rw [hblank] at hold
    cases hold
  have hretries (h : call.request.isLoad = false ∨ ∀ error, e.failure? ≠ some (epoch, error)) :=
    Call.wake_retries he hover h
  refine ⟨fun reason heq => ?_, fun reason before a after hsplit hends hsame hr => ?_,
    fun loads r hended hother => hretries (.inr fun error hfailure => ?_),
    fun call' hmem node' prior hrunning hnode' => ?_, fun hr => .inr (.inl (hretries (.inl hr)))⟩
  · obtain ⟨hload, hfailure⟩ := Call.failed_of_wake he hover heq
    obtain ⟨reason', herror, hended⟩ := horigin hfailure
    cases herror
    exact ⟨hload, hended⟩
  · -- The load has left its record, and it is there still.
    have hpast : (s.actAll before).Reachable := hs.actAll before
    have hrecord := record_stays (hpast.actAll [a]) (record_of_ends hpast hends) hsame
    have hafter : (((s.actAll before).actAll [a]).actAll after) = s.actAll as := by
      rw [hsplit, actAll_append]
      rfl
    rw [hafter, failureOf_eq he] at hrecord
    exact Call.wake_failed he hover hr hrecord
  · -- The operation of the epoch would have ended in two ways.
    obtain ⟨reason, -, hfailed⟩ := horigin hfailure
    have hsame := ends_once hs hended hfailed rfl rfl
    exact hother (congrArg Landing.loads hsame) reason (congrArg Landing.result hsame)
  · -- While its callback runs the operation is not over.
    obtain ⟨-, e', he', hpending, hat⟩ := exists_pending (hs.actAll as).sound hmem hrunning
    rw [hnode'] at he'
    obtain rfl : e' = e := Option.some.inj (he'.symm.trans he)
    rw [Entry.isPendingAt_iff.2 ⟨hpending, hat⟩] at hover
    cases hover

/-- A call begins to wait when it finds the entry pending, and it waits for the operation of the
    epoch that the entry is at. -/
theorem parks_pending {i : Nat} {call' : Call K V} {id : EntryId} (hs : s.Reachable)
    (hi : s.calls[i]? = some call) (hfirst : call.awaits? = none)
    (hi' : (s.act (.advance i)).calls[i]? = some call') (hwaits : call'.awaits? = some (id, epoch)) :
    ∃ e, s.cache.entries[id]? = some e ∧ e.isPendingAt epoch = true := by
  obtain ⟨node, hparked, rfl⟩ := Call.exists_parked hwaits
  have hcall := List.mem_of_getElem? hi
  have hnext := (act_getElem? (a := .advance i) rfl hi).symm.trans hi'
  have hstage' : (call.advance s.held s.cache).2.stage = .parked node epoch := by
    rw [show (call.advance s.held s.cache).2 = call' from Option.some.inj hnext]
    exact hparked
  rcases Call.advance_parked hs.keyed.table hstage' with ⟨m, now, hstage⟩ | ⟨m, n, hstage⟩
  · have hsuits := hs.orderly call hcall
    rw [hstage] at hsuits
    rw [Call.advance_inspect _ _ hstage] at hstage'
    have hstage' : (Call.inspect s.held call m now s.cache).2 = .parked node epoch := hstage'
    cases he : s.cache.entries[m.payload]? with
    | none =>
      rw [Call.inspect, he] at hstage'
      cases hstage'
    | some e =>
      obtain ⟨e', -, hinspects⟩ :=
        Call.inspect_inspects s.held now (hs.sound.proper call hcall) hsuits he
      rw [hstage'] at hinspects
      cases hinspects with
      | parks hpending =>
        exact ⟨e, he, by simp [Entry.isPendingAt, hpending, ValueState.isPending]⟩
  · rw [Call.awaits?, hstage] at hfirst
    cases hfirst

end System

/-! ## Waiters get the outcome that they waited for -/

/-- In every run, of any number of callers in any order of their critical sections, a call begins to
    wait for the operation of the epoch at which it finds an entry pending; whenever it looks
    whether that is over, or its time is up, it heeds how the operation ended, whatever has
    happened to the entry since; and updates, puts and all other calls that are no loads never
    fail with the error of a loader. -/
theorem waiters_heed [DecidableEq K] (config : Config) (clock : Clock) (hashOf : K → UInt64)
    (as : List (Action K V)) :
    let s : System K V := System.new config clock hashOf
    (∀ i call call' id epoch, (s.actAll as).calls[i]? = some call → call.awaits? = none →
      ((s.actAll as).act (.advance i)).calls[i]? = some call' →
      call'.awaits? = some (id, epoch) →
      ∃ e, (s.actAll as).cache.entries[id]? = some e ∧ e.isPendingAt epoch = true) ∧
    (∀ i call id epoch, (s.actAll as).calls[i]? = some call →
      call.awaits? = some (id, epoch) → ∀ a, a = .advance i ∨ a = .expire i →
      ∃ call', ((s.actAll as).act a).calls[i]? = some call' ∧
        s.Heeds as id epoch call call'.stage) ∧
    ∀ call ∈ (s.actAll as).calls, call.request.isLoad = false →
      ∀ reason, call.stage ≠ .done (.failed (.loader reason)) := by
  intro s
  have hnew : s.Reachable := ⟨config, clock, hashOf, [], rfl⟩
  have hs := hnew.actAll as
  refine ⟨fun i call call' id epoch hi hfirst hi' hwaits =>
    System.parks_pending hs hi hfirst hi' hwaits, fun i call id epoch hi hwaits a ha => ?_,
    fun call hmem hr reason hdone => ?_⟩
  · obtain ⟨node, hstage, rfl⟩ := Call.exists_parked hwaits
    obtain ⟨e, he, -⟩ := hs.keyed.calls call (List.mem_of_getElem? hi) node
      (by rw [Call.node?, hstage])
    have hblank : s.failureOf node.payload = none := rfl
    have hadvance : (call.advance (s.actAll as).held (s.actAll as).cache).2.stage =
        (Call.wake call node epoch (s.actAll as).cache).2 := by
      rw [Call.advance, hstage]
      rfl
    -- The call looks again, or its time is up; either way the entry decides.
    rcases ha with rfl | rfl
    · refine ⟨_, System.act_getElem? rfl hi, ?_⟩
      show s.Heeds as node.payload epoch call (call.advance _ _).2.stage
      rw [hadvance]
      cases hpending : e.isPendingAt epoch with
      | true => exact System.heeds_of_pending hnew he hpending (.inl (Call.wake_pending he hpending))
      | false => exact System.heeds_of_over hnew hblank he hpending rfl
    · refine ⟨_, System.act_getElem? rfl hi, ?_⟩
      show s.Heeds as node.payload epoch call (call.expire _).2.stage
      cases hpending : e.isPendingAt epoch with
      | true =>
        exact System.heeds_of_pending hnew he hpending
          (.inr (Call.expire_pending hstage he hpending))
      | false =>
        exact System.heeds_of_over hnew hblank he hpending (Call.expire_over hstage he hpending)
  · have hblameless := hs.blameless call hmem hr
    rw [hdone] at hblameless
    cases hblameless

/-- A load and an update wait for a load that fails. Before they wake up another load has panicked
    and another update has failed. The load takes the error of the load that it has waited for, and
    the update starts again. -/
theorem waiters_heed_overtaken :
    let s : System Nat Nat := System.new {} (.manual 0) fun _ => 0
    let as : List (Action Nat Nat) :=
      [.spawn (.load 1 0 false), .spawn (.load 1 0 false), .spawn (.update 1),
       .advance 0, .advance 0, .advance 0, .advance 1, .advance 1, .advance 2, .advance 2,
       .resume (.fail "down") 0,
       .spawn (.load 1 0 false), .advance 3, .advance 3, .resume (.panic "no") 3,
       .spawn (.update 1), .advance 4, .advance 4, .resume (.fail "odd") 4]
    let t := s.actAll as
    (t.act (.advance 1)).outcome? 1 = some (.failed (.loader "down")) ∧
      (∃ call call', t.calls[1]? = some call ∧ (t.act (.advance 1)).calls[1]? = some call' ∧
        s.Heeds as 0 1 call call'.stage) ∧
      ∃ call call', t.calls[2]? = some call ∧ (t.act (.advance 2)).calls[2]? = some call' ∧
        s.Heeds as 0 1 call call'.stage ∧ call'.stage = .lookup := by
  intro s as t
  have hwaits (i : Nat) (h : t.calls[i]?.bind Call.awaits? = some (0, 1)) :
      ∃ call call', t.calls[i]? = some call ∧ (t.act (.advance i)).calls[i]? = some call' ∧
        s.Heeds as 0 1 call call'.stage := by
    obtain ⟨call, hi, hcall⟩ := Option.bind_eq_some_iff.1 h
    obtain ⟨call', hi', hheeds⟩ := (waiters_heed {} (.manual 0) (fun _ => 0) as).2.1 i call 0 1 hi
      hcall (.advance i) (.inl rfl)
    exact ⟨call, call', hi, hi', hheeds⟩
  refine ⟨by decide +kernel, hwaits 1 (by decide +kernel), ?_⟩
  obtain ⟨call, call', hi, hi', hheeds⟩ := hwaits 2 (by decide +kernel)
  refine ⟨call, call', hi, hi', hheeds, ?_⟩
  have hlookup : (t.act (.advance 2)).calls[2]?.any (·.stage.startsAgain) = true := by
    decide +kernel
  rw [hi'] at hlookup
  exact Stage.eq_lookup_of_startsAgain hlookup

end ReadThrough
