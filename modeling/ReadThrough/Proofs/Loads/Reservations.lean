import ReadThrough.Proofs.Runs.Inspections

/-! # Loads in Flight

  A load reserves its place among the loads in flight before its loader runs. It gives the place
  back when the loader is over, or as soon as it turns out that no loader will run. The cache
  counts the places and turns away a load that finds too many of them taken; that load has been
  counted too, until it gives its place back.

  - **isReserved**, **isAdmitted**: whether a call has a place, and whether it has it for good.
  - **Accounts**: what one step of a call makes of the count.
  - **reservations**, **admitted**, **runningLoads**: the calls of a system that have a place, that
    have been admitted, and whose loader is running.
  - **Accounted**: in every reachable system the count is the number of reservations.
  - **load_slots_exact**: the limit holds, and nothing is left when all loads are over.
-/

namespace ReadThrough

open Cache

variable {K V : Type}

/-! ## Places -/

/-- Whether a call at a stage has reserved a place and not given it back; `loads` says whether the
    call is a load. -/
def Stage.isReserved (loads : Bool) : Stage K V → Bool
  | .refuse _ => true
  | .giveBack _ => true
  | .release .. => true
  | .insert _ => loads
  | .running .. => loads
  | _ => false

/-- Whether a call at a stage has a place that it is not about to be refused. -/
def Stage.isAdmitted (loads : Bool) (stage : Stage K V) : Bool :=
  match stage with
  | .refuse _ => false
  | _ => stage.isReserved loads

namespace Call

/-- Whether a call has reserved a place and not given it back. -/
def isReserved (call : Call K V) : Bool :=
  call.stage.isReserved call.request.isLoad

/-- Whether a call has a place that it is not about to be refused. -/
def isAdmitted (call : Call K V) : Bool :=
  call.stage.isAdmitted call.request.isLoad

/-- Whether the loader of a call is running. -/
def runsLoader (call : Call K V) : Bool :=
  call.request.isLoad && call.isRunning

/-- Whether a call is a load that is not over. -/
def isLoading (call : Call K V) : Bool :=
  match call.stage with
  | .done _ => false
  | _ => call.request.isLoad

end Call

theorem Stage.isReserved_of_isAdmitted {loads : Bool} {stage : Stage K V}
    (h : stage.isAdmitted loads = true) : stage.isReserved loads = true := by
  unfold isAdmitted at h
  split at h
  · cases h
  · exact h

theorem Call.isAdmitted_of_runsLoader {call : Call K V} (h : call.runsLoader = true) :
    call.isAdmitted = true := by
  unfold runsLoader isRunning at h
  unfold isAdmitted
  cases hstage : call.stage with
  | running node epoch prior =>
    rw [hstage, Bool.and_true] at h
    exact h
  | _ => simp [hstage] at h

/-! ## Single steps -/

/-- Marking an entry concerns no load. -/
theorem Cache.makeDirty_loading (id : EntryId) (v : Value V) (c : Cache K V) :
    (c.makeDirty id v).loading = c.loading ∧ (c.makeDirty id v).loadLimit = c.loadLimit := by
  unfold makeDirty
  dsimp only
  split
  · exact ⟨rfl, rfl⟩
  · exact ⟨rfl, rfl⟩

namespace Call

/-- What a step makes of the count of the loads in flight, where `old` is the stage before it. -/
structure Accounts (loads : Bool) (c : Cache K V) (old : Stage K V) (out : Cache K V × Stage K V) :
    Prop where
  /-- The count changes exactly as the place of the call does. -/
  loading : out.1.loading + (old.isReserved loads).toNat =
    c.loading + (out.2.isReserved loads).toNat
  limit : out.1.loadLimit = c.loadLimit
  /-- A call is admitted only while there is room. -/
  admitted : out.2.isAdmitted loads = true →
    old.isAdmitted loads = true ∨ c.atLoadLimit = false
  /-- Only loads have a place. -/
  onlyLoads : out.2.isReserved loads = true → old.isReserved loads = true ∨ loads = true

variable {held : Held} {c : Cache K V} {call : Call K V} {node : EntryNode K} {e : Entry K V}
  {loads : Bool} {old : Stage K V} {out : Cache K V × Stage K V}

/-- A step that neither reserves a place nor gives one back. -/
theorem accounts_of_same (hloading : out.1.loading = c.loading)
    (hlimit : out.1.loadLimit = c.loadLimit)
    (hreserved : out.2.isReserved loads = old.isReserved loads)
    (hadmitted : out.2.isAdmitted loads = old.isAdmitted loads) : Accounts loads c old out where
  loading := by rw [hloading, hreserved]
  limit := hlimit
  admitted := fun h => .inl (hadmitted ▸ h)
  onlyLoads := fun h => .inl (hreserved ▸ h)

/-- A step that gives a place back. -/
theorem accounts_of_release (hpos : 0 < c.loading) (hold : old.isReserved loads = true)
    (hloading : out.1.loading = c.loading - 1) (hlimit : out.1.loadLimit = c.loadLimit)
    (hreserved : out.2.isReserved loads = false) : Accounts loads c old out where
  loading := by
    rw [hloading, hold, hreserved]
    exact Nat.sub_add_cancel hpos
  limit := hlimit
  admitted := fun h => by
    rw [Stage.isReserved_of_isAdmitted h] at hreserved
    cases hreserved
  onlyLoads := fun h => by
    rw [h] at hreserved
    cases hreserved

/-- A load that reserves a place, and is refused at once if there is no room. -/
theorem accounts_of_reserve (stage : Stage K V) (hold : old.isReserved true = false)
    (hloading : out.1.loading = c.loading + 1) (hlimit : out.1.loadLimit = c.loadLimit)
    (hout : out.2 = if c.atLoadLimit then .refuse c.loadLimit else stage)
    (hstage : stage.isReserved true = true) : Accounts true c old out where
  loading := by
    have hreserved : out.2.isReserved true = true := by
      rw [hout]
      split
      · rfl
      · exact hstage
    rw [hloading, hold, hreserved]
    rfl
  limit := hlimit
  admitted := fun h => by
    cases hroom : c.atLoadLimit with
    | false => exact .inr rfl
    | true =>
      rw [hout, hroom] at h
      cases h
  onlyLoads := fun _ => .inr rfl

/-! ### Lookup and insertion -/

theorem lookup_accounts [DecidableEq K] (r : Request K V) (c : Cache K V) :
    Accounts r.isLoad c .lookup (lookup r c) := by
  unfold lookup
  cases r with
  | invalidate key =>
    dsimp only
    split <;> exact accounts_of_same rfl rfl rfl rfl
  | _ =>
    dsimp only
    split <;> exact accounts_of_same rfl rfl rfl rfl

theorem insert_ne_panicked [DecidableEq K] (hs : c.table.Sound) (call : Call K V) (now : Nat)
    (reason : String) : (call.insert now c).2 ≠ .done (.panicked reason) := by
  have h := insert_spared call now hs
  generalize call.insert now c = out at h
  cases h with
  | found _ _ _ _ _ hstage => rcases hstage with rfl | rfl <;> exact nofun
  | refused _ _ _ _ _ _ hstage => rcases hstage with ⟨_, rfl | rfl⟩ <;> exact nofun
  | made _ _ _ _ _ _ _ _ hstage =>
    subst hstage
    unfold inserted
    split <;> exact nofun

/-- A load keeps its place while it inserts its entry, and also if it comes too late or finds no
    room in the table. -/
theorem insert_accounts [DecidableEq K] (hs : c.table.Sound) (call : Call K V) (now : Nat) :
    Accounts call.request.isLoad c (.insert now) (call.insert now c) := by
  have hcalm := insert_ne_panicked hs call now
  unfold insert at hcalm ⊢
  dsimp only at hcalm ⊢
  cases hr : call.request with
  | load key expire acceptEmpty =>
    simp only [hr] at hcalm ⊢
    split
    · exact accounts_of_same rfl rfl rfl rfl
    · exact accounts_of_same rfl rfl rfl rfl
    · exact accounts_of_same rfl rfl rfl rfl
    · -- An insertion that panicked would keep the place for good, but none does.
      next reason hpanic =>
      rw [hpanic] at hcalm
      exact absurd rfl (hcalm reason)
  | _ =>
    dsimp only
    split <;> exact accounts_of_same rfl rfl rfl rfl

/-! ### Looking at an entry -/

theorem park_accounts {c' : Cache K V} (hloading : c'.loading = c.loading)
    (hlimit : c'.loadLimit = c.loadLimit) (call : Call K V) (node : EntryNode K) (e : Entry K V)
    (now : Nat) : Accounts loads c (.inspect node now) (park call node e c') := by
  unfold park
  split
  · exact accounts_of_same hloading hlimit rfl rfl
  · exact accounts_of_same hloading hlimit rfl rfl

theorem inspectLoad_accounts (expire : Nat) (acceptEmpty : Bool) (now : Nat) :
    Accounts true c (.inspect node now)
      (inspectLoad held call expire acceptEmpty node now e c) := by
  unfold inspectLoad
  dsimp only
  split
  · exact accounts_of_same rfl rfl rfl rfl
  split
  · exact accounts_of_same rfl rfl rfl rfl
  · refine park_accounts ?_ ?_ call node e now <;> rfl
  · -- The load reserves its place and starts its loader in one critical section.
    have hroom : (c.modify node.payload (Entry.resolve held)).atLoadLimit = c.atLoadLimit := rfl
    rw [hroom]
    refine accounts_of_reserve (.running node (e.epoch + 1) .unassigned) rfl ?_ ?_ ?_ rfl
    · split <;> rfl
    · split <;> rfl
    · split <;> rfl

theorem inspect_accounts (held : Held) (call : Call K V) (node : EntryNode K) (now : Nat)
    (c : Cache K V) :
    Accounts call.request.isLoad c (.inspect node now) (inspect held call node now c) := by
  unfold inspect
  split
  · exact accounts_of_same rfl rfl rfl rfl
  -- Only a load takes a reservation when it looks at its entry.
  next e he =>
  cases hr : call.request with
  | get key =>
    show Accounts _ _ _ (inspectGet held node e c)
    unfold inspectGet
    dsimp only
    split <;> exact accounts_of_same rfl rfl rfl rfl
  | load key expire acceptEmpty => exact inspectLoad_accounts expire acceptEmpty now
  | update key =>
    show Accounts _ _ _ (inspectUpdate held call node e c)
    unfold inspectUpdate
    split
    · exact accounts_of_same rfl rfl rfl rfl
    split
    · exact park_accounts rfl rfl call node e now
    · exact accounts_of_same rfl rfl rfl rfl
  | put key content =>
    show Accounts _ _ _ (inspectPut held call node now e c)
    unfold inspectPut
    split
    · exact accounts_of_same rfl rfl rfl rfl
    split
    · exact park_accounts rfl rfl call node e now
    · dsimp only
      split <;> exact accounts_of_same rfl rfl rfl rfl
  -- Marking links the entry, which is not a matter of loads.
  | mark key =>
    show Accounts _ _ _ (inspectMark held node e c)
    unfold inspectMark
    dsimp only
    split
    · exact accounts_of_same rfl rfl rfl rfl
    · exact accounts_of_same (makeDirty_loading _ _ _).1 (makeDirty_loading _ _ _).2 rfl rfl
  | invalidate key => exact accounts_of_same rfl rfl rfl rfl

/-! ### All steps -/

theorem wake_accounts (call : Call K V) (node : EntryNode K) (epoch : Nat) (c : Cache K V) :
    Accounts loads c (.parked node epoch) (wake call node epoch c) := by
  unfold wake
  repeat' split
  all_goals exact accounts_of_same rfl rfl rfl rfl

/-- One critical section of a call. -/
theorem advance_accounts [DecidableEq K] (held : Held) (hs : c.table.Sound)
    (hsuits : call.stage.Suits call.request) (hpos : call.isReserved = true → 0 < c.loading) :
    Accounts call.request.isLoad c call.stage
      ((call.advance held c).1, (call.advance held c).2.stage) := by
  unfold isReserved at hpos
  unfold advance
  dsimp only
  cases hstage : call.stage with
  | lookup => exact lookup_accounts call.request c
  | inspect node now => exact inspect_accounts held call node now c
  | reserve now =>
    rw [hstage] at hsuits
    rw [show call.request.isLoad = true from hsuits]
    exact accounts_of_reserve (.insert now) rfl rfl rfl rfl rfl
  | refuse limit =>
    rw [hstage] at hpos
    exact accounts_of_release (hpos rfl) rfl rfl rfl rfl
  | insert now => exact insert_accounts hs call now
  | giveBack error? =>
    rw [hstage] at hpos
    cases error? <;> exact accounts_of_release (hpos rfl) rfl rfl rfl rfl
  | parked node epoch => exact wake_accounts call node epoch c
  | release node now outcome =>
    rw [hstage] at hpos
    cases outcome <;> exact accounts_of_release (hpos rfl) rfl rfl rfl rfl
  | _ => exact accounts_of_same rfl rfl rfl rfl

/-- A loader that is over leaves its place to be given back, however it ended. -/
theorem settleLoad_accounts (node : EntryNode K) (epoch : Nat) (prior : ValueState V)
    (r : Return V) (c : Cache K V) :
    Accounts true c (.running node epoch prior) (settleLoad node epoch prior r c) := by
  cases r <;> exact accounts_of_same rfl rfl rfl rfl

theorem settleUpdate_accounts (node : EntryNode K) (epoch : Nat) (prior : ValueState V)
    (r : Return V) (c : Cache K V) :
    Accounts false c (.running node epoch prior) (settleUpdate node epoch prior r c) := by
  cases r with
  | value content =>
    exact accounts_of_same (makeDirty_loading _ _ _).1 (makeDirty_loading _ _ _).2 rfl rfl
  | _ => exact accounts_of_same rfl rfl rfl rfl

/-- The end of a callback. -/
theorem resume_accounts (r : Return V) (c : Cache K V) (call : Call K V) :
    Accounts call.request.isLoad c call.stage
      ((call.resume r c).1, (call.resume r c).2.stage) := by
  unfold resume
  split
  · next node epoch prior hstage =>
    rw [hstage]
    cases call.request with
    | load key expire acceptEmpty => exact settleLoad_accounts node epoch prior r c
    | _ => exact settleUpdate_accounts node epoch prior r c
  · exact accounts_of_same rfl rfl rfl rfl

/-- The end of a wait. -/
theorem expire_accounts (c : Cache K V) (call : Call K V) :
    Accounts call.request.isLoad c call.stage
      ((call.expire c).1, (call.expire c).2.stage) := by
  unfold expire
  split
  · next node epoch hstage =>
    rw [hstage]
    have hwake : Accounts call.request.isLoad c (.parked node epoch) (wake call node epoch c) :=
      wake_accounts call node epoch c
    dsimp only
    split
    · next c' m n heq =>
      rw [heq] at hwake
      exact accounts_of_same hwake.loading hwake.limit rfl rfl
    · exact hwake
  · exact accounts_of_same rfl rfl rfl rfl

end Call

/-! ## Upkeep -/

namespace Cache

/-- The loads in flight and their limit stay, and no value is made. -/
def SameCounts (c c' : Cache K V) : Prop :=
  c'.loading = c.loading ∧ c'.loadLimit = c.loadLimit ∧ c'.nextValue = c.nextValue

theorem trim_counts (n : Nat) (c : Cache K V) : c.SameCounts (c.trim n).1 := by
  unfold trim
  dsimp only
  split
  · exact ⟨rfl, rfl, rfl⟩
  · exact ⟨rfl, rfl, rfl⟩

theorem setMaxCapacity_counts (n : Nat) (c : Cache K V) : c.SameCounts (c.setMaxCapacity n) := by
  unfold setMaxCapacity
  dsimp only
  split
  · exact ⟨rfl, rfl, rfl⟩
  · exact trim_counts _ { c with table := c.table.setMaxCapacity n }

theorem evictIdle_counts (held : Held) (seconds : Nat) (c : Cache K V) :
    c.SameCounts (c.evictIdle held seconds).1 := by
  unfold evictIdle
  split
  · exact ⟨rfl, rfl, rfl⟩
  · exact ⟨rfl, rfl, rfl⟩

theorem relieve_counts (level : Pressure) (c : Cache K V) : c.SameCounts (c.relieve level) := by
  have htrim := trim_counts (level.target c.size) c
  unfold relieve
  dsimp only
  split
  · exact htrim
  · exact htrim

theorem clear_counts (held : Held) (c : Cache K V) : c.SameCounts (c.clear held) := by
  have hfold (nodes : List (EntryNode K)) (c : Cache K V) : c.SameCounts
      (nodes.foldl (fun c node => c.modify node.payload (Entry.retire held)) c) := by
    induction nodes generalizing c with
    | nil => exact ⟨rfl, rfl, rfl⟩
    | cons node nodes ih => exact ih (c.modify node.payload (Entry.retire held))
  exact hfold c.table.clear.2 { c with table := c.table.clear.1 }

theorem dropBatch_counts (b : Batch) (c : Cache K V) : c.SameCounts (c.dropBatch b) := by
  unfold dropBatch
  split
  · exact ⟨rfl, rfl, rfl⟩
  · exact ⟨rfl, rfl, rfl⟩

end Cache

namespace System

variable {s : System K V}

/-- Upkeep starts no load and ends none, and it makes no value. -/
theorem keepUp_counts (u : Upkeep) (s : System K V) :
    (s.keepUp u).cache.loading = s.cache.loading ∧
      (s.keepUp u).cache.nextValue = s.cache.nextValue ∧
      ((∀ n, u ≠ .setLoadLimit n) → (s.keepUp u).cache.loadLimit = s.cache.loadLimit) := by
  have hsame {c : Cache K V} (h : s.cache.SameCounts c) : c.loading = s.cache.loading ∧
      c.nextValue = s.cache.nextValue ∧
      ((∀ n, u ≠ .setLoadLimit n) → c.loadLimit = s.cache.loadLimit) :=
    ⟨h.1, h.2.2, fun _ => h.2.1⟩
  cases u with
  | clear => exact hsame (clear_counts _ _)
  | trim n => exact hsame (trim_counts _ _)
  | setMaxCapacity n => exact hsame (setMaxCapacity_counts _ _)
  | evictIdle seconds => exact hsame (evictIdle_counts _ _ _)
  | relieve level => exact hsame (relieve_counts _ _)
  -- This sets the limit, and nothing else does.
  | setLoadLimit n => exact ⟨rfl, rfl, fun h => absurd rfl (h n)⟩
  -- Batches change entries, chain and log.
  | drain name limit copyOn =>
    refine hsame ?_
    rw [keepUp, drain_eq]
    dsimp only
    split
    · exact dropBatch_counts _ (s.cache.drain limit copyOn).1
    · exact ⟨rfl, rfl, rfl⟩
  | next name keepAs =>
    unfold keepUp next
    dsimp only
    split <;> exact hsame ⟨rfl, rfl, rfl⟩
  | finish name how =>
    unfold keepUp finish
    dsimp only
    split <;> exact hsame ⟨rfl, rfl, rfl⟩
  | dropBatch name =>
    unfold keepUp dropBatch
    dsimp only
    split
    · exact hsame ⟨rfl, rfl, rfl⟩
    · exact hsame (dropBatch_counts _ _)
  | beginItem entries =>
    unfold keepUp beginItem
    dsimp only
    split <;> exact hsame ⟨rfl, rfl, rfl⟩
  | _ => exact hsame ⟨rfl, rfl, rfl⟩

/-! ## Runs -/

/-- How many calls have a place. -/
def reservations (s : System K V) : Nat :=
  s.calls.countP Call.isReserved

/-- How many calls have a place that they are not about to be refused. -/
def admitted (s : System K V) : Nat :=
  s.calls.countP Call.isAdmitted

/-- How many loaders are running. -/
def runningLoads (s : System K V) : Nat :=
  s.calls.countP Call.runsLoader

/-- The count is the number of reservations, and only loads have one. -/
structure Accounted (s : System K V) : Prop where
  loading : s.cache.loading = s.reservations
  onlyLoads : ∀ call ∈ s.calls, call.isReserved = true → call.request.isLoad = true

theorem runningLoads_le_admitted (s : System K V) : s.runningLoads ≤ s.admitted :=
  List.countP_mono_left fun _ _ => Call.isAdmitted_of_runsLoader

theorem admitted_le_reservations (s : System K V) : s.admitted ≤ s.reservations :=
  List.countP_mono_left fun _ _ => Stage.isReserved_of_isAdmitted

theorem Accounted.pos (h : s.Accounted) {call : Call K V} (hmem : call ∈ s.calls)
    (hreserved : call.isReserved = true) : 0 < s.cache.loading := by
  rw [h.loading]
  exact List.countP_pos_iff.2 ⟨call, hmem, hreserved⟩

/-- Once all loads are over no place is taken. -/
theorem Accounted.loading_eq_zero (h : s.Accounted)
    (hover : ∀ call ∈ s.calls, call.isLoading = false) : s.cache.loading = 0 := by
  rw [h.loading]
  refine List.countP_eq_zero.2 fun call hmem hreserved => ?_
  have hload := h.onlyLoads call hmem hreserved
  have hdone := hover call hmem
  unfold Call.isLoading at hdone
  unfold Call.isReserved at hreserved
  cases hstage : call.stage with
  | done outcome =>
    rw [hstage] at hreserved
    cases hreserved
  | _ =>
    rw [hstage] at hdone
    rw [hload] at hdone
    cases hdone

/-- Counting again after one call has changed. -/
theorem countP_set_add {p : Call K V → Bool} {calls : List (Call K V)} {i : Nat}
    {call : Call K V} (hi : calls[i]? = some call) (call' : Call K V) :
    (calls.set i call').countP p + (p call).toNat = calls.countP p + (p call').toNat := by
  obtain ⟨hlt, rfl⟩ := List.getElem?_eq_some_iff.1 hi
  have hset := List.countP_set (p := p) (a := call') hlt
  cases hp : p calls[i] with
  | false => cases hp' : p call' <;> simp_all
  | true =>
    have hpos : 0 < calls.countP p := List.countP_pos_iff.2 ⟨_, List.getElem_mem hlt, hp⟩
    cases hp' : p call' <;> simp_all

variable [DecidableEq K] {a : Action K V} {i : Nat} {call : Call K V}

/-- An action that is about no call leaves the number of calls of a kind alone that calls are not
    of when they start, nor when they are done. -/
theorem act_countP {p : Call K V → Bool} (hstart : ∀ r c, p (Call.start r c).2 = false)
    (hdone : ∀ call outcome, call.stage = .done outcome → p call = false)
    (ha : a.call? = none) : (s.act a).calls.countP p = s.calls.countP p := by
  cases a with
  | spawn r =>
    show (s.calls ++ [(Call.start r s.cache).2]).countP p = _
    simp [List.countP_append, hstart]
  | collect i keepAs =>
    show (s.collect i keepAs).calls.countP p = _
    unfold collect
    split
    · rfl
    · next outcome hout =>
      obtain ⟨call, hi, hstage⟩ := exists_done hout
      obtain ⟨hlt, rfl⟩ := List.getElem?_eq_some_iff.1 hi
      have hperm := (List.getElem_cons_eraseIdx_perm hlt).countP_eq p
      rw [List.countP_cons_of_neg (by simp [hdone _ _ hstage])] at hperm
      exact hperm
  | upkeep u => exact congrArg (List.countP p) (keepUp_calls u s)
  | _ => cases ha

/-- An action that is about no call starts no load and ends none. -/
theorem act_counts (ha : a.call? = none) : (s.act a).cache.loading = s.cache.loading ∧
    ((∀ n, a ≠ .upkeep (.setLoadLimit n)) → (s.act a).cache.loadLimit = s.cache.loadLimit) := by
  cases a with
  | spawn r => cases r <;> exact ⟨rfl, fun _ => rfl⟩
  | collect i keepAs =>
    show (s.collect i keepAs).cache.loading = _ ∧ (_ → (s.collect i keepAs).cache.loadLimit = _)
    unfold collect
    split <;> exact ⟨rfl, fun _ => rfl⟩
  | upkeep u =>
    obtain ⟨hloading, -, hlimit⟩ := keepUp_counts u s
    exact ⟨hloading, fun h => hlimit fun n hu => h n (congrArg Action.upkeep hu)⟩
  | _ => cases ha

/-- A step of a call counts it in or out. -/
theorem act_countP_onCall (p : Call K V → Bool) (ha : a.call? = some i)
    (hi : s.calls[i]? = some call) : (s.act a).calls.countP p + (p call).toNat =
      s.calls.countP p + (p (a.onCall s.held s.cache call).2).toNat := by
  have hcalls : (s.act a).calls = s.calls.set i (a.onCall s.held s.cache call).2 := by
    rw [act_onCall ha, withCall_eq hi]
  rw [hcalls]
  exact countP_set_add hi _

theorem onCall_accounts (h : s.Accounted) (hk : s.Keyed) (ho : s.Orderly)
    (ha : a.call? = some i) (hi : s.calls[i]? = some call) :
    Call.Accounts call.request.isLoad s.cache call.stage
      ((a.onCall s.held s.cache call).1, (a.onCall s.held s.cache call).2.stage) := by
  have hmem := List.mem_of_getElem? hi
  cases a with
  | advance j => exact Call.advance_accounts s.held hk.table (ho call hmem) (h.pos hmem)
  | resume r j => exact Call.resume_accounts r s.cache call
  | expire j => exact Call.expire_accounts s.cache call
  | _ => cases ha

/-- Every action keeps the count right. -/
theorem Accounted.act (h : s.Accounted) (hk : s.Keyed) (ho : s.Orderly) (a : Action K V) :
    (s.act a).Accounted where
  loading := by
    cases ha : a.call? with
    | none =>
      have hcount : (s.act a).reservations = s.reservations :=
        act_countP (fun r c => by simp [Call.isReserved, Stage.isReserved])
          (fun call outcome hdone => by simp [Call.isReserved, hdone, Stage.isReserved]) ha
      rw [hcount, ← h.loading]
      exact (act_counts ha).1
    | some i =>
      cases hi : s.calls[i]? with
      | none =>
        rw [act_onCall ha, withCall_eq_self hi]
        exact h.loading
      | some call =>
        -- The count and the number of places move together.
        have hloading := (onCall_accounts h hk ho ha hi).loading
        have hcount : (s.act a).reservations + call.isReserved.toNat =
            s.reservations + (a.onCall s.held s.cache call).2.isReserved.toNat :=
          act_countP_onCall Call.isReserved ha hi
        have hbefore := h.loading
        rw [act_cache ha hi]
        unfold Call.isReserved at hcount
        rw [onCall_request] at hcount
        dsimp only at hloading
        omega
  onlyLoads := by
    intro call' hmem hreserved
    rcases mem_act_calls hmem with hold | ⟨r, rfl, rfl⟩ | ⟨i, call, ha, hi, rfl⟩
    · exact h.onlyLoads call' hold hreserved
    · simp [Call.isReserved, Stage.isReserved] at hreserved
    · rw [onCall_request]
      unfold Call.isReserved at hreserved
      rw [onCall_request] at hreserved
      rcases (onCall_accounts h hk ho ha hi).onlyLoads hreserved with hold | hload
      · exact h.onlyLoads call (List.mem_of_getElem? hi) hold
      · exact hload

/-- The action leaves the limit as it is. -/
def KeepsLimit (limit : Nat) (a : Action K V) : Prop :=
  ∀ n, a = .upkeep (.setLoadLimit n) → n = limit

theorem act_loadLimit (h : s.Accounted) (hk : s.Keyed) (ho : s.Orderly)
    (ha : KeepsLimit s.cache.loadLimit a) : (s.act a).cache.loadLimit = s.cache.loadLimit := by
  cases hcall : a.call? with
  | some i =>
    cases hi : s.calls[i]? with
    | none => rw [act_onCall hcall, withCall_eq_self hi]
    | some call =>
      rw [act_cache hcall hi]
      exact (onCall_accounts h hk ho hcall hi).limit
  | none =>
    by_cases hset : ∃ n, a = .upkeep (.setLoadLimit n)
    · obtain ⟨n, rfl⟩ := hset
      exact ha n rfl
    · exact (act_counts hcall).2 fun n heq => hset ⟨n, heq⟩

omit [DecidableEq K] in
/-- Whoever is admitted under a limit finds fewer loads in flight than it allows. -/
theorem admitted_lt_of_room (h : s.Accounted) (hlimit : 0 < s.cache.loadLimit)
    (hroom : s.cache.atLoadLimit = false) : s.admitted < s.cache.loadLimit := by
  have hlt : s.cache.loading < s.cache.loadLimit := by
    simp only [Cache.atLoadLimit, Bool.and_eq_false_iff, bne_eq_false_iff_eq,
      decide_eq_false_iff_not] at hroom
    omega
  calc s.admitted ≤ s.reservations := s.admitted_le_reservations
    _ = s.cache.loading := h.loading.symm
    _ < s.cache.loadLimit := hlt

/-- Under a limit no action admits a load too many: whoever is admitted has found room, and
    everyone who had been admitted was counted. -/
theorem admitted_act (h : s.Accounted) (hk : s.Keyed) (ho : s.Orderly)
    (hlimit : 0 < s.cache.loadLimit) (hwithin : s.admitted ≤ s.cache.loadLimit) (a : Action K V) :
    (s.act a).admitted ≤ s.cache.loadLimit := by
  cases ha : a.call? with
  | none =>
    have hsame : (s.act a).admitted = s.admitted :=
      act_countP (fun r c => by simp [Call.isAdmitted, Stage.isAdmitted, Stage.isReserved])
        (fun call outcome hdone => by
          simp [Call.isAdmitted, hdone, Stage.isAdmitted, Stage.isReserved]) ha
    rw [hsame]
    exact hwithin
  | some i =>
    cases hi : s.calls[i]? with
    | none =>
      rw [act_onCall ha, withCall_eq_self hi]
      exact hwithin
    | some call =>
      have hadmits := (onCall_accounts h hk ho ha hi).admitted
      have hcount : (s.act a).admitted + call.isAdmitted.toNat =
          s.admitted + (a.onCall s.held s.cache call).2.isAdmitted.toNat :=
        act_countP_onCall Call.isAdmitted ha hi
      cases hnow : (a.onCall s.held s.cache call).2.isAdmitted with
      | false =>
        rw [hnow, Bool.toNat_false] at hcount
        omega
      | true =>
        rw [hnow, Bool.toNat_true] at hcount
        unfold Call.isAdmitted at hnow
        rw [onCall_request] at hnow
        -- Either the call had been admitted already, or there was room for one more.
        rcases hadmits hnow with hold | hroom
        · rw [show call.isAdmitted = true from hold, Bool.toNat_true] at hcount
          omega
        · have hlt := admitted_lt_of_room h hlimit hroom
          omega

omit [DecidableEq K] in
theorem accounted_new (config : Config) (clock : Clock) (hashOf : K → UInt64) :
    (System.new config clock hashOf : System K V).Accounted where
  loading := rfl
  onlyLoads := by simp [System.new]

theorem Accounted.actAll (h : s.Accounted) (hs : s.Reachable) (as : List (Action K V)) :
    (s.actAll as).Accounted := by
  induction as generalizing s with
  | nil => exact h
  | cons a as ih => exact ih (h.act hs.keyed hs.orderly a) (hs.actAll [a])

theorem Reachable.accounted (h : s.Reachable) : s.Accounted := by
  obtain ⟨config, clock, hashOf, as, rfl⟩ := h
  exact (accounted_new config clock hashOf).actAll ⟨config, clock, hashOf, [], rfl⟩ as

/-- Under a constant limit no run admits a load too many. -/
theorem admitted_actAll (hs : s.Reachable) (hlimit : 0 < s.cache.loadLimit)
    (hwithin : s.admitted ≤ s.cache.loadLimit) {as : List (Action K V)}
    (has : ∀ a ∈ as, KeepsLimit s.cache.loadLimit a) :
    (s.actAll as).admitted ≤ s.cache.loadLimit := by
  induction as generalizing s with
  | nil => exact hwithin
  | cons a as ih =>
    have hstep := admitted_act hs.accounted hs.keyed hs.orderly hlimit hwithin a
    have hsame := act_loadLimit hs.accounted hs.keyed hs.orderly (has a List.mem_cons_self)
    rw [← hsame] at hlimit hstep has ⊢
    exact ih (hs.actAll [a]) hlimit hstep fun b hb => has b (List.mem_cons_of_mem a hb)

end System

/-! ## Load slots -/

/-- Let a system be reached in which no more loads are admitted than a positive limit allows, such
    as a new one, and let the limit stay what it is. Then whatever the callers do, in any order of
    their steps, no more loaders run at a time than the limit says; the count of the loads in
    flight is the number of reservations that were not given back; and it is zero whenever all
    loads are over. -/
theorem load_slots_exact [DecidableEq K] {s : System K V} (hs : s.Reachable)
    (hlimit : 0 < s.cache.loadLimit) (hwithin : s.admitted ≤ s.cache.loadLimit)
    {as : List (Action K V)} (has : ∀ a ∈ as, System.KeepsLimit s.cache.loadLimit a) :
    (s.actAll as).runningLoads ≤ s.cache.loadLimit ∧
      (s.actAll as).cache.loading = (s.actAll as).reservations ∧
      ((∀ call ∈ (s.actAll as).calls, call.isLoading = false) →
        (s.actAll as).cache.loading = 0) := by
  have haccounted := (hs.actAll as).accounted
  refine ⟨?_, haccounted.loading, haccounted.loading_eq_zero⟩
  exact Nat.le_trans (s.actAll as).runningLoads_le_admitted
    (System.admitted_actAll hs hlimit hwithin has)

/-- Three loads under a limit of two: one of two loads of a key comes too late to insert it, and the
    load of another key finds both places taken. All three are counted until the other two give
    their places back, and nothing is counted once the loader has panicked and its load is over. -/
theorem load_slots_exact_contended :
    let s : System Nat Nat := System.new { loadLimit := 2 } (.manual 0) fun _ => 0
    let as : List (Action Nat Nat) :=
      [.spawn (.load 1 0 false), .spawn (.load 1 0 false), .spawn (.load 2 0 false),
       .advance 0, .advance 1, .advance 2, .advance 0, .advance 1, .advance 2,
       .advance 0, .advance 1]
    let bs : List (Action Nat Nat) :=
      [.advance 2, .advance 1, .resume (.panic "broken") 0, .advance 0]
    (s.actAll as).runningLoads = 1 ∧ (s.actAll as).cache.loading = 3 ∧
      (s.actAll (as ++ bs)).cache.loading = 0 ∧
      (s.actAll as).runningLoads ≤ 2 ∧
      (s.actAll as).cache.loading = (s.actAll as).reservations ∧
      ((∀ call ∈ (s.actAll as).calls, call.isLoading = false) →
        (s.actAll as).cache.loading = 0) := by
  intro s as bs
  refine ⟨by decide +kernel, by decide +kernel, by decide +kernel, ?_⟩
  refine load_slots_exact ⟨_, _, _, [], rfl⟩ (by decide +kernel) (by decide +kernel) fun a ha n => ?_
  have hnone : ∀ a ∈ as, ∀ u, a ≠ .upkeep u := by
    simp [as]
  exact fun heq => absurd heq (hnone a ha _)

end ReadThrough
