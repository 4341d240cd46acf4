import ReadThrough.Proofs.Names
import ReadThrough.Proofs.Runs.Calls
import ReadThrough.Proofs.WriteBack.Conservation
import ReadThrough.System.Run

/-! # Runs as Changes of the Ledger

  Every action of a system is a number of changes of its ledger, so that what the changes keep
  holds of every reachable system.

  - **ledger**: entries, chain, open batches and running callbacks of a system.
  - **Sound**: what holds of every reachable system.
  - **Action.call?**, **Action.onCall**: the call that an action is about, and what it lets it do.
  - **act_leads**: an action as a number of changes.
-/

namespace ReadThrough

open Ledger

variable {K V : Type}

namespace Cache

variable (c : Cache K V)

@[simp] theorem finish_entries (how : Finish) (b : Batch) :
    (c.finish how b).1.entries = (b.finish how c.entries c.chain).1 := rfl

@[simp] theorem finish_chain (how : Finish) (b : Batch) :
    (c.finish how b).1.chain = (b.finish how c.entries c.chain).2 := rfl

/-- How a batch is finished when it is forgotten. -/
def dropped (b : Batch) : Finish :=
  if b.copyOn then .rollback else .abort

/-- Forgetting a batch finishes it; with an empty one that comes to nothing. -/
theorem dropBatch_entries (b : Batch) :
    (c.dropBatch b).entries = (b.finish (dropped b) c.entries c.chain).1 ∧
      (c.dropBatch b).chain = (b.finish (dropped b) c.entries c.chain).2 := by
  unfold dropBatch
  split
  · next hempty =>
    have hnil : b.entries = [] := List.isEmpty_iff.1 hempty
    simp [Batch.finish, hnil, Batch.settle, DirtyChain.pushFrontAll]
  · exact ⟨rfl, rfl⟩

end Cache

/-- The call that an action is about. -/
def Action.call? : Action K V → Option Nat
  | .advance i => some i
  | .resume _ i => some i
  | .expire i => some i
  | _ => none

/-- What an action lets its call do. -/
def Action.onCall [DecidableEq K] :
    Action K V → Held → Cache K V → Call K V → Cache K V × Call K V
  | .advance _ => Call.advance
  | .resume r _ => fun _ => Call.resume r
  | .expire _ => fun _ => Call.expire
  | _ => fun _ c call => (c, call)

namespace System

/-- The part of a system that write-back and running callbacks are about. -/
def ledger (s : System K V) : Ledger K V :=
  ⟨s.cache.entries, s.cache.chain, s.batches.map Prod.snd, s.calls.flatMap Call.flights⟩

theorem mem_flights {s : System K V} {call : Call K V} (hmem : call ∈ s.calls)
    {node : EntryNode K} {epoch : Nat} {prior : ValueState V}
    (hstage : call.stage = .running node epoch prior) :
    ⟨node.payload, epoch, prior⟩ ∈ s.ledger.flights :=
  List.mem_flatMap.2 ⟨call, hmem, by simp [Call.flights_running hstage]⟩

/-- What holds of every reachable system. -/
structure Sound (s : System K V) : Prop where
  names : s.batches.Distinct
  proper : ∀ call ∈ s.calls, call.Proper
  ledger : s.ledger.Sound

theorem sound_new (config : Config) (clock : Clock) (hashOf : K → UInt64) :
    (System.new config clock hashOf : System K V).Sound where
  names := Names.distinct_nil
  proper := by simp [System.new]
  ledger := sound_empty

/-! ## Calls -/

section calls

variable {s : System K V}

theorem withCall_eq {f : Held → Cache K V → Call K V → Cache K V × Call K V} {i : Nat}
    {call : Call K V} (hi : s.calls[i]? = some call) : s.withCall f i =
      { s with
        cache := (f s.held s.cache call).1
        calls := s.calls.set i (f s.held s.cache call).2 } := by
  unfold withCall
  simp only [hi, held]

theorem withCall_eq_self {f : Held → Cache K V → Call K V → Cache K V × Call K V} {i : Nat}
    (hi : s.calls[i]? = none) : s.withCall f i = s := by
  unfold withCall
  simp only [hi]

/-- Either there is no such call, or it does what it is let do. -/
theorem withCall_cases {P : System K V → Prop}
    {f : Held → Cache K V → Call K V → Cache K V × Call K V} {i : Nat}
    (hnone : s.calls[i]? = none → P s)
    (hsome : ∀ call, s.calls[i]? = some call → P { s with
      cache := (f s.held s.cache call).1
      calls := s.calls.set i (f s.held s.cache call).2 }) : P (s.withCall f i) := by
  cases hi : s.calls[i]? with
  | none =>
    rw [withCall_eq_self hi]
    exact hnone hi
  | some call =>
    rw [withCall_eq hi]
    exact hsome call hi

/-- The flights of all calls, those of one call first. -/
theorem flights_perm {calls : List (Call K V)} {i : Nat} {call : Call K V}
    (hi : calls[i]? = some call) : (calls.flatMap Call.flights).Perm
      (call.flights ++ (calls.eraseIdx i).flatMap Call.flights) := by
  obtain ⟨hlt, rfl⟩ := List.getElem?_eq_some_iff.1 hi
  exact (List.getElem_cons_eraseIdx_perm hlt).symm.flatMap_right Call.flights

theorem withCall_leads {f : Held → Cache K V → Call K V → Cache K V × Call K V} (i : Nat)
    (hf : ∀ call ∈ s.calls, s.cache.Leads (f s.held s.cache call).1 call.flights
      (f s.held s.cache call).2.flights) : Ledger.Leads s.ledger (s.withCall f i).ledger := by
  cases hi : s.calls[i]? with
  | none =>
    rw [withCall_eq_self hi]
  | some call =>
    rw [withCall_eq hi]
    have hlt : i < s.calls.length := (List.getElem?_eq_some_iff.1 hi).1
    have hset : (s.calls.set i (f s.held s.cache call).2)[i]? = some (f s.held s.cache call).2 := by
      simp [hlt]
    have hbefore := flights_perm hi
    have hafter := flights_perm hset
    rw [List.eraseIdx_set_eq] at hafter
    have hleads := hf call (List.mem_of_getElem? hi) (s.batches.map Prod.snd)
      ((s.calls.eraseIdx i).flatMap Call.flights)
    exact .head (.reorder (.refl _) hbefore) (hleads.tail (.reorder (.refl _) hafter.symm))

end calls

/-! ## Batches -/

section batches

variable {s : System K V} {name : String} {b : Batch}

/-- The open batches, that of a name first. -/
theorem batches_perm {ns : Names Batch} (hd : ns.Distinct) (hb : ns.find? name = some b) :
    (ns.map Prod.snd).Perm (b :: (ns.forget name).map Prod.snd) := by
  simpa using (Names.perm_forget hd hb).map Prod.snd

/-- The batch of a name is finished and forgotten. -/
theorem forget_leads {es : Entries K V} {c : DirtyChain} {ns : Names Batch}
    {fs : List (Flight V)} (hd : ns.Distinct) (hb : ns.find? name = some b) (how : Finish) :
    Ledger.Leads ⟨es, c, ns.map Prod.snd, fs⟩
      ⟨(b.finish how es c).1, (b.finish how es c).2, (ns.forget name).map Prod.snd, fs⟩ :=
  .head (.reorder (batches_perm hd hb) (.refl _)) (.single (.finish how b))

theorem finish_leads (hd : s.batches.Distinct) (name : String) (how : Finish) :
    Ledger.Leads s.ledger (s.finish name how).1.ledger := by
  unfold finish
  split
  · exact .refl
  · next b hb => exact forget_leads hd hb how

theorem dropBatch_leads (hd : s.batches.Distinct) (name : String) :
    Ledger.Leads s.ledger (s.dropBatch name).ledger := by
  unfold dropBatch
  split
  · exact .refl
  · next b hb =>
    have hforget : Ledger.Leads s.ledger
        ⟨(b.finish (Cache.dropped b) s.cache.entries s.cache.chain).1,
        (b.finish (Cache.dropped b) s.cache.entries s.cache.chain).2,
        (s.batches.forget name).map Prod.snd, s.calls.flatMap Call.flights⟩ :=
      forget_leads hd hb (Cache.dropped b)
    rw [← (s.cache.dropBatch_entries b).1, ← (s.cache.dropBatch_entries b).2] at hforget
    exact hforget

theorem next_leads (hd : s.batches.Distinct) (name : String) (keepAs : Option String) :
    Ledger.Leads s.ledger (s.next name keepAs).1.ledger := by
  unfold next
  split
  · exact .refl
  · next b hb =>
    exact .head (.reorder (batches_perm hd hb) (.refl _)) (.single (.consume _))

/-- Draining a batch, and then forgetting the one that was open under its name. -/
theorem drain_eq (name : String) (limit : Nat) (copyOn : Bool) (s : System K V) :
    s.drain name limit copyOn =
      { s with
        cache := match s.batches.find? name with
          | some old => (s.cache.drain limit copyOn).1.dropBatch old
          | none => (s.cache.drain limit copyOn).1
        batches := s.batches.keep name (s.cache.drain limit copyOn).2 } := by
  have hbatches : (s.withCache (Cache.drain limit copyOn)).1.batches = s.batches := rfl
  unfold drain
  dsimp only
  rw [hbatches]
  cases s.batches.find? name with
  | none => rfl
  | some old => rfl

theorem drain_leads (hd : s.batches.Distinct) (name : String) (limit : Nat) (copyOn : Bool) :
    Ledger.Leads s.ledger (s.drain name limit copyOn).ledger := by
  let count := min limit s.cache.entries.size
  let taken := Cache.takeDirty copyOn count s.cache.entries s.cache.chain
  let batch : Batch := { entries := taken.1, copyOn }
  have hdrain : Ledger.Leads s.ledger ⟨taken.2.1, taken.2.2, batch :: s.batches.map Prod.snd,
      s.calls.flatMap Call.flights⟩ := .single (.drain count copyOn)
  rw [drain_eq]
  cases hold : s.batches.find? name with
  | none =>
    rw [← Names.forget_eq_self hold] at hdrain
    exact hdrain
  | some old =>
    -- The old batch of that name is finished while the new one is open.
    let cache := (s.cache.drain limit copyOn).1
    have hfinish := cache.dropBatch_entries old
    have hswap : Ledger.Leads s.ledger ⟨taken.2.1, taken.2.2, old :: batch ::
        (s.batches.forget name).map Prod.snd, s.calls.flatMap Call.flights⟩ :=
      hdrain.tail (.reorder (((batches_perm hd hold).cons batch).trans (.swap _ _ _)) (.refl _))
    have hforget := hswap.tail (.finish (Cache.dropped old) old)
    rw [show taken.2.1 = cache.entries from rfl, show taken.2.2 = cache.chain from rfl,
      ← hfinish.1, ← hfinish.2] at hforget
    exact hforget

end batches

/-! ## Actions -/

section actions

variable {s : System K V}

@[simp] theorem withCall_batches (f : Held → Cache K V → Call K V → Cache K V × Call K V)
    (i : Nat) (s : System K V) : (s.withCall f i).batches = s.batches :=
  withCall_cases (P := fun t => t.batches = s.batches) (fun _ => rfl) fun _ _ => rfl

@[simp] theorem collect_batches (i : Nat) (keepAs : Option String) (s : System K V) :
    (s.collect i keepAs).batches = s.batches := by
  unfold collect
  split <;> rfl

theorem collect_calls_subset (i : Nat) (keepAs : Option String) (s : System K V) :
    (s.collect i keepAs).calls ⊆ s.calls := by
  unfold collect
  split
  · exact List.Subset.refl _
  · exact List.eraseIdx_subset

/-- What clients do at once concerns no call. -/
@[simp] theorem keepUp_calls (u : Upkeep) (s : System K V) : (s.keepUp u).calls = s.calls := by
  cases u with
  | drain name limit copyOn =>
    rw [keepUp, drain_eq]
  | next name keepAs =>
    unfold keepUp next
    dsimp only
    split <;> rfl
  | finish name how =>
    unfold keepUp finish
    dsimp only
    split <;> rfl
  | dropBatch name =>
    unfold keepUp dropBatch
    dsimp only
    split <;> rfl
  | beginItem entries =>
    unfold keepUp beginItem
    dsimp only
    split <;> rfl
  | _ => rfl

theorem keepUp_names (hd : s.batches.Distinct) (u : Upkeep) : (s.keepUp u).batches.Distinct := by
  cases u with
  -- Opening a batch and advancing it keep the names apart; closing one forgets it.
  | drain name limit copyOn =>
    rw [keepUp, drain_eq]
    exact hd.keep
  | next name keepAs =>
    unfold keepUp next
    dsimp only
    split
    · exact hd
    · exact hd.keep
  | finish name how =>
    unfold keepUp finish
    dsimp only
    split
    · exact hd
    · exact hd.forget
  | dropBatch name =>
    unfold keepUp dropBatch
    dsimp only
    split
    · exact hd
    · exact hd.forget
  | beginItem entries =>
    unfold keepUp beginItem
    dsimp only
    split
    · exact hd
    · exact hd
  | _ => exact hd

/-- What the clients do at once. -/
theorem keepUp_leads (hd : s.batches.Distinct) (u : Upkeep) :
    Ledger.Leads s.ledger (s.keepUp u).ledger := by
  -- What leaves the chain alone and is quiet about entries is one change of the ledger.
  have hquiet {c : Cache K V} (h : Cache.Respects Entry.Quiet s.cache c) :
      Ledger.Leads s.ledger (s.onCache fun _ => c).ledger := by
    show Ledger.Leads _ ⟨c.entries, c.chain, s.batches.map Prod.snd, s.calls.flatMap Call.flights⟩
    rw [h.chain]
    exact .single (.quiet h.entries)
  cases u with
  | clear => exact hquiet (Cache.lenient_quiet.clear _ _)
  | trim n => exact hquiet (Cache.lenient_quiet.trim _ _)
  | setMaxCapacity n => exact hquiet (Cache.lenient_quiet.setMaxCapacity _ _)
  | idleTrim cutoff => exact hquiet (Cache.lenient_quiet.idleTrim _ _ _)
  | evictIdle seconds => exact hquiet (Cache.lenient_quiet.evictIdle _ _ _)
  | relieve level => exact hquiet (Cache.lenient_quiet.relieve _ _)
  | pinch => exact hquiet (Cache.lenient_quiet.pinch _)
  | setTimeout seconds => exact .refl
  | setLoadLimit limit => exact .refl
  | advanceClock seconds => exact .refl
  | setClock tick => exact .refl
  -- Batches are several changes, each kind in its own way.
  | drain name limit copyOn => exact drain_leads hd name limit copyOn
  | next name keepAs => exact next_leads hd name keepAs
  | finish name how => exact finish_leads hd name how
  | dropBatch name => exact dropBatch_leads hd name
  | beginItem entries =>
    unfold keepUp beginItem
    dsimp only
    split
    · exact .refl
    · exact .refl
  | endItem => exact .refl
  | takeYield name keepAs => exact .refl
  | release name => exact .refl

theorem spawn_leads (r : Request K V) (s : System K V) :
    Ledger.Leads s.ledger (s.spawn r).ledger := by
  have hsame : (s.spawn r).ledger = s.ledger := by
    cases r <;>
      simp [spawn, withCache, ledger, Call.start, Cache.allocate, Call.flights, Stage.flights]
  rw [hsame]

theorem exists_done {i : Nat} {outcome : Outcome V} (h : s.outcome? i = some outcome) :
    ∃ call, s.calls[i]? = some call ∧ call.stage = .done outcome := by
  unfold outcome? at h
  cases hi : s.calls[i]? with
  | none => simp [hi] at h
  | some call =>
    refine ⟨call, rfl, ?_⟩
    cases hstage : call.stage <;> simp_all

theorem collect_leads (i : Nat) (keepAs : Option String) (s : System K V) :
    Ledger.Leads s.ledger (s.collect i keepAs).ledger := by
  unfold collect
  split
  · exact .refl
  · next outcome hdone =>
    obtain ⟨call, hi, hstage⟩ := exists_done hdone
    have hflights : call.flights = [] := by
      rw [Call.flights, hstage]
      rfl
    have hperm := flights_perm hi
    rw [hflights] at hperm
    exact .single (.reorder (.refl _) hperm)

variable [DecidableEq K]

/-! ### The call of an action -/

variable {a : Action K V} {i : Nat} {call : Call K V}

theorem act_onCall (ha : a.call? = some i) : s.act a = s.withCall a.onCall i := by
  cases a with
  | advance j => rw [← Option.some.inj ha]; rfl
  | resume r j => rw [← Option.some.inj ha]; rfl
  | expire j => rw [← Option.some.inj ha]; rfl
  | _ => cases ha

/-- The call that an action is about changes the cache. -/
theorem act_cache (ha : a.call? = some i) (hi : s.calls[i]? = some call) :
    (s.act a).cache = (a.onCall s.held s.cache call).1 := by
  rw [act_onCall ha, withCall_eq hi]

/-- The call that an action is about keeps its place. -/
theorem act_getElem? (ha : a.call? = some i) (hi : s.calls[i]? = some call) :
    (s.act a).calls[i]? = some (a.onCall s.held s.cache call).2 := by
  rw [act_onCall ha, withCall_eq hi]
  exact List.getElem?_set_self (List.getElem?_eq_some_iff.1 hi).1

theorem onCall_request (a : Action K V) (held : Held) (c : Cache K V) (call : Call K V) :
    (a.onCall held c call).2.request = call.request := by
  cases a with
  | resume r j => exact Call.resume_request r c call
  | expire j => exact Call.expire_request c call
  | _ => rfl

/-- A call after an action is one from before, or it has just started, or it is the one that the
    action is about. -/
theorem mem_act_calls {call' : Call K V} (hmem : call' ∈ (s.act a).calls) :
    call' ∈ s.calls ∨ (∃ r, a = .spawn r ∧ call' = (Call.start r s.cache).2) ∨
      ∃ i call, a.call? = some i ∧ s.calls[i]? = some call ∧
        call' = (a.onCall s.held s.cache call).2 := by
  cases ha : a.call? with
  -- The action is about one position of the list; all others are as they were.
  | some i =>
    rw [act_onCall ha] at hmem
    cases hi : s.calls[i]? with
    | none =>
      rw [withCall_eq_self hi] at hmem
      exact .inl hmem
    | some call =>
      rw [withCall_eq hi] at hmem
      rcases List.mem_or_eq_of_mem_set hmem with hmem | rfl
      · exact .inl hmem
      · exact .inr (.inr ⟨i, call, rfl, hi, rfl⟩)
  | none =>
    cases a with
    | spawn r =>
      rcases List.mem_append.1 hmem with hmem | hmem
      · exact .inl hmem
      · exact .inr (.inl ⟨r, rfl, List.mem_singleton.1 hmem⟩)
    | collect i keepAs => exact .inl (collect_calls_subset i keepAs s hmem)
    | upkeep u => exact .inl (keepUp_calls u s ▸ hmem)
    | _ => cases ha

/-- A call that is not done is there after an action as it was before, unless the action is about
    it. -/
theorem mem_calls_act (hmem : call ∈ s.calls) (hgoes : ∀ outcome, call.stage ≠ .done outcome) :
    call ∈ (s.act a).calls ∨ ∃ i, a.call? = some i ∧ s.calls[i]? = some call := by
  obtain ⟨j, hj⟩ := List.getElem?_of_mem hmem
  cases ha : a.call? with
  | some i =>
    rw [act_onCall ha]
    by_cases hij : i = j
    · exact .inr ⟨i, rfl, hij ▸ hj⟩
    · refine .inl (withCall_cases (P := fun t => call ∈ t.calls) (fun _ => hmem) fun own hi => ?_)
      apply List.mem_of_getElem? (i := j)
      rw [List.getElem?_set_ne hij]
      exact hj
  | none =>
    refine .inl ?_
    cases a with
    | spawn r => exact List.mem_append_left _ hmem
    | collect i keepAs =>
      show call ∈ (s.collect i keepAs).calls
      unfold collect
      split
      · exact hmem
      · next outcome hdone =>
        -- Only a call that is done is taken out.
        obtain ⟨own, hi, hstage⟩ := exists_done hdone
        refine List.mem_eraseIdx_iff_getElem?.2 ⟨j, ?_, hj⟩
        rintro rfl
        rw [hi] at hj
        exact hgoes outcome (Option.some.inj hj ▸ hstage)
    | upkeep u => exact (keepUp_calls u s).symm ▸ hmem
    | _ => cases ha

/-! ### What actions keep -/

/-- Every action is a number of changes of the ledger. -/
theorem act_leads (h : s.Sound) (a : Action K V) : Ledger.Leads s.ledger (s.act a).ledger := by
  cases a with
  | spawn r => exact spawn_leads r s
  | advance i =>
    exact withCall_leads i fun call hcall => Call.advance_leads _ _ (h.proper call hcall)
  | resume r i =>
    refine withCall_leads i fun call hcall => Call.resume_leads r _ call fun f hf => ?_
    obtain ⟨e, he, -⟩ := h.ledger.owned.pending f (List.mem_flatMap.2 ⟨call, hcall, hf⟩)
    exact (Array.getElem?_eq_some_iff.1 he).1
  | expire i => exact withCall_leads i fun call _ => Call.expire_leads _ call
  | collect i keepAs => exact collect_leads i keepAs s
  | upkeep u => exact keepUp_leads h.names u

/-- Every action keeps what holds of every reachable system. -/
theorem Sound.act (h : s.Sound) (a : Action K V) : (s.act a).Sound where
  names := by
    cases a with
    | spawn r => exact h.names
    | advance i => exact (withCall_batches _ i s).symm ▸ h.names
    | resume r i => exact (withCall_batches _ i s).symm ▸ h.names
    | expire i => exact (withCall_batches _ i s).symm ▸ h.names
    | collect i keepAs => exact (collect_batches i keepAs s).symm ▸ h.names
    | upkeep u => exact keepUp_names h.names u
  proper := by
    intro call' hmem
    rcases mem_act_calls hmem with hold | ⟨r, rfl, rfl⟩ | ⟨i, call, ha, hi, rfl⟩
    · exact h.proper call' hold
    · exact Call.start_proper r s.cache
    · have hcall := h.proper call (List.mem_of_getElem? hi)
      cases a with
      | advance j => exact hcall.goTo _
      | resume r j => exact Call.resume_proper r _ hcall
      | expire j => exact Call.expire_proper _ hcall
      | _ => cases ha
  ledger := h.ledger.leads (act_leads h a)

theorem Sound.actAll (h : s.Sound) (as : List (Action K V)) : (s.actAll as).Sound := by
  induction as generalizing s with
  | nil => exact h
  | cons a as ih => exact ih (h.act a)

theorem Reachable.actAll (h : s.Reachable) (as : List (Action K V)) : (s.actAll as).Reachable := by
  obtain ⟨config, clock, hashOf, before, rfl⟩ := h
  exact ⟨config, clock, hashOf, before ++ as, (actAll_append _ _ _).symm⟩

theorem Reachable.sound (h : s.Reachable) : s.Sound := by
  obtain ⟨config, clock, hashOf, as, rfl⟩ := h
  exact (sound_new config clock hashOf).actAll as

end actions

end System

end ReadThrough
