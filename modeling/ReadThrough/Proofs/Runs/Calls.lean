import ReadThrough.Proofs.Cache.Parts

/-! # Calls as Changes of the Ledger

  Every critical section of a call, and the end of its callback, is a number of changes of the
  ledger.

  - **flights**, **isRunning**: the callback of a call, if it runs.
  - **Proper**: a call brings a value along exactly if it is to put it.
  - **Call.advance_leads**, **Call.resume_leads**, **Call.expire_leads**: the three ways in which a
    call goes on.
-/

namespace ReadThrough

open Ledger

variable {K V : Type}

/-- The callback that runs at a stage. -/
def Stage.flights : Stage K V → List (Flight V)
  | .running node epoch prior => [⟨node.payload, epoch, prior⟩]
  | _ => []

/-- The callback of a call. -/
def Call.flights (call : Call K V) : List (Flight V) :=
  call.stage.flights

/-- Whether the callback of a call is running. -/
def Call.isRunning (call : Call K V) : Bool :=
  match call.stage with
  | .running .. => true
  | _ => false

theorem Call.isRunning_eq_false_iff (call : Call K V) :
    call.isRunning = false ↔ call.flights = [] := by
  unfold isRunning flights Stage.flights
  cases call.stage <;> simp

theorem Call.flights_running {call : Call K V} {node : EntryNode K} {epoch : Nat}
    {prior : ValueState V} (h : call.stage = .running node epoch prior) :
    call.flights = [⟨node.payload, epoch, prior⟩] := by
  rw [flights, h]
  rfl

/-- A call refers to the entry that its callback runs for. -/
theorem Call.node?_of_mem_flights {call : Call K V} {f : Flight V} (h : f ∈ call.flights) :
    ∃ node, call.node? = some node ∧ node.payload = f.entry := by
  unfold flights Stage.flights at h
  unfold node?
  split at h
  · next node epoch prior hstage =>
    rw [hstage, List.mem_singleton.1 h]
    exact ⟨node, rfl, rfl⟩
  · cases h

/-- The call brings a value along exactly if it is to put it. -/
def Call.Proper (call : Call K V) : Prop :=
  match call.request with
  | .put .. => ∃ v, call.own? = some v
  | _ => call.own? = none

namespace Call

/-! ### What calls keep -/

@[simp] theorem resume_request (r : Return V) (c : Cache K V) (call : Call K V) :
    (call.resume r c).2.request = call.request := by
  unfold resume
  split <;> rfl

@[simp] theorem expire_request (c : Cache K V) (call : Call K V) :
    (call.expire c).2.request = call.request := by
  unfold expire
  split <;> rfl

theorem Proper.goTo {call : Call K V} (h : call.Proper) (stage : Stage K V) :
    (call.goTo stage).Proper := h

theorem resume_proper (r : Return V) (c : Cache K V) {call : Call K V} (h : call.Proper) :
    (call.resume r c).2.Proper := by
  unfold resume
  split
  · exact h.goTo _
  · exact h

theorem expire_proper (c : Cache K V) {call : Call K V} (h : call.Proper) :
    (call.expire c).2.Proper := by
  unfold expire
  split
  · exact h.goTo _
  · exact h

@[simp] theorem start_request (r : Request K V) (c : Cache K V) :
    (start r c).2.request = r := by
  cases r <;> rfl

@[simp] theorem start_stage (r : Request K V) (c : Cache K V) :
    (start r c).2.stage = .lookup := by
  cases r <;> rfl

theorem start_proper (r : Request K V) (c : Cache K V) : (start r c).2.Proper := by
  cases r with
  | put key content => exact ⟨_, rfl⟩
  | _ => rfl

end Call

/-! ## Changes of a cache -/

namespace Cache

/-- The cache changes by a number of changes of the ledger, in which flights take the place of
    others, whatever batches and other flights there are. -/
def Leads (c c' : Cache K V) (old new : List (Flight V)) : Prop :=
  ∀ (bs : List Batch) (fs : List (Flight V)), Ledger.Leads
    ⟨c.entries, c.chain, bs, old ++ fs⟩ ⟨c'.entries, c'.chain, bs, new ++ fs⟩

/-- A critical section that starts and ends nothing. -/
def Rests (c : Cache K V) (r : Cache K V × Stage K V) : Prop :=
  c.Quiet r.1 ∧ r.2.flights = []

variable {c c' c'' : Cache K V} {fl fl' fl'' : List (Flight V)}

theorem Leads.trans (h : c.Leads c' fl fl') (k : c'.Leads c'' fl' fl'') : c.Leads c'' fl fl'' :=
  fun bs fs => (h bs fs).trans (k bs fs)

theorem Leads.single (h : ∀ bs fs, Step ⟨c.entries, c.chain, bs, fl ++ fs⟩
    ⟨c'.entries, c'.chain, bs, fl' ++ fs⟩) : c.Leads c' fl fl' :=
  fun bs fs => .single (h bs fs)

theorem Quiet.leads (h : c.Quiet c') : c.Leads c' fl fl := by
  refine .single fun bs fs => ?_
  rw [h.chain]
  exact .quiet h.entries

theorem Rests.leads {r : Cache K V × Stage K V} (h : c.Rests r) : c.Leads r.1 [] r.2.flights := by
  rw [h.2]
  exact h.1.leads

/-- A critical section that leaves entries and chain alone. -/
theorem rests_of_same {stage : Stage K V} (hentries : c'.entries = c.entries)
    (hchain : c'.chain = c.chain) (hstage : stage.flights = []) : c.Rests (c', stage) :=
  ⟨⟨hentries ▸ .refl _, hchain⟩, hstage⟩

end Cache

/-! ## Critical sections -/

namespace Call

open Cache

variable {held : Held} {c : Cache K V} {call : Call K V} {node : EntryNode K} {e : Entry K V}

theorem lookup_rests [DecidableEq K] (r : Request K V) (c : Cache K V) : c.Rests (lookup r c) := by
  unfold lookup
  repeat' split
  all_goals exact rests_of_same rfl rfl rfl

theorem reserve_rests (now : Nat) (c : Cache K V) : c.Rests (reserve now c) := by
  unfold reserve
  split
  · exact rests_of_same rfl rfl rfl
  · exact rests_of_same rfl rfl rfl

theorem refuse_rests (limit : Nat) (c : Cache K V) : c.Rests (refuse limit c) :=
  rests_of_same rfl rfl rfl

theorem giveBack_rests (error? : Option CacheError) (c : Cache K V) :
    c.Rests (giveBack error? c) := by
  cases error? with
  | none => exact rests_of_same rfl rfl rfl
  | some error => exact rests_of_same rfl rfl rfl

theorem giveUp_rests (seconds : Nat) (c : Cache K V) : c.Rests (giveUp seconds c) :=
  rests_of_same rfl rfl rfl

theorem park_rests (call : Call K V) (node : EntryNode K) (e : Entry K V) (c : Cache K V) :
    c.Rests (park call node e c) := by
  unfold park
  split
  · exact giveUp_rests 0 c
  · exact rests_of_same rfl rfl rfl

theorem wake_rests (call : Call K V) (node : EntryNode K) (epoch : Nat) (c : Cache K V) :
    c.Rests (wake call node epoch c) := by
  unfold wake
  repeat' split
  all_goals exact rests_of_same rfl rfl rfl

theorem release_rests (node : EntryNode K) (now : Nat) (outcome : Outcome V) (c : Cache K V) :
    c.Rests (release node now outcome c) := by
  cases outcome with
  | _ => exact rests_of_same rfl rfl rfl

theorem retire_rests (held : Held) (node : EntryNode K) (c : Cache K V) :
    c.Rests (retire held node c) :=
  ⟨⟨Entries.quiet_modify _ _ fun e _ => Entry.quiet_retire held e, rfl⟩, rfl⟩

/-! ### Looking at an entry -/

theorem quiet_settled (held : Held) (node : EntryNode K) (c : Cache K V) :
    c.Quiet (c.modify node.payload (Entry.resolve held)) :=
  quiet_modify _ (Entry.quiet_resolve held) c

theorem inspectGet_rests (held : Held) (node : EntryNode K) (e : Entry K V) (c : Cache K V) :
    c.Rests (inspectGet held node e c) := by
  have hquiet := quiet_settled held node c
  unfold inspectGet
  dsimp only
  split
  · exact ⟨⟨hquiet.entries, hquiet.chain⟩, rfl⟩
  · exact ⟨⟨hquiet.entries, hquiet.chain⟩, rfl⟩

/-- A load starts only if the entry has no value that is usable or not written back. -/
theorem inspectLoad_leads (expire : Nat) (acceptEmpty : Bool) (now : Nat)
    (he : c.entries[node.payload]? = some e) :
    c.Leads (inspectLoad held call expire acceptEmpty node now e c).1 []
      (inspectLoad held call expire acceptEmpty node now e c).2.flights := by
  have hquiet := quiet_settled held node c
  unfold inspectLoad
  dsimp only
  split
  · exact (rests_of_same rfl rfl rfl).leads
  split
  · exact hquiet.leads
  · exact hquiet.leads.trans (park_rests _ _ _ _).leads
  next hfind =>
  have hpending : e.value ≠ .pending := fun hval => by simp [Entry.find, hval] at hfind
  have hdirty : ∀ v, e.value ≠ .dirty v := fun v hval => by simp [Entry.find, hval] at hfind
  have he' : (c.entries.modify node.payload (Entry.resolve held))[node.payload]? =
      some (e.resolve held) := by simp [Array.getElem?_modify, he]
  split
  · exact hquiet.leads
  · refine hquiet.leads.trans (.single fun bs fs => ?_)
    refine .start (e := e.resolve held) he' ?_ (by simp) fun v => ?_
    · simpa [Entry.resolve] using hpending
    · simpa [Entry.resolve] using hdirty v

theorem inspectUpdate_leads (he : c.entries[node.payload]? = some e) :
    c.Leads (inspectUpdate held call node e c).1 []
      (inspectUpdate held call node e c).2.flights := by
  unfold inspectUpdate
  split
  · exact (rests_of_same rfl rfl rfl).leads
  split
  · exact (park_rests _ _ _ _).leads
  next hpending =>
  rw [ValueState.isPending_iff] at hpending
  refine .single fun bs fs => .start he hpending ?_ fun v => ?_
  · rw [ne_eq, ValueState.resolve_eq_pending]
    exact hpending
  · rw [ValueState.resolve_eq_dirty]

theorem inspectPut_rests (now : Nat) (he : c.entries[node.payload]? = some e) :
    c.Rests (inspectPut held call node now e c) := by
  have hquiet := quiet_settled held node c
  unfold inspectPut
  split
  · exact rests_of_same rfl rfl rfl
  split
  · exact park_rests _ _ _ _
  next hpending =>
  rw [ValueState.isPending_iff] at hpending
  dsimp only
  split
  · exact ⟨hquiet, rfl⟩
  · next v hpeek hown =>
    refine ⟨hquiet.trans ⟨?_, rfl⟩, rfl⟩
    refine Entries.quiet_modify _ _ fun e' he' => ?_
    obtain rfl : e' = e.resolve held := by simpa [Array.getElem?_modify, he] using he'.symm
    refine Entry.quiet_install v now ?_ fun w hval => ?_
    · simpa [Entry.resolve] using hpending
    · -- A dirty value could be had.
      have hdirty : e.value = .dirty w := by simpa [Entry.resolve] using hval
      simp [hdirty, ValueState.peek] at hpeek
  · exact ⟨hquiet, rfl⟩

theorem inspectMark_leads (he : c.entries[node.payload]? = some e) :
    c.Leads (inspectMark held node e c).1 [] (inspectMark held node e c).2.flights := by
  have hquiet := quiet_settled held node c
  unfold inspectMark
  dsimp only
  split
  · exact hquiet.leads
  · next v hpeek =>
    refine .single fun bs fs => ?_
    rw [makeDirty_entries, makeDirty_chain]
    refine .enlist (Array.getElem?_eq_some_iff.1 he).1
      (fun e => (Entry.quiet_resolve held e).toSameMarks) (by simp) fun _ e' he' => ?_
    rw [he] at he'
    obtain rfl := Option.some.inj he'
    exact ValueState.ne_pending_of_peek hpeek

theorem inspect_leads (held : Held) (call : Call K V) (node : EntryNode K) (now : Nat)
    (c : Cache K V) : c.Leads (inspect held call node now c).1 []
      (inspect held call node now c).2.flights := by
  unfold inspect
  split
  · exact (rests_of_same rfl rfl rfl).leads
  next e he =>
  split
  · exact (inspectGet_rests held node e c).leads
  · exact inspectLoad_leads _ _ now he
  · exact inspectUpdate_leads he
  · exact (inspectPut_rests now he).leads
  · exact inspectMark_leads he
  · exact (rests_of_same rfl rfl rfl).leads

/-! ### Insertion -/

/-- Where a call stands after it has inserted an entry. -/
def inserted (call : Call K V) (node : EntryNode K) : Stage K V :=
  match call.request with
  | .put .. => .done (.value call.own?)
  | _ => .running node 1 .unassigned

/-- The counters after a call has inserted an entry: a load has missed its key. -/
def insertedCounters (call : Call K V) (k : Counters) : Counters :=
  match call.request with
  | .load .. => { k with misses := k.misses + 1 }
  | _ => k

/-- A call that brings a value along puts it; for other calls a callback runs. -/
theorem Proper.inserted_flights (h : call.Proper) (node : EntryNode K) :
    (∃ v, call.firstState = .ready v ∧ (call.inserted node).flights = []) ∨
      (call.firstState = .pending ∧
        (call.inserted node).flights = [⟨node.payload, 1, .unassigned⟩]) := by
  unfold Proper at h
  unfold firstState inserted
  split at h
  · obtain ⟨v, hown⟩ := h
    rw [hown]
    exact .inl ⟨v, rfl, rfl⟩
  · rw [h]
    exact .inr ⟨rfl, rfl⟩

/-- What insertion does, where `I` is what the evictor keeps. -/
inductive Inserts [DecidableEq K] (I : Table.Buckets K EntryId → Census K V → Prop)
    (call : Call K V) (now : Nat) (c : Cache K V) : Cache K V × Stage K V → Prop where
  /-- Another caller was faster. -/
  | found {c' : Cache K V} {stage : Stage K V} (node : EntryNode K)
      (hget : c.table.get? call.request.key = some node) (htable : c'.table = c.table)
      (hentries : c'.entries = c.entries) (hchain : c'.chain = c.chain)
      (hstage : stage = .giveBack none ∨ stage = .lookup)
      (hcounters : c'.counters = c.counters) : Inserts I call now c (c', stage)
  /-- There was no room. -/
  | refused {c' : Cache K V} {stage : Stage K V} (m : Census K V)
      (hget : c.table.get? call.request.key = none) (hkeep : I c'.table.buckets m)
      (hhash : c'.table.hashOf = c.table.hashOf) (hentries : c'.entries = m.1)
      (hchain : c'.chain = c.chain)
      (hstage : ∃ capacity, stage = .giveBack (some (.capacityExhausted capacity)) ∨
        stage = .done (.failed (.capacityExhausted capacity)))
      (hcounters : c'.counters = (c.countEvictions m.2).counters) :
      Inserts I call now c (c', stage)
  /-- The entry was inserted. -/
  | made {c' : Cache K V} {stage : Stage K V} (room : Table K EntryId) (m : Census K V)
      (hget : c.table.get? call.request.key = none) (hkeep : I room.buckets m)
      (hhash : room.hashOf = c.table.hashOf)
      (htable : c'.table = (room.insertNew call.request.key c.entries.size).table)
      (hentries : c'.entries = m.1.push (Entry.new call.request.key call.firstState now))
      (hchain : c'.chain = c.chain) (hstage : stage =
        call.inserted (room.insertNew call.request.key c.entries.size).value)
      (hcounters : c'.counters = call.insertedCounters (c.countEvictions m.2).counters) :
      Inserts I call now c (c', stage)

theorem insert_inserts [DecidableEq K] {I : Table.Buckets K EntryId → Census K V → Prop}
    (hj : evictor.Keeps I) (call : Call K V) (now : Nat) (c : Cache K V)
    (hI : I c.table.buckets (c.entries, 0)) : Inserts I call now c (call.insert now c) := by
  have hentered := Table.getOrInsert_entered lastUseIn hj evictor_steady call.request.key
    c.entries.size hI
  unfold insert
  dsimp only
  generalize hr : c.table.getOrInsert lastUseIn evictor call.request.key (.ok c.entries.size)
    (c.entries, 0) = r at hentered
  -- What the table answers, with the entries and events that come with it.
  have hanswer : (c.consult fun table entries => (table.getOrInsert lastUseIn evictor
      call.request.key (.ok entries.size) (entries, 0)).map fun value =>
        ((value.1, value.2.2), value.2.1)) =
      ({ c with
         table := r.table, entries := r.value.2.1, log := r.events.reverse ++ c.log },
       (r.value.1, r.value.2.2)) := by
    rw [← hr]
    rfl
  rw [hanswer]
  cases hentered with
  -- Another caller was faster, so the key is looked up again.
  | occupied node hget =>
    dsimp only
    split
    · exact .found node hget rfl rfl rfl (.inl rfl) rfl
    · exact .found node hget rfl rfl rfl (.inr rfl) rfl
  -- There is room. Only a load counts that, as a miss, and only a put is done then.
  | vacant room m events hget hhash hkeep =>
    dsimp only
    split
    · next key expire acceptEmpty heq =>
      exact .made room m hget hkeep hhash rfl rfl rfl (by rw [inserted, heq])
        (by rw [insertedCounters, heq]; rfl)
    · next key content heq =>
      exact .made room m hget hkeep hhash rfl rfl rfl (by rw [inserted, heq])
        (by rw [insertedCounters, heq]; rfl)
    · next hload hput =>
      refine .made room m hget hkeep hhash rfl rfl rfl ?_ ?_
      · unfold inserted
        split
        · next key content heq => exact (hput key content heq).elim
        · rfl
      · unfold insertedCounters
        split
        · next key expire acceptEmpty heq => exact (hload key expire acceptEmpty heq).elim
        · rfl
  -- There is no room. A load has a reservation to give back before it says so.
  | refused room m events capacity hget hhash hkeep =>
    dsimp only
    split
    · exact .refused m hget hkeep hhash rfl rfl ⟨capacity, .inl rfl⟩ rfl
    · exact .refused m hget hkeep hhash rfl rfl ⟨capacity, .inr rfl⟩ rfl

/-- A call that has found no entry inserts one: with the value that it brings along, or for its
    callback. -/
theorem insert_leads [DecidableEq K] (hproper : call.Proper) (now : Nat) (c : Cache K V) :
    c.Leads (call.insert now c).1 [] (call.insert now c).2.flights := by
  have h := insert_inserts (lenient_quiet.evictor c.entries) call now c
    (Entries.Quiet.refl c.entries)
  generalize call.insert now c = r at h ⊢
  cases h with
  | found node hget htable hentries hchain hstage =>
    refine (rests_of_same hentries hchain ?_).leads
    rcases hstage with rfl | rfl <;> rfl
  | refused m hget hkeep hhash hentries hchain hstage =>
    refine Rests.leads ⟨⟨hentries ▸ hkeep, hchain⟩, ?_⟩
    rcases hstage with ⟨capacity, rfl | rfl⟩ <;> rfl
  | @made c' stage room m hget hkeep hhash htable hentries hchain hstage =>
    subst hstage
    intro bs fs
    rw [hentries, hchain]
    have hsize : c.entries.size = m.1.size := hkeep.1.symm
    have hroom : Ledger.Leads ⟨c.entries, c.chain, bs, fs⟩ ⟨m.1, c.chain, bs, fs⟩ :=
      .single (.quiet hkeep)
    rcases hproper.inserted_flights (room.insertNew call.request.key c.entries.size).value with
      ⟨v, hfirst, hflights⟩ | ⟨hfirst, hflights⟩
    · rw [hfirst, hflights]
      exact hroom.tail (.insertReady _ v now)
    · rw [hfirst, hflights, Table.insertNew_payload, hsize]
      exact hroom.tail (.insertPending _ now)

/-! ## Steps -/

/-- One critical section of a call. -/
theorem advance_leads [DecidableEq K] (held : Held) (c : Cache K V) (hproper : call.Proper) :
    c.Leads (call.advance held c).1 call.flights (call.advance held c).2.flights := by
  unfold advance flights
  dsimp only
  cases call.stage with
  | lookup => exact (lookup_rests _ _).leads
  | inspect node now => exact inspect_leads _ _ _ _ _
  | reserve now => exact (reserve_rests _ _).leads
  | refuse limit => exact (refuse_rests _ _).leads
  | insert now => exact insert_leads hproper _ _
  | giveBack error? => exact (giveBack_rests _ _).leads
  | parked node epoch => exact (wake_rests _ _ _ _).leads
  | running node epoch prior => exact (Quiet.refl c).leads
  | release node now outcome => exact (release_rests _ _ _ _).leads
  | touch node now outcome =>
    exact Rests.leads ⟨⟨Entries.quiet_modify _ _ fun e _ => Entry.quiet_stamp now e, rfl⟩, rfl⟩
  | retire node => exact (retire_rests _ _ _).leads
  | done outcome => exact (rests_of_same rfl rfl rfl).leads

/-- An operation that is given up leaves the entry as it was. -/
theorem restore_leads (node : EntryNode K) (epoch : Nat) (prior : ValueState V) (c : Cache K V) :
    c.Leads (c.modify node.payload (Entry.restore epoch prior))
      [⟨node.payload, epoch, prior⟩] [] := by
  refine .single fun bs fs => .settle (Entry.sameMarks_restore epoch prior) ?_
  rintro e hval rfl hprior
  exact ⟨by rw [Entry.restore_value prior hval]; exact hprior,
    fun v hv => by rw [← hv, Entry.restore_value prior hval]⟩

/-- An operation that ends with a state that is not dirty. -/
theorem finish_leads (node : EntryNode K) (epoch : Nat) (prior : ValueState V) (c : Cache K V)
    {f : Entry K V → Entry K V} (hmarks : ∀ e : Entry K V, e.SameMarks (f e))
    (hpending : ∀ e : Entry K V, (f e).value ≠ .pending)
    (hdirty : ∀ (e : Entry K V) (v : Value V), (f e).value ≠ .dirty v) :
    c.Leads (c.modify node.payload f) [⟨node.payload, epoch, prior⟩] [] :=
  .single fun _ _ => .settle hmarks fun e _ _ _ =>
    ⟨hpending e, fun v hv => absurd hv (hdirty e v)⟩

/-- The end of a loader leaves nothing dirty. -/
theorem settleLoad_leads (node : EntryNode K) (epoch : Nat) (prior : ValueState V) (r : Return V)
    (c : Cache K V) : c.Leads (settleLoad node epoch prior r c).1 [⟨node.payload, epoch, prior⟩]
      (settleLoad node epoch prior r c).2.flights := by
  cases r with
  | value content =>
    exact finish_leads node epoch prior (c.allocate content).1
      (Entry.sameMarks_install _ _) (by simp [Entry.install]) (by simp [Entry.install])
  | empty =>
    exact finish_leads node epoch prior c
      (Entry.sameMarks_install _ _) (by simp [Entry.install]) (by simp [Entry.install])
  | fail reason =>
    exact finish_leads node epoch prior c
      (Entry.sameMarks_fail _ _) (by simp [Entry.fail]) (by simp [Entry.fail])
  | panic reason => exact restore_leads node epoch prior c

/-- The end of an updater marks the entry dirty, or leaves it as it was. -/
theorem settleUpdate_leads (node : EntryNode K) (epoch : Nat) (prior : ValueState V)
    (r : Return V) (c : Cache K V) (hlt : node.payload < c.entries.size) :
    c.Leads (settleUpdate node epoch prior r c).1 [⟨node.payload, epoch, prior⟩]
      (settleUpdate node epoch prior r c).2.flights := by
  cases r with
  | value content =>
    refine .single fun bs fs => ?_
    unfold settleUpdate
    dsimp only
    rw [makeDirty_entries, makeDirty_chain]
    exact .enlist hlt (Entry.sameMarks_install _ _) (by simp) (by simp)
  | empty => exact restore_leads node epoch prior c
  | fail reason => exact restore_leads node epoch prior c
  | panic reason => exact restore_leads node epoch prior c

/-- The end of a callback. -/
theorem resume_leads (r : Return V) (c : Cache K V) (call : Call K V)
    (hlt : ∀ f ∈ call.flights, f.entry < c.entries.size) :
    c.Leads (call.resume r c).1 call.flights (call.resume r c).2.flights := by
  unfold resume flights at *
  split
  · next node epoch prior hstage =>
    rw [hstage] at hlt ⊢
    have hnode : node.payload < c.entries.size := hlt _ List.mem_cons_self
    dsimp only
    split
    · exact settleLoad_leads node epoch prior r c
    · exact settleUpdate_leads node epoch prior r c hnode
  · exact (Quiet.refl c).leads

/-- The end of a wait. -/
theorem expire_leads (c : Cache K V) (call : Call K V) :
    c.Leads (call.expire c).1 call.flights (call.expire c).2.flights := by
  unfold expire flights
  split
  · next node epoch hstage =>
    rw [hstage]
    have hwake := wake_rests call node epoch c
    dsimp only
    split
    · next c' _ _ heq =>
      rw [heq] at hwake
      exact (hwake.1.leads).trans (giveUp_rests _ _).leads
    · exact hwake.leads
  · exact (Quiet.refl c).leads

end Call

end ReadThrough
