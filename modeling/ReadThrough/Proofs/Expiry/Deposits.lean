import ReadThrough.Proofs.Expiry.Courses

/-! # What a Single Caller Puts in Place

  Loads, updates and puts put their results in place. Which of them, for which entry and when shows
  in the outcomes of the moves of a single caller alone.

  - **deposit?**, **deposits**: what a move, or a run of moves, puts in place for an entry.
  - **Settles.dates**: the end of a callback.
  - **Sequential**: after a run of moves every entry knows the date of what was put in place last.
-/

namespace ReadThrough

open Cache Entries

variable {K V : Type}

/-! ## Deposits -/

/-- Whether the callback of a call runs for an entry. -/
def Call.runsFor (id : EntryId) (call : Call K V) : Bool :=
  match call.stage with
  | .running node _ _ => node.payload == id
  | _ => false

/-- What a callback puts in place that ends with an outcome: a loader may find that there is no
    value, but an updater that makes none changes nothing. -/
def Call.makes? (call : Call K V) : Outcome V → Option (Option (Value V))
  | .value (some v) => some (some v)
  | .value none => if call.request.isLoad then some none else none
  | _ => none

namespace System

variable [DecidableEq K]

/-- What a move puts in place for an entry: the latest call is a load or an update whose callback
    has run for the entry, or it is a put that has found no value and has put its own in place for
    the entry that its key leads to. -/
def deposit? (id : EntryId) (s : System K V) (m : Move K V) : Option (Deposit V) :=
  match m with
  | .reply _ =>
    let i := s.calls.length - 1
    match s.calls[i]?, (s.move m).outcome? i with
    | some call, some outcome =>
      if call.runsFor id then (call.makes? outcome).map (⟨s.cache.now, ·⟩) else none
    | _, _ => none
  | .start (.put k content) =>
    if (s.putting k content).cache.contains (s.putting k content).held k then none
    else
      match (s.move m).outcome? s.calls.length, (s.move m).cache.table.get? k with
      | some (.value (some v)), some node =>
        if node.payload = id then some ⟨s.cache.now, some v⟩ else none
      | _, _ => none
  | _ => none

/-- What a run of moves puts in place for an entry, in order. -/
def deposits (id : EntryId) (s : System K V) : List (Move K V) → List (Deposit V)
  | [] => []
  | m :: ms => (s.deposit? id m).toList ++ (s.move m).deposits id ms

end System

/-! ## The end of a callback -/

@[simp] theorem Entry.restore_lastReady (epoch : Nat) (prior : ValueState V) (e : Entry K V) :
    (e.restore epoch prior).lastReady = e.lastReady := by
  unfold restore
  split <;> rfl

namespace Call

variable {c : Cache K V} {call : Call K V} {node : EntryNode K} {epoch : Nat}
  {prior : ValueState V} {e e' : Entry K V} {stage : Stage K V}

/-- A callback ends at the current tick. -/
theorem resume_now (r : Return V) (hstage : call.stage = .running node epoch prior)
    {m : EntryNode K} {now : Nat} {outcome : Outcome V}
    (h : (call.resume r c).2.stage = .release m now outcome ∨
      (call.resume r c).2.stage = .touch m now outcome) : now = c.now := by
  unfold resume at h
  rw [hstage] at h
  cases hrequest : call.request <;> cases r <;>
    simp_all [settleLoad, settleUpdate, goTo]

/-- What the end of a callback puts in place is as old as the end of the callback, and if it puts
    nothing in place then what was there before is as old as before. -/
theorem Settles.dates {r : Return V} {d? : Option (Deposit V)} {tick : Nat}
    (h : call.Settles r node epoch prior e e' stage)
    (hnow : ∀ m now outcome, stage = .release m now outcome ∨ stage = .touch m now outcome →
      now = tick)
    (hpending : e.value = .pending) (hepoch : e.epoch = epoch) (hprior : e.Dates d? prior) :
    e'.Dates (((stage.outcome?.bind call.makes?).map (⟨tick, ·⟩)).or d?) e'.value := by
  cases h with
  | loaded v now hr =>
    obtain rfl := hnow _ _ _ (.inl rfl)
    intro made? hmade
    obtain rfl := Option.some.inj hmade
    rfl
  | empty now hr =>
    obtain rfl := hnow _ _ _ (.inl rfl)
    intro made? hmade
    obtain rfl := Option.some.inj hmade
    simp [Stage.outcome?, makes?, hr, Entry.install]
  | failed now error hr => exact Entry.dates_of_none rfl
  | updated content v now next? hresult hr =>
    obtain rfl := hnow _ _ _ (.inr rfl)
    intro made? hmade
    obtain rfl := Option.some.inj hmade
    rfl
  | restored outcome stage hstage hvalue hload =>
    have houtcome : stage.outcome? = some outcome := by
      rcases hstage with rfl | ⟨now, rfl⟩ <;> rfl
    have hnone : call.makes? outcome = none := by
      cases outcome with
      | value v? =>
        obtain rfl : v? = none := hvalue
        have hupdate : call.request.isLoad = false :=
          Bool.eq_false_iff.2 fun hr => hload hr none rfl
        simp [makes?, hupdate]
      | _ => rfl
    -- What the callback was given is put back, and it is as old as it was.
    rw [houtcome, Option.bind_some, hnone, ← hepoch, Entry.restore_value prior hpending]
    intro made? hmade
    rw [Entry.restore_lastReady]
    exact hprior made? hmade

theorem Settles.outcome {r : Return V} (h : call.Settles r node epoch prior e e' stage) :
    ∃ outcome, stage.outcome? = some outcome := by
  cases h with
  | restored outcome stage hstage hvalue hload =>
    rcases hstage with rfl | ⟨now, rfl⟩ <;> exact ⟨outcome, rfl⟩
  | _ => exact ⟨_, rfl⟩

end Call

namespace System

variable [DecidableEq K] {s : System K V} {id : EntryId} {d? : Option (Deposit V)} {i : Nat}
  {call : Call K V} {node : EntryNode K} {epoch : Nat} {prior : ValueState V}

/-- The end of a callback that runs for another entry. -/
theorem Dated.resume_other (h : s.Dated id d?) (hs : s.Sound) (ho : s.Orderly)
    (hi : s.calls[i]? = some call) (hstage : call.stage = .running node epoch prior)
    (hid : id ≠ node.payload) (r : Return V) : (s.act (.resume r i)).Dated id d? := by
  refine h.ages hs (fun e' he' => .inl ?_) fun _ => mem_act_flights hs ho
  rw [act_cache rfl hi] at he'
  obtain ⟨e, he, -, hother⟩ := (Call.resume_each r hstage).backward he'
  exact ⟨e, he, (hother hid).aged⟩

/-- The end of the callback that runs for the entry. -/
theorem Dated.resume_own (h : s.Dated node.payload d?) (hs : s.Sound)
    (hi : s.calls[i]? = some call) (hstage : call.stage = .running node epoch prior)
    (r : Return V) : (s.act (.resume r i)).Dated node.payload
      ((((call.resume r s.cache).2.stage.outcome?.bind call.makes?).map
        (⟨s.cache.now, ·⟩)).or d?) := by
  have hcall := List.mem_of_getElem? hi
  obtain ⟨hprior, e, he, hpending, hepoch⟩ := exists_pending hs hcall hstage
  obtain ⟨e', he', hsettles⟩ := Call.resume_settles (c := s.cache) r hstage he
  have hcache : (s.act (.resume r i)).cache.entries[node.payload]? = some e' := by
    rw [act_cache rfl hi]
    exact he'
  refine dated_of_dates (hs.act (.resume r i)) fun e₁ he₁ => ?_
  obtain rfl : e' = e₁ := Option.some.inj (hcache.symm.trans he₁)
  exact ⟨hsettles.ne_pending hprior hpending hepoch,
    hsettles.dates (fun _ _ _ => Call.resume_now r hstage) hpending hepoch
      ((h e he).2 _ (mem_flights hcall hstage) rfl)⟩

/-! ## Moves -/

/-- What holds between the moves of a single caller: every entry knows the date of what was put in
    place for it last, and every put has come to its end. -/
structure Sequential (last : EntryId → Option (Deposit V)) (s : System K V) : Prop where
  reachable : s.Reachable
  dated : ∀ id, s.Dated id (last id)
  puts : ∀ call ∈ s.calls, call.request.isPut = true → ∃ outcome, call.stage = .done outcome

variable {last : EntryId → Option (Deposit V)}

theorem sequential_new (config : Config) (clock : Clock) (hashOf : K → UInt64) :
    (System.new config clock hashOf : System K V).Sequential fun _ => none where
  reachable := ⟨config, clock, hashOf, [], rfl⟩
  dated := fun id e he => by simp [System.new, Cache.new] at he
  puts := by simp [System.new]

/-- An action that is about no put and ends no callback. -/
theorem Sequential.act (h : s.Sequential last) {a : Action K V} (ha : s.mayPlace a = false)
    (hputs : ∀ call ∈ (s.act a).calls, call.request.isPut = true → call ∈ s.calls) :
    (s.act a).Sequential last where
  reachable := h.reachable.actAll [a]
  dated := fun id => (h.dated id).act h.reachable.sound h.reachable.orderly ha
  puts := fun call hmem hput => h.puts call (hputs call hmem hput) hput

/-- A call that is no put goes on. -/
theorem Sequential.carryOn (h : s.Sequential last)
    (hplain : ∀ call, s.calls[i]? = some call → call.request.isPut = false) :
    (s.carryOn i).Sequential last := by
  have hstep {t : System K V} {a : Action K V} (ha : a = .advance i ∨ a = .expire i)
      (ht : t.Sequential last ∧ ∀ call, t.calls[i]? = some call → call.request.isPut = false) :
      (t.act a).Sequential last ∧
        ∀ call, (t.act a).calls[i]? = some call → call.request.isPut = false := by
    have hcall : a.call? = some i := by rcases ha with rfl | rfl <;> rfl
    -- Neither action ends a callback, and the only call that moves is no put.
    refine ⟨ht.1.act ?_ fun call hmem hput => ?_, fun call hi => ?_⟩
    · rcases ha with rfl | rfl
      · cases hi : t.calls[i]? with
        | none => simp [mayPlace, hi]
        | some call => simp [mayPlace, hi, ht.2 call hi]
      · rfl
    · rcases mem_act_calls hmem with hold | ⟨r, rfl, -⟩ | ⟨j, before, hj, hi, rfl⟩
      · exact hold
      · cases hcall
      · obtain rfl := Option.some.inj (hcall.symm.trans hj)
        rw [onCall_request, ht.2 before hi] at hput
        cases hput
    · cases hold : t.calls[i]? with
      | none =>
        rw [act_onCall hcall, withCall_eq_self hold, hold] at hi
        cases hi
      | some before =>
        rw [act_getElem? hcall hold] at hi
        rw [← Option.some.inj hi, onCall_request]
        exact ht.2 before hold
  exact (carryOn_induct (P := fun t : System K V => t.Sequential last ∧
    ∀ call, t.calls[i]? = some call → call.request.isPut = false)
    (fun _ ht => hstep (.inl rfl) ht) (fun _ ht => hstep (.inr rfl) ht) ⟨h, hplain⟩).1

/-- What the deposits of a move make of the latest ones. -/
def latest (last : EntryId → Option (Deposit V)) (s : System K V) (m : Move K V) (id : EntryId) :
    Option (Deposit V) :=
  (s.deposit? id m).or (last id)

/-- What a put puts in place, by where it ends. -/
theorem deposit?_put {k : K} {content : V} {q : Cache K V × Call K V} {outcome : Outcome V}
    (hstart : s.start (.put k content) = s.withLatest q) (hdone : q.2.stage = .done outcome)
    (id : EntryId) : s.deposit? id (.start (.put k content)) =
      if (s.putting k content).cache.contains (s.putting k content).held k then none
      else
        match some outcome, q.1.table.get? k with
        | some (.value (some v)), some node =>
          if node.payload = id then some ⟨s.cache.now, some v⟩ else none
        | _, _ => none := by
  have houtcome : (s.withLatest q).outcome? s.calls.length = some outcome := by
    simp [outcome?, hdone]
  rw [deposit?, System.move, hstart, houtcome]
  rfl

/-- A put puts its value in place, or nothing. -/
theorem Dated.start_put (h : s.Dated id d?) (hs : s.Sound) {k : K} {content : V}
    {q : Cache K V × Call K V} (hq : s.Puts k content q)
    (hstart : s.start (.put k content) = s.withLatest q) (hs' : (s.withLatest q).Sound) :
    (s.withLatest q).Dated id ((s.deposit? id (.start (.put k content))).or d?) := by
  -- If the entries only age, the last deposit is what it was.
  have hkept (hages : s.Ages id (s.withLatest q)) : (s.withLatest q).Dated id d? := by
    obtain ⟨outcome, hdone⟩ := hq.done
    have hflights : (s.withLatest q).ledger.flights = s.ledger.flights := by
      simp [ledger, withLatest, Call.flights, Stage.flights, hdone]
    exact h.ages hs hages fun f hf => .inl (hflights ▸ hf)
  cases hq with
  -- A value was found, or the put has failed.
  | leaves outcome hdone hwhy hentries =>
    rw [deposit?_put hstart hdone]
    rcases hwhy with hfound | hnone
    · rw [if_pos hfound]
      exact hkept (ages_of_each hentries)
    split
    · exact hkept (ages_of_each hentries)
    split
    · next v node hvalue hget =>
      rw [Option.some.inj hvalue] at hnone
      cases hnone
    · exact hkept (ages_of_each hentries)
  -- The value of the put is the last deposit now, but only of its own entry.
  | places node v hdone hwhy hget hplace hothers =>
    rw [deposit?_put hstart hdone, if_neg (by simp [hwhy]), hget]
    dsimp only
    split
    · next hid =>
      refine dated_of_dates hs' fun e' he' => ?_
      obtain ⟨hvalue, hdate⟩ := hplace e' (hid ▸ he')
      rw [hvalue]
      refine ⟨by simp, fun made? hmade => ?_⟩
      rw [hdate, ← Option.some.inj hmade]
      rfl
    · next hid => exact hkept fun e' he' => .inl (hothers id e' (Ne.symm hid) he')

theorem Sequential.start_put (h : s.Sequential last) (k : K) (content : V) :
    (s.start (.put k content)).Sequential (s.latest last (.start (.put k content))) := by
  obtain ⟨q, hq, hstart⟩ := System.start_put h.reachable k content
  have hreachable : (s.withLatest q).Reachable :=
    hstart ▸ h.reachable.move (.start (.put k content))
  rw [hstart]
  refine ⟨hreachable, fun id => ?_, fun call hmem hput => ?_⟩
  · exact (h.dated id).start_put h.reachable.sound hq hstart hreachable.sound
  · rcases List.mem_append.1 hmem with hold | hnew
    · exact h.puts call hold hput
    · rw [List.mem_singleton.1 hnew]
      exact hq.done

theorem Sequential.start (h : s.Sequential last) (r : Request K V) :
    (s.start r).Sequential (s.latest last (.start r)) := by
  have hplain (hput : r.isPut = false) : (s.start r).Sequential last := by
    have hrequest : (Call.start r s.cache).2.request.isPut = false := by
      rw [Call.start_request]
      exact hput
    have hspawn : (s.act (.spawn r)).Sequential last := by
      refine h.act rfl fun call hmem hcall => (List.mem_append.1 hmem).resolve_right fun hnew => ?_
      rw [List.mem_singleton.1 hnew] at hcall
      exact Bool.false_ne_true (hrequest.symm.trans hcall)
    have hstart : s.start r = (s.act (.spawn r)).carryOn s.calls.length := rfl
    rw [hstart]
    refine hspawn.carryOn fun call hi => ?_
    rw [spawn_getElem?] at hi
    exact Option.some.inj hi ▸ hrequest
  cases r with
  | put k content => exact h.start_put k content
  | _ => exact hplain rfl

/-- A reply comes to nothing if the callback of the call does not run. -/
theorem Sequential.reply_idle (h : s.Sequential last) (r : Return V)
    (hidle : ∀ call, s.calls[i]? = some call →
      ∀ node epoch prior, call.stage ≠ .running node epoch prior) :
    (s.reply r i).Sequential last := by
  have hresume : s.resume r i = s := by
    refine withCall_cases (P := fun t => t = s) (fun _ => rfl) fun call hi => ?_
    obtain ⟨hlt, hget⟩ := List.getElem?_eq_some_iff.1 hi
    rw [Call.resume_of_idle r s.cache (hidle call hi), ← hget, List.set_getElem_self hlt]
  rw [System.reply, hresume]
  by_cases hput : ∃ call, s.calls[i]? = some call ∧ call.request.isPut = true
  · -- A put has come to its end already, so it goes no further.
    obtain ⟨call, hi, hput⟩ := hput
    obtain ⟨outcome, hdone⟩ := h.puts call (List.mem_of_getElem? hi) hput
    have hrun : s.runCall i stepLimit = s :=
      runCall_halted hi (by rw [Call.isHalted, hdone]) _
    rw [carryOn_done (by rw [hrun]; exact hi) hdone, hrun]
    exact h
  · exact h.carryOn fun call hi =>
      Bool.eq_false_iff.2 fun hcall => hput ⟨call, hi, hcall⟩

/-- The end of a callback puts in place what its outcome says. -/
theorem Sequential.resume (h : s.Sequential last) (r : Return V) (hi : s.calls[i]? = some call)
    (hstage : call.stage = .running node epoch prior) :
    (s.act (.resume r i)).Sequential fun id => if call.runsFor id
      then (((call.resume r s.cache).2.stage.outcome?.bind call.makes?).map
        (⟨s.cache.now, ·⟩)).or (last id)
      else last id where
  reachable := h.reachable.actAll [.resume r i]
  dated := by
    intro id
    have hs := h.reachable.sound
    by_cases hid : node.payload = id
    · subst hid
      simpa [Call.runsFor, hstage] using (h.dated node.payload).resume_own hs hi hstage r
    · simpa [Call.runsFor, hstage, hid] using
        (h.dated id).resume_other hs h.reachable.orderly hi hstage (Ne.symm hid) r
  puts := by
    intro call' hmem hput
    rcases mem_act_calls hmem with hold | ⟨r', hspawn, -⟩ | ⟨j, before, hj, hbefore, rfl⟩
    · exact h.puts call' hold hput
    · cases hspawn
    · obtain rfl := Option.some.inj hj
      obtain rfl := Option.some.inj (hi.symm.trans hbefore)
      rw [onCall_request] at hput
      obtain ⟨outcome, hdone⟩ := h.puts call (List.mem_of_getElem? hi) hput
      cases hstage.symm.trans hdone

/-- The callback of a call ends, and the call goes on to its end. -/
theorem Sequential.reply_running (h : s.Sequential last) (r : Return V)
    (hi : s.calls[i]? = some call) (hstage : call.stage = .running node epoch prior) :
    ∃ outcome, (s.reply r i).outcome? i = some outcome ∧
      (s.reply r i).Sequential fun id => if call.runsFor id
        then ((call.makes? outcome).map (⟨s.cache.now, ·⟩)).or (last id) else last id := by
  obtain ⟨-, e, he, -⟩ := exists_pending h.reachable.sound (List.mem_of_getElem? hi) hstage
  obtain ⟨_, -, hsettles⟩ := Call.resume_settles (c := s.cache) r hstage he
  obtain ⟨outcome, houtcome⟩ := hsettles.outcome
  have hnext := act_getElem? (a := .resume r i) rfl hi
  have hresume := h.resume r hi hstage
  rw [houtcome] at hresume
  refine ⟨outcome, carryOn_outcome hnext houtcome, hresume.carryOn fun call' hi' => ?_⟩
  rw [← Option.some.inj (hnext.symm.trans hi'), onCall_request]
  refine Bool.eq_false_iff.2 fun hput => ?_
  obtain ⟨outcome, hdone⟩ := h.puts call (List.mem_of_getElem? hi) hput
  cases hstage.symm.trans hdone

theorem Sequential.reply (h : s.Sequential last) (r : Return V) :
    (s.move (.reply r)).Sequential (s.latest last (.reply r)) := by
  by_cases hrunning : ∃ call, s.calls[s.calls.length - 1]? = some call ∧
      ∃ node epoch prior, call.stage = .running node epoch prior
  · -- A callback ends, and its value is a deposit for the entry it ran for.
    obtain ⟨call, hi, node, epoch, prior, hstage⟩ := hrunning
    obtain ⟨outcome, houtcome, hlast⟩ := h.reply_running r hi hstage
    have hlatest (id : EntryId) : s.latest last (.reply r) id = if call.runsFor id
        then ((call.makes? outcome).map (⟨s.cache.now, ·⟩)).or (last id) else last id := by
      rw [latest, deposit?, hi, System.move, houtcome]
      dsimp only
      split <;> rfl
    rw [funext hlatest]
    exact hlast
  · -- No callback is there to end, so nothing is deposited.
    have hidle (call : Call K V) (hi : s.calls[s.calls.length - 1]? = some call)
        (node : EntryNode K) (epoch : Nat) (prior : ValueState V) :
        call.stage ≠ .running node epoch prior :=
      fun hstage => hrunning ⟨call, hi, node, epoch, prior, hstage⟩
    have hlatest (id : EntryId) : s.latest last (.reply r) id = last id := by
      rw [latest, deposit?]
      split
      · next call outcome hi houtcome =>
        rw [if_neg]
        · rfl
        · unfold Call.runsFor
          split
          · next node epoch prior hstage => exact absurd hstage (hidle call hi node epoch prior)
          · exact Bool.false_ne_true
      · rfl
    rw [funext hlatest]
    exact h.reply_idle r hidle

/-- Every move of a single caller keeps the dates of what is put in place. -/
theorem Sequential.move (h : s.Sequential last) (m : Move K V) :
    (s.move m).Sequential (s.latest last m) := by
  cases m with
  | start r => exact h.start r
  | reply r => exact h.reply r
  | collect keepAs =>
    exact h.act (a := .collect (s.calls.length - 1) keepAs) rfl fun _ hmem _ =>
      collect_calls_subset _ keepAs s hmem
  | upkeep u => exact h.act (a := .upkeep u) rfl fun _ hmem _ => keepUp_calls u s ▸ hmem

theorem Sequential.moveAll (h : s.Sequential last) (ms : List (Move K V)) :
    (s.moveAll ms).Sequential fun id => (s.deposits id ms).getLast?.or (last id) := by
  induction ms generalizing s last with
  | nil => exact h
  | cons m ms ih =>
    have hlast (id : EntryId) : (s.deposits id (m :: ms)).getLast?.or (last id) =
        ((s.move m).deposits id ms).getLast?.or (s.latest last m id) := by
      rw [deposits, List.getLast?_append, Option.or_assoc, latest]
      cases s.deposit? id m <;> rfl
    rw [funext hlast]
    exact ih (h.move m)

end System

end ReadThrough
