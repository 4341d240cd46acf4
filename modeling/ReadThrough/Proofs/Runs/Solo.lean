import ReadThrough.Proofs.Runs.Inspections

/-! # Calls That Nobody Interferes With

  A call that a single caller makes goes on by itself until it halts: its callback runs, it waits
  in vain, or it is done.

  - **runCall_succ**, **runCall_halted**, **carryOn_eq**: the fuelled loop, one step at a time.
  - **withLatest**: what the latest call makes of a system, as long as nobody interferes with it.
  - **HaltsWith**: where the latest call comes to a halt.
  - **HaltsWith.start**: what a call makes of a system that starts and goes on.
  - **start_get**: what a get returns.
-/

namespace ReadThrough

variable {K V : Type}

/-- Only a call that waits has a wait to give up. -/
theorem Call.expire_awake {call : Call K V} (c : Cache K V)
    (hawake : ∀ node epoch, call.stage ≠ .parked node epoch) : call.expire c = (c, call) := by
  unfold Call.expire
  split
  · next node epoch hstage => exact absurd hstage (hawake node epoch)
  · rfl

/-- A call that has come to an outcome is a number of critical sections short of its end. -/
inductive Stage.Closes (outcome : Outcome V) : Nat → Stage K V → Prop where
  | done : Closes outcome 0 (.done outcome)
  | touch (node : EntryNode K) (now : Nat) : Closes outcome 1 (.touch node now outcome)
  | release (node : EntryNode K) (now : Nat) : Closes outcome 2 (.release node now outcome)

theorem Stage.exists_closes {stage : Stage K V} {outcome : Outcome V}
    (h : stage.outcome? = some outcome) : ∃ n ≤ 2, stage.Closes outcome n := by
  cases stage with
  | release node now o =>
    obtain rfl := Option.some.inj h
    exact ⟨2, Nat.le_refl 2, .release node now⟩
  | touch node now o =>
    obtain rfl := Option.some.inj h
    exact ⟨1, by decide, .touch node now⟩
  | done o =>
    obtain rfl := Option.some.inj h
    exact ⟨0, by decide, .done⟩
  | _ => cases h

theorem Stage.Closes.goes {call : Call K V} {outcome : Outcome V} {n : Nat}
    (h : call.stage.Closes outcome (n + 1)) : call.isHalted = false := by
  unfold Call.isHalted
  generalize call.stage = stage at h
  cases h <;> rfl

theorem Stage.Closes.advance [DecidableEq K] {call : Call K V} {outcome : Outcome V} {n : Nat}
    (h : call.stage.Closes outcome (n + 1)) (held : Held) (c : Cache K V) :
    ∃ m ≤ n, (call.advance held c).2.stage.Closes outcome m := by
  unfold Call.advance
  generalize call.stage = stage at h
  cases h with
  | touch node now => exact ⟨0, Nat.le_refl 0, .done⟩
  | release node now =>
    cases outcome with
    | value v? => exact ⟨1, Nat.le_refl 1, .touch node now⟩
    | _ => exact ⟨0, by decide, .done⟩

/-- A get that looks at an entry takes its value, if it has one. -/
theorem Call.inspect_get (held : Held) (c : Cache K V) {call : Call K V} {k : K}
    (node : EntryNode K) (now : Nat) (hr : call.request = .get k) :
    (Call.inspect held call node now c).2 = (match c.peek held node.payload with
      | some v => .touch node c.now (.value (some v))
      | none => .done (.value none)) := by
  unfold Call.inspect Cache.peek Cache.valueOf
  cases he : c.entries[node.payload]? with
  | none => rfl
  | some e =>
    rw [hr]
    simp only [Call.inspectGet, Option.map_some, Option.getD_some]
    cases e.value.peek held <;> rfl

namespace System

variable [DecidableEq K]

variable {s : System K V} {i n : Nat} {call : Call K V}

/-! ## The loop -/

theorem runCall_halted (hi : s.calls[i]? = some call) (hhalted : call.isHalted = true)
    (fuel : Nat) : s.runCall i fuel = s := by
  cases fuel with
  | zero => rfl
  | succ fuel => simp [runCall, hi, hhalted]

theorem runCall_succ (hi : s.calls[i]? = some call) (hgoes : call.isHalted = false) (fuel : Nat) :
    s.runCall i (fuel + 1) = (s.act (.advance i)).runCall i fuel := by
  simp [runCall, hi, hgoes, act]

/-- A call that has gone some way goes on from there. -/
theorem runCall_add (i m n : Nat) (s : System K V) :
    s.runCall i (m + n) = (s.runCall i m).runCall i n := by
  induction m generalizing s with
  | zero => rw [Nat.zero_add, runCall]
  | succ m ih =>
    by_cases hhalted : s.calls[i]?.all Call.isHalted = true
    · have hstays (fuel : Nat) : s.runCall i fuel = s := by
        cases fuel with
        | zero => rfl
        | succ fuel => rw [runCall, if_pos hhalted]
      rw [hstays, hstays, hstays]
    · rw [Nat.add_right_comm, runCall, if_neg hhalted, ih, runCall, if_neg hhalted]

/-- A call that is carried on goes on until it halts, gives a wait up, and need not go on then. -/
theorem carryOn_eq (hi : (s.runCall i stepLimit).calls[i]? = some call)
    (hhalted : (call.expire (s.runCall i stepLimit).cache).2.isHalted = true) :
    s.carryOn i = (s.runCall i stepLimit).act (.expire i) :=
  runCall_halted (act_getElem? (a := .expire i) rfl hi) hhalted _

omit [DecidableEq K] in
theorem expire_eq (hi : s.calls[i]? = some call)
    (hawake : ∀ node epoch, call.stage ≠ .parked node epoch) : s.expire i = s := by
  obtain ⟨hlt, hcall⟩ := List.getElem?_eq_some_iff.1 hi
  rw [expire, withCall_eq hi, Call.expire_awake _ hawake, ← hcall, List.set_getElem_self hlt]

/-- A call that comes to its end by itself need not be carried on any further. -/
theorem carryOn_done {outcome : Outcome V} (hi : (s.runCall i stepLimit).calls[i]? = some call)
    (hdone : call.stage = .done outcome) : s.carryOn i = s.runCall i stepLimit := by
  have hhalted : call.isHalted = true := by rw [Call.isHalted, hdone]
  rw [carryOn, expire_eq hi (by simp [hdone]), runCall_halted hi hhalted]

/-- A call that has come to an outcome goes on to its end. -/
theorem runCall_closes {outcome : Outcome V} (h : call.stage.Closes outcome n)
    (hi : s.calls[i]? = some call) {fuel : Nat} (hfuel : n ≤ fuel) :
    ∃ last, (s.runCall i fuel).calls[i]? = some last ∧ last.stage = .done outcome := by
  -- The induction is on how far the call is from its end: a step may bring it nearer by two.
  induction n using Nat.strongRecOn generalizing s call fuel with
  | ind n ih =>
    cases n with
    | zero =>
      have hdone : call.stage = .done outcome := by
        generalize call.stage = stage at h
        cases h
        rfl
      rw [runCall_halted hi (by rw [Call.isHalted, hdone])]
      exact ⟨call, hi, hdone⟩
    | succ n =>
      obtain ⟨fuel, rfl⟩ : ∃ m, fuel = m + 1 := ⟨fuel - 1, by omega⟩
      obtain ⟨m, hm, hnext⟩ := h.advance s.held s.cache
      rw [runCall_succ hi h.goes]
      exact ih m (by omega) hnext (act_getElem? (a := .advance i) rfl hi) (by omega)

/-- What every step of a call keeps, the call keeps that is carried on. -/
theorem carryOn_induct {P : System K V → Prop} (hadvance : ∀ t, P t → P (t.act (.advance i)))
    (hexpire : ∀ t, P t → P (t.act (.expire i))) (h : P s) : P (s.carryOn i) := by
  have hrun (fuel : Nat) (t : System K V) (ht : P t) : P (t.runCall i fuel) := by
    induction fuel generalizing t with
    | zero => exact ht
    | succ fuel ih =>
      unfold runCall
      split
      · exact ht
      · exact ih _ (hadvance t ht)
  -- The call is run, gives a wait up if it has one, and is run again.
  exact hrun _ _ (hexpire _ (hrun _ _ h))

/-- A call that has come to an outcome ends with it. -/
theorem carryOn_outcome {outcome : Outcome V} (hi : s.calls[i]? = some call)
    (houtcome : call.stage.outcome? = some outcome) :
    (s.carryOn i).outcome? i = some outcome := by
  obtain ⟨n, hn, hcloses⟩ := Stage.exists_closes houtcome
  obtain ⟨last, hlast, hdone⟩ := runCall_closes hcloses hi (Nat.le_trans hn (by decide : 2 ≤ stepLimit))
  rw [carryOn_done hlast hdone, outcome?, hlast]
  simp [hdone]

theorem spawn_getElem? (r : Request K V) (s : System K V) :
    (s.act (.spawn r)).calls[s.calls.length]? = some (Call.start r s.cache).2 :=
  List.getElem?_concat_length

/-! ## The latest call -/

omit [DecidableEq K] in
/-- What the latest call makes of a system: the cache and the call come to `p`. -/
def withLatest (p : Cache K V × Call K V) (s : System K V) : System K V :=
  { s with cache := p.1, calls := s.calls ++ [p.2] }

variable {p q : Cache K V × Call K V}

omit [DecidableEq K] in
@[simp] theorem withLatest_cache (p : Cache K V × Call K V) (s : System K V) :
    (s.withLatest p).cache = p.1 := rfl

omit [DecidableEq K] in
@[simp] theorem withLatest_getElem? (p : Cache K V × Call K V) (s : System K V) :
    (s.withLatest p).calls[s.calls.length]? = some p.2 :=
  List.getElem?_concat_length

omit [DecidableEq K] in
/-- A call that holds nothing keeps no value alive. -/
theorem withLatest_held (hholds : p.2.holdings = []) : (s.withLatest p).held = s.held := by
  funext id
  simp [withLatest, held, heldBy, hholds]

omit [DecidableEq K] in
theorem withLatest_held_congr (h : p.2.holdings = q.2.holdings) :
    (s.withLatest p).held = (s.withLatest q).held := by
  funext id
  simp [withLatest, held, heldBy, h]

theorem act_spawn (r : Request K V) (s : System K V) :
    s.act (.spawn r) = s.withLatest (Call.start r s.cache) := rfl

/-- The latest call goes on. -/
theorem withLatest_act {a : Action K V} (ha : a.call? = some s.calls.length) :
    (s.withLatest p).act a = s.withLatest (a.onCall (s.withLatest p).held p.1 p.2) := by
  rw [act_onCall ha, withCall_eq (withLatest_getElem? p s)]
  simp [withLatest]

/-- Nobody interferes with the latest call, which comes to a halt where `P` holds, after at most so
    many critical sections. -/
inductive HaltsWith (P : Cache K V × Call K V → Prop) (s : System K V) :
    Nat → Cache K V × Call K V → Prop where
  | halts {n : Nat} {p : Cache K V × Call K V} (hhalted : p.2.isHalted = true) (hp : P p) :
      HaltsWith P s n p
  | goes {n : Nat} {p : Cache K V × Call K V} (hgoes : p.2.isHalted = false)
      (h : HaltsWith P s n (p.2.advance (s.withLatest p).held p.1)) : HaltsWith P s (n + 1) p

variable {P : Cache K V × Call K V → Prop}

/-- More critical sections than needed do not matter. -/
theorem HaltsWith.mono {m : Nat} (h : s.HaltsWith P n p) (hle : n ≤ m) : s.HaltsWith P m p := by
  induction h generalizing m with
  | halts hhalted hp => exact .halts hhalted hp
  | goes hgoes h ih =>
    obtain ⟨m, rfl⟩ : ∃ k, m = k + 1 := ⟨m - 1, by omega⟩
    exact .goes hgoes (ih (Nat.le_of_succ_le_succ hle))

theorem HaltsWith.runCall (h : s.HaltsWith P n p) {fuel : Nat} (hfuel : n ≤ fuel) :
    ∃ q, P q ∧ q.2.isHalted = true ∧
      (s.withLatest p).runCall s.calls.length fuel = s.withLatest q := by
  induction h generalizing fuel with
  | @halts n p hhalted hp =>
    exact ⟨p, hp, hhalted, runCall_halted (withLatest_getElem? p s) hhalted fuel⟩
  | goes hgoes h ih =>
    obtain ⟨fuel, rfl⟩ : ∃ m, fuel = m + 1 := ⟨fuel - 1, by omega⟩
    rw [runCall_succ (withLatest_getElem? _ s) hgoes, withLatest_act rfl]
    exact ih (Nat.le_of_succ_le_succ hfuel)

/-- Going on, a call asks for the same. -/
theorem HaltsWith.request (h : s.HaltsWith P n p) :
    s.HaltsWith (fun q => P q ∧ q.2.request = p.2.request) n p := by
  induction h with
  | halts hhalted hp => exact .halts hhalted ⟨hp, rfl⟩
  | goes hgoes h ih => exact .goes hgoes ih

/-- The latest call is carried on to where it comes to a halt, and it waits for nothing then. -/
theorem HaltsWith.carryOn (h : s.HaltsWith P n p) (hlimit : n ≤ stepLimit)
    (hends : ∀ q, P q → q.2.isHalted = true → (q.2.expire q.1).2.isHalted = true) :
    ∃ q, P q ∧ q.2.isHalted = true ∧
      (s.withLatest p).carryOn s.calls.length = s.withLatest (q.2.expire q.1) := by
  obtain ⟨q, hq, hhalted, hrun⟩ := h.runCall hlimit
  have hi := withLatest_getElem? q s
  rw [← hrun] at hi
  refine ⟨q, hq, hhalted, ?_⟩
  -- After the wait is given up the call stays halted, so the second run adds nothing.
  rw [carryOn_eq hi (by rw [hrun]; exact hends q hq hhalted), hrun, withLatest_act rfl]
  rfl

/-- A call that starts ends where it comes to a halt, and it waits for nothing then. -/
theorem HaltsWith.start {r : Request K V} (h : s.HaltsWith P n (Call.start r s.cache))
    (hlimit : n ≤ stepLimit)
    (hends : ∀ q, P q → q.2.isHalted = true → (q.2.expire q.1).2.isHalted = true) :
    ∃ q, P q ∧ q.2.isHalted = true ∧ s.start r = s.withLatest (q.2.expire q.1) :=
  h.carryOn hlimit hends

theorem Reachable.move (h : s.Reachable) (m : Move K V) : (s.move m).Reachable := by
  obtain ⟨as, has⟩ := exists_actAll_eq_move s m
  exact has ▸ h.actAll as

theorem Reachable.moveAll (h : s.Reachable) (ms : List (Move K V)) : (s.moveAll ms).Reachable := by
  obtain ⟨as, has⟩ := exists_actAll_eq_moveAll s ms
  exact has ▸ h.actAll as

theorem moveAll_append (s : System K V) (ms ms' : List (Move K V)) :
    s.moveAll (ms ++ ms') = (s.moveAll ms).moveAll ms' :=
  List.foldl_append

theorem reachable_new (config : Config) (clock : Clock) (hashOf : K → UInt64) :
    (System.new config clock hashOf : System K V).Reachable :=
  ⟨config, clock, hashOf, [], rfl⟩

/-- A call that goes on and never waits. -/
theorem HaltsWith.carryOn_awake (h : s.HaltsWith P n p) (hlimit : n ≤ stepLimit)
    (hawake : ∀ q, P q → ∀ node epoch, q.2.stage ≠ .parked node epoch) :
    ∃ q, P q ∧ (s.withLatest p).carryOn s.calls.length = s.withLatest q := by
  have hexpire {q : Cache K V × Call K V} (hq : P q) : q.2.expire q.1 = q :=
    Call.expire_awake q.1 (hawake q hq)
  obtain ⟨q, hq, -, hcarry⟩ := h.carryOn hlimit fun q hq hhalted => by
    rw [hexpire hq]
    exact hhalted
  exact ⟨q, hq, hexpire hq ▸ hcarry⟩

/-- A call that starts and never waits. -/
theorem HaltsWith.start_awake {r : Request K V} (h : s.HaltsWith P n (Call.start r s.cache))
    (hlimit : n ≤ stepLimit) (hawake : ∀ q, P q → ∀ node epoch, q.2.stage ≠ .parked node epoch) :
    ∃ q, P q ∧ s.start r = s.withLatest q :=
  h.carryOn_awake hlimit hawake

/-! ## Gets -/

/-- The node of a key. -/
def nodeAt (k : K) (s : System K V) : Option (EntryNode K) :=
  s.cache.table.get? k

/-- The value that can be had of a key. -/
def valueAt (k : K) (s : System K V) : Option (Value V) :=
  (s.nodeAt k).bind fun node => s.cache.peek s.held node.payload

theorem contains_eq (k : K) (s : System K V) :
    s.cache.contains s.held k = (s.valueAt k).isSome := by
  unfold Cache.contains valueAt nodeAt
  cases s.cache.table.get? k <;> rfl

/-- A get of the key that nobody interferes with returns the value, or the answer that there is
    none. -/
def GetReturns (k : K) (v? : Option (Value V)) (s : System K V) : Prop :=
  (s.start (.get k)).outcome? s.calls.length = some (.value v?)

instance (k : K) (v? : Option (Value V)) (s : System K V) [DecidableEq V] :
    Decidable (s.GetReturns k v?) := by
  unfold GetReturns
  infer_instance

/-- A get returns the value that can be had of its key, if there is one. -/
theorem start_get (k : K) (s : System K V) : s.GetReturns k (s.valueAt k) := by
  let call := (Call.start (.get k) s.cache).2
  have hhalts : s.HaltsWith (fun q => q.2.stage = .done (.value (s.valueAt k))) 3
      (Call.start (.get k) s.cache) := by
    show s.HaltsWith _ 3 (s.cache, call)
    refine .goes rfl ?_
    have hlookup (held : Held) : call.advance held s.cache = ((Call.lookup (.get k) s.cache).1,
        call.goTo (Call.lookup (.get k) s.cache).2) := rfl
    rw [hlookup]
    -- Either the look-up ends the get, or the get goes on to look at the entry.
    cases hget : s.cache.table.get? k with
    | none =>
      refine .halts ?_ ?_ <;>
        simp [Call.lookup, Request.key, hget, Call.goTo, Call.isHalted, valueAt, nodeAt]
    | some node =>
      have hfound : Call.lookup (.get k) s.cache = (s.cache, .inspect node s.cache.now) := by
        simp [Call.lookup, Request.key, hget]
      rw [hfound]
      refine .goes rfl ?_
      rw [Call.advance_inspect _ _ rfl, withLatest_held rfl]
      have hstage := Call.inspect_get s.held s.cache node s.cache.now
        (show (call.goTo (.inspect node s.cache.now)).request = .get k from rfl)
      rw [hstage]
      have hvalue : s.valueAt k = s.cache.peek s.held node.payload := by
        rw [valueAt, nodeAt, hget, Option.bind_some]
      -- Without a value that is the end; with one the use is recorded.
      rw [hvalue]
      cases s.cache.peek s.held node.payload with
      | none => exact .halts rfl rfl
      | some v => exact .goes rfl (.halts rfl rfl)
  obtain ⟨q, hq, hstart⟩ := HaltsWith.start_awake hhalts (by decide) fun q hq => by simp [hq]
  rw [GetReturns, hstart, outcome?, withLatest_getElem?, Option.map_some, hq]

theorem getReturns_iff {k : K} {v? : Option (Value V)} : s.GetReturns k v? ↔ s.valueAt k = v? := by
  have hget := start_get k s
  unfold GetReturns at hget ⊢
  rw [hget]
  simp

end System

end ReadThrough
