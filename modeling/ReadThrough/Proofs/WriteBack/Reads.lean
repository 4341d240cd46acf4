import ReadThrough.Proofs.Runs.Solo
import ReadThrough.Proofs.WriteBack.Unwritten

/-! # Reads of What Is Not Written Back

  A read of a key looks the key up, looks at its entry, and records the use. As long as the value
  of the key is not written back and no callback is running for the key, each of these steps brings
  the read nearer to the value, whatever happens between them.

  - **Short**: how many critical sections a read is short of a value.
  - **AtRest**: no callback is running for a key.
  - **Unwritten.brings**: one critical section of a read that others interfere with.
  - **Unwritten.finds**: a read that nobody interferes with.
-/

namespace ReadThrough

open Cache Entries

variable {K V : Type}

/-! ## Reads -/

/-- Whether a request is for the value of its key, which may be loaded. -/
def Request.reads : Request K V → Bool
  | .get _ => true
  | .load .. => true
  | _ => false

/-- A read is a number of critical sections short of the value of an entry. -/
inductive Stage.Short (node : EntryNode K) (v : Value V) : Nat → Stage K V → Prop where
  | lookup : Short node v 3 .lookup
  | inspect (now : Nat) : Short node v 2 (.inspect node now)
  | touch (now : Nat) : Short node v 1 (.touch node now (.value (some v)))
  | done : Short node v 0 (.done (.value (some v)))

theorem Stage.Short.flights {node : EntryNode K} {v : Value V} {n : Nat} {stage : Stage K V}
    (h : stage.Short node v n) : stage.flights = [] := by
  cases h <;> rfl

namespace Call

variable {held : Held} {c : Cache K V} {call : Call K V} {node : EntryNode K} {now n : Nat}
  {e : Entry K V} {v : Value V}

theorem lookup_short [DecidableEq K] {r : Request K V} (hreads : r.reads = true)
    (hget : c.table.get? r.key = some node) : lookup r c = (c, .inspect node c.now) := by
  unfold lookup
  cases r with
  | get key => simp [hget]
  | load key expire acceptEmpty => simp [hget]
  | _ => cases hreads

/-- A read that looks at a dirty entry takes its value, whatever expiry it asks for. -/
theorem inspect_short (hreads : call.request.reads = true)
    (he : c.entries[node.payload]? = some e) (hv : e.value = .dirty v)
    (hpresent : e.removed = false) :
    (inspect held call node now c).2.Short node v 1 ∧
      (inspect held call node now c).1.log = c.log := by
  unfold inspect
  rw [he]
  dsimp only
  cases hrequest : call.request with
  | get key =>
    simp only [inspectGet, hv, ValueState.peek]
    exact ⟨.touch _, rfl⟩
  | load key expire acceptEmpty =>
    simp only [inspectLoad, hpresent, Entry.find, hv]
    exact ⟨.touch _, rfl⟩
  | _ =>
    rw [hrequest] at hreads
    cases hreads

/-- One critical section brings a read nearer to the value of a dirty entry. -/
theorem advance_short [DecidableEq K] (held : Held) (hreads : call.request.reads = true)
    (hget : c.table.get? call.request.key = some node) (he : c.entries[node.payload]? = some e)
    (hv : e.value = .dirty v) (hpresent : e.removed = false)
    (hshort : call.stage.Short node v (n + 1)) :
    (call.advance held c).2.stage.Short node v n ∧ (call.advance held c).1.log = c.log := by
  unfold advance
  generalize hstage : call.stage = stage at hshort
  cases hshort with
  | lookup =>
    dsimp only
    rw [lookup_short hreads hget]
    exact ⟨.inspect _, rfl⟩
  | inspect now => exact inspect_short hreads he hv hpresent
  | touch now => exact ⟨.done, rfl⟩

end Call

namespace System

variable {s : System K V} {node : EntryNode K} {v : Value V} {k : K} {i n : Nat}
  {call : Call K V}

/-- No callback for the key is running. -/
def AtRest (k : K) (s : System K V) : Prop :=
  ∀ call ∈ s.calls, call.request.key = k → call.isRunning = false

instance [DecidableEq K] (k : K) (s : System K V) : Decidable (s.AtRest k) := by
  unfold AtRest
  infer_instance

variable [DecidableEq K] {a : Action K V}

/-- No callback is running for the key after an action either, unless it has just started. -/
theorem AtRest.act (h : s.AtRest k) (ha : ∀ i call, a.call? = some i → s.calls[i]? = some call →
    (a.onCall s.held s.cache call).2.isRunning = false) : (s.act a).AtRest k := by
  intro call' hmem hkey
  rcases mem_act_calls hmem with hold | ⟨r, rfl, rfl⟩ | ⟨i, call, hcall, hi, rfl⟩
  · exact h call' hold hkey
  · simp [Call.isRunning]
  · exact ha i call hcall hi

/-- While no callback is running for the key, its entry shows the value that is not written
    back. -/
theorem Unwritten.visible (h : s.Unwritten node v) (hs : s.Reachable) (hrest : s.AtRest node.key) :
    ∃ e, s.cache.entries[node.payload]? = some e ∧ e.value = .dirty v ∧ e.removed = false := by
  obtain ⟨e, he, hremoved⟩ := hs.tenants.present node h.present
  obtain ⟨e', he', hvalue⟩ := h.entry hs.sound
  rw [he] at he'
  obtain rfl := Option.some.inj he'
  refine ⟨e, he, hvalue.resolve_right ?_, hremoved⟩
  -- The callback that the value went to would be one for the key.
  rintro ⟨-, f, hf, hid, -⟩
  obtain ⟨call, hmem, hf⟩ := List.mem_flatMap.1 hf
  obtain ⟨m, hm, hentry⟩ := Call.node?_of_mem_flights hf
  have hkey := hs.keyed.request_key hmem hm h.present (hid.symm.trans hentry.symm)
  have hnone : call.flights ≠ [] := List.ne_nil_of_mem hf
  exact hnone ((Call.isRunning_eq_false_iff call).1 (hrest call hmem hkey))

/-- A read of the key comes nearer to the value whenever it goes on while no callback is running for
    the key. -/
theorem Unwritten.brings (h : s.Unwritten node v) (hs : s.Reachable) (hrest : s.AtRest node.key)
    (hi : s.calls[i]? = some call) (hreads : call.request.reads = true)
    (hkey : call.request.key = node.key) (hshort : call.stage.Short node v (n + 1)) :
    ∃ call', (s.act (.advance i)).calls[i]? = some call' ∧ call'.request = call.request ∧
      call'.stage.Short node v n ∧ (s.act (.advance i)).cache.log = s.cache.log := by
  obtain ⟨e, he, hv, hpresent⟩ := h.visible hs hrest
  have hget : s.cache.table.get? call.request.key = some node :=
    hs.keyed.table.get?_eq_some_iff.2 ⟨h.present, hkey.symm⟩
  obtain ⟨hnearer, hlog⟩ := Call.advance_short s.held hreads hget he hv hpresent hshort
  refine ⟨_, act_getElem? rfl hi, rfl, hnearer, ?_⟩
  rw [act_cache rfl hi]
  exact hlog

/-! ## Reads that nobody interferes with -/

/-- A read that nobody interferes with finds the value, and reports nothing. -/
theorem Unwritten.runCall (h : s.Unwritten node v) (hs : s.Reachable) (hrest : s.AtRest node.key)
    (hi : s.calls[i]? = some call) (hreads : call.request.reads = true)
    (hkey : call.request.key = node.key) (hshort : call.stage.Short node v n) {fuel : Nat}
    (hfuel : n ≤ fuel) :
    ∃ call', (s.runCall i fuel).calls[i]? = some call' ∧
      call'.stage = .done (.value (some v)) ∧ (s.runCall i fuel).cache.log = s.cache.log := by
  induction n generalizing s call fuel with
  -- A read that is no step from its end has found the value.
  | zero =>
    have hdone : call.stage = .done (.value (some v)) := by
      generalize call.stage = stage at hshort
      cases hshort
      rfl
    rw [runCall_halted hi (by rw [Call.isHalted, hdone])]
    exact ⟨call, hi, hdone, rfl⟩
  | succ n ih =>
    obtain ⟨fuel, rfl⟩ : ∃ m, fuel = m + 1 := ⟨fuel - 1, by omega⟩
    have hgoes : call.isHalted = false := by
      unfold Call.isHalted
      generalize call.stage = stage at hshort
      cases hshort <;> rfl
    obtain ⟨call', hi', hsame, hnearer, hlog⟩ := h.brings hs hrest hi hreads hkey hshort
    -- A read forgets nothing, so the entry has its value after the step.
    have hspares : s.Spares node.key (.advance i) := by
      refine spares_advance fun own hown => ?_
      rw [hi] at hown
      obtain rfl := Option.some.inj hown
      unfold Call.forgets?
      cases hrequest : call.request with
      | invalidate key =>
        rw [hrequest] at hreads
        cases hreads
      | _ => simp
    -- And no callback of the read runs, so nobody is busy with the key.
    have hrest' : (s.act (.advance i)).AtRest node.key := by
      refine hrest.act fun j own hj hown => ?_
      obtain rfl := Option.some.inj hj
      rw [act_getElem? rfl hown] at hi'
      obtain rfl := Option.some.inj hi'
      exact (Call.isRunning_eq_false_iff _).2 hnearer.flights
    obtain ⟨last, hlast, hdone, hlog'⟩ := ih (h.act hs hspares) (hs.actAll [.advance i]) hrest' hi'
      (hsame ▸ hreads) (hsame ▸ hkey) hnearer (Nat.le_of_succ_le_succ hfuel)
    rw [runCall_succ hi hgoes]
    exact ⟨last, hlast, hdone, hlog'.trans hlog⟩

/-- A read that nobody interferes with finds the value as soon as it is made, and reports
    nothing. -/
theorem Unwritten.finds (h : s.Unwritten node v) (hs : s.Reachable) (hrest : s.AtRest node.key)
    {r : Request K V} (hreads : r.reads = true) (hkey : r.key = node.key) :
    (s.start r).outcome? s.calls.length = some (.value (some v)) ∧
      (s.start r).cache.log = s.cache.log := by
  have hcache : (Call.start r s.cache).1 = s.cache := by
    cases r with
    | put key content => cases hreads
    | _ => rfl
  have hspawn : (s.act (.spawn r)).Unwritten node v := h.act hs (spares_spawn r)
  have hrest' : (s.act (.spawn r)).AtRest node.key := hrest.act fun i call hcall => by cases hcall
  -- From its look-up on, a read is over in a few steps, none of which meets an obstacle.
  have hshort : (Call.start r s.cache).2.stage.Short node v 3 := by
    rw [Call.start_stage]
    exact .lookup
  obtain ⟨call, hi, hdone, hlog⟩ := hspawn.runCall (hs.actAll [.spawn r]) hrest'
    (spawn_getElem? r s) (by simpa using hreads) (by simpa using hkey) hshort
    (by decide : 3 ≤ stepLimit)
  have hstart : s.start r = (s.act (.spawn r)).runCall s.calls.length stepLimit :=
    carryOn_done hi hdone
  have hsame : (s.act (.spawn r)).cache = s.cache := hcache
  rw [hstart, hlog, hsame]
  refine ⟨?_, rfl⟩
  simp [outcome?, hi, hdone]

end System

end ReadThrough
