import ReadThrough.Proofs.Runs.Inspections

/-! # Owners of Pending Entries

  An entry is pending exactly as long as one callback runs for it, whatever the callbacks do to the
  cache, and however they end.

  - **callbacks**: the epochs of the callbacks that run for an entry.
  - **Settles.ne_pending**: however a callback ends, its entry is pending no more.
  - **WellOwned**: pending entries and running callbacks belong together, one to one.
-/

namespace ReadThrough

open Ledger Cache

variable {K V : Type}

/-! ## Flights of an entry -/

/-- The epochs of the flights of an entry. -/
def Flight.epochsOf (id : EntryId) (fs : List (Flight V)) : List Nat :=
  fs.filterMap fun f => if f.entry = id then some f.epoch else none

namespace Flight

variable {fs : List (Flight V)} {f : Flight V} {id : EntryId}

theorem epochsOf_eq_nil (h : ∀ f ∈ fs, f.entry ≠ id) : epochsOf id fs = [] := by
  simpa [epochsOf] using h

/-- Where no two flights share an entry, an entry has one flight at most. -/
theorem epochsOf_eq_singleton (hsingle : (fs.map Flight.entry).Nodup) (hf : f ∈ fs) :
    epochsOf f.entry fs = [f.epoch] := by
  -- Neither before nor after this flight is there another one of its entry.
  obtain ⟨before, after, rfl⟩ := List.append_of_mem hf
  rw [List.map_append, List.map_cons, List.nodup_append, List.nodup_cons] at hsingle
  obtain ⟨-, ⟨hafter, -⟩, hbefore⟩ := hsingle
  have hleft : epochsOf f.entry before = [] := epochsOf_eq_nil fun g hg heq =>
    hbefore g.entry (List.mem_map_of_mem hg) f.entry List.mem_cons_self heq
  have hright : epochsOf f.entry after = [] := epochsOf_eq_nil fun g hg heq =>
    hafter (heq ▸ List.mem_map_of_mem hg)
  unfold epochsOf at hleft hright ⊢
  simp [hleft, hright]

end Flight

/-- Pending entries are those that have a flight, and that at their own epoch. -/
theorem Ledger.Owned.epochsOf_eq {L : Ledger K V} (h : L.Owned) {id : EntryId} {e : Entry K V}
    (he : L.entries[id]? = some e) :
    Flight.epochsOf id L.flights = if e.value.isPending then [e.epoch] else [] := by
  split
  · next hpending =>
    obtain ⟨f, hf, rfl⟩ := h.claimed id e he ((ValueState.isPending_iff _).1 hpending)
    obtain ⟨e', he', -, hepoch⟩ := h.pending f hf
    rw [he] at he'
    obtain rfl := Option.some.inj he'
    rw [Flight.epochsOf_eq_singleton h.single hf, hepoch]
  · next hidle =>
    rw [ValueState.isPending_iff] at hidle
    refine Flight.epochsOf_eq_nil fun f hf hid => ?_
    obtain ⟨e', he', hpending, -⟩ := h.pending f hf
    rw [hid, he] at he'
    exact hidle (Option.some.inj he' ▸ hpending)

/-! ## The end of a callback -/

namespace Call

variable {call : Call K V} {node : EntryNode K} {epoch : Nat} {prior : ValueState V}
  {e e' : Entry K V} {stage : Stage K V}

/-- However a callback ends, its entry is not pending any more. -/
theorem Settles.ne_pending {r : Return V} (h : call.Settles r node epoch prior e e' stage)
    (hprior : prior ≠ .pending) (hpending : e.value = .pending) (hepoch : e.epoch = epoch) :
    e'.value ≠ .pending := by
  cases h with
  | restored outcome stage hstage hvalue hload =>
    rw [← hepoch, Entry.restore_value prior hpending]
    exact hprior
  | _ => exact nofun

end Call

/-! ## Systems -/

namespace System

variable {s : System K V}

/-- The epochs of the loaders and updaters that run for an entry: they were started for it, and they
    have neither returned nor panicked. -/
def callbacks (s : System K V) (id : EntryId) : List Nat :=
  Flight.epochsOf id (s.calls.flatMap Call.flights)

/-- Pending entries and running callbacks belong together. -/
structure WellOwned [DecidableEq K] (s : System K V) : Prop where
  /-- One callback runs for an entry that is pending, at the epoch of the entry, and none for an
      entry that is not. -/
  owner : ∀ id e, s.cache.entries[id]? = some e →
    s.callbacks id = if e.value.isPending then [e.epoch] else []
  /-- What callbacks run for are entries. -/
  known : ∀ id, s.callbacks id ≠ [] → id < s.cache.entries.size
  /-- The entry of a running callback waits for this very callback, which settles it when it ends,
      in whatever way. -/
  settles : ∀ i call node epoch prior, s.calls[i]? = some call →
    call.stage = .running node epoch prior →
    (∃ e, s.cache.entries[node.payload]? = some e ∧ e.isPendingAt epoch = true) ∧
      ∀ r, (s.act (.resume r i)).cache.valueOf node.payload ≠ .pending
  /-- A callback that ends changes the value of no entry but that of the one which has waited for
      it. -/
  spares : ∀ r i id e, s.cache.entries[id]? = some e →
    (s.act (.resume r i)).cache.valueOf id ≠ e.value →
    e.value = .pending ∧ ∃ call node prior, s.calls[i]? = some call ∧
      call.stage = .running node e.epoch prior ∧ node.payload = id
  /-- While no callback is running nothing is pending, be it in the table, in the chain, in a batch
      or elsewhere. -/
  idle : (∀ call ∈ s.calls, call.isRunning = false) → ∀ id, s.cache.valueOf id ≠ .pending

theorem callbacks_eq (hs : s.Sound) {id : EntryId} {e : Entry K V}
    (he : s.cache.entries[id]? = some e) :
    s.callbacks id = if e.value.isPending then [e.epoch] else [] :=
  hs.ledger.owned.epochsOf_eq he

/-- The entry that a running callback was started for is still waiting for it. -/
theorem exists_pending (hs : s.Sound) {call : Call K V} (hcall : call ∈ s.calls)
    {node : EntryNode K} {epoch : Nat} {prior : ValueState V}
    (hstage : call.stage = .running node epoch prior) :
    prior ≠ .pending ∧ ∃ e, s.cache.entries[node.payload]? = some e ∧ e.value = .pending ∧
      e.epoch = epoch := by
  have hflight := mem_flights hcall hstage
  exact ⟨hs.ledger.owned.prior _ hflight, hs.ledger.owned.pending _ hflight⟩

/-- The end of a callback changes no value but that of the entry that has waited for it. -/
theorem resume_spares [DecidableEq K] (hs : s.Sound) {r : Return V} {i : Nat} {id : EntryId}
    {e : Entry K V} (he : s.cache.entries[id]? = some e)
    (hne : (s.act (.resume r i)).cache.valueOf id ≠ e.value) :
    e.value = .pending ∧ ∃ call node prior, s.calls[i]? = some call ∧
      call.stage = .running node e.epoch prior ∧ node.payload = id := by
  have hchanged {c : Cache K V} (hc : (s.act (.resume r i)).cache = c) {e' : Entry K V}
      (he' : c.entries[id]? = some e') : e'.value ≠ e.value := by
    intro hvalue
    exact hne (by rw [hc, valueOf_eq he', hvalue])
  cases hi : s.calls[i]? with
  -- Without a call nothing happens.
  | none =>
    have hsame : (s.act (.resume r i)).cache = s.cache := by
      rw [act_onCall rfl, withCall_eq_self hi]
    exact absurd rfl (hchanged hsame he)
  | some call =>
    have hcache : (s.act (.resume r i)).cache = (call.resume r s.cache).1 := act_cache rfl hi
    by_cases hrunning : ∃ node epoch prior, call.stage = .running node epoch prior
    · obtain ⟨node, epoch, prior, hstage⟩ := hrunning
      obtain ⟨-, e₀, he₀, hpending, hepoch⟩ := exists_pending hs (List.mem_of_getElem? hi) hstage
      by_cases hid : id = node.payload
      · -- This is the entry that has waited for the callback.
        subst hid
        obtain rfl : e = e₀ := Option.some.inj (he.symm.trans he₀)
        exact ⟨hpending, call, node, prior, rfl, hepoch ▸ hstage, rfl⟩
      · obtain ⟨e', he', hrelinked⟩ := (Call.resume_relinked r s.cache hstage).2 id e he
        obtain ⟨n, hrelinked⟩ := hrelinked hid
        exact absurd (by rw [hrelinked]) (hchanged hcache he')
    · -- The end of a callback that does not run comes to nothing.
      rw [Call.resume_of_idle r s.cache fun node epoch prior hstage =>
        hrunning ⟨node, epoch, prior, hstage⟩] at hcache
      exact absurd rfl (hchanged hcache he)

end System

/-- In every run, of any number of callers whose callbacks call the cache back to any depth, forget
    or make anew their own keys, fail or panic, an entry is pending exactly as long as the one
    callback runs that owns it. -/
theorem pending_owned [DecidableEq K] {s : System K V} (hs : s.Reachable) : s.WellOwned where
  owner := fun id e he => System.callbacks_eq hs.sound he
  known := by
    intro id hne
    by_contra hge
    refine hne (Flight.epochsOf_eq_nil fun f hf hid => ?_)
    obtain ⟨e, he, -⟩ := hs.sound.ledger.owned.pending f hf
    exact hge (hid ▸ (Array.getElem?_eq_some_iff.1 he).1)
  settles := by
    intro i call node epoch prior hi hstage
    obtain ⟨hprior, e, he, hpending, hepoch⟩ :=
      System.exists_pending hs.sound (List.mem_of_getElem? hi) hstage
    refine ⟨⟨e, he, ?_⟩, fun r => ?_⟩
    · simp [Entry.isPendingAt, hpending, ValueState.isPending, hepoch]
    · -- However the callback ends, its entry is pending no more.
      obtain ⟨e', he', hsettles⟩ := Call.resume_settles r hstage he
      rw [System.act_cache rfl hi]
      show (call.resume r s.cache).1.valueOf node.payload ≠ .pending
      rw [valueOf_eq he']
      exact hsettles.ne_pending hprior hpending hepoch
  spares := fun r i id e he hne => System.resume_spares hs.sound he hne
  idle := by
    intro hidle id hpending
    cases he : s.cache.entries[id]? with
    | none => simp [Cache.valueOf, he] at hpending
    | some e =>
      rw [valueOf_eq he] at hpending
      -- A pending entry is claimed by a callback, and some call runs it.
      obtain ⟨f, hf, -⟩ := hs.sound.ledger.owned.claimed id e he hpending
      obtain ⟨call, hcall, hf⟩ := List.mem_flatMap.1 hf
      rw [(Call.isRunning_eq_false_iff call).1 (hidle call hcall)] at hf
      cases hf

/-- An update that forgets its own key and loads it anew, clears the cache while the loader runs,
    and outlives the loader, which panics. -/
theorem pending_owned_recreated :
    let s : System Nat Nat := (System.new {} (.manual 0) fun _ => 0).actAll
      [.spawn (.update 1), .advance 0, .advance 0, .spawn (.invalidate 1), .advance 1, .advance 1,
       .spawn (.load 1 0 true), .advance 2, .advance 2, .advance 2, .upkeep .clear]
    let t := s.act (.resume (.panic "no") 2)
    s.WellOwned ∧ s.callbacks 0 = [1] ∧ s.callbacks 1 = [1] ∧
      t.WellOwned ∧ t.callbacks 0 = [1] ∧ t.callbacks 1 = [] := by
  intro s t
  have hs : s.Reachable := ⟨_, _, _, _, rfl⟩
  exact ⟨pending_owned hs, by decide +kernel, by decide +kernel,
    pending_owned (hs.actAll [.resume (.panic "no") 2]), by decide +kernel, by decide +kernel⟩

end ReadThrough
