import ReadThrough.Proofs.Updates.Register

/-! # No Update Is Lost

  Any number of callers update one key, load it, put it, mark it and look it up, in any order of
  their critical sections, and meanwhile anything else happens that leaves the key in the table.
  Callbacks may fail or panic.

  - **Retained**: an action that leaves the key in the table: it is not removed by name, evicted or
    looked at by an idle pass, and loads of it ask for no expiry.
  - **installations**: what a run puts in place for a key, in order.
  - **no_lost_update**: every callback was given what was put in place last, so that each value was
    made from the one before it.
-/

namespace ReadThrough

open Cache

variable {K V : Type}

/-- The request that an action makes. -/
def Action.request? : Action K V → Option (Request K V)
  | .spawn r => some r
  | _ => none

namespace Installation

variable {v? : Option (Value V)} {is js : List (Installation V)}

theorem latest_append : latest v? (is ++ js) = latest (latest v? is) js := by
  induction is generalizing v? with
  | nil => rfl
  | cons i is ih => exact ih

theorem chain_append : Chain v? (is ++ js) ↔ Chain v? is ∧ Chain (latest v? is) js := by
  induction is generalizing v? with
  | nil => simp [Chain, latest]
  | cons i is ih =>
    show i.given? = v? ∧ Chain i.made? (is ++ js) ↔ _
    rw [ih, ← and_assoc]
    rfl

end Installation

namespace System

variable [DecidableEq K]

/-! ## Runs that retain a key -/

/-- The action leaves the key in the table. -/
structure Retained (k : K) (s : System K V) (a : Action K V) : Prop where
  asks : ∀ r ∈ a.request?, r.key = k → r.retains = true
  stays : ∀ n ∈ s.cache.table.nodes, n.key = k → n ∈ (s.act a).cache.table.nodes
  idle : ∀ n ∈ s.cache.table.nodes, n.key = k → a.isIdlePass = false

instance (k : K) (s : System K V) (a : Action K V) : Decidable (s.Retained k a) :=
  decidable_of_iff ((∀ r ∈ a.request?, r.key = k → r.retains = true) ∧
      (∀ n ∈ s.cache.table.nodes, n.key = k → n ∈ (s.act a).cache.table.nodes) ∧
      ∀ n ∈ s.cache.table.nodes, n.key = k → a.isIdlePass = false)
    ⟨fun ⟨hasks, hstays, hidle⟩ => ⟨hasks, hstays, hidle⟩,
      fun ⟨hasks, hstays, hidle⟩ => ⟨hasks, hstays, hidle⟩⟩

/-- What an action puts in place for a key, if anything. -/
def installs? (k : K) (s : System K V) (a : Action K V) : Option (Installation V) :=
  match a.call? with
  | none => none
  | some i =>
    match s.calls[i]?, (s.act a).calls[i]? with
    | some call, some call' =>
      if call.request.key = k then call.installs? (s.cache.contains s.held k) call'.stage
      else none
    | _, _ => none

/-- What a run puts in place for a key, in order. -/
def installations (k : K) (s : System K V) : List (Action K V) → List (Installation V)
  | [] => []
  | a :: as => (s.installs? k a).toList ++ (s.act a).installations k as

variable {k : K} {v? : Option (Value V)} {s : System K V} {a : Action K V} {i : Nat}
  {call : Call K V}

/-- What the call of an action puts in place is what the action does. -/
theorem installs?_own (ha : a.call? = some i) (hi : s.calls[i]? = some call)
    (hkey : call.request.key = k) : s.installs? k a =
      call.installs? (s.cache.contains s.held k) (a.onCall s.held s.cache call).2.stage := by
  simp [installs?, ha, hi, act_getElem? ha hi, hkey]

theorem installs?_foreign
    (hforeign : ∀ i call, a.call? = some i → s.calls[i]? = some call → call.request.key ≠ k) :
    s.installs? k a = none := by
  unfold installs?
  split
  · rfl
  next i ha =>
  split
  · next call call' hi hi' => rw [if_neg (hforeign i call ha hi)]
  · rfl

/-! ## The register of a system -/

/-- Table, entry and calls agree about what is in place for the key. -/
structure Register (k : K) (v? : Option (Value V)) (s : System K V) : Prop where
  cache : s.cache.Register k v?
  calls : ∀ call ∈ s.calls, call.request.key = k → call.Register k v? s.cache

omit [DecidableEq K] in
theorem register_absent (hk : s.Keyed) (habsent : ∀ n ∈ s.cache.table.nodes, n.key ≠ k)
    (hnone : ∀ call ∈ s.calls, call.request.key ≠ k) : s.Register k none where
  cache := ⟨hk.table, fun n hn hkey => absurd hkey (habsent n hn), fun _ => rfl⟩
  calls := fun call hmem hkey => absurd hkey (hnone call hmem)

/-- A step of a call on the key. -/
theorem Register.moves (h : s.Register k v?) (hs : s.Sound) (ho : s.Orderly)
    (ha : s.Retained k a) (hcall : a.call? = some i) (hi : s.calls[i]? = some call)
    (hkey : call.request.key = k) :
    call.Moves k v? (s.cache.contains s.held k)
      ((a.onCall s.held s.cache call).1, (a.onCall s.held s.cache call).2.stage) := by
  have hmem := List.mem_of_getElem? hi
  have hregister := h.calls call hmem hkey
  have hstays := ha.stays
  rw [act_onCall hcall, withCall_eq hi] at hstays
  rcases onCall_cases hcall s.held s.cache call with ⟨node, now, rfl, hstage⟩ |
    ⟨now, rfl, hstage⟩ | ⟨node, rfl, hstage⟩ | ⟨r, node, epoch, prior, rfl, hstage⟩ |
    ⟨hpasses, hwithin⟩
  · -- The call looks at its entry.
    rw [Action.onCall, Call.advance_inspect _ _ hstage]
    exact Call.inspect_moves h.cache hregister (hs.proper call hmem) hstage
  · -- The call puts its key into the table.
    have hout : (Action.advance i).onCall s.held s.cache call =
        ((call.insert now s.cache).1, call.goTo (call.insert now s.cache).2) := by
      rw [Action.onCall, Call.advance, hstage]
    have hinserts : call.request.inserts = true := by
      have hsuits := ho call hmem
      rw [hstage] at hsuits
      exact hsuits
    subst hkey
    rw [hout]
    exact Call.insert_moves h.cache (hs.proper call hmem) hstage hinserts
  · -- A call that retires its entry has removed its key by name.
    have hsuits := ho call hmem
    rw [hstage] at hsuits
    obtain ⟨key, hrequest⟩ := hsuits
    have hretains := hregister.retains
    rw [hrequest] at hretains
    cases hretains
  · -- The callback of the call returns.
    refine Call.resume_moves r h.cache hregister hstage (ho call hmem) ?_
    exact hs.ledger.owned.pending _ (mem_flights hmem hstage)
  · -- Any other step leaves the register to the calls that follow.
    exact hpasses.moves h.cache hregister hwithin hstays

/-- A call on the key refers to an entry in the table, after any step. -/
theorem Retained.node (ha : s.Retained k a) (hk : s.Keyed) (h : call.Register k v? s.cache)
    (hcall : a.call? = some i) (hi : s.calls[i]? = some call) (hkey : call.request.key = k)
    {n : EntryNode K} (hn : (a.onCall s.held s.cache call).2.node? = some n) :
    n ∈ (s.act a).cache.table.nodes ∧ n.key = k := by
  subst hkey
  rcases onCall_node hk hcall hi hn with hold | ⟨hmem, hkey⟩ | hnew
  · obtain ⟨hmem, hkey⟩ := h.node n hold
    exact ⟨ha.stays n hmem hkey, hkey⟩
  · exact ⟨ha.stays n hmem hkey, hkey⟩
  · exact hnew

omit [DecidableEq K] in
/-- Once something is put in place no callback runs for the key. -/
theorem rests_of_settled (hs : s.Sound)
    (hsettled : ∀ n ∈ s.cache.table.nodes, n.key = k →
      ∃ e, s.cache.entries[n.payload]? = some e ∧ e.value ≠ .pending)
    (hmem : call ∈ s.calls)
    (hnode : ∀ n, call.node? = some n → n ∈ s.cache.table.nodes ∧ n.key = k) :
    call.flights = [] := by
  refine List.eq_nil_iff_forall_not_mem.2 fun f hf => ?_
  obtain ⟨e, he, hpending, -⟩ := hs.ledger.owned.pending f (List.mem_flatMap.2 ⟨call, hmem, hf⟩)
  obtain ⟨node, hm, hid⟩ := Call.node?_of_mem_flights hf
  obtain ⟨hn, hkey⟩ := hnode node hm
  obtain ⟨e', he', hne⟩ := hsettled node hn hkey
  rw [hid] at he'
  have hsame : some e' = some e := he'.symm.trans he
  exact hne (Option.some.inj hsame ▸ hpending)

/-- A call on the key goes on. -/
theorem Register.own (h : s.Register k v?) (hs : s.Sound) (hk : s.Keyed) (ho : s.Orderly)
    (ha : s.Retained k a) (hcall : a.call? = some i) (hi : s.calls[i]? = some call)
    (hkey : call.request.key = k) :
    (s.act a).Register k (Installation.latest v? (s.installs? k a).toList) ∧
      ∀ inst, s.installs? k a = some inst → inst.given? = v? := by
  have hmoves := h.moves hs ho ha hcall hi hkey
  have hinstalls := installs?_own hcall hi hkey
  have hcache := act_cache hcall hi
  have hcalls : (s.act a).calls = s.calls.set i (a.onCall s.held s.cache call).2 := by
    rw [act_onCall hcall, withCall_eq hi]
  have hsettled := hmoves.settled
  have hregister := hmoves.cache
  rw [← hinstalls, ← hcache] at hsettled hregister
  refine ⟨⟨hregister, fun call' hmem hkey' => ?_⟩, hinstalls ▸ hmoves.given⟩
  rw [hcalls] at hmem
  rcases List.mem_or_eq_of_mem_set hmem with hold | rfl
  · obtain ⟨hretains, hnode, hgiven⟩ := h.calls call' hold hkey'
    have hnode' : ∀ n, call'.node? = some n → n ∈ (s.act a).cache.table.nodes ∧ n.key = k := by
      intro n hn
      obtain ⟨hin, hnkey⟩ := hnode n hn
      exact ⟨ha.stays n hin hnkey, hnkey⟩
    refine ⟨hretains, hnode', ?_⟩
    cases hinst : s.installs? k a with
    | none => exact hgiven
    | some inst =>
      -- Whoever puts something in place has had the entry to itself.
      have hmem' : call' ∈ (s.act a).calls := by
        rw [hcalls]
        exact hmem
      have hrests := rests_of_settled (hs.act a) (hsettled (by simp [hinst])) hmem' hnode'
      simp [hrests]
  · refine ⟨?_, fun n hn => ?_, ?_⟩
    · rw [onCall_request]
      exact (h.calls call (List.mem_of_getElem? hi) hkey).retains
    · exact ha.node hk (h.calls call (List.mem_of_getElem? hi) hkey) hcall hi hkey hn
    · rw [hinstalls]
      exact hmoves.flights

/-- Nobody who deals with other keys changes what is in place. -/
theorem Register.foreign (h : s.Register k v?) (hs : s.Sound) (hk : s.Keyed)
    (ha : s.Retained k a)
    (hforeign : ∀ i call, a.call? = some i → s.calls[i]? = some call → call.request.key ≠ k) :
    (s.act a).Register k v? := by
  obtain ⟨hnodes, hcalm⟩ := act_foreign hs hk ha.stays ha.idle hforeign
  refine ⟨h.cache.calm (act_nodes hk a).1 hnodes hcalm, fun call' hmem hkey => ?_⟩
  rcases mem_act_calls hmem with hold | ⟨r, rfl, rfl⟩ | ⟨i, call, hcall, hi, rfl⟩
  · obtain ⟨hretains, hnode, hgiven⟩ := h.calls call' hold hkey
    refine ⟨hretains, fun n hn => ?_, hgiven⟩
    obtain ⟨hin, hnkey⟩ := hnode n hn
    exact ⟨ha.stays n hin hnkey, hnkey⟩
  · rw [Call.start_request] at hkey
    refine ⟨?_, ?_, ?_⟩
    · rw [Call.start_request]
      exact ha.asks r rfl hkey
    · simp [Call.node?]
    · simp [Call.flights, Stage.flights]
  · rw [onCall_request] at hkey
    exact absurd hkey (hforeign i call hcall hi)

/-- Every action that leaves the key in the table keeps the register. -/
theorem Register.act (h : s.Register k v?) (hs : s.Sound) (hk : s.Keyed) (ho : s.Orderly)
    (ha : s.Retained k a) :
    (s.act a).Register k (Installation.latest v? (s.installs? k a).toList) ∧
      ∀ inst, s.installs? k a = some inst → inst.given? = v? := by
  by_cases hown : ∃ i call, a.call? = some i ∧ s.calls[i]? = some call ∧ call.request.key = k
  · obtain ⟨i, call, hcall, hi, hkey⟩ := hown
    exact h.own hs hk ho ha hcall hi hkey
  · have hforeign : ∀ i call, a.call? = some i → s.calls[i]? = some call →
        call.request.key ≠ k := fun i call hcall hi hkey => hown ⟨i, call, hcall, hi, hkey⟩
    rw [installs?_foreign hforeign]
    exact ⟨h.foreign hs hk ha hforeign, nofun⟩

/-- A run that leaves the key in the table keeps the register, and what it puts in place forms a
    chain. -/
theorem Register.actAll (h : s.Register k v?) (hs : s.Sound) (hk : s.Keyed) (ho : s.Orderly)
    {as : List (Action K V)} (has : s.Throughout (Retained k) as) :
    (s.actAll as).Register k (Installation.latest v? (s.installations k as)) ∧
      Installation.Chain v? (s.installations k as) := by
  induction as generalizing s v? with
  | nil => exact ⟨h, trivial⟩
  | cons a as ih =>
    obtain ⟨hregister, hgiven⟩ := h.act hs hk ho has.1
    obtain ⟨hlast, hchain⟩ :=
      ih hregister (hs.act a) (hk.act hs a) (ho.act hs hk a) has.2
    rw [installations, Installation.latest_append, Installation.chain_append]
    refine ⟨hlast, ?_, hchain⟩
    cases hinst : s.installs? k a with
    | none => trivial
    | some inst => exact ⟨hgiven inst hinst, trivial⟩

end System

/-! ## Every update counts -/

/-- Let a key be absent, and let any number of callers update it, load it, put it, mark it and look
    it up, in any order of their steps, while anything else happens that leaves the key in the
    table. Then whoever puts something in place was given what was put in place just before, and at
    every point of the run a callback that is running for the key has been given what was put in
    place last. -/
theorem no_lost_update [DecidableEq K] {s : System K V} (hs : s.Reachable) {k : K}
    (habsent : ∀ n ∈ s.cache.table.nodes, n.key ≠ k)
    (hnone : ∀ call ∈ s.calls, call.request.key ≠ k) {as : List (Action K V)}
    (has : s.Throughout (System.Retained k) as) :
    Installation.Chain none (s.installations k as) ∧ ∀ before after, as = before ++ after →
      ∀ call ∈ (s.actAll before).calls, call.request.key = k → call.isRunning = true →
        call.current? = Installation.latest none (s.installations k before) := by
  have hregister := System.register_absent hs.keyed habsent hnone
  refine ⟨(hregister.actAll hs.sound hs.keyed hs.orderly has).2, ?_⟩
  rintro before after rfl call hmem hkey hrunning
  have hbefore := (System.throughout_append.1 has).1
  have hcall := (hregister.actAll hs.sound hs.keyed hs.orderly hbefore).1.calls call hmem hkey
  cases hstage : call.stage with
  | running node epoch prior =>
    have hgiven := hcall.given ⟨node.payload, epoch, prior⟩ (by simp [Call.flights_running hstage])
    rw [Call.current?, hstage]
    exact hgiven.2
  | _ =>
    rw [Call.isRunning, hstage] at hrunning
    cases hrunning

/-- A load and two updates that meet. The first update fails, and the second one is given the value
    that was loaded, which a batch writes back meanwhile. -/
theorem no_lost_update_failed :
    let s : System Nat Nat := System.new {} (.manual 0) fun _ => 0
    let as : List (Action Nat Nat) :=
      [.spawn (.load 1 0 false), .spawn (.update 1), .spawn (.update 1),
       .advance 0, .advance 0, .advance 0, .advance 1, .advance 1, .advance 2, .advance 2,
       .resume (.value 5) 0, .spawn (.mark 1), .advance 3, .advance 3,
       .upkeep (.drain "b" 10 false), .advance 1, .advance 1, .advance 1, .advance 2, .advance 2,
       .advance 2, .upkeep (.finish "b" .rollback), .resume (.fail "no") 1, .advance 2, .advance 2,
       .advance 2, .resume (.value 6) 2]
    s.installations 1 as = [⟨none, some ⟨0, 5⟩⟩, ⟨some ⟨0, 5⟩, some ⟨1, 6⟩⟩] ∧
      Installation.Chain none (s.installations 1 as) ∧ ∀ before after, as = before ++ after →
        ∀ call ∈ (s.actAll before).calls, call.request.key = 1 → call.isRunning = true →
          call.current? = Installation.latest none (s.installations 1 before) := by
  intro s as
  refine ⟨by decide +kernel, ?_⟩
  exact no_lost_update ⟨_, _, _, [], rfl⟩ (by decide +kernel) (by decide +kernel)
    (by decide +kernel)

end ReadThrough
