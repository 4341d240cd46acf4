import ReadThrough.Proofs.Runs.Inspections

/-! # Tenants

  The entries that nodes in the table lead to are those that have not left it.

  - **Tenants**: nodes in the table lead to entries of their own that are not marked as removed, and
    a call that is about to retire an entry has taken its node out of the table.
  - **Tenants.act**: every action keeps this.
-/

namespace ReadThrough

open Cache Entries

variable {K V : Type}

namespace Call

variable {held : Held} {c : Cache K V} {call : Call K V} {node n : EntryNode K} {now : Nat}
  {e e' : Entry K V} {stage : Stage K V}

/-! ## Single calls -/

/-- A look at an entry does not remove it. -/
theorem Inspects.removed (h : call.Inspects held node e e' stage) : e'.removed = e.removed := by
  cases h with
  | _ => rfl

/-- The end of a callback does not remove its entry. -/
theorem Settles.removed {r : Return V} {epoch : Nat} {prior : ValueState V}
    (h : call.Settles r node epoch prior e e' stage) : e'.removed = e.removed := by
  cases h with
  | restored outcome stage hstage hvalue hload =>
    unfold Entry.restore
    split <;> rfl
  | _ => rfl

/-- An insertion adds one node at most, which leads to a new entry. -/
theorem Inserts.tenants [DecidableEq K] {out : Cache K V × Stage K V}
    (h : Inserts (Spared c.table.hashOf c.table.buckets c.entries) call now c out)
    (hs : c.table.Sound) (hn : n ∈ out.1.table.nodes) : n ∈ c.table.nodes ∨
      (n.payload = c.entries.size ∧
        ∃ e, out.1.entries[n.payload]? = some e ∧ e.removed = false) := by
  cases h with
  | found node hget htable hentries hchain hstage =>
    rw [htable] at hn
    exact .inl hn
  | refused m hget hkeep hhash hentries hchain hstage => exact .inl (hkeep.sub n hn)
  | @made c' stage room m hget hkeep hhash htable hentries hchain hstage =>
    obtain ⟨hroom, habsent⟩ := hkeep.room hhash hs hget
    rw [htable] at hn
    rcases ((hroom.insertNew habsent _).2 n).1 hn with rfl | hold
    · rw [Table.insertNew_payload]
      refine .inr ⟨rfl, Entry.new call.request.key call.firstState now, ?_, rfl⟩
      rw [hentries, ← hkeep.size, Array.getElem?_push_size]
    · exact .inl (hkeep.sub n hold)

theorem wake_stage (call : Call K V) (m : EntryNode K) (epoch : Nat) (c : Cache K V)
    (node : EntryNode K) : (wake call m epoch c).2 ≠ .retire node := by
  unfold wake
  repeat' split
  all_goals exact nofun

/-- A call is about to retire an entry only if it has just taken the node out of the table. -/
theorem advance_retire [DecidableEq K] (hs : c.table.Sound) (hproper : call.Proper)
    (hsuits : call.stage.Suits call.request) (h : (call.advance held c).2.stage = .retire node) :
    node ∈ c.table.nodes ∧ ∀ n ∈ (call.advance held c).1.table.nodes, n ≠ node := by
  -- Only calls that remove their key by name retire its entry, and those go from the look-up there.
  obtain ⟨key, hrequest⟩ : ∃ key, call.request = .invalidate key := by
    have hafter := advance_suits held hs hproper hsuits
    rw [h] at hafter
    exact hafter
  unfold advance at h ⊢
  dsimp only at h ⊢
  cases hcase : call.stage with
  | lookup =>
    rw [hcase] at h
    dsimp only [goTo] at h ⊢
    unfold lookup at h ⊢
    rw [hrequest] at h ⊢
    unfold Table.remove at h ⊢
    dsimp only at h ⊢
    cases hget : c.table.get? key with
    | none =>
      rw [hget] at h
      cases h
    | some found =>
      rw [hget] at h
      obtain rfl : found = node := by
        cases h
        rfl
      obtain ⟨hin, -⟩ := hs.get?_eq_some_iff.1 hget
      refine ⟨hin, fun n hn => ?_⟩
      have hleft : n ∈ (c.table.removeNode found).1.buckets.nodes := hn
      rw [(Table.removeNode_buckets found c.table).1] at hleft
      exact ((Table.Buckets.Sound.mem_removeNode hs hin).1 hleft).2
  | inspect m now =>
    rw [hcase] at hsuits
    exact absurd hrequest (hsuits key)
  | reserve now =>
    rw [hcase, hrequest] at hsuits
    cases hsuits
  | insert now =>
    rw [hcase, hrequest] at hsuits
    cases hsuits
  | running m epoch prior =>
    rw [hcase] at h
    cases h
  | giveBack error? =>
    rw [hcase] at h
    cases error? <;> cases h
  | parked m epoch =>
    rw [hcase] at h
    exact absurd h (wake_stage call m epoch c node)
  | release m now outcome =>
    rw [hcase] at h
    cases outcome <;> cases h
  | _ =>
    rw [hcase] at h
    cases h

theorem resume_retire {r : Return V} (h : (call.resume r c).2.stage = .retire node) :
    call.stage = .retire node := by
  unfold resume at h
  split at h
  · dsimp only at h
    split at h
    · cases r <;> cases h
    · cases r <;> cases h
  · exact h

theorem expire_retire (h : (call.expire c).2.stage = .retire node) :
    call.stage = .retire node := by
  unfold expire at h
  split at h
  · next m epoch hstage =>
    have hwake := wake_stage call m epoch c node
    generalize wake call m epoch c = out at h hwake
    obtain ⟨c', stage⟩ := out
    cases stage with
    | parked m' epoch' => cases h
    | _ => exact absurd h hwake
  · exact h

end Call

/-! ## Systems -/

namespace System

variable [DecidableEq K] {s : System K V} {a : Action K V} {n : EntryNode K}

/-- Nodes in the table lead to entries that have not left it, and a call that is about to retire an
    entry has taken its node out of the table. -/
structure Tenants (s : System K V) : Prop where
  present : ∀ n ∈ s.cache.table.nodes,
    ∃ e, s.cache.entries[n.payload]? = some e ∧ e.removed = false
  left : ∀ call ∈ s.calls, ∀ node, call.stage = .retire node →
    ∀ n ∈ s.cache.table.nodes, n.payload ≠ node.payload

omit [DecidableEq K] in
theorem tenants_new (config : Config) (clock : Clock) (hashOf : K → UInt64) :
    (System.new config clock hashOf : System K V).Tenants where
  present := by
    intro n hn
    rw [show (System.new config clock hashOf : System K V).cache.table.nodes = []
      from Table.nodes_empty _ _ _ _] at hn
    cases hn
  left := by simp [System.new]

/-- Every node leads to an entry of its own, since the entry has the key of the node. -/
theorem Keyed.distinct (hk : s.Keyed) : Distinct s.cache.table.buckets := by
  intro m hm n hn hid
  have hkey := hk.nodes m hm
  rw [hid] at hkey
  exact hk.table.node_unique hm hn (hkey.unique (hk.nodes n hn))

omit [DecidableEq K] in
/-- A call that refers to the entry of a node is about the key of the node. -/
theorem Keyed.request_key (hk : s.Keyed) {call : Call K V} {m : EntryNode K}
    (hmem : call ∈ s.calls) (hm : call.node? = some m) (hn : n ∈ s.cache.table.nodes)
    (hid : n.payload = m.payload) : call.request.key = n.key := by
  have hkey := hk.nodes n hn
  rw [hid] at hkey
  exact (hk.calls call hmem m hm).unique hkey

/-- A call does not remove the entry that it refers to, as long as the node is in the table. -/
theorem Tenants.own (h : s.Tenants) (hs : s.Sound) (ho : s.Orderly) {i : Nat} {call : Call K V}
    {m : EntryNode K} (ha : a.call? = some i) (hi : s.calls[i]? = some call)
    (hm : call.node? = some m) (hn : n ∈ s.cache.table.nodes) (hid : n.payload = m.payload)
    {e : Entry K V} (he : s.cache.entries[n.payload]? = some e) :
    ∃ e', (s.act a).cache.entries[n.payload]? = some e' ∧ e'.removed = e.removed := by
  have hmem := List.mem_of_getElem? hi
  rw [hid] at he ⊢
  obtain ⟨e', he', hdeals⟩ := act_own ha hi (hs.proper call hmem) (ho call hmem) hm
    (fun hstage => h.left call hmem m hstage n hn hid) he
  refine ⟨e', he', ?_⟩
  rcases hdeals with ⟨-, hinspects⟩ | ⟨r, epoch, prior, -, -, hsettles⟩ | ⟨hcalm, -⟩
  · exact hinspects.removed
  · exact hsettles.removed
  · exact hcalm.removed

/-- No action removes the entry of a node that stays in the table. -/
theorem Tenants.removed (h : s.Tenants) (hs : s.Sound) (hk : s.Keyed) (ho : s.Orderly)
    (hn : n ∈ s.cache.table.nodes) (hstay : n ∈ (s.act a).cache.table.nodes) {e : Entry K V}
    (he : s.cache.entries[n.payload]? = some e) :
    ∃ e', (s.act a).cache.entries[n.payload]? = some e' ∧ e'.removed = e.removed := by
  -- Either a call acts on the entry itself, or a pass over idle entries does, or nobody does.
  by_cases hown : ∃ i call m, a.call? = some i ∧ s.calls[i]? = some call ∧
      call.node? = some m ∧ n.payload = m.payload
  · obtain ⟨i, call, m, ha, hi, hm, hid⟩ := hown
    exact h.own hs ho ha hi hm hn hid he
  by_cases hidle : a.isIdlePass = true
  · -- An idle pass removes the entries of the nodes that it takes out of the table.
    cases a with
    | upkeep u =>
      cases u with
      | idleTrim cutoff =>
        exact (idleTrim_thins hk.table s.held cutoff).present hk.distinct n hstay e he
      | evictIdle seconds =>
        exact (evictIdle_thins hk.table s.held seconds).present hk.distinct n hstay e he
      | _ => cases hidle
    | _ => cases hidle
  · have hstays : Stays n.payload s.cache.table (s.act a).cache.table := by
      intro m hm hid
      rw [hk.distinct m hm n hn hid]
      exact hstay
    have hother : ∀ i call, a.call? = some i → s.calls[i]? = some call →
        ∀ m, call.node? = some m → n.payload ≠ m.payload :=
      fun i call ha hi m hm hid => hown ⟨i, call, m, ha, hi, hm, hid⟩
    obtain ⟨e', he', hcalm⟩ :=
      act_calmAt hs hk a (fun hpass => absurd hpass hidle) hother hstays e he
    exact ⟨e', he', hcalm.removed⟩

/-- The only node that an action adds leads to a new entry. -/
theorem act_tenants (hk : s.Keyed) (hn : n ∈ (s.act a).cache.table.nodes) :
    n ∈ s.cache.table.nodes ∨ (n.payload = s.cache.entries.size ∧
      ∃ e, (s.act a).cache.entries[n.payload]? = some e ∧ e.removed = false) := by
  rcases (act_nodes hk a).2 n hn with hold | ⟨i, call, rfl, hi, -⟩
  · exact .inl hold
  have hcache : (s.act (.advance i)).cache = (call.advance s.held s.cache).1 := act_cache rfl hi
  rw [hcache] at hn ⊢
  by_cases hstage : ∃ now, call.stage = .insert now
  · obtain ⟨now, hstage⟩ := hstage
    have hinsert : (call.advance s.held s.cache).1 = (call.insert now s.cache).1 := by
      rw [Call.advance, hstage]
    rw [hinsert] at hn ⊢
    exact (Call.insert_spared call now hk.table).tenants hk.table hn
  · have hwithin := Call.advance_within s.held s.cache call (not_exists.1 hstage)
    exact .inl (hwithin.sub hk.table n hn)

/-- Every action keeps the tenants. -/
theorem Tenants.act (h : s.Tenants) (hs : s.Sound) (hk : s.Keyed) (ho : s.Orderly)
    (a : Action K V) : (s.act a).Tenants where
  present := by
    intro n hn
    rcases act_tenants hk hn with hold | ⟨-, hnew⟩
    · obtain ⟨e, he, hpresent⟩ := h.present n hold
      obtain ⟨e', he', hsame⟩ := h.removed hs hk ho hold hn he
      exact ⟨e', he', hsame.trans hpresent⟩
    · exact hnew
  left := by
    intro call' hmem node hstage n hn
    -- An entry that was there before is not a new one.
    have hold {call : Call K V} (hcall : call ∈ s.calls) (hretire : call.stage = .retire node) :
        n.payload ≠ node.payload := by
      rcases act_tenants hk hn with hn' | ⟨hsize, -⟩
      · exact h.left call hcall node hretire n hn'
      · obtain ⟨e, he, -⟩ := hk.calls call hcall node (by rw [Call.node?, hretire])
        rw [hsize]
        exact (Nat.ne_of_lt (Array.getElem?_eq_some_iff.1 he).1).symm
    rcases mem_act_calls hmem with hcall | ⟨r, rfl, rfl⟩ | ⟨i, call, ha, hi, rfl⟩
    · exact hold hcall hstage
    · cases r <;> cases hstage
    · have hcall := List.mem_of_getElem? hi
      cases a with
      | advance j =>
        obtain rfl := Option.some.inj ha
        obtain ⟨hnode, hgone⟩ := Call.advance_retire hk.table (hs.proper call hcall)
          (ho call hcall) hstage
        have hcache := act_cache ha hi
        intro hid
        rcases act_tenants hk hn with hn' | ⟨hsize, -⟩
        · rw [hcache] at hn
          exact hgone n hn (hk.distinct n hn' node hnode hid)
        · obtain ⟨e, he, -⟩ := hk.nodes node hnode
          have hlt := (Array.getElem?_eq_some_iff.1 he).1
          rw [← hid, hsize] at hlt
          exact Nat.lt_irrefl _ hlt
      | resume r j => exact hold hcall (Call.resume_retire hstage)
      | expire j => exact hold hcall (Call.expire_retire hstage)
      | _ => cases ha

theorem Tenants.actAll (h : s.Tenants) (hs : s.Sound) (hk : s.Keyed) (ho : s.Orderly)
    (as : List (Action K V)) : (s.actAll as).Tenants := by
  induction as generalizing s with
  | nil => exact h
  | cons a as ih =>
    exact ih (h.act hs hk ho a) (hs.act a) (hk.act hs a) (ho.act hs hk a)

theorem Reachable.tenants (h : s.Reachable) : s.Tenants := by
  obtain ⟨config, clock, hashOf, as, rfl⟩ := h
  exact (tenants_new config clock hashOf).actAll (sound_new config clock hashOf)
    (keyed_new config clock hashOf) (fun call hmem => by cases hmem) as

end System

end ReadThrough
