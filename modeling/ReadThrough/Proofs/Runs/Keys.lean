import ReadThrough.Proofs.Cache.Calm
import ReadThrough.Proofs.Runs.Systems

/-! # Keys

  Nodes, entries and calls agree about keys, so that calls on different keys do not meet at an
  entry.

  - **Keyed**: the table is in order, its nodes lead to entries with their keys, and calls refer to
    entries with the keys that they are about.
  - **Keyed.act**: every action keeps this.
  - **act_nodes**: only an insertion of its key brings a node into the table.
-/

namespace ReadThrough

open Ledger

variable {K V : Type}

/-! ## The keys of entries -/

/-- Every entry stays and keeps its key. -/
def Entries.SameKeys (es es' : Entries K V) : Prop :=
  ∀ (id : EntryId) (e : Entry K V), es[id]? = some e → ∃ e', es'[id]? = some e' ∧ e'.key = e.key

namespace Entries

variable {es es' es'' : Entries K V}

theorem SameKeys.refl (es : Entries K V) : es.SameKeys es :=
  fun _ e he => ⟨e, he, rfl⟩

theorem SameKeys.trans (h : es.SameKeys es') (k : es'.SameKeys es'') : es.SameKeys es'' := by
  intro id e he
  obtain ⟨e', he', hkey⟩ := h id e he
  obtain ⟨e'', he'', hkey'⟩ := k id e' he'
  exact ⟨e'', he'', hkey'.trans hkey⟩

theorem Each.sameKeys {R : EntryId → Entry K V → Entry K V → Prop} (h : Each R es es')
    (hR : ∀ id e e', R id e e' → e'.key = e.key) : es.SameKeys es' := by
  intro id e he
  obtain ⟨e', he', hr⟩ := h.2 id e he
  exact ⟨e', he', hR id e e' hr⟩

theorem sameKeys_push (x : Entry K V) : es.SameKeys (es.push x) :=
  fun _ e he => ⟨e, getElem?_push_of_some he, rfl⟩

end Entries

namespace Ledger

variable {L L' : Ledger K V} {ids : List EntryId}

/-- No change of a ledger changes the key of an entry. -/
theorem Step.sameKeys (hc : Chained L ids) (hs : Step L L') : L.entries.SameKeys L'.entries := by
  cases hs with
  | reorder hb hf => exact .refl _
  | quiet hq => exact hq.sameKeys fun _ _ _ hr => hr.key
  | insertReady key v now => exact Entries.sameKeys_push _
  | insertPending key now => exact Entries.sameKeys_push _
  | @start es c bs fs id e prior he hidle hsettled hprior =>
    exact (Entries.each_modify (R := fun _ e e' => e'.key = e.key) id Entry.begin
      (fun _ _ => rfl) fun _ _ _ => rfl).sameKeys fun _ _ _ hr => hr
  | @settle es c bs fs f g hg hset =>
    exact (Entries.each_sameMarks f.entry hg es).sameKeys fun _ _ _ hr => hr.key
  | @enlist es c bs old fs id v g hlt hg hold hidle =>
    refine (marked_each id v hg es c).sameKeys ?_
    rintro j e e' (⟨-, n, rfl⟩ | ⟨-, -, hkey, -⟩)
    · rfl
    · exact hkey
  | drain limit copyOn =>
    refine (Cache.takeDirty_taken copyOn limit hc.links).each.sameKeys ?_
    rintro _ _ _ ⟨n, rfl⟩
    rfl
  | consume n => exact .refl _
  | finish how b =>
    exact (finish_each how b (hc.distinct b List.mem_cons_self) _ _).sameKeys
      fun _ _ _ hr => hr.fields.1

theorem Leads.sameKeys (h : Sound L) (hs : Leads L L') : L.entries.SameKeys L'.entries := by
  induction hs with
  | refl => exact .refl _
  | tail hfirst hlast ih =>
    obtain ⟨⟨ids, hc⟩, -, -⟩ := h.leads hfirst
    exact ih.trans (hlast.sameKeys hc)

end Ledger

/-! ## What critical sections do to the table -/

/-- The entry of a place has a key. -/
def Cache.HasKey (c : Cache K V) (id : EntryId) (key : K) : Prop :=
  ∃ e, c.entries[id]? = some e ∧ e.key = key

theorem Cache.HasKey.mono {c c' : Cache K V} {id : EntryId} {key : K} (h : c.HasKey id key)
    (hsame : c.entries.SameKeys c'.entries) : c'.HasKey id key := by
  obtain ⟨e, he, rfl⟩ := h
  exact hsame id e he

theorem Cache.HasKey.unique {c : Cache K V} {id : EntryId} {key key' : K} (h : c.HasKey id key)
    (h' : c.HasKey id key') : key = key' := by
  obtain ⟨e, he, rfl⟩ := h
  obtain ⟨e', he', rfl⟩ := h'
  rw [he] at he'
  rw [Option.some.inj he']

@[simp] theorem Cache.makeDirty_table (id : EntryId) (v : Value V) (c : Cache K V) :
    (c.makeDirty id v).table = c.table := by
  unfold makeDirty
  dsimp only
  split <;> rfl

namespace Call

open Cache

variable {held : Held} {c : Cache K V} {call : Call K V} {node n : EntryNode K} {now : Nat}

theorem lookup_table [DecidableEq K] (r : Request K V) (c : Cache K V) :
    c.table.Within (lookup r c).1.table := by
  unfold lookup
  split
  · next key =>
    have hremove := Table.remove_within key c.table
    split
    · exact .refl _
    · next table node heq =>
      rw [heq] at hremove
      exact hremove
  · split
    · exact .refl _
    · split <;> exact .refl _

theorem inspect_table (held : Held) (call : Call K V) (node : EntryNode K) (now : Nat)
    (c : Cache K V) : (inspect held call node now c).1.table = c.table := by
  unfold inspect
  split
  · rfl
  split
  · unfold inspectGet
    dsimp only
    split <;> rfl
  · unfold inspectLoad park giveUp
    dsimp only
    repeat' split
    all_goals rfl
  · unfold inspectUpdate park giveUp
    repeat' split
    all_goals rfl
  · unfold inspectPut park giveUp
    dsimp only
    repeat' split
    all_goals rfl
  · -- A mark may enlist the entry, which is a matter of entries and chain.
    unfold inspectMark
    dsimp only
    split
    · rfl
    · rw [makeDirty_table]
      rfl
  · rfl

theorem wake_cache (call : Call K V) (node : EntryNode K) (epoch : Nat) (c : Cache K V) :
    (wake call node epoch c).1 = c := by
  unfold wake
  repeat' split
  all_goals rfl

/-- A call that is not about to insert its key brings no node into the table. -/
theorem advance_within [DecidableEq K] (held : Held) (c : Cache K V) (call : Call K V)
    (hstage : ∀ now, call.stage ≠ .insert now) :
    c.table.Within (call.advance held c).1.table := by
  unfold advance
  dsimp only
  cases hcase : call.stage with
  | lookup => exact lookup_table _ _
  | inspect node now => exact inspect_table held call node now c ▸ .refl _
  | reserve now => exact .refl _
  | refuse limit => exact .refl _
  | insert now => exact absurd hcase (hstage now)
  | giveBack error? => cases error? <;> exact .refl _
  | parked node epoch => exact (wake_cache call node epoch c).symm ▸ .refl _
  | running node epoch prior => exact .refl _
  | release node now outcome => cases outcome <;> exact .refl _
  | touch node now outcome => exact Table.touch_within node c.table
  | retire node => exact .refl _
  | done outcome => exact .refl _

theorem resume_table (r : Return V) (c : Cache K V) (call : Call K V) :
    (call.resume r c).1.table = c.table := by
  unfold resume
  split
  · dsimp only
    split
    · cases r <;> rfl
    · cases r with
      | value content => 
        unfold settleUpdate
        dsimp only
        rw [makeDirty_table]
        rfl
      | _ => rfl
  · rfl

theorem expire_table (c : Cache K V) (call : Call K V) :
    (call.expire c).1.table = c.table := by
  unfold expire
  split
  · next node epoch hstage =>
    have hwake := wake_cache call node epoch c
    dsimp only
    split
    · next heq =>
      rw [heq] at hwake
      rw [← hwake]
      rfl
    · rw [hwake]
  · rfl

/-! ### Insertion -/

/-- What insertion does to a table in order. -/
theorem insert_spared [DecidableEq K] (call : Call K V) (now : Nat) (h : c.table.Sound) :
    Inserts (Spared c.table.hashOf c.table.buckets c.entries) call now c
      (call.insert now c) :=
  insert_inserts (evictor_spared _ _ _) call now c (spared_start h)

section

variable [DecidableEq K] {r : Cache K V × Stage K V}

/-- The table stays in order, and the only node that is added leads to an entry with the key. -/
theorem Inserts.nodes (h : Inserts (Spared c.table.hashOf c.table.buckets c.entries) call now c r)
    (hs : c.table.Sound) : r.1.table.Sound ∧ ∀ n ∈ r.1.table.nodes, n ∈ c.table.nodes ∨
      (n.key = call.request.key ∧ r.1.HasKey n.payload call.request.key) := by
  cases h with
  | found node hget htable hentries hchain hstage =>
    rw [htable]
    exact ⟨hs, fun n hn => .inl hn⟩
  | refused m hget hkeep hhash hentries hchain hstage =>
    refine ⟨?_, fun n hn => .inl (hkeep.sub n hn)⟩
    unfold Table.Sound
    rw [hhash]
    exact hkeep.sound
  | @made c' stage room m hget hkeep hhash htable hentries hchain hstage =>
    obtain ⟨hroom, habsent⟩ := hkeep.room hhash hs hget
    obtain ⟨hsound, hnodes⟩ := hroom.insertNew habsent c.entries.size
    rw [htable]
    refine ⟨hsound, fun n hn => ?_⟩
    rcases (hnodes n).1 hn with rfl | hold
    · refine .inr ⟨Table.insertNew_key _ _ _, ?_⟩
      rw [Table.insertNew_payload]
      refine ⟨Entry.new call.request.key call.firstState now, ?_, rfl⟩
      rw [hentries, ← hkeep.size, Array.getElem?_push_size]
    · exact .inl (hkeep.sub n hold)

/-- The node of a call that has inserted its key is in the table. -/
theorem Inserts.node_mem
    (h : Inserts (Spared c.table.hashOf c.table.buckets c.entries) call now c r)
    (hs : c.table.Sound) (hn : (call.goTo r.2).node? = some n) :
    n ∈ r.1.table.nodes ∧ n.key = call.request.key := by
  cases h with
  | found node hget htable hentries hchain hstage =>
    rcases hstage with rfl | rfl <;> cases hn
  | refused m hget hkeep hhash hentries hchain hstage =>
    rcases hstage with ⟨capacity, rfl | rfl⟩ <;> cases hn
  | @made c' stage room m hget hkeep hhash htable hentries hchain hstage =>
    obtain ⟨hroom, habsent⟩ := hkeep.room hhash hs hget
    subst hstage
    obtain rfl : (room.insertNew call.request.key c.entries.size).value = n := by
      unfold inserted at hn
      split at hn
      · cases hn
      · exact Option.some.inj hn
    exact ⟨htable ▸ ((hroom.insertNew habsent _).2 _).2 (.inl rfl), Table.insertNew_key _ _ _⟩

end

/-! ### The nodes of calls -/

theorem lookup_node [DecidableEq K] (hs : c.table.Sound)
    (hn : (call.goTo (lookup call.request c).2).node? = some n) :
    n ∈ c.table.nodes ∧ n.key = call.request.key := by
  refine hs.get?_eq_some_iff.1 ?_
  unfold lookup at hn
  split at hn
  · -- To be retired, the node has been removed by key just now.
    next key heq =>
    rw [heq]
    unfold Table.remove at hn
    cases hget : c.table.get? key with
    | none =>
      rw [hget] at hn
      cases hn
    | some node =>
      rw [hget] at hn
      exact hn ▸ hget
  · -- Any other call goes on to look at the node, or without one.
    next hother =>
    cases hget : c.table.get? call.request.key with
    | some node =>
      rw [hget] at hn
      exact hn
    | none =>
      rw [hget] at hn
      cases hr : call.request <;> rw [hr] at hn <;> cases hn

theorem inspect_node (hn : (call.goTo (inspect held call node now c).2).node? = some n) :
    n = node := by
  -- By the request; each stage that an inspection leads to has this node or none.
  unfold inspect at hn
  split at hn
  · cases hn
  split at hn
  · unfold inspectGet at hn
    dsimp only at hn
    split at hn
    · exact (Option.some.inj hn).symm
    · cases hn
  · unfold inspectLoad park giveUp startLoader at hn
    dsimp only at hn
    repeat' split at hn
    all_goals first | exact (Option.some.inj hn).symm | cases hn
  · unfold inspectUpdate park giveUp at hn
    repeat' split at hn
    all_goals first | exact (Option.some.inj hn).symm | cases hn
  · unfold inspectPut park giveUp at hn
    dsimp only at hn
    repeat' split at hn
    all_goals first | exact (Option.some.inj hn).symm | cases hn
  · unfold inspectMark at hn
    dsimp only at hn
    split at hn
    · cases hn
    · exact (Option.some.inj hn).symm
  · cases hn

theorem wake_node {epoch : Nat} (hn : (call.goTo (wake call node epoch c).2).node? = some n) :
    n = node := by
  unfold wake at hn
  repeat' split at hn
  all_goals first | exact (Option.some.inj hn).symm | cases hn

/-- The node of a call is the one that it had, or it is in the table. -/
theorem advance_node [DecidableEq K] (hs : c.table.Sound)
    (hn : (call.advance held c).2.node? = some n) : call.node? = some n ∨
      (n ∈ c.table.nodes ∧ n.key = call.request.key) ∨
      (n ∈ (call.advance held c).1.table.nodes ∧ n.key = call.request.key) := by
  unfold advance at hn ⊢
  unfold node?
  dsimp only at hn ⊢
  cases hcase : call.stage with
  | lookup =>
    rw [hcase] at hn
    exact .inr (.inl (lookup_node hs hn))
  | inspect node now =>
    rw [hcase] at hn
    exact .inl (congrArg some (inspect_node hn).symm)
  | reserve now =>
    rw [hcase] at hn
    unfold reserve at hn
    dsimp only at hn
    split at hn <;> cases hn
  | refuse limit =>
    rw [hcase] at hn
    cases hn
  -- A new node is in the table afterwards, and so is one that somebody else has inserted.
  | insert now =>
    rw [hcase] at hn
    exact .inr (.inr ((insert_spared call now hs).node_mem hs hn))
  | giveBack error? =>
    rw [hcase] at hn
    cases error? <;> cases hn
  | parked node epoch =>
    rw [hcase] at hn
    exact .inl (congrArg some (wake_node hn).symm)
  | running node epoch prior =>
    rw [hcase] at hn
    exact .inl hn
  | release node now outcome =>
    rw [hcase] at hn
    cases outcome with
    | value v? => exact .inl hn
    | _ => cases hn
  -- From here on the call lets go of its node.
  | touch node now outcome =>
    rw [hcase] at hn
    cases hn
  | retire node =>
    rw [hcase] at hn
    cases hn
  | done outcome =>
    rw [hcase] at hn
    cases hn

theorem resume_node {r : Return V} (hn : (call.resume r c).2.node? = some n) :
    call.node? = some n := by
  unfold resume at hn
  unfold node?
  split at hn
  · next node epoch prior hstage =>
    rw [hstage]
    dsimp only at hn
    split at hn
    · cases r <;> exact hn
    · cases r with
      | value content => exact hn
      | _ => cases hn
  · exact hn

theorem expire_node (hn : (call.expire c).2.node? = some n) : call.node? = some n := by
  unfold expire at hn
  unfold node?
  split at hn
  · next node epoch hstage =>
    rw [hstage]
    dsimp only at hn
    split at hn
    · cases hn
    · exact congrArg some (wake_node hn).symm
  · exact hn

end Call

/-! ## The keys of a system -/

/-- Table, entries and calls agree about keys. -/
structure System.Keyed (s : System K V) : Prop where
  table : s.cache.table.Sound
  nodes : ∀ n ∈ s.cache.table.nodes, s.cache.HasKey n.payload n.key
  calls : ∀ call ∈ s.calls, ∀ n, call.node? = some n → s.cache.HasKey n.payload call.request.key

namespace System

variable {s : System K V}

theorem keyed_new (config : Config) (clock : Clock) (hashOf : K → UInt64) :
    (System.new config clock hashOf : System K V).Keyed where
  table := Table.sound_empty _ _ _ _
  nodes := by
    intro n hn
    rw [show (System.new config clock hashOf : System K V).cache.table.nodes = []
      from Table.nodes_empty _ _ _ _] at hn
    cases hn
  calls := by simp [System.new]

/-- What is done at once takes nodes out of the table at most. -/
theorem keepUp_shrinks {R : Table K EntryId → Table K EntryId → Prop} (hR : Table.Shrinking R)
    (u : Upkeep) (s : System K V) : R s.cache.table (s.keepUp u).cache.table := by
  have hsame := hR.refl s.cache.table
  cases u with
  | clear => exact hR.cache_clear _ _
  | trim n => exact hR.cache_trim _ _
  | setMaxCapacity n => exact hR.cache_setMaxCapacity _ _
  | idleTrim cutoff => exact hR.cache_idleTrim _ _ _
  | evictIdle seconds => exact hR.cache_evictIdle _ _ _
  | relieve level => exact hR.cache_relieve _ _
  | pinch => exact hR.pinch _
  -- Batches leave the table alone.
  | drain name limit copyOn =>
    rw [keepUp, drain_eq]
    dsimp only
    split
    · next old hold =>
      unfold Cache.dropBatch
      split <;> exact hsame
    · exact hsame
  | next name keepAs =>
    unfold keepUp next
    dsimp only
    split <;> exact hsame
  | finish name how =>
    unfold keepUp finish
    dsimp only
    split <;> exact hsame
  | dropBatch name =>
    unfold keepUp dropBatch
    dsimp only
    split
    · exact hsame
    · unfold onCache Cache.dropBatch
      dsimp only
      split <;> exact hsame
  | beginItem entries =>
    unfold keepUp beginItem
    dsimp only
    split <;> exact hsame
  | _ => exact hsame

theorem keepUp_within (u : Upkeep) (s : System K V) :
    s.cache.table.Within (s.keepUp u).cache.table :=
  keepUp_shrinks Table.shrinking_within u s

/-- The table stays in order, and only an insertion brings a node of its key into it. -/
theorem act_nodes [DecidableEq K] (h : s.Keyed) (a : Action K V) :
    (s.act a).cache.table.Sound ∧ ∀ n ∈ (s.act a).cache.table.nodes, n ∈ s.cache.table.nodes ∨
      (∃ i call, a = .advance i ∧ s.calls[i]? = some call ∧ n.key = call.request.key ∧
        (s.act a).cache.HasKey n.payload n.key) := by
  have hwithin (hw : s.cache.table.Within (s.act a).cache.table) :
      (s.act a).cache.table.Sound ∧ ∀ n ∈ (s.act a).cache.table.nodes, n ∈ s.cache.table.nodes ∨
        (∃ i call, a = .advance i ∧ s.calls[i]? = some call ∧ n.key = call.request.key ∧
          (s.act a).cache.HasKey n.payload n.key) :=
    ⟨hw.sound h.table, fun n hn => .inl (hw.sub h.table n hn)⟩
  cases a with
  | spawn r =>
    refine hwithin ?_
    cases r <;> exact .refl _
  | advance i =>
    cases hi : s.calls[i]? with
    | none =>
      refine hwithin ?_
      rw [act, System.advance, withCall_eq_self hi]
      exact .refl _
    | some call =>
      have hcache : (s.act (.advance i)).cache = (call.advance s.held s.cache).1 :=
        act_cache rfl hi
      -- Insertion is the only stage in which a node can come into the table.
      by_cases hstage : ∃ now, call.stage = .insert now
      · obtain ⟨now, hstage⟩ := hstage
        have hinsert : (call.advance s.held s.cache).1 = (call.insert now s.cache).1 := by
          rw [Call.advance, hstage]
        rw [hcache, hinsert]
        obtain ⟨hsound, hnodes⟩ := (Call.insert_spared call now h.table).nodes h.table
        refine ⟨hsound, fun n hn => ?_⟩
        rcases hnodes n hn with hold | ⟨hkey, hentry⟩
        · exact .inl hold
        · exact .inr ⟨i, call, rfl, hi, hkey, hkey ▸ hentry⟩
      · refine hwithin ?_
        rw [hcache]
        exact Call.advance_within _ _ _ (not_exists.1 hstage)
  | resume r i =>
    refine hwithin (withCall_cases (P := fun t => s.cache.table.Within t.cache.table)
      (fun _ => .refl _) fun call _ => ?_)
    exact (Call.resume_table r s.cache call).symm ▸ .refl _
  | expire i =>
    refine hwithin (withCall_cases (P := fun t => s.cache.table.Within t.cache.table)
      (fun _ => .refl _) fun call _ => ?_)
    exact (Call.expire_table s.cache call).symm ▸ .refl _
  | collect i keepAs =>
    refine hwithin ?_
    unfold act collect
    dsimp only
    split <;> exact .refl _
  | upkeep u => exact hwithin (keepUp_within u s)

/-- A call keeps its node, or it finds one of its key in the table. -/
theorem onCall_node [DecidableEq K] (h : s.Keyed) {a : Action K V} {i : Nat} {call : Call K V}
    (ha : a.call? = some i) (hi : s.calls[i]? = some call) {n : EntryNode K}
    (hn : (a.onCall s.held s.cache call).2.node? = some n) :
    call.node? = some n ∨ (n ∈ s.cache.table.nodes ∧ n.key = call.request.key) ∨
      (n ∈ (s.act a).cache.table.nodes ∧ n.key = call.request.key) := by
  cases a with
  | advance j =>
    rw [act_cache ha hi]
    exact Call.advance_node h.table hn
  | resume r j => exact .inl (Call.resume_node hn)
  | expire j => exact .inl (Call.expire_node hn)
  | _ => cases ha

/-- Every action keeps the agreement about keys. -/
theorem Keyed.act [DecidableEq K] (h : s.Keyed) (hs : s.Sound) (a : Action K V) :
    (s.act a).Keyed := by
  have hsame : s.cache.entries.SameKeys (s.act a).cache.entries :=
    (act_leads hs a).sameKeys hs.ledger
  obtain ⟨hsound, hnodes⟩ := act_nodes h a
  have hnodes' : ∀ n ∈ (s.act a).cache.table.nodes, (s.act a).cache.HasKey n.payload n.key := by
    intro n hn
    rcases hnodes n hn with hold | ⟨i, call, -, -, -, hentry⟩
    · exact (h.nodes n hold).mono hsame
    · exact hentry
  refine ⟨hsound, hnodes', fun call' hmem n hn => ?_⟩
  rcases mem_act_calls hmem with hold | ⟨r, rfl, rfl⟩ | ⟨i, call, ha, hi, rfl⟩
  · exact (h.calls call' hold n hn).mono hsame
  · simp [Call.node?] at hn
  · rw [onCall_request]
    rcases onCall_node h ha hi hn with hn | ⟨hmem, hkey⟩ | ⟨hmem, hkey⟩
    · exact (h.calls call (List.mem_of_getElem? hi) n hn).mono hsame
    · exact hkey ▸ (h.nodes n hmem).mono hsame
    · exact hkey ▸ hnodes' n hmem

theorem Keyed.actAll [DecidableEq K] (h : s.Keyed) (hs : s.Sound) (as : List (Action K V)) :
    (s.actAll as).Keyed := by
  induction as generalizing s with
  | nil => exact h
  | cons a as ih => exact ih (h.act hs a) (hs.act a)

theorem Reachable.keyed [DecidableEq K] (h : s.Reachable) : s.Keyed := by
  obtain ⟨config, clock, hashOf, as, rfl⟩ := h
  exact (keyed_new config clock hashOf).actAll (sound_new config clock hashOf) as

end System

end ReadThrough
