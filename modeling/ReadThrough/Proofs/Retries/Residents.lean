import ReadThrough.Proofs.Recency.Uses

/-! # Residents

  An entry is marked as removed exactly when its node is not in the table, but for an entry that a
  call has taken out by name and is about to mark.

  - **Upkeep.thins**: the upkeep that takes nodes out; all other upkeep leaves the table alone.
  - **Marks**: the entry of a node that leaves the table is marked, and only new entries come
    without a mark. **act_marks**: so does every action but a look-up.
  - **Reachable.residents**: in every reachable system the entries without a mark are in the table
    or about to be marked.
  - **Reachable.removed_iff**: while all calls rest, the mark and the table agree.
-/

namespace ReadThrough

open Cache Entries

variable {K V : Type}

/-! ## Marks are not taken back -/

namespace Entry

variable {e e' : Entry K V}

theorem Relinked.keepsMark (h : e.Relinked e') : e.KeepsMark e' := by
  obtain ⟨n, rfl⟩ := h
  exact id

theorem Leaves.keepsMark (h : e.Leaves e') : e.KeepsMark e' := by
  obtain ⟨inChain, next?, rfl, -⟩ := h
  exact id

theorem tolerant_keepsMark : Tolerant (KeepsMark : Entry K V → Entry K V → Prop) where
  toLenient := lenient_keepsMark
  stamp := fun _ _ => id
  relinked := Relinked.keepsMark

end Entry

theorem Batch.Finished.keepsMark {b : Batch} {how : Finish} {id : EntryId} {e e' : Entry K V}
    (h : b.Finished how id e e') : e.KeepsMark e' := by
  apply Entry.keepsMark_of_eq
  obtain ⟨n, d, ⟨-, rfl⟩ | ⟨i, version, -, rfl⟩, rfl⟩ := h
  · rfl
  · cases Batch.fate how b.copyOn (decide (i < b.consumed)) version e <;> rfl

namespace Call

variable {held : Held} {call : Call K V} {node : EntryNode K} {e e' : Entry K V}
  {stage : Stage K V} {id : EntryId}

theorem InspectsAt.keepsMark (h : call.InspectsAt held node stage id e e') : e.KeepsMark e' := by
  by_cases hid : id = node.payload
  · exact Entry.keepsMark_of_eq (h.1 hid).removed
  · exact (h.2 hid).keepsMark

theorem SettlesAt.keepsMark {r : Return V} {epoch : Nat} {prior : ValueState V}
    (h : call.SettlesAt r node epoch prior stage id e e') : e.KeepsMark e' := by
  by_cases hid : id = node.payload
  · exact Entry.keepsMark_of_eq (h.1 hid).removed
  · exact (h.2 hid).keepsMark

end Call

/-! ## Upkeep -/

/-- Whether some upkeep goes through the nodes of the table. -/
def Upkeep.thins : Upkeep → Bool
  | .clear => true
  | .trim _ => true
  | .setMaxCapacity _ => true
  | .idleTrim _ => true
  | .evictIdle _ => true
  | .relieve _ => true
  | .pinch => true
  | _ => false

theorem Cache.dropBatch_aside (b : Batch) (c : Cache K V) :
    (c.dropBatch b).table = c.table ∧ (c.dropBatch b).counters = c.counters := by
  unfold dropBatch
  split <;> exact ⟨rfl, rfl⟩

/-- What a step makes of the marks. The entry of a node that leaves the table is marked, and an
    entry that is not marked was not marked before, or it is new and has its node in the table. -/
structure Cache.Marks (c c' : Cache K V) : Prop where
  gone : ∀ n ∈ c.table.nodes, n ∈ c'.table.nodes ∨ c'.entries.Gone n.payload
  unmarked : ∀ id e', c'.entries[id]? = some e' → e'.removed = false →
    (∃ e, c.entries[id]? = some e ∧ e.removed = false) ∨ ∃ n ∈ c'.table.nodes, n.payload = id

theorem Entries.exists_unmarked {es es' : Entries K V}
    (h : Each (fun _ => Entry.KeepsMark) es es') {id : EntryId} {e' : Entry K V}
    (he' : es'[id]? = some e') (hpresent : e'.removed = false) :
    ∃ e, es[id]? = some e ∧ e.removed = false := by
  obtain ⟨e, he, hkeeps⟩ := h.backward he'
  refine ⟨e, he, ?_⟩
  by_contra hmarked
  rw [hkeeps (by simpa using hmarked)] at hpresent
  cases hpresent

/-- A step that adds no entry takes no mark back. -/
theorem Cache.marks_of_each {c c' : Cache K V}
    (h : Each (fun _ => Entry.KeepsMark) c.entries c'.entries)
    (hgone : ∀ n ∈ c.table.nodes, n ∈ c'.table.nodes ∨ c'.entries.Gone n.payload) :
    c.Marks c' where
  gone := hgone
  unmarked := fun _ _ he' hpresent => .inl (exists_unmarked h he' hpresent)

/-- Clearing marks the entries of all nodes that were in the table. -/
theorem Cache.clear_gone (held : Held) (c : Cache K V) {n : EntryNode K}
    (hn : n ∈ c.table.nodes) : (c.clear held).entries.Gone n.payload := by
  have hfold (nodes : List (EntryNode K)) (c : Cache K V) :
      let c' := nodes.foldl (fun c node => c.modify node.payload (Entry.retire held)) c
      Each (fun _ => Entry.KeepsMark) c.entries c'.entries ∧
        ∀ n ∈ nodes, c'.entries.Gone n.payload := by
    -- A mark that was set stays while the nodes after it are retired.
    induction nodes generalizing c with
    | nil => exact ⟨Entry.lenient_keepsMark.each_refl _, nofun⟩
    | cons node nodes ih =>
      obtain ⟨hkeeps, hgone⟩ := ih (c.modify node.payload (Entry.retire held))
      have hfirst : Each (fun _ => Entry.KeepsMark) c.entries
          (c.modify node.payload (Entry.retire held)).entries :=
        Entry.lenient_keepsMark.each_modify (Entry.lenient_keepsMark.each_refl _) node.payload
          (Entry.lenient_keepsMark.retire held)
      refine ⟨hfirst.comp hkeeps fun _ _ _ _ => Entry.lenient_keepsMark.trans, fun n hn => ?_⟩
      rcases List.mem_cons.1 hn with rfl | hn
      · exact Gone.each (gone_modify (Entry.removed_retire held)) hkeeps
      · exact hgone n hn
  exact (hfold c.table.clear.2 { c with table := c.table.clear.1 }).2 n hn

namespace System

variable {s : System K V} {u : Upkeep} {n : EntryNode K}

/-- Upkeep that does not go through the table leaves it alone, and counts nothing. -/
theorem keepUp_aside (hu : u.thins = false) :
    (s.keepUp u).cache.table = s.cache.table ∧
      (s.keepUp u).cache.counters = s.cache.counters := by
  cases u with
  -- Batches have nothing to do with the table.
  | drain name limit copyOn =>
    rw [keepUp, drain_eq]
    dsimp only
    split
    · exact dropBatch_aside _ _
    · exact ⟨rfl, rfl⟩
  | next name keepAs =>
    unfold keepUp next
    dsimp only
    split <;> exact ⟨rfl, rfl⟩
  | finish name how =>
    unfold keepUp finish
    dsimp only
    split <;> exact ⟨rfl, rfl⟩
  | dropBatch name =>
    unfold keepUp dropBatch
    dsimp only
    split
    · exact ⟨rfl, rfl⟩
    · exact dropBatch_aside _ _
  | beginItem entries =>
    unfold keepUp beginItem
    dsimp only
    split <;> exact ⟨rfl, rfl⟩
  -- Settings, clock and handles are beside the table as well.
  | setTimeout seconds => exact ⟨rfl, rfl⟩
  | setLoadLimit limit => exact ⟨rfl, rfl⟩
  | advanceClock seconds => exact ⟨rfl, rfl⟩
  | setClock tick => exact ⟨rfl, rfl⟩
  | endItem => exact ⟨rfl, rfl⟩
  | takeYield name keepAs => exact ⟨rfl, rfl⟩
  | release name => exact ⟨rfl, rfl⟩
  | _ => cases hu

/-- No upkeep adds an entry, and none takes a mark back. -/
theorem keepUp_keepsMark (hs : s.Sound) (u : Upkeep) :
    Each (fun _ => Entry.KeepsMark) s.cache.entries (s.keepUp u).cache.entries := by
  cases hclosed : u.closed? with
  | none => exact keepUp_each Entry.lenient_keepsMark hclosed
  | some name =>
    cases keepUp_closes hs hclosed with
    | nothing hb heach => exact heach.imp fun _ _ _ => Entry.Leaves.keepsMark
    | finishes b how hb hu heach => exact heach.imp fun _ _ _ => Batch.Finished.keepsMark
    | drops b es hb heach hlast =>
      exact heach.comp hlast fun _ _ _ _ h k =>
        Entry.lenient_keepsMark.trans h.keepsMark k.keepsMark

/-- Upkeep marks the entries of the nodes that it takes out. -/
theorem keepUp_marks (hs : s.Sound) (htable : s.cache.table.Sound) (u : Upkeep) :
    s.cache.Marks (s.keepUp u).cache := by
  apply marks_of_each (keepUp_keepsMark hs u)
  intro n hn
  cases u with
  | clear => exact .inr (clear_gone s.held s.cache hn)
  | trim m => exact (trim_thins htable m).gone n hn
  | setMaxCapacity m => exact (setMaxCapacity_thins htable m).gone n hn
  | idleTrim cutoff => exact (idleTrim_thins htable s.held cutoff).gone n hn
  | evictIdle seconds => exact (evictIdle_thins htable s.held seconds).gone n hn
  | relieve level => exact (relieve_thins htable level).gone n hn
  | pinch => exact (pinch_thins htable).gone n hn
  | _ =>
    refine .inl ?_
    rw [(keepUp_aside rfl).1]
    exact hn

end System

/-! ## Calls -/

namespace Call

variable [DecidableEq K] {held : Held} {c : Cache K V} {call : Call K V} {n : EntryNode K}
  {now : Nat}

/-- An insertion marks the entries of the nodes that it evicts. -/
theorem insert_marks (hs : c.table.Sound)
    (hlt : ∀ n ∈ c.table.nodes, n.payload < c.entries.size) (call : Call K V) (now : Nat) :
    c.Marks (call.insert now c).1 := by
  have hinserts := insert_inserts (evictor_careful.thins c.table.hashOf c.table.buckets c.entries)
    call now c (.refl hs c.entries)
  generalize call.insert now c = out at hinserts
  cases hinserts with
  -- Nothing has been evicted for a key that is there.
  | @found c' stage node hget htable hentries hchain hstage =>
    have hsame : Each (fun _ => Entry.KeepsMark) c.entries c'.entries :=
      hentries ▸ Entry.lenient_keepsMark.each_refl _
    exact marks_of_each hsame fun n hn => .inl (htable ▸ hn)
  | @refused c' stage m hget hkeep hhash hentries hchain hstage =>
    exact marks_of_each (hentries ▸ hkeep.keepsMarks) (hentries ▸ hkeep.gone)
  -- The evicted entries are marked, and the new one has a node.
  | @made c' stage room m hget hkeep hhash htable hentries hchain hstage =>
    have hroom : room.Sound := by
      unfold Table.Sound
      rw [hhash]
      exact hkeep.sound
    have habsent : ∀ n ∈ room.nodes, n.key ≠ call.request.key :=
      fun n hn => hs.get?_eq_none_iff.1 hget n (hkeep.sub n hn)
    have hnodes := (hroom.insertNew habsent c.entries.size).2
    rw [← htable] at hnodes
    have hsize : m.1.size = c.entries.size := hkeep.keepsMarks.1
    constructor
    · intro n hn
      rcases hkeep.gone n hn with hin | hgone
      · exact .inl ((hnodes n).2 (.inr hin))
      · -- The new entry is none of those that nodes lead to.
        refine .inr fun e' he' => hgone e' ?_
        have hold : n.payload ≠ m.1.size := Nat.ne_of_lt (hsize.symm ▸ hlt n hn)
        rw [hentries, Array.getElem?_push, if_neg hold] at he'
        exact he'
    · intro id e' he' hpresent
      rw [hentries, Array.getElem?_push] at he'
      by_cases hid : id = m.1.size
      · refine .inr ⟨_, (hnodes _).2 (.inl rfl), ?_⟩
        rw [Table.insertNew_payload, hid, hsize]
      · rw [if_neg hid] at he'
        exact .inl (exists_unmarked hkeep.keepsMarks he' hpresent)

/-- A look-up takes a node out only to have its entry marked next. -/
theorem lookup_gone (hs : c.table.Sound) (call : Call K V) (hn : n ∈ c.table.nodes) :
    n ∈ (lookup call.request c).1.table.nodes ∨ (lookup call.request c).2 = .retire n := by
  by_cases hkey : call.request = .invalidate n.key
  · refine .inr ?_
    have hget : c.table.get? n.key = some n := hs.get?_eq_some_iff.2 ⟨hn, rfl⟩
    rw [hkey, lookup_forgets hget]
  · exact .inl (lookup_kept hs hn hkey)

/-- Only insertions and look-ups take nodes out. -/
theorem advance_stays (hlookup : call.stage ≠ .lookup) (hinsert : ∀ now, call.stage ≠ .insert now)
    (hn : n ∈ c.table.nodes) : n ∈ (call.advance held c).1.table.nodes := by
  unfold advance
  dsimp only
  cases hcase : call.stage with
  | lookup => exact absurd hcase hlookup
  | insert now => exact absurd hcase (hinsert now)
  | inspect node now =>
    dsimp only
    rw [inspect_table]
    exact hn
  | giveBack error? => cases error? <;> exact hn
  | parked node epoch =>
    dsimp only
    rw [wake_cache]
    exact hn
  | release node now outcome => cases outcome <;> exact hn
  | _ => exact hn

end Call

/-! ## Actions -/

namespace System

variable [DecidableEq K] {s : System K V} {a : Action K V} {n : EntryNode K} {call : Call K V}
  {i : Nat}

/-- An action that inserts no entry takes no mark back. -/
theorem act_keepsMark (hs : s.Sound) (ho : s.Orderly)
    (hinsert : ∀ i call now, a = .advance i → s.calls[i]? = some call →
      call.stage ≠ .insert now) :
    Each (fun _ => Entry.KeepsMark) s.cache.entries (s.act a).cache.entries := by
  cases hclosed : a.closed? with
  | some name =>
    cases a with
    | upkeep u => exact keepUp_keepsMark hs u
    | _ => cases hclosed
  | none =>
    cases act_deals Entry.tolerant_keepsMark hs ho hclosed with
    | leaves h => exact h
    | inspects i call node now ha hi hstage h =>
      exact h.imp fun _ _ _ => Call.InspectsAt.keepsMark
    | inserts i call now es node ha hi hstage hes hentries hnode hnext =>
      exact absurd hstage (hinsert i call now ha hi)
    | settles r i call node epoch prior ha hi hstage h =>
      exact h.imp fun _ _ _ => Call.SettlesAt.keepsMark

/-- Every action marks the entries of the nodes that it takes out, unless a call looks its key
    up. -/
theorem act_marks (hs : s.Sound) (hk : s.Keyed) (ho : s.Orderly)
    (hlookup : ∀ i call, a = .advance i → s.calls[i]? = some call → call.stage ≠ .lookup) :
    s.cache.Marks (s.act a).cache := by
  -- Only an insertion adds an entry, so all other actions are compared entry by entry.
  by_cases hinsert : ∃ i call now, a = .advance i ∧ s.calls[i]? = some call ∧
      call.stage = .insert now
  · obtain ⟨i, call, now, rfl, hi, hstage⟩ := hinsert
    have hcache : (s.act (.advance i)).cache = (call.advance s.held s.cache).1 := act_cache rfl hi
    rw [hcache, show (call.advance s.held s.cache).1 = (call.insert now s.cache).1 by
      rw [Call.advance, hstage]]
    refine Call.insert_marks hk.table (fun n hn => ?_) call now
    obtain ⟨e, he, -⟩ := hk.nodes n hn
    exact (Array.getElem?_eq_some_iff.1 he).1
  · refine marks_of_each (act_keepsMark hs ho fun i call now ha hi hstage =>
      hinsert ⟨i, call, now, ha, hi, hstage⟩) fun n hn => ?_
    cases a with
    | upkeep u => exact (keepUp_marks hs hk.table u).gone n hn
    | advance i =>
      refine .inl (withCall_cases (P := fun t => n ∈ t.cache.table.nodes) (fun _ => hn)
        fun call hi => ?_)
      exact Call.advance_stays (hlookup i call rfl hi)
        (fun now hstage => hinsert ⟨i, call, now, rfl, hi, hstage⟩) hn
    | resume r i =>
      refine .inl (withCall_cases (P := fun t => n ∈ t.cache.table.nodes) (fun _ => hn)
        fun call hi => ?_)
      exact (Call.resume_table r s.cache call).symm ▸ hn
    | expire i =>
      refine .inl (withCall_cases (P := fun t => n ∈ t.cache.table.nodes) (fun _ => hn)
        fun call hi => ?_)
      exact (Call.expire_table s.cache call).symm ▸ hn
    | spawn r => cases r <;> exact .inl hn
    | collect i keepAs =>
      unfold act collect
      dsimp only
      split <;> exact .inl hn

/-- A call that has taken a node out goes on to mark its entry. -/
theorem act_retire (hmem : call ∈ s.calls) (hstage : call.stage = .retire n) (a : Action K V) :
    call ∈ (s.act a).calls ∨ (s.act a).cache.entries.Gone n.payload := by
  rcases mem_calls_act (a := a) hmem (by simp [hstage]) with hstays | ⟨i, ha, hi⟩
  · exact .inl hstays
  · have hcall := List.mem_of_getElem? (act_getElem? ha hi)
    cases a with
    | advance j =>
      refine .inr ?_
      rw [act_cache ha hi]
      show (call.advance s.held s.cache).1.entries.Gone n.payload
      rw [Call.advance, hstage]
      exact gone_modify (Entry.removed_retire s.held)
    | resume r j =>
      rw [show Action.onCall (.resume r j) s.held s.cache call = call.resume r s.cache from rfl,
        Call.resume_of_idle r s.cache (by simp [hstage])] at hcall
      exact .inl hcall
    | expire j =>
      rw [show Action.onCall (.expire j) s.held s.cache call = call.expire s.cache from rfl,
        Call.expire_awake s.cache (by simp [hstage])] at hcall
      exact .inl hcall
    | _ => cases ha

/-! ## Runs -/

/-- The entry has its node in the table, or a call has taken it out and is about to mark it. -/
def Resides (id : EntryId) (s : System K V) : Prop :=
  (∃ n ∈ s.cache.table.nodes, n.payload = id) ∨
    ∃ call ∈ s.calls, ∃ n, call.stage = .retire n ∧ n.payload = id

/-- Every entry that is not marked has its node in the table, or is about to be marked. -/
def Residents (s : System K V) : Prop :=
  ∀ id e, s.cache.entries[id]? = some e → e.removed = false → s.Resides id

omit [DecidableEq K] in
theorem residents_new (config : Config) (clock : Clock) (hashOf : K → UInt64) :
    (System.new config clock hashOf : System K V).Residents := by
  intro id e he
  simp [System.new, Cache.new] at he

/-- A call that looks its key up leaves the entries alone, and comes to mark the one it takes out. -/
theorem Residents.lookup (h : s.Residents) (hk : s.Keyed) (hi : s.calls[i]? = some call)
    (hstage : call.stage = .lookup) : (s.act (.advance i)).Residents := by
  have hadvance : call.advance s.held s.cache =
      ((Call.lookup call.request s.cache).1, call.goTo (Call.lookup call.request s.cache).2) := by
    rw [Call.advance, hstage]
  have hcache : (s.act (.advance i)).cache = (call.advance s.held s.cache).1 := act_cache rfl hi
  have hcall : (s.act (.advance i)).calls[i]? = some (call.advance s.held s.cache).2 :=
    act_getElem? (a := .advance i) rfl hi
  rw [hadvance] at hcache hcall
  intro id e he hpresent
  rw [hcache, Call.lookup_entries] at he
  unfold Resides
  rcases h id e he hpresent with ⟨n, hn, hid⟩ | ⟨own, hown, n, hretire, hid⟩
  · rcases Call.lookup_gone hk.table call hn with hstays | hout
    · exact .inl ⟨n, hcache ▸ hstays, hid⟩
    · exact .inr ⟨_, List.mem_of_getElem? hcall, n, hout, hid⟩
  · rcases act_retire hown hretire (.advance i) with hstays | hgone
    · exact .inr ⟨own, hstays, n, hretire, hid⟩
    · rw [hcache, Call.lookup_entries] at hgone
      rw [hgone e (hid ▸ he)] at hpresent
      cases hpresent

theorem Residents.act (h : s.Residents) (hs : s.Sound) (hk : s.Keyed) (ho : s.Orderly)
    (a : Action K V) : (s.act a).Residents := by
  by_cases hlookup : ∃ i call, a = .advance i ∧ s.calls[i]? = some call ∧ call.stage = .lookup
  · obtain ⟨i, call, rfl, hi, hstage⟩ := hlookup
    exact h.lookup hk hi hstage
  have hmarks := act_marks hs hk ho fun i call ha hi hstage => hlookup ⟨i, call, ha, hi, hstage⟩
  intro id e' he' hpresent
  -- Whatever takes the node out from now on has to mark the entry, which is not marked.
  have hnot : ¬ (s.act a).cache.entries.Gone id := by
    intro hgone
    rw [hgone e' he'] at hpresent
    cases hpresent
  rcases hmarks.unmarked id e' he' hpresent with ⟨e, he, hbefore⟩ | hnew
  · rcases h id e he hbefore with ⟨n, hn, rfl⟩ | ⟨call, hmem, n, hstage, rfl⟩
    · rcases hmarks.gone n hn with hstays | hgone
      · exact .inl ⟨n, hstays, rfl⟩
      · exact absurd hgone hnot
    · rcases act_retire hmem hstage a with hstays | hgone
      · exact .inr ⟨call, hstays, n, hstage, rfl⟩
      · exact absurd hgone hnot
  · exact .inl hnew

theorem Reachable.residents (h : s.Reachable) : s.Residents := by
  obtain ⟨config, clock, hashOf, as, rfl⟩ := h
  induction as using List.reverseRecOn with
  | nil => exact residents_new config clock hashOf
  | append_singleton as a ih =>
    have hbefore : ((System.new config clock hashOf : System K V).actAll as).Reachable :=
      ⟨config, clock, hashOf, as, rfl⟩
    rw [actAll_append]
    exact ih.act hbefore.sound hbefore.keyed hbefore.orderly a

/-- While all calls rest, an entry is marked as removed exactly when its node is not in the table. -/
theorem Reachable.removed_iff (hs : s.Reachable) (hrest : s.Resting) {id : EntryId}
    {e : Entry K V} (he : s.cache.entries[id]? = some e) :
    e.removed = false ↔ ∃ n ∈ s.cache.table.nodes, n.payload = id := by
  constructor
  · intro hpresent
    rcases hs.residents id e he hpresent with hseated | ⟨call, hmem, n, hstage, -⟩
    · exact hseated
    · -- A call that is about to mark an entry is not at rest.
      have hrests := hrest call hmem
      rw [hstage] at hrests
      cases hrests
  · rintro ⟨n, hn, rfl⟩
    obtain ⟨e', he', hpresent⟩ := hs.tenants.present n hn
    exact Option.some.inj (he.symm.trans he') ▸ hpresent

end System

end ReadThrough
