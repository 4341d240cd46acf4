import ReadThrough.Proofs.WriteBack.Survival

/-! # The Dirty Chain Is Exact

  The links, the length and the marks of the dirty chain tell the same, in every state of every run.

  - **dispatched**: the entries in open batches in direct mode.
  - **Mutates.enlists**: every change of an entry enlists it.
  - **handedOut_sublist**: a batch hands out what is ahead of its consumer, once and in order.
  - **ChainExact**: the chain as a list, and what marking and handing out do to it.
-/

namespace ReadThrough

open Ledger DirtyChain

variable {K V : Type}

/-! ## Marking -/

section

variable {es : Entries K V} {c : DirtyChain} {bs : List Batch} {fs : List (Flight V)}
  {ids : List EntryId} {id : EntryId}

/-- An entry that is marked dirty is linked behind the others, unless it was a member before. -/
theorem Ledger.Chained.enlist_toList (h : Chained ⟨es, c, bs, fs⟩ ids) (hlt : id < es.size)
    (v : Value V) {g : Entry K V → Entry K V} (hg : ∀ e : Entry K V, e.SameMarks (g e)) :
    (c.enlist id v (es.modify id g)).2.toList (c.enlist id v (es.modify id g)).1 =
      if id ∈ ids ++ members (⟨es, c, bs, fs⟩ : Ledger K V) then ids else ids ++ [id] := by
  have he : es[id]? = some es[id] := Array.getElem?_eq_getElem hlt
  have hmember := h.member id es[id] he
  -- Marking writes neither the links nor the chain, so the chain reads as before.
  have hlinks : Links ((es.modify id g).modify id (Entry.enlist v)) c ids := by
    have hmarked : Links (es.modify id g) c ids :=
      h.links.of_each (Entries.each_sameMarks id hg es) fun _ _ _ hr => hr.next
    exact hmarked.of_each (R := fun _ e e' => e'.nextDirty? = e.nextDirty?)
      (Entries.each_modify id _ (fun _ _ => rfl) fun _ _ _ => rfl) fun _ _ _ hr => hr
  have hin : (es.modify id g)[id]?.any Entry.inChain = es[id].inChain := by
    simp [Array.getElem?_modify, he, (hg es[id]).inChain]
  unfold DirtyChain.enlist
  rw [hin]
  -- The flag tells members from others, so by it the entry is appended or left where it is.
  by_cases hmem : es[id].inChain = true
  · rw [if_pos hmem, if_pos (hmember.1 hmem)]
    exact hlinks.toList_eq
  · have hnot := mt hmember.2 hmem
    rw [if_neg hmem, if_neg hnot]
    refine (pushBack_links hlinks (fun hid => hnot (List.mem_append_left _ hid)) ?_).toList_eq
    simpa using hlt

end

/-- A change of an entry enlists it, with its other fields changed before. -/
theorem System.Mutates.enlists [DecidableEq K] {s : System K V} (hs : s.Sound) {id : EntryId}
    {a : Action K V} (h : s.Mutates id a) :
    id < s.cache.entries.size ∧ ∃ (v : Value V) (g : Entry K V → Entry K V),
      (∀ e : Entry K V, e.SameMarks (g e)) ∧
      (s.act a).cache.entries = (s.cache.chain.enlist id v (s.cache.entries.modify id g)).1 ∧
      (s.act a).cache.chain = (s.cache.chain.enlist id v (s.cache.entries.modify id g)).2 := by
  unfold System.Mutates at h
  split at h
  · next content i =>
    obtain ⟨call, hi, hupdates⟩ := Option.bind_eq_some_iff.1 h
    unfold Call.updates? at hupdates
    split at hupdates
    · next key node epoch prior hrequest hstage =>
      obtain rfl := Option.some.inj hupdates
      obtain ⟨e, he, -⟩ := hs.ledger.owned.pending _ (mem_flights (List.mem_of_getElem? hi) hstage)
      let v := (s.cache.allocate content).2
      refine ⟨(Array.getElem?_eq_some_iff.1 he).1, v, Entry.install (.dirty v) s.cache.now,
        Entry.sameMarks_install _ _, ?_⟩
      rw [act_cache rfl hi]
      simp only [Action.onCall, Call.resume, hstage, hrequest, Call.settleUpdate,
        Cache.makeDirty_entries, Cache.makeDirty_chain]
      exact ⟨rfl, rfl⟩
    · cases hupdates
  · next i =>
    obtain ⟨⟨call, hi, hmarks⟩, hpeek⟩ := And.imp_left Option.bind_eq_some_iff.1 h
    obtain ⟨v, hv⟩ := Option.isSome_iff_exists.1 hpeek
    -- A value that can be had is one of an entry.
    obtain ⟨e, he⟩ : ∃ e, s.cache.entries[id]? = some e := by
      cases he : s.cache.entries[id]? with
      | none => simp [Cache.peek, Cache.valueOf, he, ValueState.peek] at hv
      | some e => exact ⟨e, rfl⟩
    rw [Cache.peek, Cache.valueOf_eq he] at hv
    unfold Call.marks? at hmarks
    split at hmarks
    · next key node now hrequest hstage =>
      obtain rfl := Option.some.inj hmarks
      refine ⟨(Array.getElem?_eq_some_iff.1 he).1, v, Entry.resolve s.held,
        fun e => (Entry.quiet_resolve s.held e).toSameMarks, ?_⟩
      rw [act_cache rfl hi]
      simp only [Action.onCall, Call.advance, hstage, Call.inspect, he, hrequest, Call.inspectMark,
        hv, Cache.makeDirty_entries, Cache.makeDirty_chain]
      exact ⟨rfl, rfl⟩
    · cases hmarks
  · exact h.elim

/-! ## Handing out -/

/-- What is found is one of the entries that are passed, and the others that are left lie behind
    it. -/
theorem Batch.firstWithValue_sublist (peek : EntryId → Option (Value V))
    (ps : List (EntryId × Nat)) :
    (((firstWithValue peek ps).2.map Prod.fst).toList ++
      (ps.drop (firstWithValue peek ps).1).map Prod.fst).Sublist (ps.map Prod.fst) := by
  induction ps with
  | nil => exact .slnil
  | cons p ps ih =>
    obtain ⟨id, version⟩ := p
    unfold firstWithValue
    split
    · exact .refl _
    · exact ih.cons id

namespace System

/-- What keeps the chain and all its links keeps the linked entries. -/
theorem Sound.linked_congr {s : System K V} (hs : s.Sound) {c : Cache K V}
    (hchain : c.chain = s.cache.chain) (hsize : c.entries.size = s.cache.entries.size)
    (hnext : ∀ id, next? c.entries id = next? s.cache.entries id) :
    c.chain.toList c.entries = s.linked := by
  obtain ⟨ids, hids⟩ := hs.ledger.chained
  have hlinks : Links s.cache.entries s.cache.chain ids := hids.links
  have hafter := hlinks.congr (Nat.le_of_eq hsize.symm) hnext
  rw [linked, hchain, hlinks.toList_eq, hafter.toList_eq]

/-- The entries in open batches in direct mode. -/
def dispatched (s : System K V) : List EntryId :=
  s.batches.flatMap (·.2.members)

/-- The entries of the batch of a name that its consumer has not got past. -/
def ahead (name : String) (s : System K V) : List EntryId :=
  match s.batches.find? name with
  | some b => b.ids.drop b.consumed
  | none => []

/-- The entry that an action hands out from the batch of a name. -/
def yielded? (name : String) (s : System K V) : Action K V → Option EntryId
  | .upkeep (.next other keepAs) =>
    if other = name then (s.next name keepAs).2.map Yield.entry else none
  | _ => none

section

variable [DecidableEq K] {s : System K V} {name : String} {a : Action K V}

/-- The entries that a run hands out from the batch of a name, in order. -/
def handedOut (name : String) (s : System K V) : List (Action K V) → List EntryId
  | [] => []
  | a :: as => (s.yielded? name a).toList ++ (s.act a).handedOut name as

/-- What an action hands out was ahead of the consumer, and what is ahead then was so before. -/
theorem yielded_sublist (ha : a.closed? ≠ some name) :
    ((s.yielded? name a).toList ++ (s.act a).ahead name).Sublist (s.ahead name) := by
  by_cases hnext : ∃ keepAs, a = .upkeep (.next name keepAs)
  · -- The batch of the name is asked for its next entry.
    obtain ⟨keepAs, rfl⟩ := hnext
    simp only [yielded?, if_true]
    cases hb : s.batches.find? name with
    | none =>
      have hsame : s.next name keepAs = (s, none) := by
        unfold next
        rw [hb]
      simp only [act, keepUp, hsame]
      exact .refl _
    | some b =>
      have hafter : (s.act (.upkeep (.next name keepAs))).batches.find? name =
          some (b.next s.held s.cache).1 := next_find? keepAs hb
      have hentry : (s.next name keepAs).2.map Yield.entry =
          (Batch.firstWithValue (s.cache.peek s.held) (b.entries.drop b.consumed)).2.map
            Prod.fst := by
        unfold next
        rw [hb]
        simp [Batch.next, Function.comp_def]
      -- What is found lies behind the entries that are passed, and before those that are left.
      have hsub := Batch.firstWithValue_sublist (s.cache.peek s.held) (b.entries.drop b.consumed)
      unfold ahead
      rw [hafter, hb, hentry]
      simpa [Batch.next, Batch.ids, List.map_drop, List.drop_drop] using hsub
  · -- Any other action hands nothing out, and the batch stays as it is.
    have hnone : s.yielded? name a = none := by
      unfold yielded?
      split
      · next other keepAs => exact if_neg fun h => hnext ⟨keepAs, by rw [h]⟩
      · rfl
    unfold ahead
    rw [hnone, act_find? ha (not_exists.1 hnext)]
    exact .refl _

/-- As long as a batch is not closed it hands out what was ahead of its consumer, once and in
    order. -/
theorem handedOut_sublist {as : List (Action K V)} (has : ∀ a ∈ as, a.closed? ≠ some name) :
    (s.handedOut name as).Sublist (s.ahead name) := by
  induction as generalizing s with
  | nil => exact List.nil_sublist _
  | cons a as ih =>
    have hrest : ((s.act a).handedOut name as).Sublist ((s.act a).ahead name) :=
      ih fun x hx => has x (List.mem_cons_of_mem a hx)
    exact (hrest.append_left _).trans (yielded_sublist (has a List.mem_cons_self))

/-! ## The chain -/

/-- Links, length and marks of the dirty chain tell the same. -/
structure ChainExact (s : System K V) : Prop where
  /-- The walk from the first entry along the links stops by itself after as many entries as the
      length of the chain says. -/
  walk : ∀ fuel, s.cache.dirtyLength ≤ fuel →
    DirtyChain.walk s.cache.entries fuel s.cache.chain.first? = s.linked
  length : s.linked.length = s.cache.dirtyLength
  /-- The walk ends with the last entry of the chain, which has no successor. -/
  last : s.linked.getLast? = s.cache.chain.last?
  ends : ∀ id, s.cache.chain.last? = some id → next? s.cache.entries id = none
  /-- No entry is in the chain and the open batches in direct mode twice. -/
  once : (s.linked ++ s.dispatched).Nodup
  known : ∀ id ∈ s.linked ++ s.dispatched, id < s.cache.entries.size
  /-- Those entries are the marked ones. -/
  member : ∀ id e, s.cache.entries[id]? = some e →
    (e.inChain = true ↔ id ∈ s.linked ++ s.dispatched)
  /-- A change links an entry behind the others, unless it is a member already. -/
  marks : ∀ a id, s.Mutates id a →
    (s.act a).linked = if id ∈ s.linked ++ s.dispatched then s.linked else s.linked ++ [id]
  /-- However the run goes on, an open batch hands no entry out twice. -/
  yields : ∀ name as, (∀ a ∈ as, a.closed? ≠ some name) → (s.handedOut name as).Nodup

omit [DecidableEq K] in
theorem dispatched_eq (s : System K V) : s.dispatched = s.ledger.members :=
  (List.flatMap_map Prod.snd Batch.members s.batches).symm

end

end System

/-- In every run, of any number of callers with any number of open batches in both modes, the dirty
    chain is exact. -/
theorem chain_exact [DecidableEq K] {s : System K V} (hs : s.Reachable) : s.ChainExact := by
  obtain ⟨ids, hc⟩ := hs.sound.ledger.chained
  have hlinked : s.linked = ids := hc.links.toList_eq
  have hmembers : s.dispatched = s.ledger.members := s.dispatched_eq
  have hlength : ids.length = s.cache.dirtyLength := hc.links.length.symm
  have hlast : ids.getLast? = s.cache.chain.last? := hc.links.last.symm
  -- Every field is read off the links of the chain and the ledger of the open batches.
  exact {
    walk := fun fuel hfuel => by
      have hfirst : s.cache.chain.first? = ids.head? := hc.links.first
      rw [hlinked, hfirst]
      exact walk_eq hc.links.strung (by omega)
    length := by rw [hlinked, hlength]
    last := by rw [hlinked, hlast]
    ends := fun id hid => by
      obtain ⟨init, hinit⟩ := List.getLast?_eq_some_iff.1 (hlast.trans hid)
      have hstrung : Strung (next? s.cache.entries) ids := hc.links.strung
      rw [hinit] at hstrung
      exact hstrung.next_eq
    once := by
      rw [hlinked, hmembers]
      exact hc.once
    known := fun id hid => by
      rw [hlinked, hmembers] at hid
      exact hc.lt_size hid
    member := fun id e he => by
      rw [hlinked, hmembers]
      exact hc.member id e he
    -- A mutation marks its entry, which is in front from then on if it was not linked.
    marks := fun a id hmutates => by
      obtain ⟨hlt, v, g, hg, hentries, hchain⟩ := hmutates.enlists hs.sound
      rw [System.linked, hentries, hchain, hlinked, hmembers]
      exact hc.enlist_toList hlt v hg
    yields := fun name as has => by
      refine List.Nodup.sublist (System.handedOut_sublist has) ?_
      unfold System.ahead
      split
      · next b hb => exact (hs.sound.distinct hb).sublist (List.drop_sublist _ _)
      · exact List.nodup_nil }

/-- Three entries, of which one is in a batch in direct mode and two are in one in copy-on mode; one
    of these is changed while that batch is open, and marked once more then. -/
theorem chain_exact_drained :
    let s : System Nat Nat := (System.new {} (.manual 0) fun _ => 0).actAll
      [.spawn (.update 1), .advance 0, .advance 0, .resume (.value 5) 0, .advance 0,
       .spawn (.update 2), .advance 1, .advance 1, .resume (.value 6) 1, .advance 1,
       .spawn (.update 3), .advance 2, .advance 2, .resume (.value 7) 2, .advance 2,
       .upkeep (.drain "b" 1 false), .upkeep (.drain "c" 2 true), .upkeep (.next "c" none),
       .spawn (.mark 2), .advance 3, .advance 3, .advance 3, .spawn (.mark 2), .advance 4,
       .advance 4]
    s.ChainExact ∧ s.linked = [1] ∧ s.dispatched = [0] := by
  intro s
  exact ⟨chain_exact ⟨_, _, _, _, rfl⟩, by decide +kernel, by decide +kernel⟩

end ReadThrough
