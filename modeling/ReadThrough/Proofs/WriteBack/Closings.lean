import ReadThrough.Proofs.Runs.Dealings

/-! # What Closing a Batch Comes To

  An open batch is finished by its client, or it is forgotten, which also happens to it when another
  one is drained under its name.

  - **linked**: the entries in the dirty chain.
  - **Finished.same_of_newer**, **finish_relinks**: finishing a batch and the entries that have
    changed since it was drained.
  - **DrainedAsIs**: an entry is in a batch that knows its present version.
  - **Closing**, **exists_closing**: whatever closes an open batch finishes it, after other entries
    were drained maybe.
-/

namespace ReadThrough

open Ledger DirtyChain Entries

variable {K V : Type}

/-- The entries that the walk along the links of the dirty chain finds. -/
def System.linked (s : System K V) : List EntryId :=
  s.cache.chain.toList s.cache.entries

/-! ## Finishing -/

/-- A batch that is finished leaves the value of an entry alone that has changed since it was
    drained, and no member of the chain ceases to be one by that. -/
theorem Batch.Finished.same_of_newer {b : Batch} {how : Finish} {id : EntryId} {version : Nat}
    {e e' : Entry K V} (h : b.Finished how id e e') (hdistinct : b.ids.Nodup)
    (hmem : (id, version) ∈ b.entries) (hversion : version < e.version) :
    e'.value = e.value ∧ (e.inChain = true → e'.inChain = true) := by
  obtain ⟨n, d, ⟨-, rfl⟩ | ⟨i, drained, hi, rfl⟩, rfl⟩ := h
  · exact ⟨rfl, fun hin => hin⟩
  · have hsame : drained = version := version_unique hdistinct (List.mem_of_getElem? hi) hmem
    cases hfate : Batch.fate how b.copyOn (decide (i < b.consumed)) drained e with
    -- Only an entry whose version is still the recorded one becomes clean.
    | clean =>
      have hclean := (fate_eq_clean hfate).2.1
      omega
    | leave => exact ⟨rfl, fun hin => hin⟩
    | relink => exact ⟨rfl, fun hin => by simp [Fate.apply, hin]⟩

/-- An entry that has changed since a batch in direct mode has drained it goes back to the chain
    when the batch is finished, in whatever way. -/
theorem Ledger.Chained.finish_relinks {es : Entries K V} {c : DirtyChain} {b : Batch}
    {bs : List Batch} {fs : List (Flight V)} {ids : List EntryId}
    (h : Chained ⟨es, c, b :: bs, fs⟩ ids) (how : Finish) (hdirect : b.copyOn = false)
    {id : EntryId} {version : Nat} {e : Entry K V} (hmem : (id, version) ∈ b.entries)
    (he : es[id]? = some e) (hversion : version < e.version) :
    id ∈ (b.finish how es c).2.toList (b.finish how es c).1 := by
  have hdistinct := h.distinct b List.mem_cons_self
  obtain ⟨back, hback⟩ : ∃ back, Chained
      ⟨(b.finish how es c).1, (b.finish how es c).2, bs, fs⟩ (back ++ ids) := h.finish how
  obtain ⟨e', he', hfinished⟩ := (finish_each how b hdistinct es c).2 id e he
  have hin := (hfinished.same_of_newer hdistinct hmem hversion).2
  have hlisted : id ∈ b.ids := Batch.mem_ids hmem
  -- The entry was a member in this batch, and in no other one.
  have hmember : e.inChain = true := by
    rw [h.member id e he, members_cons]
    refine List.mem_append_right _ (List.mem_append_left _ ?_)
    rw [Batch.members, hdirect]
    exact hlisted
  have helsewhere := h.not_mem_of_direct hlisted hdirect
  rw [hback.links.toList_eq]
  refine (List.mem_append.1 ((hback.member id e' he').1 (hin hmember))).resolve_right ?_
  intro hother
  exact helsewhere (List.mem_append_right _ hother)

/-! ## Closing -/

namespace System

/-- The open batch of a name has drained the entry as it is now. -/
def DrainedAsIs (name : String) (id : EntryId) (s : System K V) : Prop :=
  ∃ b e, s.batches.find? name = some b ∧ s.cache.entries[id]? = some e ∧ (id, e.version) ∈ b.entries

/-- Closing the batch of a name finishes it in some way, while it is open beside `bs` and `ids` are
    linked. The entries `taken` were in front of these: a new batch of that name has drained them
    before. -/
structure Closing (name : String) (b : Batch) (how : Finish) (es : Entries K V) (c : DirtyChain)
    (bs : List Batch) (taken ids : List EntryId) (s s' : System K V) : Prop where
  chained : Chained ⟨es, c, b :: bs, s.calls.flatMap Call.flights⟩ ids
  linked : s.linked = taken ++ ids
  each : Each (fun id e e' => e.Leaves e' ∧ (id ∉ taken → e'.inChain = e.inChain))
    s.cache.entries es
  entries : s'.cache.entries = (b.finish how es c).1
  chain : s'.cache.chain = (b.finish how es c).2
  calls : s'.calls = s.calls
  others : ∀ other, other ≠ name → s'.batches.find? other = s.batches.find? other
  taken : ∀ id ∈ taken, s'.DrainedAsIs name id
  /-- If there is a batch of that name afterwards, it is the new one. -/
  again : ∀ new, s'.batches.find? name = some new → ∀ id ∈ new.ids, s'.DrainedAsIs name id

variable {s : System K V} {name : String} {b : Batch} {u : Upkeep}

/-- A batch that is finished at once. -/
theorem closing_of_forget (hs : s.Sound) (hb : s.batches.find? name = some b) {how : Finish}
    {s' : System K V} (hentries : s'.cache.entries = (b.finish how s.cache.entries s.cache.chain).1)
    (hchain : s'.cache.chain = (b.finish how s.cache.entries s.cache.chain).2)
    (hcalls : s'.calls = s.calls) (hbatches : s'.batches = s.batches.forget name) :
    ∃ how es c bs taken ids, Closing name b how es c bs taken ids s s' := by
  obtain ⟨ids, hc⟩ := hs.ledger.chained
  have hopen : Chained ⟨s.cache.entries, s.cache.chain, b :: (s.batches.forget name).map Prod.snd,
      s.calls.flatMap Call.flights⟩ ids := hc.perm (batches_perm hs.names hb)
  exact ⟨how, _, _, _, [], ids, {
    chained := hopen
    linked := hc.links.toList_eq
    each := .refl (fun _ e => ⟨Entry.Leaves.refl e, fun _ => rfl⟩) _
    entries := hentries
    chain := hchain
    calls := hcalls
    others := fun other hne => by rw [hbatches, Names.find?_forget_of_ne hne]
    taken := fun id hid => absurd hid List.not_mem_nil
    again := fun new hnew => by
      rw [hbatches, Names.find?_forget_self] at hnew
      cases hnew }⟩

theorem keepUp_drain_open (hb : s.batches.find? name = some b) (limit : Nat) (copyOn : Bool) :
    s.keepUp (.drain name limit copyOn) =
      { s with
        cache := (s.cache.drain limit copyOn).1.dropBatch b
        batches := s.batches.keep name (s.cache.drain limit copyOn).2 } := by
  rw [keepUp, drain_eq, hb]

/-- What is drained under a name in use is in the new batch as it is, once the old one is forgotten:
    neither draining nor forgetting changes the version of an entry. -/
theorem drainedAsIs_of_drain (hs : s.Sound) (hb : s.batches.find? name = some b) {limit : Nat}
    {copyOn : Bool} {id : EntryId} (hid : id ∈ (s.cache.drain limit copyOn).2.ids) :
    (s.keepUp (.drain name limit copyOn)).DrainedAsIs name id := by
  obtain ⟨ids, hc⟩ := hs.ledger.chained
  let cache := (s.cache.drain limit copyOn).1
  let new := (s.cache.drain limit copyOn).2
  obtain ⟨-, -, heach, hversions⟩ :=
    Cache.takeDirty_taken copyOn (min limit s.cache.entries.size) hc.links
  obtain ⟨hentries, -⟩ := cache.dropBatch_entries b
  obtain ⟨i, version, hi⟩ := Batch.exists_index_of_mem_ids hid
  have hmem : (id, version) ∈ new.entries := List.mem_of_getElem? hi
  obtain ⟨e, he, rfl⟩ := hversions _ hmem
  obtain ⟨e₁, he₁, n, rfl⟩ := heach.2 id e he
  obtain ⟨e', he', hfinished⟩ :=
    (finish_each (Cache.dropped b) b (hs.distinct hb) cache.entries cache.chain).2 id _ he₁
  rw [keepUp_drain_open hb]
  refine ⟨new, e', Names.find?_keep _ _ _, ?_, ?_⟩
  · rw [← he', ← hentries]
  · rw [hfinished.fields.2.2.1]
    exact hmem

/-- A batch that is forgotten when another one is drained under its name. -/
theorem closing_of_drain (hs : s.Sound) (hb : s.batches.find? name = some b) (limit : Nat)
    (copyOn : Bool) :
    ∃ how es c bs taken ids,
      Closing name b how es c bs taken ids s (s.keepUp (.drain name limit copyOn)) := by
  obtain ⟨ids, hc⟩ := hs.ledger.chained
  let count := min limit s.cache.entries.size
  let cache := (s.cache.drain limit copyOn).1
  let new := (s.cache.drain limit copyOn).2
  have hopen : Chained ⟨s.cache.entries, s.cache.chain, b ::
      (s.batches.forget name).map Prod.snd, s.calls.flatMap Call.flights⟩ ids :=
    hc.perm (batches_perm hs.names hb)
  -- The new batch is open already when the old one is forgotten.
  have hdrain : Chained ⟨cache.entries, cache.chain, new :: b ::
      (s.batches.forget name).map Prod.snd, s.calls.flatMap Call.flights⟩ (ids.drop count) :=
    hopen.drain count copyOn
  obtain ⟨hfirst, -, heach, -⟩ := Cache.takeDirty_taken copyOn count hopen.links
  obtain ⟨hentries, hchain⟩ := cache.dropBatch_entries b
  have hlisted : new.ids = ids.take count := hfirst
  have hcurrent : ∀ id ∈ new.ids, (s.keepUp (.drain name limit copyOn)).DrainedAsIs name id :=
    fun _ hid => drainedAsIs_of_drain hs hb hid
  have hs' := keepUp_drain_open hb limit copyOn
  exact ⟨Cache.dropped b, _, _, _, ids.take count, ids.drop count, {
    chained := hdrain.perm (.swap _ _ _)
    linked := by
      rw [List.take_append_drop]
      exact hc.links.toList_eq
    each := heach.imp fun id e e' h => by
      refine ⟨h.leaves, fun hnot => ?_⟩
      obtain ⟨n, rfl⟩ := h
      simp [hnot]
    entries := by
      rw [hs']
      exact hentries
    chain := by
      rw [hs']
      exact hchain
    calls := keepUp_calls _ s
    others := fun other hne => by
      rw [hs']
      exact Names.find?_keep_of_ne hne
    taken := fun id hid => hcurrent id (hlisted.symm ▸ hid)
    again := fun found hfound => by
      rw [hs'] at hfound
      obtain rfl := Option.some.inj ((Names.find?_keep _ _ _).symm.trans hfound)
      exact hcurrent }⟩

/-- Whatever closes an open batch finishes it, maybe once another one has been drained. -/
theorem exists_closing (hs : s.Sound) (hb : s.batches.find? name = some b)
    (hu : u.closed? = some name) :
    ∃ how es c bs taken ids, Closing name b how es c bs taken ids s (s.keepUp u) := by
  cases u with
  | finish other how =>
    obtain rfl : other = name := Option.some.inj hu
    have hcache : (s.keepUp (.finish other how)).cache = (s.cache.finish how b).1 :=
      finish_cache how hb
    exact closing_of_forget hs hb (congrArg Cache.entries hcache) (congrArg Cache.chain hcache)
      (keepUp_calls _ s) (finish_batches other how s)
  | dropBatch other =>
    obtain rfl : other = name := Option.some.inj hu
    have hcache : (s.keepUp (.dropBatch other)).cache = s.cache.dropBatch b := by
      show (s.dropBatch other).cache = _
      unfold dropBatch
      rw [hb]
      rfl
    obtain ⟨hentries, hchain⟩ := s.cache.dropBatch_entries b
    exact closing_of_forget hs hb ((congrArg Cache.entries hcache).trans hentries)
      ((congrArg Cache.chain hcache).trans hchain) (keepUp_calls _ s) (dropBatch_batches other s)
  | drain other limit copyOn =>
    obtain rfl : other = name := Option.some.inj hu
    exact closing_of_drain hs hb limit copyOn
  | _ => cases hu

end System

end ReadThrough
