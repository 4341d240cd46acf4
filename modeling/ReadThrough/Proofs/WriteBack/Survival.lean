import ReadThrough.Proofs.WriteBack.Closings

/-! # Changes Are Not Lost

  What becomes of values that are not written back, in every run of any number of callers.

  - **changes_conserved**: whatever has changes is in the dirty chain or in an open batch.
  - **Survives**: what closing a batch leaves of an entry of it. The entry is neither written off
    nor taken out of the chain or of other batches, and if it has changes it is in one of them.
  - **mutation_survives**: a change that is made while a batch is open survives when that batch is
    closed, in whatever way.
-/

namespace ReadThrough

open Ledger DirtyChain

variable {K V : Type}

/-! ## Conservation -/

/-- The entry has changes that are not written back: it is dirty, or an update that started from
    a dirty value is in flight. -/
def System.HasChanges (s : System K V) (id : EntryId) : Prop :=
  (∃ v, s.cache.valueOf id = .dirty v) ∨
    ∃ call ∈ s.calls, ∃ node epoch v,
      call.stage = .running node epoch (.dirty v) ∧ node.payload = id

/-- The batch answers for an entry of that version. In direct mode a change is folded into the
    batch; in copy-on mode the batch answers only for the version that it has drained. -/
def Batch.Covers (b : Batch) (id : EntryId) (version : Nat) : Prop :=
  if b.copyOn then (id, version) ∈ b.entries else id ∈ b.ids

theorem System.HasChanges.unflushed {s : System K V} {id : EntryId} (h : s.HasChanges id) :
    ∃ v, s.ledger.Unflushed id v := by
  rcases h with ⟨v, hv⟩ | ⟨call, hcall, node, epoch, v, hstage, hnode⟩
  · exact ⟨v, .inl (Cache.exists_of_valueOf_dirty hv)⟩
  · exact ⟨v, .inr ⟨_, mem_flights hcall hstage, hnode, rfl⟩⟩

/-- An entry with changes is in the dirty chain or in an open batch that answers for its version. -/
theorem System.Sound.conserved {s : System K V} (hs : s.Sound) {id : EntryId} {e : Entry K V}
    (he : s.cache.entries[id]? = some e) (h : s.HasChanges id) :
    id ∈ s.linked ∨ ∃ name b, (name, b) ∈ s.batches ∧ b.Covers id e.version := by
  obtain ⟨⟨ids, hc⟩, -, hkept⟩ := hs.ledger
  obtain ⟨v, hv⟩ := h.unflushed
  have hopen {b : Batch} (hb : b ∈ s.ledger.batches) (hcovers : b.Covers id e.version) :
      ∃ name b, (name, b) ∈ s.batches ∧ b.Covers id e.version := by
    obtain ⟨⟨name, _⟩, hmem, rfl⟩ := List.mem_map.1 hb
    exact ⟨name, _, hmem, hcovers⟩
  rcases hkept id e v he hv with hin | ⟨b, hb, hcopy, hmem⟩
  · rcases hc.mem_toList he hin with hchain | ⟨b, hb, hcopy, hmem⟩
    · exact .inl hchain
    · exact .inr (hopen hb (by simpa [Batch.Covers, hcopy] using hmem))
  · exact .inr (hopen hb (by simpa [Batch.Covers, hcopy] using hmem))

/-- In every reachable state, an entry with changes is in the dirty chain or in an open batch that
    answers for its version, whether its node is in the table or not. -/
theorem changes_conserved [DecidableEq K] {s : System K V} (hs : s.Reachable) {id : EntryId}
    {e : Entry K V} (he : s.cache.entries[id]? = some e) (h : s.HasChanges id) :
    id ∈ s.cache.chain.toList s.cache.entries ∨
      ∃ name b, (name, b) ∈ s.batches ∧ b.Covers id e.version :=
  hs.sound.conserved he h

/-- An updated entry that was drained in copy-on mode. -/
theorem changes_conserved_drained :
    let s := (System.new {} (.manual 0) (fun _ => 0) : System Nat Nat).actAll
      [.spawn (.update 1), .advance 0, .advance 0, .resume (.value 5) 0,
       .upkeep (.drain "b" 10 true)]
    ∃ e, s.cache.entries[0]? = some e ∧ (0 ∈ s.cache.chain.toList s.cache.entries ∨
      ∃ name b, (name, b) ∈ s.batches ∧ b.Covers 0 e.version) := by
  intro s
  obtain ⟨e, he⟩ : ∃ e, s.cache.entries[0]? = some e :=
    Option.isSome_iff_exists.1 (by decide +kernel)
  exact ⟨e, he, changes_conserved ⟨_, _, _, _, rfl⟩ he (.inl ⟨⟨0, 5⟩, by decide +kernel⟩)⟩

/-! ## Changes made while a batch is open -/

/-- The entry that a running update is about. -/
def Call.updates? (call : Call K V) : Option EntryId :=
  match call.request, call.stage with
  | .update _, .running node _ _ => some node.payload
  | _, _ => none

/-- The entry that a call is about to mark. -/
def Call.marks? (call : Call K V) : Option EntryId :=
  match call.request, call.stage with
  | .mark _, .inspect node _ => some node.payload
  | _, _ => none

/-- A change of an entry succeeds: the callback of an update ends with a value, or a mark finds a
    value. -/
def System.Mutates (id : EntryId) (s : System K V) : Action K V → Prop
  | .resume (.value _) i => s.calls[i]?.bind Call.updates? = some id
  | .advance i => s.calls[i]?.bind Call.marks? = some id ∧ (s.cache.peek s.held id).isSome
  | _ => False

instance (id : EntryId) (s : System K V) (a : Action K V) : Decidable (s.Mutates id a) :=
  match a with
  | .resume (.value _) i => inferInstanceAs (Decidable (s.calls[i]?.bind Call.updates? = some id))
  | .advance i => inferInstanceAs
      (Decidable (s.calls[i]?.bind Call.marks? = some id ∧ (s.cache.peek s.held id).isSome))
  | .resume .empty _ => inferInstanceAs (Decidable False)
  | .resume (.fail _) _ => inferInstanceAs (Decidable False)
  | .resume (.panic _) _ => inferInstanceAs (Decidable False)
  | .spawn _ => inferInstanceAs (Decidable False)
  | .expire _ => inferInstanceAs (Decidable False)
  | .collect _ _ => inferInstanceAs (Decidable False)
  | .upkeep _ => inferInstanceAs (Decidable False)

/-- What closing the batch of a name leaves of an entry: it is not clean unless it was clean before,
    and it is still where it was, in the chain or in other batches. -/
structure System.Survives (name : String) (id : EntryId) (s s' : System K V) : Prop where
  value : s'.cache.valueOf id = s.cache.valueOf id
  /-- What was in the chain is there still, unless a new batch of the same name has drained it. -/
  linked : id ∈ s.linked → id ∈ s'.linked ∨ s'.DrainedAsIs name id
  /-- So it is with all members of the chain, those that are in batches in direct mode included. -/
  member : ∀ e, s.cache.entries[id]? = some e → e.inChain = true →
    (∃ e', s'.cache.entries[id]? = some e' ∧ e'.inChain = true) ∨ s'.DrainedAsIs name id
  /-- A batch in direct mode gives the entry back to the chain. -/
  relinked : ∀ b, s.batches.find? name = some b → b.copyOn = false → id ∈ s'.linked
  /-- In either mode, an entry with changes is in the chain now or in another open batch that
      answers for its version. -/
  kept : s.HasChanges id → id ∈ s'.linked ∨ s'.DrainedAsIs name id ∨
    ∃ other b e, other ≠ name ∧ s'.batches.find? other = some b ∧
      s'.cache.entries[id]? = some e ∧ b.Covers id e.version
  others : ∀ other, other ≠ name → s'.batches.find? other = s.batches.find? other
  calls : s'.calls = s.calls

section

variable [DecidableEq K] {s : System K V} {id : EntryId} {e : Entry K V}

/-- A change raises the version. -/
theorem System.Mutates.version_lt {a : Action K V} (h : s.Mutates id a)
    (he : s.cache.entries[id]? = some e) :
    ∃ e', (s.act a).cache.entries[id]? = some e' ∧ e.version < e'.version := by
  have hmarked (v : Value V) {g : Entry K V → Entry K V} (hg : ∀ e : Entry K V, e.SameMarks (g e)) :
      ∃ e', (s.cache.chain.enlist id v (s.cache.entries.modify id g)).1[id]? = some e' ∧
        e.version < e'.version := by
    obtain ⟨e', he', ⟨hne, -⟩ | ⟨-, -, -, -, hversion, -⟩⟩ :=
      (marked_each id v hg s.cache.entries s.cache.chain).2 id e he
    · exact absurd rfl hne
    · exact ⟨e', he', by omega⟩
  unfold System.Mutates at h
  split at h
  · next content i =>
    obtain ⟨call, hcall, hupdates⟩ := Option.bind_eq_some_iff.1 h
    unfold Call.updates? at hupdates
    split at hupdates
    · next key node epoch prior hrequest hstage =>
      obtain rfl := Option.some.inj hupdates
      rw [System.act, System.resume, System.withCall_eq hcall]
      simp only [Call.resume, hstage, hrequest, Call.settleUpdate, Cache.makeDirty_entries]
      exact hmarked _ (Entry.sameMarks_install _ _)
    · cases hupdates
  · next i =>
    obtain ⟨call, hcall, hmarks⟩ := Option.bind_eq_some_iff.1 h.1
    -- A mark succeeds only on an entry whose value can be seen.
    obtain ⟨v, hvalue⟩ := Option.isSome_iff_exists.1 h.2
    have hpeek : e.value.peek s.held = some v := by
      rw [← Cache.valueOf_eq he]
      exact hvalue
    unfold Call.marks? at hmarks
    split at hmarks
    · next key node now hrequest hstage =>
      obtain rfl := Option.some.inj hmarks
      rw [System.act, System.advance, System.withCall_eq hcall]
      simp only [Call.advance, hstage, Call.inspect, he, hrequest, Call.inspectMark, hpeek,
        Cache.makeDirty_entries]
      exact hmarked _ fun e => (Entry.quiet_resolve s.held e).toSameMarks
    · cases hmarks
  · exact h.elim

/-- In a run in which an entry changes its version rises. -/
theorem System.Sometime.version_lt (hs : s.Sound) {as : List (Action K V)}
    (h : s.Sometime (System.Mutates id) as) (he : s.cache.entries[id]? = some e) :
    ∃ e', (s.actAll as).cache.entries[id]? = some e' ∧ e.version < e'.version := by
  obtain ⟨before, a, after, rfl, ha⟩ := System.exists_of_sometime h
  obtain ⟨e₁, he₁, hle₁, -⟩ :=
    Leads.version_le hs.ledger (System.actAll_leads hs before) he
  obtain ⟨e₂, he₂, hlt⟩ := ha.version_lt he₁
  have hsound : ((s.actAll before).act a).Sound := (hs.actAll before).act a
  obtain ⟨e₃, he₃, hle₃, -⟩ :=
    Leads.version_le hsound.ledger (System.actAll_leads hsound after) he₂
  rw [System.actAll_append]
  exact ⟨e₃, he₃, by omega⟩

end

section

variable {s : System K V} {name : String} {b : Batch} {id : EntryId} {version : Nat} {e : Entry K V}

theorem Batch.Covers.mem_ids (h : b.Covers id version) : id ∈ b.ids := by
  unfold Batch.Covers at h
  split at h
  · exact Batch.mem_ids h
  · exact h

theorem System.HasChanges.congr {s' : System K V} (h : s.HasChanges id)
    (hvalue : s'.cache.valueOf id = s.cache.valueOf id) (hcalls : s'.calls = s.calls) :
    s'.HasChanges id := by
  unfold System.HasChanges
  rw [hvalue, hcalls]
  exact h

/-- Whatever closing a batch comes to, an entry of the batch that has changed since survives. -/
theorem System.Closing.survives {how : Finish} {es : Entries K V} {c : DirtyChain}
    {bs : List Batch} {taken ids : List EntryId} {s' : System K V}
    (h : System.Closing name b how es c bs taken ids s s') (hs' : s'.Sound)
    (hb : s.batches.find? name = some b) (hmem : (id, version) ∈ b.entries)
    (he : s.cache.entries[id]? = some e) (hversion : version < e.version) :
    s.Survives name id s' := by
  have hdistinct := h.chained.distinct b List.mem_cons_self
  obtain ⟨e₁, he₁, ⟨inChain, next?, rfl, -⟩, hin⟩ := h.each.2 id e he
  obtain ⟨e', he', hfinished⟩ := (finish_each how b hdistinct es c).2 id _ he₁
  obtain ⟨hvalue', hin'⟩ := hfinished.same_of_newer hdistinct hmem hversion
  rw [← h.entries] at he'
  have hvalue : s'.cache.valueOf id = s.cache.valueOf id := by
    rw [Cache.valueOf_eq he', Cache.valueOf_eq he, hvalue']
  exact {
    value := hvalue
    linked := fun hlinked => by
      rw [h.linked] at hlinked
      rcases List.mem_append.1 hlinked with htaken | hrest
      · exact .inr (h.taken id htaken)
      · -- What is given back is linked in front of the others.
        obtain ⟨back, hback⟩ : ∃ back, Chained
            ⟨(b.finish how es c).1, (b.finish how es c).2, bs, s.calls.flatMap Call.flights⟩
            (back ++ ids) := h.chained.finish how
        refine .inl ?_
        rw [System.linked, h.entries, h.chain, hback.links.toList_eq]
        exact List.mem_append_right back hrest
    member := fun e₀ he₀ hmember => by
      obtain rfl : e = e₀ := Option.some.inj (he.symm.trans he₀)
      by_cases htaken : id ∈ taken
      · exact .inr (h.taken id htaken)
      · exact .inl ⟨e', he', hin' ((hin htaken).trans hmember)⟩
    relinked := fun b₀ hb₀ hdirect => by
      obtain rfl : b = b₀ := Option.some.inj (hb.symm.trans hb₀)
      rw [System.linked, h.entries, h.chain]
      exact h.chained.finish_relinks how hdirect hmem he₁ hversion
    kept := fun hchanges => by
      -- Value and calls are the same, so the entry has its changes still and is accounted for.
      have hchanges' := hchanges.congr hvalue h.calls
      rcases hs'.conserved he' hchanges' with hlinked | ⟨other, b', hb', hcovers⟩
      · exact .inl hlinked
      · have hfind := Names.find?_of_mem hs'.names hb'
        by_cases hname : other = name
        · -- A batch of the same name is not the closed one.
          subst hname
          exact .inr (.inl (h.again b' hfind id hcovers.mem_ids))
        · exact .inr (.inr ⟨other, b', e', hname, hfind, he', hcovers⟩)
    others := h.others
    calls := h.calls }

/-- Whatever closes the batch of a name, an entry of the batch that has changed since survives. -/
theorem System.survives_of_closes [DecidableEq K] (hs : s.Sound)
    (hb : s.batches.find? name = some b) (hmem : (id, version) ∈ b.entries)
    (he : s.cache.entries[id]? = some e) (hversion : version < e.version) {close : Upkeep}
    (hclose : close.closed? = some name) : s.Survives name id (s.keepUp close) := by
  obtain ⟨how, es, c, bs, taken, ids, hclosing⟩ := System.exists_closing hs hb hclose
  exact hclosing.survives (hs.act (.upkeep close)) hb hmem he hversion

end

/-- A change that is made while a batch is open survives the closing of the batch, whatever else
    happens meanwhile: operations of any callers, changes of the same entry, other batches. -/
theorem mutation_survives [DecidableEq K] {s : System K V} (hs : s.Reachable) {name : String}
    {limit : Nat} {copyOn : Bool} {id : EntryId}
    (hdrained : id ∈ (s.cache.drain limit copyOn).2.ids) {as : List (Action K V)}
    (hopen : ∀ a ∈ as, a.closed? ≠ some name)
    (hmutated : (s.drain name limit copyOn).Sometime (System.Mutates id) as) {close : Upkeep}
    (hclose : close.closed? = some name) :
    ((s.drain name limit copyOn).actAll as).Survives name id
      (((s.drain name limit copyOn).actAll as).keepUp close) := by
  have hsound : (s.drain name limit copyOn).Sound :=
    hs.sound.act (.upkeep (.drain name limit copyOn))
  have hfind := System.drain_find? name limit copyOn s
  obtain ⟨n, hb⟩ := System.actAll_find? hopen hfind
  obtain ⟨i, version, hi⟩ := Batch.exists_index_of_mem_ids hdrained
  have hmem := List.mem_of_getElem? hi
  obtain ⟨e, he, hle⟩ := hsound.recorded hfind hmem
  obtain ⟨e', he', hlt⟩ := System.Sometime.version_lt hsound hmutated he
  exact System.survives_of_closes (hsound.actAll as) hb hmem he' (by omega) hclose

/-- An entry is updated once more while its batch is open in direct mode. The chain is empty then;
    when the batch is committed the entry goes back to it, with its changes. -/
theorem mutation_survives_commit :
    let s := (System.new {} (.manual 0) (fun _ => 0) : System Nat Nat).actAll
      [.spawn (.update 1), .advance 0, .advance 0, .resume (.value 5) 0]
    let t := (s.drain "b" 10 false).actAll
      [.upkeep (.next "b" none), .spawn (.update 1), .advance 1, .advance 1, .resume (.value 6) 1]
    let u := t.keepUp (.finish "b" .commit)
    t.Survives "b" 0 u ∧ t.linked = [] ∧ t.HasChanges 0 ∧ 0 ∈ u.linked ∧ u.HasChanges 0 := by
  intro s t u
  have hsurvives : t.Survives "b" 0 u :=
    mutation_survives ⟨_, _, _, _, rfl⟩ (by decide +kernel) (by decide +kernel)
      (by decide +kernel) rfl
  have hbatch : t.batches.find? "b" = some ⟨[(0, 1)], 1, false⟩ := by decide +kernel
  have hchanges : t.HasChanges 0 := .inl ⟨⟨1, 6⟩, by decide +kernel⟩
  exact ⟨hsurvives, by decide +kernel, hchanges, hsurvives.relinked _ hbatch rfl,
    hchanges.congr hsurvives.value hsurvives.calls⟩

end ReadThrough
