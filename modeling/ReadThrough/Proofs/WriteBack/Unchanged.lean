import ReadThrough.Proofs.Runs.Dealings
import ReadThrough.Proofs.WriteBack.Exactness
import ReadThrough.Proofs.WriteBack.Unwritten

/-! # Entries That Nobody Changes

  What an action may do to an entry for write-back, if it does not change its value.

  - **Steady**: version, membership and dirty values stay.
  - **act_steady**, **act_version**: the version of an entry rises only when it is changed.
  - **HasChanges.act**: changes are written off only by finishing a batch that marks the entry
    clean, which is no member then.
  - **exists_closed**: an entry that is not changed becomes a member only when a batch is closed
    that lists it.
  - **listed_before**: a batch lists an entry that is not in the chain only if it did so before.
-/

namespace ReadThrough

open Cache Entries Ledger

variable {K V : Type}

/-! ## Single entries -/

/-- Version and membership stay, and so does a dirty value. -/
structure Entry.Steady (e e' : Entry K V) : Prop where
  version : e'.version = e.version
  inChain : e'.inChain = e.inChain
  dirty : ∀ v, e'.value = .dirty v ↔ e.value = .dirty v

namespace Entry

variable {e e' : Entry K V}

theorem Quiet.steady (h : e.Quiet e') : e.Steady e' :=
  ⟨h.version, h.inChain, h.dirty⟩

theorem Relinked.steady (h : e.Relinked e') : e.Steady e' := by
  obtain ⟨n, rfl⟩ := h
  exact ⟨rfl, rfl, fun _ => Iff.rfl⟩

theorem tolerant_steady : Tolerant (Steady : Entry K V → Entry K V → Prop) where
  refl := fun e => (Quiet.refl e).steady
  trans := fun h k => ⟨k.version.trans h.version, k.inChain.trans h.inChain,
    fun v => (k.dirty v).trans (h.dirty v)⟩
  removed := fun e => (quiet_removed e).steady
  detach := fun e => (quiet_detach e).steady
  retire := fun held e => (quiet_retire held e).steady
  stamp := fun now e => (quiet_stamp now e).steady
  relinked := Relinked.steady

end Entry

namespace Call

variable {held : Held} {call : Call K V} {node : EntryNode K} {e e' : Entry K V}
  {stage : Stage K V}

/-- A look at an entry leaves version and membership alone unless it marks the entry. -/
theorem Inspects.marks_or_same (h : call.Inspects held node e e' stage) :
    (∃ key v, call.request = .mark key ∧ e.value.peek held = some v) ∨
      (e'.version = e.version ∧ e'.inChain = e.inChain) := by
  cases h with
  | marks key v now next? hr hpeek => exact .inl ⟨key, v, hr, hpeek⟩
  | _ => exact .inr ⟨rfl, rfl⟩

/-- The end of a callback leaves version and membership alone unless an updater returns a value. -/
theorem Settles.updated_or_same {r : Return V} {epoch : Nat} {prior : ValueState V}
    (h : call.Settles r node epoch prior e e' stage) :
    (∃ content, r = .value content ∧ call.request.isLoad = false) ∨
      (e'.version = e.version ∧ e'.inChain = e.inChain) := by
  cases h with
  | updated content v now next? hresult hr => exact .inl ⟨content, hresult, hr⟩
  | restored outcome stage hstage hvalue hload =>
    have hmarks := Entry.sameMarks_restore epoch prior e
    exact .inr ⟨hmarks.version, hmarks.inChain⟩
  | _ => exact .inr ⟨rfl, rfl⟩

/-- However an update ends that has started from a dirty value, it leaves a dirty value. -/
theorem Settles.dirty_of_dirty {r : Return V} {epoch : Nat} {v : Value V}
    (h : call.Settles r node epoch (.dirty v) e e' stage) (hload : call.request.isLoad = false)
    (hpending : e.value = .pending) (hepoch : e.epoch = epoch) : ∃ w, e'.value = .dirty w := by
  cases h with
  | loaded w now hr => simp [hload] at hr
  | empty now hr => simp [hload] at hr
  | failed now error hr => simp [hload] at hr
  | updated content w now next? hresult hr => exact ⟨w, rfl⟩
  | restored outcome stage hstage hvalue hnone =>
    refine ⟨v, ?_⟩
    rw [← hepoch]
    exact Entry.restore_value _ hpending

end Call

namespace Batch.Finished

variable {b : Batch} {how : Finish} {id : EntryId} {e e' : Entry K V} {v : Value V}

/-- Finishing a batch leaves a dirty value as it is, or it marks the entry clean, which is no member
    then. -/
theorem dirty_or_clean (h : b.Finished how id e e') (hv : e.value = .dirty v) :
    e'.value = .dirty v ∨ (e'.value = .ready v ∧ e'.inChain = false) := by
  obtain ⟨n, d, ⟨-, rfl⟩ | ⟨i, version, -, rfl⟩, rfl⟩ := h
  · exact .inl hv
  · cases Batch.fate how b.copyOn (decide (i < b.consumed)) version e with
    | clean => exact .inr ⟨by simp [Fate.apply, hv, ValueState.clean], rfl⟩
    | leave => exact .inl hv
    | relink => exact .inl hv

/-- Forgetting a batch leaves a dirty value as it is. -/
theorem dirty_of_dropped (h : b.Finished (dropped b) id e e') (hv : e.value = .dirty v) :
    e'.value = .dirty v := by
  obtain ⟨n, d, ⟨-, rfl⟩ | ⟨i, version, -, rfl⟩, rfl⟩ := h
  · exact hv
  · cases hfate : Batch.fate (dropped b) b.copyOn (decide (i < b.consumed)) version e with
    | clean => exact absurd hfate (b.fate_dropped _ _ _)
    | leave => exact hv
    | relink => exact hv

end Batch.Finished

namespace System

variable {s : System K V} {id : EntryId}

/-- The entry is in the chain, or in an open batch in direct mode. -/
def IsMember (id : EntryId) (s : System K V) : Prop :=
  ∃ e, s.cache.entries[id]? = some e ∧ e.inChain = true

theorem Sound.isMember_iff (hs : s.Sound) :
    s.IsMember id ↔ id ∈ s.linked ∨ id ∈ s.dispatched := by
  obtain ⟨ids, hc⟩ := hs.ledger.chained
  have hlinked : s.linked = ids := hc.links.toList_eq
  rw [hlinked, dispatched_eq, ← List.mem_append]
  constructor
  · rintro ⟨e, he, hin⟩
    exact (hc.member id e he).1 hin
  · intro hid
    have he : s.cache.entries[id]? = some _ := Array.getElem?_eq_getElem (hc.lt_size hid)
    exact ⟨_, he, (hc.member id _ he).2 hid⟩

theorem hasChanges_of_unflushed {v : Value V} (h : s.ledger.Unflushed id v) :
    s.HasChanges id := by
  rcases h with ⟨e, he, hv⟩ | ⟨f, hf, hid, hprior⟩
  · exact .inl ⟨v, by rw [valueOf_eq he, hv]⟩
  · obtain ⟨call, hcall, hmem⟩ := List.mem_flatMap.1 hf
    unfold Call.flights Stage.flights at hmem
    split at hmem
    · next node epoch prior hstage =>
      obtain rfl := List.mem_singleton.1 hmem
      exact .inr ⟨call, hcall, node, epoch, v, hprior ▸ hstage, hid⟩
    · cases hmem

theorem hasChanges_iff : s.HasChanges id ↔ ∃ v, s.ledger.Unflushed id v :=
  ⟨HasChanges.unflushed, fun ⟨_, hv⟩ => hasChanges_of_unflushed hv⟩

variable [DecidableEq K] {a : Action K V} {e : Entry K V}

/-- A change leaves an entry with changes. -/
theorem Mutates.hasChanges (hs : s.Sound) (h : s.Mutates id a) : (s.act a).HasChanges id := by
  obtain ⟨hlt, v, g, hg, hentries, -⟩ := h.enlists hs
  have he : s.cache.entries[id]? = some s.cache.entries[id] := Array.getElem?_eq_getElem hlt
  obtain ⟨e', he', ⟨hne, -⟩ | ⟨-, hvalue, -⟩⟩ :=
    (marked_each id v hg s.cache.entries s.cache.chain).2 id _ he
  · exact absurd rfl hne
  · rw [← hentries] at he'
    exact .inl ⟨v, by rw [valueOf_eq he', hvalue]⟩

/-- An entry that is not changed keeps its version and its membership through every action that
    closes no batch. -/
theorem act_steady (hs : s.Reachable) (ha : a.closed? = none) (hmut : ¬ s.Mutates id a)
    (he : s.cache.entries[id]? = some e) : ∃ e', (s.act a).cache.entries[id]? = some e' ∧
      e'.version = e.version ∧ e'.inChain = e.inChain := by
  cases act_deals Entry.tolerant_steady hs.sound hs.orderly ha with
  | leaves h =>
    obtain ⟨e', he', hsteady⟩ := h.2 id e he
    exact ⟨e', he', hsteady.version, hsteady.inChain⟩
  | inspects i call node now ha hi hstage h =>
    obtain ⟨e', he', hown, hother⟩ := h.2 id e he
    refine ⟨e', he', ?_⟩
    by_cases hid : id = node.payload
    · refine (hown hid).marks_or_same.resolve_left ?_
      rintro ⟨key, v, hr, hpeek⟩
      -- A mark that finds a value is a change.
      subst ha
      refine hmut ⟨?_, ?_⟩
      · rw [hi, hid]
        simp [Call.marks?, hr, hstage]
      · rw [Cache.peek, valueOf_eq he, hpeek]
        rfl
    · exact ⟨(hother hid).steady.version, (hother hid).steady.inChain⟩
  | inserts i call now es node ha hi hstage hes hentries hnode hnext =>
    obtain ⟨e', he', hsteady⟩ := hes.2 id e he
    rw [hentries]
    exact ⟨e', getElem?_push_of_some he', hsteady.version, hsteady.inChain⟩
  | settles r i call node epoch prior ha hi hstage h =>
    obtain ⟨e', he', hown, hother⟩ := h.2 id e he
    refine ⟨e', he', ?_⟩
    by_cases hid : id = node.payload
    · refine (hown hid).updated_or_same.resolve_left ?_
      rintro ⟨content, rfl, hload⟩
      -- A callback that is no loader is that of an update.
      have hsuits := hs.orderly call (List.mem_of_getElem? hi)
      rw [hstage] at hsuits
      obtain ⟨key, hr⟩ := hsuits.resolve_right fun hor => by simp [hload] at hor
      subst ha
      refine hmut ?_
      show s.calls[i]?.bind Call.updates? = some id
      rw [hi, hid]
      simp [Call.updates?, hr, hstage]
    · exact ⟨(hother hid).steady.version, (hother hid).steady.inChain⟩

/-- An entry that is not changed keeps its version. -/
theorem act_version (hs : s.Reachable) (hmut : ¬ s.Mutates id a)
    (he : s.cache.entries[id]? = some e) :
    ∃ e', (s.act a).cache.entries[id]? = some e' ∧ e'.version = e.version := by
  cases ha : a.closed? with
  | none =>
    obtain ⟨e', he', hversion, -⟩ := act_steady hs ha hmut he
    exact ⟨e', he', hversion⟩
  -- The close of a batch settles what entries hold and where they are linked, but no version.
  | some name =>
    cases a with
    | upkeep u =>
      cases keepUp_closes hs.sound ha with
      | nothing hb h =>
        obtain ⟨e', he', _, _, rfl, -⟩ := h.2 id e he
        exact ⟨_, he', rfl⟩
      | finishes b how hb hu h =>
        obtain ⟨e', he', hfinished⟩ := h.2 id e he
        exact ⟨e', he', hfinished.fields.2.2.1⟩
      | drops b es hb h hlast =>
        obtain ⟨_, he₁, _, _, rfl, -⟩ := h.2 id e he
        obtain ⟨e', he', hfinished⟩ := hlast.2 id _ he₁
        exact ⟨e', he', hfinished.fields.2.2.1⟩
    | _ => cases ha

/-- In a run in which an entry is not changed it keeps its version. -/
theorem actAll_version (hs : s.Reachable) {as : List (Action K V)}
    (hmut : ¬ s.Sometime (Mutates id) as) (he : s.cache.entries[id]? = some e) :
    ∃ e', (s.actAll as).cache.entries[id]? = some e' ∧ e'.version = e.version := by
  induction as generalizing s e with
  | nil => exact ⟨e, he, rfl⟩
  | cons a as ih =>
    obtain ⟨hnow, hlater⟩ := not_or.1 hmut
    obtain ⟨e₁, he₁, hversion₁⟩ := act_version hs hnow he
    obtain ⟨e₂, he₂, hversion₂⟩ := ih (hs.actAll [a]) hlater he₁
    exact ⟨e₂, he₂, hversion₂.trans hversion₁⟩

/-- Changes do not come from nowhere. -/
theorem hasChanges_before (hs : s.Reachable) {as : List (Action K V)}
    (hmut : ¬ s.Sometime (Mutates id) as) (he : s.cache.entries[id]? = some e)
    (h : (s.actAll as).HasChanges id) : s.HasChanges id := by
  obtain ⟨e₁, he₁, hversion⟩ := actAll_version hs hmut he
  obtain ⟨e₂, he₂, -, hback⟩ :=
    Leads.version_le hs.sound.ledger (actAll_leads hs.sound as) he
  obtain rfl : e₁ = e₂ := Option.some.inj (he₁.symm.trans he₂)
  rw [hasChanges_iff] at h ⊢
  obtain ⟨v, hv⟩ := h
  exact ⟨v, hback hversion v hv⟩

/-! ## Changes that are written off -/

/-- The batch of a name is closed, and a dirty entry is marked clean thereby. -/
structure Cleaning (name : String) (id : EntryId) (s : System K V) (a : Action K V) : Prop where
  closes : a.closed? = some name
  before : (s.cache.valueOf id).isDirty = true
  after : ((s.act a).cache.valueOf id).isDirty = false

/-- A callback that has started from a dirty value goes on, or it leaves a dirty value. -/
theorem hasChanges_of_flight (hs : s.Reachable) {f : Flight V} {v : Value V}
    (hf : f ∈ s.ledger.flights) (hid : f.entry = id) (hprior : f.prior = .dirty v) :
    (s.act a).HasChanges id := by
  by_cases hgoes : ∀ i call, a.call? = some i → s.calls[i]? = some call → f ∈ call.flights →
      f ∈ (a.onCall s.held s.cache call).2.flights
  · exact hasChanges_of_unflushed (unflushed_of_flight hf hid hprior hgoes)
  simp only [not_forall] at hgoes
  obtain ⟨i, call, ha, hi, hin, hends⟩ := hgoes
  have hidle (h : call.flights = []) : (s.act a).HasChanges id := by
    rw [h] at hin
    cases hin
  rcases onCall_cases ha s.held s.cache call with ⟨m, now, -, hstage⟩ | ⟨now, -, hstage⟩ |
    ⟨m, -, hstage⟩ | ⟨r, m, epoch, prior, rfl, hstage⟩ | ⟨hpasses, -⟩
  · exact hidle (by rw [Call.flights, hstage]; rfl)
  · exact hidle (by rw [Call.flights, hstage]; rfl)
  · exact hidle (by rw [Call.flights, hstage]; rfl)
  · have hmem := List.mem_of_getElem? hi
    obtain ⟨e, he, hpending, hepoch⟩ := hs.sound.ledger.owned.pending f hf
    rw [Call.flights_running hstage] at hin
    obtain rfl := List.mem_singleton.1 hin
    subst hid
    obtain rfl : prior = .dirty v := hprior
    -- What a loader starts from is not dirty.
    have hsuits := hs.orderly call hmem
    rw [hstage] at hsuits
    obtain ⟨key, hr⟩ := hsuits.resolve_right fun hor => by cases hor.2
    obtain ⟨e', he', hsettles⟩ := Call.resume_settles r hstage he
    obtain ⟨w, hw⟩ := hsettles.dirty_of_dirty (by rw [hr]; rfl) hpending hepoch
    refine .inl ⟨w, ?_⟩
    rw [act_cache rfl hi]
    show (call.resume r s.cache).1.valueOf m.payload = _
    rw [valueOf_eq he', hw]
  · have hsame : (a.onCall s.held s.cache call).2.flights = call.flights := hpasses.flights
    exact absurd (hsame ▸ hin) hends

omit [DecidableEq K] in
theorem hasChanges_of_dirty {e : Entry K V} {v : Value V} (he : s.cache.entries[id]? = some e)
    (hv : e.value = .dirty v) : s.HasChanges id :=
  .inl ⟨v, by rw [valueOf_eq he, hv]⟩

/-- As long as no batch is closed a dirty entry keeps its changes: it stays dirty, or an update of
    it starts. -/
theorem hasChanges_act_open (hs : s.Reachable) (ha : a.closed? = none) {e : Entry K V} {v : Value V}
    (he : s.cache.entries[id]? = some e) (hv : e.value = .dirty v) : (s.act a).HasChanges id := by
  cases act_deals Entry.tolerant_steady hs.sound hs.orderly ha with
  | leaves h =>
    obtain ⟨e', he', hsteady⟩ := h.2 id e he
    exact hasChanges_of_dirty he' ((hsteady.dirty v).2 hv)
  | inspects i call node now ha hi hstage h =>
    obtain ⟨e', he', hown, hother⟩ := h.2 id e he
    by_cases hid : id = node.payload
    · -- Either the entry stays dirty or an update of it starts, which knows the value.
      rcases (hown hid).dirty hv with hv' | ⟨f, hf, hfid, hprior⟩
      · exact hasChanges_of_dirty he' hv'
      · subst ha
        have hmem := List.mem_of_getElem? (act_getElem? (a := .advance i) rfl hi)
        refine hasChanges_of_unflushed (v := v) (.inr ⟨f, ?_, hfid.trans hid.symm, hprior⟩)
        exact List.mem_flatMap.2 ⟨_, hmem, hf⟩
    · exact hasChanges_of_dirty he' (((hother hid).steady.dirty v).2 hv)
  -- A new entry does not replace any other.
  | inserts i call now es node ha hi hstage hes hentries hnode hnext =>
    obtain ⟨e', he', hsteady⟩ := hes.2 id e he
    refine hasChanges_of_dirty ?_ ((hsteady.dirty v).2 hv)
    rw [hentries]
    exact getElem?_push_of_some he'
  | settles r i call node epoch prior ha hi hstage h =>
    obtain ⟨e', he', hown, hother⟩ := h.2 id e he
    by_cases hid : id = node.payload
    · -- The entry that a callback runs for is pending.
      obtain ⟨e₀, he₀, hpending, -⟩ :=
        hs.sound.ledger.owned.pending _ (mem_flights (List.mem_of_getElem? hi) hstage)
      obtain rfl : e = e₀ := Option.some.inj (he.symm.trans (hid ▸ he₀))
      rw [hv] at hpending
      cases hpending
    · exact hasChanges_of_dirty he' (((hother hid).steady.dirty v).2 hv)

/-- When a batch is closed a dirty entry stays dirty, or the batch was finished and has marked it
    clean; it is no member then. -/
theorem hasChanges_act_close (hs : s.Reachable) {name : String} (ha : a.closed? = some name)
    {e : Entry K V} {v : Value V} (he : s.cache.entries[id]? = some e) (hv : e.value = .dirty v) :
    (s.act a).HasChanges id ∨ ∃ how, a = .upkeep (.finish name how) ∧ s.Cleaning name id a ∧
      ¬ (s.act a).IsMember id := by
  cases a with
  | upkeep u =>
    cases keepUp_closes hs.sound ha with
    | nothing hb h =>
      obtain ⟨e', he', _, _, rfl, -⟩ := h.2 id e he
      exact .inl (hasChanges_of_dirty he' hv)
    | finishes b how hb hu h =>
      obtain ⟨e', he', hfinished⟩ := h.2 id e he
      rcases hfinished.dirty_or_clean hv with hv' | ⟨hv', hout⟩
      · exact .inl (hasChanges_of_dirty he' hv')
      · -- The entry was written back at the version that it still has.
        subst hu
        refine .inr ⟨how, rfl, ⟨rfl, ?_, ?_⟩, ?_⟩
        · rw [valueOf_eq he, hv]
          rfl
        · rw [act, valueOf_eq he', hv']
          rfl
        · rintro ⟨e'', he'', hin⟩
          obtain rfl : e' = e'' := Option.some.inj (he'.symm.trans he'')
          simp [hout] at hin
    | drops b es hb h hlast =>
      -- A batch that is dropped writes nothing back, so it cleans nothing.
      obtain ⟨_, he₁, _, _, rfl, -⟩ := h.2 id e he
      obtain ⟨e', he', hfinished⟩ := hlast.2 id _ he₁
      exact .inl (hasChanges_of_dirty he' (hfinished.dirty_of_dropped hv))
  | _ => cases ha

/-- Changes stay, unless a batch is finished that marks the entry clean; it is no member then. -/
theorem HasChanges.act (hs : s.Reachable) (h : s.HasChanges id) : (s.act a).HasChanges id ∨
    ∃ name how, a = .upkeep (.finish name how) ∧ s.Cleaning name id a ∧
      ¬ (s.act a).IsMember id := by
  obtain ⟨v, ⟨e, he, hv⟩ | ⟨f, hf, hid, hprior⟩⟩ := h.unflushed
  · cases ha : a.closed? with
    | none => exact .inl (hasChanges_act_open hs ha he hv)
    | some name => exact (hasChanges_act_close hs ha he hv).imp_right fun hclean => ⟨name, hclean⟩
  · exact .inl (hasChanges_of_flight hs hf hid hprior)

/-! ## New members -/

/-- An entry is no member when it is new. -/
theorem inChain_of_new (hs : s.Reachable) (ha : a.closed? = none)
    (hnew : s.cache.entries[id]? = none) {e' : Entry K V}
    (he' : (s.act a).cache.entries[id]? = some e') : e'.inChain = false := by
  have hold {R : EntryId → Entry K V → Entry K V → Prop} {es : Entries K V}
      (h : Each R s.cache.entries es) {x : Entry K V} : es[id]? ≠ some x := by
    intro hx
    obtain ⟨e, hsome, -⟩ := h.backward hx
    cases hnew.symm.trans hsome
  cases act_deals Entry.tolerant_steady hs.sound hs.orderly ha with
  | leaves h => exact absurd he' (hold h)
  | inspects i call node now ha hi hstage h => exact absurd he' (hold h)
  | inserts i call now es node ha hi hstage hes hentries hnode hnext =>
    rw [hentries, Array.getElem?_push] at he'
    split at he'
    · obtain rfl := Option.some.inj he'
      rfl
    · exact absurd he' (hold hes)
  | settles r i call node epoch prior ha hi hstage h => exact absurd he' (hold h)

/-- An entry that is not changed becomes a member only when a batch is closed that lists it. -/
theorem exists_closed (hs : s.Reachable) (hmut : ¬ s.Mutates id a) (hnot : ¬ s.IsMember id)
    (h : (s.act a).IsMember id) :
    ∃ name b, a.closed? = some name ∧ s.batches.find? name = some b ∧ id ∈ b.ids := by
  obtain ⟨e', he', hin⟩ := h
  have hout {e : Entry K V} (he : s.cache.entries[id]? = some e) : e.inChain ≠ true :=
    fun hmem => hnot ⟨e, he, hmem⟩
  cases ha : a.closed? with
  -- Unless a batch is closed, only a change makes a member of an entry.
  | none =>
    cases he : s.cache.entries[id]? with
    | some e =>
      obtain ⟨e₁, he₁, -, hsame⟩ := act_steady hs ha hmut he
      obtain rfl : e' = e₁ := Option.some.inj (he'.symm.trans he₁)
      exact absurd (hsame ▸ hin) (hout he)
    | none =>
      rw [inChain_of_new hs ha he he'] at hin
      cases hin
  | some name =>
    -- Finishing makes members only of entries that the batch lists.
    have hlisted {b : Batch} {how : Finish} {e : Entry K V} (hb : s.batches.find? name = some b)
        (hmem : e.inChain ≠ true) (h : b.Finished how id e e') :
        ∃ name' b', some name = some name' ∧ s.batches.find? name' = some b' ∧ id ∈ b'.ids := by
      obtain ⟨n, d, ⟨-, rfl⟩ | ⟨i, version, hi, rfl⟩, rfl⟩ := h
      · exact absurd hin hmem
      · exact ⟨name, b, rfl, hb, Batch.mem_ids (List.mem_of_getElem? hi)⟩
    cases a with
    | upkeep u =>
      cases keepUp_closes hs.sound ha with
      | nothing hb h =>
        obtain ⟨e, he, _, _, rfl, hleaves⟩ := h.backward he'
        exact absurd (hleaves hin) (hout he)
      | finishes b how hb hu h =>
        obtain ⟨e, he, hfinished⟩ := h.backward he'
        exact hlisted hb (hout he) hfinished
      -- Draining before does not make a member of anything.
      | drops b es hb h hlast =>
        obtain ⟨e₁, he₁, hfinished⟩ := hlast.backward he'
        obtain ⟨e, he, _, _, rfl, hleaves⟩ := h.backward he₁
        exact hlisted hb (fun hmem => hout he (hleaves hmem)) hfinished
    | _ => cases ha

/-- A batch lists an entry that is not in the chain only if it did so before. -/
theorem listed_before (hs : s.Sound) {name : String} {b : Batch}
    (hb : (s.act a).batches.find? name = some b) (hid : id ∈ b.ids) (hnot : id ∉ s.linked) :
    a.closed? ≠ some name ∧
      ∃ b₀, s.batches.find? name = some b₀ ∧ b₀.ids = b.ids ∧ b₀.copyOn = b.copyOn := by
  have hopen : a.closed? ≠ some name := by
    intro ha
    cases a with
    | upkeep u =>
      cases u with
      | drain other limit copyOn =>
        obtain rfl : other = name := Option.some.inj ha
        have hdrained : (s.drain other limit copyOn).batches.find? other = some b := hb
        rw [drain_find?] at hdrained
        obtain rfl := Option.some.inj hdrained
        -- A batch that was just drained lists entries of the chain.
        obtain ⟨ids, hc⟩ := hs.ledger.chained
        have hlinked : s.linked = ids := hc.links.toList_eq
        have hfirst := (takeDirty_taken copyOn (min limit s.cache.entries.size) hc.links).first
        have htaken : id ∈ ids.take (min limit s.cache.entries.size) := hfirst ▸ hid
        exact hnot (hlinked ▸ List.mem_of_mem_take htaken)
      | finish other how =>
        obtain rfl : other = name := Option.some.inj ha
        have hforgotten : (s.finish other how).1.batches.find? other = some b := hb
        rw [finish_batches, Names.find?_forget_self] at hforgotten
        cases hforgotten
      | dropBatch other =>
        obtain rfl : other = name := Option.some.inj ha
        have hforgotten : (s.dropBatch other).batches.find? other = some b := hb
        rw [dropBatch_batches, Names.find?_forget_self] at hforgotten
        cases hforgotten
      | _ => cases ha
    | _ => cases ha
  refine ⟨hopen, ?_⟩
  cases hb₀ : s.batches.find? name with
  | some b₀ =>
    have hopen' : ∀ a' ∈ [a], a'.closed? ≠ some name := by simpa using hopen
    obtain ⟨n, hn⟩ := actAll_find? hopen' hb₀
    obtain rfl := Option.some.inj (hb.symm.trans hn)
    exact ⟨b₀, rfl, rfl, rfl⟩
  | none =>
    by_cases hnext : ∃ keepAs, a = .upkeep (.next name keepAs)
    · obtain ⟨keepAs, rfl⟩ := hnext
      have hsame : s.next name keepAs = (s, none) := by rw [next, hb₀]
      rw [act, keepUp, hsame, hb₀] at hb
      cases hb
    · rw [act_find? hopen (not_exists.1 hnext), hb₀] at hb
      cases hb

end System

end ReadThrough
