import ReadThrough.Proofs.WriteBack.Ownership

/-! # Conservation of Changes

  No change of a ledger loses a value that is not written back.

  - **Concerns**: how a change concerns a single entry. It marks the entry dirty, or it leaves the
    version alone and makes nothing unflushed.
  - **Kept**: every entry with an unflushed value is a member of the chain, or an open batch in
    copy-on mode knows its version.
  - **Sound**: what holds of every ledger that comes from an empty one.
-/

namespace ReadThrough.Ledger

open DirtyChain

variable {K V : Type}

section

variable {L L' : Ledger K V} {id : EntryId} {ids : List EntryId} {e : Entry K V} {v : Value V}

/-! ## Single entries -/

/-- How a change of a ledger concerns an entry: it marks the entry dirty, or it leaves the version
    alone and makes nothing unflushed that was not so before. -/
def Concerns (L L' : Ledger K V) (id : EntryId) (e e' : Entry K V) : Prop :=
  (e.version < e'.version ∧ e'.inChain = true) ∨
    (e'.version = e.version ∧ ∀ v, L'.Unflushed id v → L.Unflushed id v)

/-- What is dirty in the entry and what a flight started from has to be unflushed before. -/
theorem concerns_of_same {e' : Entry K V} (he' : L'.entries[id]? = some e')
    (hversion : e'.version = e.version) (hdirty : ∀ v, e'.value = .dirty v → L.Unflushed id v)
    (hflights : ∀ f ∈ L'.flights, f.entry = id → ∀ v, f.prior = .dirty v → L.Unflushed id v) :
    Concerns L L' id e e' := by
  refine .inr ⟨hversion, fun v => ?_⟩
  rintro (⟨e'', he'', hval⟩ | ⟨f, hf, hid, hprior⟩)
  · rw [he'] at he''
    obtain rfl := Option.some.inj he''
    exact hdirty v hval
  · exact hflights f hf hid v hprior

/-- An entry that is not marked dirty becomes unflushed by nothing. -/
theorem Step.concerns (hc : Chained L ids) (ho : Owned L) (hs : Step L L')
    (he : L.entries[id]? = some e) :
    ∃ e', L'.entries[id]? = some e' ∧ Concerns L L' id e e' := by
  have hlt : id < L.entries.size := (Array.getElem?_eq_some_iff.1 he).1
  have hdirty : ∀ v, e.value = .dirty v → L.Unflushed id v := fun v hval => .inl ⟨e, he, hval⟩
  have hflights : ∀ f ∈ L.flights, f.entry = id → ∀ v, f.prior = .dirty v → L.Unflushed id v :=
    fun f hf hid v hprior => .inr ⟨f, hf, hid, hprior⟩
  cases hs with
  | reorder hb hf =>
    exact ⟨e, he, concerns_of_same he rfl hdirty fun f hmem => hflights f (hf.mem_iff.2 hmem)⟩
  | quiet hq =>
    obtain ⟨e', he', hr⟩ := hq.2 id e he
    exact ⟨e', he', concerns_of_same he' hr.version (fun v hval => hdirty v ((hr.dirty v).1 hval))
      hflights⟩
  | insertReady key v now =>
    have he' := Entries.getElem?_push_of_some (x := .new key (.ready v) now) he
    exact ⟨e, he', concerns_of_same he' rfl hdirty hflights⟩
  | insertPending key now =>
    have he' := Entries.getElem?_push_of_some (x := .new key .pending now) he
    refine ⟨e, he', concerns_of_same he' rfl hdirty fun f hf hid => ?_⟩
    rcases List.mem_cons.1 hf with rfl | hf
    · exact absurd hid (Nat.ne_of_gt hlt)
    · exact hflights f hf hid
  | @start es c bs fs id₀ e₀ prior he₀ hidle hsettled hprior =>
    have hstarted : ∀ f ∈ (⟨id₀, e₀.epoch + 1, prior⟩ :: fs : List (Flight V)), f.entry = id →
        ∀ v, f.prior = .dirty v → Unflushed ⟨es, c, bs, fs⟩ id v := by
      intro f hf hid v hv
      rcases List.mem_cons.1 hf with rfl | hf
      · exact .inl ⟨e₀, hid ▸ he₀, (hprior v).1 hv⟩
      · exact hflights f hf hid v hv
    have he' : (es.modify id₀ Entry.begin)[id]? = some (if id₀ = id then e.begin else e) := by
      rw [Array.getElem?_modify, show es[id]? = some e from he]
      split <;> rfl
    refine ⟨_, he', concerns_of_same he' ?_ (fun v hval => ?_) hstarted⟩
    · split <;> rfl
    · split at hval
      · cases hval
      · exact hdirty v hval
  | @settle es c bs fs f g hg hset =>
    obtain ⟨e', he', hr⟩ := (Entries.each_sameMarks f.entry hg es).2 id e he
    refine ⟨e', he', concerns_of_same he' hr.version (fun v hval => ?_)
      fun f' hf' => hflights f' (List.mem_cons_of_mem _ hf')⟩
    rw [Array.getElem?_modify, show es[id]? = some e from he] at he'
    split at he'
    · next hid =>
      -- The entry is the one of the flight that ends.
      obtain rfl : g e = e' := Option.some.inj he'
      obtain ⟨e₀, he₀, hval₀, hepoch₀⟩ := ho.pending f List.mem_cons_self
      obtain rfl : e = e₀ := Option.some.inj (he.symm.trans (hid ▸ he₀))
      have hend := hset e hval₀ hepoch₀ (ho.prior f List.mem_cons_self)
      exact hflights f List.mem_cons_self hid v (hend.dirty v hval)
    · obtain rfl : e = e' := Option.some.inj he'
      exact hdirty v hval
  | @enlist es c bs old fs id₀ v g hlt hg hold hidle =>
    obtain ⟨e', he', ⟨-, n, rfl⟩ | ⟨-, -, -, -, hversion, hin⟩⟩ :=
      (marked_each id₀ v hg es c).2 id e he
    · exact ⟨_, he', concerns_of_same he' rfl hdirty
        fun f hf => hflights f (List.mem_append_right _ hf)⟩
    · exact ⟨e', he', .inl ⟨by omega, hin⟩⟩
  | drain limit copyOn =>
    obtain ⟨e', he', n, rfl⟩ := (Cache.takeDirty_taken copyOn limit hc.links).each.2 id e he
    exact ⟨_, he', concerns_of_same he' rfl hdirty hflights⟩
  | consume n => exact ⟨e, he, concerns_of_same he rfl hdirty hflights⟩
  | @finish es c bs fs how b =>
    obtain ⟨e', he', hr⟩ := (finish_each how b (hc.distinct b List.mem_cons_self) es c).2 id e he
    exact ⟨e', he', concerns_of_same he' hr.fields.2.2.1
      (fun v hval => hdirty v (hr.dirty hval)) hflights⟩

/-! ## Membership -/

/-- The chain accounts for an entry, or an open batch in copy-on mode that knows its version. -/
def Held (L : Ledger K V) (id : EntryId) (e : Entry K V) : Prop :=
  e.inChain = true ∨ ∃ b ∈ L.batches, b.copyOn = true ∧ (id, e.version) ∈ b.entries

/-- Everything unflushed is accounted for. -/
def Kept (L : Ledger K V) : Prop :=
  ∀ id e v, L.entries[id]? = some e → L.Unflushed id v → Held L id e

theorem Held.of_same {e' : Entry K V} (hh : Held L id e) (hversion : e'.version = e.version)
    (hin : e'.inChain = e.inChain) (hbs : ∀ b ∈ L.batches, b ∈ L'.batches) : Held L' id e' := by
  rcases hh with hh | ⟨b, hb, hcopy, hmem⟩
  · exact .inl (hin.trans hh)
  · exact .inr ⟨b, hbs b hb, hcopy, hversion ▸ hmem⟩

/-- Draining moves entries from the chain to the batch, with the versions that they have. -/
theorem Held.drain {es : Entries K V} {c : DirtyChain} {bs : List Batch} {fs fs' : List (Flight V)}
    {e' : Entry K V} (hlinks : Links es c ids) (limit : Nat) (copyOn : Bool)
    (he : es[id]? = some e) (he' : (Cache.takeDirty copyOn limit es c).2.1[id]? = some e')
    (hh : Held ⟨es, c, bs, fs⟩ id e) :
    Held ⟨(Cache.takeDirty copyOn limit es c).2.1, (Cache.takeDirty copyOn limit es c).2.2,
      { entries := (Cache.takeDirty copyOn limit es c).1, copyOn } :: bs, fs'⟩ id e' := by
  obtain ⟨hfirst, -, heach, hversions⟩ := Cache.takeDirty_taken copyOn limit hlinks
  obtain ⟨e'', he'', n, rfl⟩ := heach.2 id e he
  rw [he'] at he''
  obtain rfl := Option.some.inj he''
  rcases hh with hh | ⟨b, hb, hcopy, hmem⟩
  · by_cases htaken : copyOn = true ∧ id ∈ ids.take limit
    · refine .inr ⟨_, List.mem_cons_self, htaken.1, ?_⟩
      obtain ⟨⟨_, version⟩, hp, rfl⟩ := List.mem_map.1 (hfirst ▸ htaken.2)
      obtain ⟨e₀, he₀, rfl⟩ := hversions _ hp
      obtain rfl : e = e₀ := Option.some.inj (he.symm.trans he₀)
      exact hp
    · exact .inl (by simp [htaken, hh])
  · exact .inr ⟨b, List.mem_cons_of_mem _ hb, hcopy, hmem⟩

/-- Finishing a batch takes only entries out of the chain that become clean. -/
theorem Held.finish {es : Entries K V} {c : DirtyChain} {b : Batch} {bs : List Batch}
    {fs : List (Flight V)} {e' : Entry K V} (how : Finish) (hdistinct : b.ids.Nodup)
    (hr : b.Finished how id e e') (hclean : e'.value = .dirty v ∨ e'.value = .pending)
    (hh : Held ⟨es, c, b :: bs, fs⟩ id e) :
    Held ⟨(b.finish how es c).1, (b.finish how es c).2, bs, fs⟩ id e' := by
  obtain ⟨n, d, hd, rfl⟩ := hr
  have hothers {x : Entry K V} (h : ∃ b' ∈ bs, b'.copyOn = true ∧ (id, e.version) ∈ b'.entries)
      (hversion : x.version = e.version) :
      Held ⟨(b.finish how es c).1, (b.finish how es c).2, bs, fs⟩ id x := by
    obtain ⟨b', hb', hcopy, hmem⟩ := h
    exact .inr ⟨b', hb', hcopy, hversion ▸ hmem⟩
  have hwhere : e.inChain = true ∨ (b.copyOn = true ∧ (id, e.version) ∈ b.entries) ∨
      ∃ b' ∈ bs, b'.copyOn = true ∧ (id, e.version) ∈ b'.entries := by
    rcases hh with hin | ⟨b', hb', hcopy, hmem⟩
    · exact .inl hin
    · rcases List.mem_cons.1 hb' with rfl | hb'
      · exact .inr (.inl ⟨hcopy, hmem⟩)
      · exact .inr (.inr ⟨b', hb', hcopy, hmem⟩)
  rcases hd with ⟨hnot, rfl⟩ | ⟨i, version, hi, rfl⟩
  · rcases hwhere with hin | ⟨-, hmem⟩ | hrest
    · exact .inl hin
    · exact absurd (Batch.mem_ids hmem) hnot
    · exact hothers hrest rfl
  · cases hfate : Batch.fate how b.copyOn (decide (i < b.consumed)) version e with
    | clean =>
      -- Neither a dirty nor a pending value comes of a clean one.
      rw [hfate] at hclean
      rcases hclean with hval | hval
      · exact absurd rfl (Batch.apply_dirty hval).2
      · exact absurd ((Batch.apply_pending _ _ _).1 hval) (Batch.fate_eq_clean hfate).2.2.1
    | leave =>
      rcases hwhere with hin | ⟨-, hmem⟩ | hrest
      · exact .inl hin
      · rcases (Batch.fate_eq_leave hfate).2 with hin | hne
        · exact .inl hin
        · exact absurd (Batch.version_unique hdistinct hmem (List.mem_of_getElem? hi)) hne
      · exact hothers hrest rfl
    | relink =>
      cases hcopy : b.copyOn with
      | true => exact .inl (by simp [Batch.Fate.apply])
      | false =>
        rcases hwhere with hin | ⟨hcopy', -⟩ | hrest
        · exact .inl (by simp [Batch.Fate.apply, hin])
        · simp [hcopy] at hcopy'
        · exact hothers hrest rfl

/-- An entry that is not marked dirty keeps its place, or ceases to be unflushed. -/
theorem Step.held {e' : Entry K V} (hc : Chained L ids) (ho : Owned L) (hs : Step L L')
    (he : L.entries[id]? = some e) (he' : L'.entries[id]? = some e')
    (hversion : e'.version = e.version) (hh : Held L id e) (hu : L'.Unflushed id v) :
    Held L' id e' := by
  have hsame {R : EntryId → Entry K V → Entry K V → Prop} {es' : Entries K V}
      (heach : Entries.Each R L.entries es') (hes : es'[id]? = some e')
      (hR : R id e e' → e'.inChain = e.inChain) : e'.inChain = e.inChain := by
    obtain ⟨e'', he'', hr⟩ := heach.2 id e he
    rw [hes] at he''
    obtain rfl := Option.some.inj he''
    exact hR hr
  cases hs with
  | @reorder es c bs bs' fs fs' hb hf =>
    obtain rfl : e = e' := Option.some.inj (he.symm.trans he')
    exact hh.of_same rfl rfl fun b hmem => hb.mem_iff.1 hmem
  | quiet hq => exact hh.of_same hversion (hsame hq he' fun hr => hr.inChain) fun _ hb => hb
  | insertReady key w now =>
    obtain rfl : e = e' := Option.some.inj ((Entries.getElem?_push_of_some he).symm.trans he')
    exact hh.of_same rfl rfl fun _ hb => hb
  | insertPending key now =>
    obtain rfl : e = e' := Option.some.inj ((Entries.getElem?_push_of_some he).symm.trans he')
    exact hh.of_same rfl rfl fun _ hb => hb
  | @start es c bs fs id₀ =>
    exact hh.of_same hversion (hsame (Entries.each_begin id₀ es) he' fun hr => hr.2.1)
      fun _ hb => hb
  | @settle es c bs fs f g hg =>
    exact hh.of_same hversion (hsame (Entries.each_sameMarks f.entry hg es) he'
      fun hr => hr.inChain) fun _ hb => hb
  | @enlist es c bs old fs id₀ w g hlt hg =>
    refine hh.of_same hversion (hsame (marked_each id₀ w hg es c) he' ?_) fun _ hb => hb
    rintro (⟨-, n, rfl⟩ | ⟨-, -, -, -, hmarked, -⟩)
    · rfl
    · omega
  | drain limit copyOn => exact hh.drain hc.links limit copyOn he he'
  | @consume es c bs fs b n =>
    obtain rfl : e = e' := Option.some.inj (he.symm.trans he')
    rcases hh with hh | ⟨b', hb', hcopy, hmem⟩
    · exact .inl hh
    · rcases List.mem_cons.1 hb' with rfl | hb'
      · exact .inr ⟨_, List.mem_cons_self, hcopy, hmem⟩
      · exact .inr ⟨b', List.mem_cons_of_mem _ hb', hcopy, hmem⟩
  | @finish es c bs fs how b =>
    have hdistinct := hc.distinct b List.mem_cons_self
    obtain ⟨e'', he'', hr⟩ := (finish_each how b hdistinct es c).2 id e he
    obtain rfl : e' = e'' := Option.some.inj (he'.symm.trans he'')
    refine hh.finish how hdistinct hr (v := v) ?_
    -- An entry that becomes clean is not unflushed: it is neither dirty nor being updated.
    rcases hu with ⟨e₁, he₁, hval⟩ | ⟨f, hf, rfl, -⟩
    · obtain rfl : e' = e₁ := Option.some.inj (he'.symm.trans he₁)
      exact .inl hval
    · obtain ⟨e₁, he₁, hval, -⟩ := ho.pending f hf
      obtain rfl : e = e₁ := Option.some.inj (he.symm.trans he₁)
      exact .inr (hr.fields.2.2.2.2 hval)

/-- Nothing that is new is unflushed. -/
theorem Step.fresh {e' : Entry K V} (hc : Chained L ids) (ho : Owned L) (hs : Step L L')
    (he : L.entries[id]? = none) (he' : L'.entries[id]? = some e') : ¬ L'.Unflushed id v := by
  have hnone {R : EntryId → Entry K V → Entry K V → Prop} {es' : Entries K V}
      (heach : Entries.Each R L.entries es') (hes : es'[id]? = some e') : False := by
    obtain ⟨e, hsome, -⟩ := heach.backward hes
    simp [he] at hsome
  -- The flights of before are about the entries of before.
  have hflights : ∀ f ∈ L.flights, f.entry ≠ id := by
    rintro f hf rfl
    obtain ⟨e, hsome, -⟩ := ho.pending f hf
    simp [he] at hsome
  have hnew {x : Entry K V} (hes : (L.entries.push x)[id]? = some e') : x = e' := by
    rw [Array.getElem?_push, he] at hes
    split at hes
    · exact Option.some.inj hes
    · cases hes
  cases hs with
  | @reorder es c bs bs' fs fs' => simp [show es[id]? = none from he] at he'
  | quiet hq => exact (hnone hq he').elim
  | insertReady key w now =>
    obtain rfl := hnew he'
    rintro (⟨e, hsome, hval⟩ | ⟨f, hf, hid, -⟩)
    · obtain rfl := Option.some.inj (he'.symm.trans hsome)
      cases hval
    · exact hflights f hf hid
  | insertPending key now =>
    obtain rfl := hnew he'
    rintro (⟨e, hsome, hval⟩ | ⟨f, hf, hid, hprior⟩)
    · obtain rfl := Option.some.inj (he'.symm.trans hsome)
      cases hval
    · rcases List.mem_cons.1 hf with rfl | hf
      · cases hprior
      · exact hflights f hf hid
  | @start es c bs fs id₀ => exact (hnone (Entries.each_begin id₀ es) he').elim
  | @settle es c bs fs f g hg => exact (hnone (Entries.each_sameMarks f.entry hg es) he').elim
  | @enlist es c bs old fs id₀ w g hlt hg => exact (hnone (marked_each id₀ w hg es c) he').elim
  | drain limit copyOn => exact (hnone (Cache.takeDirty_taken copyOn limit hc.links).each he').elim
  | @consume es c bs fs b n => simp [show es[id]? = none from he] at he'
  | @finish es c bs fs how b =>
    exact (hnone (finish_each how b (hc.distinct b List.mem_cons_self) es c) he').elim

/-- No change loses an unflushed value. -/
theorem Kept.step (h : Kept L) (hc : Chained L ids) (ho : Owned L) (hs : Step L L') :
    Kept L' := by
  intro id e' v he' hu
  cases he : L.entries[id]? with
  | none => exact absurd hu (hs.fresh hc ho he he')
  | some e =>
    obtain ⟨e'', he'', hcon⟩ := hs.concerns hc ho he
    obtain rfl : e' = e'' := Option.some.inj (he'.symm.trans he'')
    rcases hcon with ⟨-, hin⟩ | ⟨hversion, hback⟩
    · exact .inl hin
    · exact hs.held hc ho he he' hversion (h id e v he (hback v hu)) hu

/-! ## Runs -/

/-- What holds of every ledger that comes from an empty one. -/
structure Sound (L : Ledger K V) : Prop where
  chained : ∃ ids, Chained L ids
  owned : Owned L
  kept : Kept L

theorem sound_empty : Sound (⟨#[], {}, [], []⟩ : Ledger K V) where
  chained := ⟨[], chained_empty⟩
  owned := owned_empty
  kept := by simp [Kept]

theorem Sound.step (h : Sound L) (hs : Step L L') : Sound L' := by
  obtain ⟨⟨ids, hc⟩, ho, hk⟩ := h
  exact ⟨hc.step hs, ho.step hc hs, hk.step hc ho hs⟩

theorem Sound.leads (h : Sound L) (hs : Leads L L') : Sound L' := by
  induction hs with
  | refl => exact h
  | tail _ hlast ih => exact ih.step hlast

/-- The walk along the links finds the members that are in no batch. -/
theorem Chained.mem_toList (h : Chained L ids) (he : L.entries[id]? = some e)
    (hin : e.inChain = true) : id ∈ L.chain.toList L.entries ∨
      ∃ b ∈ L.batches, b.copyOn = false ∧ id ∈ b.ids := by
  rw [h.links.toList_eq]
  rcases List.mem_append.1 ((h.member id e he).1 hin) with hid | hid
  · exact .inl hid
  · obtain ⟨b, hb, hid⟩ := List.mem_flatMap.1 hid
    unfold Batch.members at hid
    split at hid
    · cases hid
    · next hcopy => exact .inr ⟨b, hb, by simpa using hcopy, hid⟩

end

end ReadThrough.Ledger
