import ReadThrough.Proofs.WriteBack.Membership

/-! # Pending Entries and Their Owners

  An entry is pending exactly as long as one callback runs for it.

  - **Owned**: every flight has made its entry pending at its epoch, no two flights share an entry,
    and every pending entry has a flight.
  - **Owned.step**: every change of a ledger keeps this.
-/

namespace ReadThrough.Ledger

variable {K V : Type}

/-- The pending entries and the flights belong together, one to one. -/
structure Owned (L : Ledger K V) : Prop where
  pending : ∀ f ∈ L.flights,
    ∃ e, L.entries[f.entry]? = some e ∧ e.value = .pending ∧ e.epoch = f.epoch
  prior : ∀ f ∈ L.flights, f.prior ≠ .pending
  single : (L.flights.map Flight.entry).Nodup
  claimed : ∀ id e, L.entries[id]? = some e → e.value = .pending → ∃ f ∈ L.flights, f.entry = id

section

variable {es es' : Entries K V} {c c' : DirtyChain} {bs bs' : List Batch} {fs fs' : List (Flight V)}

theorem owned_empty : Owned (⟨#[], {}, [], []⟩ : Ledger K V) where
  pending := by simp
  prior := by simp
  single := List.nodup_nil
  claimed := by simp

/-- The order of the flights is of no account, nor are chain and batches. -/
theorem Owned.perm (h : Owned ⟨es, c, bs, fs⟩) (hf : fs.Perm fs') : Owned ⟨es, c', bs', fs'⟩ where
  pending := fun f hmem => h.pending f (hf.mem_iff.2 hmem)
  prior := fun f hmem => h.prior f (hf.mem_iff.2 hmem)
  single := ((hf.map _).nodup_iff).1 h.single
  claimed := fun id e he hval => by
    obtain ⟨f, hmem, hid⟩ := h.claimed id e he hval
    exact ⟨f, hf.mem_iff.1 hmem, hid⟩

/-- Entries that stay pending or settled at their epochs keep their owners. -/
theorem Owned.of_each (h : Owned ⟨es, c, bs, fs⟩)
    {R : EntryId → Entry K V → Entry K V → Prop} (hes : Entries.Each R es es')
    (hR : ∀ id e e', R id e e' → (e'.value = .pending ↔ e.value = .pending) ∧ e'.epoch = e.epoch) :
    Owned ⟨es', c', bs', fs⟩ where
  pending := fun f hmem => by
    obtain ⟨e, he, hval, hepoch⟩ := h.pending f hmem
    obtain ⟨e', he', hr⟩ := hes.2 _ e he
    obtain ⟨hpend, hep⟩ := hR _ e e' hr
    exact ⟨e', he', hpend.2 hval, hep.trans hepoch⟩
  prior := h.prior
  single := h.single
  claimed := fun id e' he' hval => by
    obtain ⟨e, he, hr⟩ := hes.backward he'
    exact h.claimed id e he ((hR id e e' hr).1.1 hval)

theorem Owned.insertReady (h : Owned ⟨es, c, bs, fs⟩) (key : K) (v : Value V) (now : Nat) :
    Owned ⟨es.push (.new key (.ready v) now), c, bs, fs⟩ where
  pending := fun f hmem => by
    obtain ⟨e, he, hval⟩ := h.pending f hmem
    exact ⟨e, Entries.getElem?_push_of_some he, hval⟩
  prior := h.prior
  single := h.single
  claimed := fun id e he hval => by
    dsimp only at he
    rw [Array.getElem?_push] at he
    split at he
    · obtain rfl := Option.some.inj he
      cases hval
    · exact h.claimed id e he hval

theorem Owned.insertPending (h : Owned ⟨es, c, bs, fs⟩) (key : K) (now : Nat) :
    Owned ⟨es.push (.new key .pending now), c, bs, ⟨es.size, 1, .unassigned⟩ :: fs⟩ where
  pending := fun f hmem => by
    rcases List.mem_cons.1 hmem with rfl | hmem
    · exact ⟨_, Array.getElem?_push_size, rfl, rfl⟩
    · obtain ⟨e, he, hval⟩ := h.pending f hmem
      exact ⟨e, Entries.getElem?_push_of_some he, hval⟩
  prior := fun f hmem => by
    rcases List.mem_cons.1 hmem with rfl | hmem
    · simp
    · exact h.prior f hmem
  single := by
    refine List.nodup_cons.2 ⟨fun hmem => ?_, h.single⟩
    -- No earlier flight can have the place of the new entry.
    obtain ⟨f, hf, hsize⟩ := List.mem_map.1 hmem
    obtain ⟨e, he, -⟩ := h.pending f hf
    exact Nat.ne_of_lt (Array.getElem?_eq_some_iff.1 he).1 hsize
  claimed := fun id e he hval => by
    dsimp only at he
    rw [Array.getElem?_push] at he
    split at he
    · next hid => exact ⟨_, List.mem_cons_self, hid.symm⟩
    · obtain ⟨f, hf, hid⟩ := h.claimed id e he hval
      exact ⟨f, List.mem_cons_of_mem _ hf, hid⟩

theorem Owned.start (h : Owned ⟨es, c, bs, fs⟩) {id : EntryId} {e : Entry K V}
    {prior : ValueState V} (he : es[id]? = some e) (hidle : e.value ≠ .pending)
    (hsettled : prior ≠ .pending) :
    Owned ⟨es.modify id Entry.begin, c, bs, ⟨id, e.epoch + 1, prior⟩ :: fs⟩ := by
  -- Nobody owns an entry that is not pending.
  have hfree : ∀ f ∈ fs, f.entry ≠ id := by
    rintro f hmem rfl
    obtain ⟨e', he', hval, -⟩ := h.pending f hmem
    rw [he] at he'
    exact hidle (Option.some.inj he' ▸ hval)
  refine ⟨fun f hmem => ?_, fun f hmem => ?_, ?_, fun j e' he' hval => ?_⟩
  · rcases List.mem_cons.1 hmem with rfl | hmem
    · exact ⟨e.begin, by simp [Array.getElem?_modify, he], rfl, rfl⟩
    · obtain ⟨e', he', hval⟩ := h.pending f hmem
      exact ⟨e', by simp [Array.getElem?_modify, (hfree f hmem).symm, he'], hval⟩
  · rcases List.mem_cons.1 hmem with rfl | hmem
    · exact hsettled
    · exact h.prior f hmem
  · refine List.nodup_cons.2 ⟨fun hmem => ?_, h.single⟩
    obtain ⟨f, hf, hid⟩ := List.mem_map.1 hmem
    exact hfree f hf hid
  · by_cases hj : id = j
    · exact ⟨_, List.mem_cons_self, hj⟩
    · simp only [Array.getElem?_modify, hj, if_false] at he'
      obtain ⟨f, hf, hid⟩ := h.claimed j e' he' hval
      exact ⟨f, List.mem_cons_of_mem _ hf, hid⟩

/-- The entry of a flight that ends is settled, and so the other flights keep theirs. -/
theorem Owned.land (h : Owned ⟨es, c, bs, fs⟩) (id : EntryId) (old : List (Flight V))
    {new : List (Flight V)} (hfs : fs = old ++ new) (hold : ∀ f ∈ old, f.entry = id)
    (hnew : ∀ f ∈ new, f.entry ≠ id)
    {R : EntryId → Entry K V → Entry K V → Prop} (hes : Entries.Each R es es')
    (hid : ∀ e e', es[id]? = some e → R id e e' → e'.value ≠ .pending)
    (hR : ∀ j e e', j ≠ id → R j e e' →
      (e'.value = .pending ↔ e.value = .pending) ∧ e'.epoch = e.epoch) :
    Owned ⟨es', c', bs, new⟩ := by
  subst hfs
  have hmem : ∀ f ∈ new, f ∈ old ++ new := fun f => List.mem_append_right old
  refine ⟨fun f hf => ?_, fun f hf => h.prior f (hmem f hf), ?_, fun j e' he' hval => ?_⟩
  · obtain ⟨e, he, hval, hepoch⟩ := h.pending f (hmem f hf)
    obtain ⟨e', he', hr⟩ := hes.2 _ e he
    obtain ⟨hpend, hep⟩ := hR _ e e' (hnew f hf) hr
    exact ⟨e', he', hpend.2 hval, hep.trans hepoch⟩
  · have hall := h.single
    simp only [List.map_append] at hall
    exact (List.nodup_append.1 hall).2.1
  · obtain ⟨e, he, hr⟩ := hes.backward he'
    by_cases hj : j = id
    · -- The entry itself is not pending any more.
      subst hj
      exact absurd hval (hid e e' he hr)
    · obtain ⟨f, hf, rfl⟩ := h.claimed j e he ((hR j e e' hj hr).1.1 hval)
      rcases List.mem_append.1 hf with hf | hf
      · exact absurd (hold f hf) hj
      · exact ⟨f, hf, rfl⟩

end

/-- Every change of a ledger keeps pending entries and flights together. -/
theorem Owned.step {L L' : Ledger K V} {ids : List EntryId} (h : Owned L) (hc : Chained L ids)
    (hs : Step L L') : Owned L' := by
  cases hs with
  | reorder hb hf => exact h.perm hf
  | quiet hq => exact h.of_each hq fun _ _ _ hr => ⟨hr.pending, hr.epoch⟩
  | insertReady key v now => exact h.insertReady key v now
  | insertPending key now => exact h.insertPending key now
  | start he hidle hsettled _ => exact h.start he hidle hsettled
  | @settle es c bs fs f g hg hset =>
    have hne : ∀ f' ∈ fs, f'.entry ≠ f.entry := fun f' hf' heq =>
      (List.nodup_cons.1 h.single).1 (List.mem_map.2 ⟨f', hf', heq⟩)
    obtain ⟨e₀, he₀, hval₀, hepoch₀⟩ := h.pending f List.mem_cons_self
    refine h.land f.entry [f] rfl (by simp) hne
      (Entries.each_modify (R := fun j e e' => if j = f.entry then e' = g e else e' = e) f.entry g
        (fun e _ => by simp) fun j e hj => by simp [hj]) ?_ ?_
    · intro e e' he hr
      rw [if_pos rfl] at hr
      rw [he₀] at he
      obtain rfl := Option.some.inj he
      exact hr ▸ (hset e₀ hval₀ hepoch₀ (h.prior f List.mem_cons_self)).settled
    · intro j e e' hj hr
      rw [if_neg hj] at hr
      exact hr ▸ ⟨Iff.rfl, rfl⟩
  | @enlist es c bs old fs id v g hlt hg hold hidle =>
    have hne : ∀ f' ∈ fs, f'.entry ≠ id := by
      rintro f' hf' rfl
      have hsingle := h.single
      simp only [List.map_append] at hsingle
      cases old with
      | nil =>
        obtain ⟨e, he, hval, -⟩ := h.pending f' (by simpa using hf')
        exact hidle rfl e he hval
      | cons f old =>
        -- The flight that ends has the entry to itself.
        refine (List.nodup_append.1 hsingle).2.2 f'.entry ?_ f'.entry ?_ rfl
        · exact List.mem_map.2 ⟨f, List.mem_cons_self, hold f List.mem_cons_self⟩
        · exact List.mem_map_of_mem hf'
    refine h.land id old rfl hold hne (marked_each id v hg es c) ?_ ?_
    · rintro e e' - (⟨hj, -⟩ | ⟨-, hval, -⟩)
      · exact absurd rfl hj
      · simp [hval]
    · rintro j e e' hj (⟨-, n, rfl⟩ | ⟨rfl, -⟩)
      · exact ⟨Iff.rfl, rfl⟩
      · exact absurd rfl hj
  | drain limit copyOn =>
    refine h.of_each (Cache.takeDirty_taken copyOn limit hc.links).each ?_
    rintro _ _ _ ⟨n, rfl⟩
    exact ⟨Iff.rfl, rfl⟩
  | consume n => exact h.perm (.refl _)
  | finish how b =>
    exact h.of_each (finish_each how b (hc.distinct b List.mem_cons_self) _ _)
      fun _ _ _ hr => ⟨hr.fields.2.2.2, hr.fields.2.1⟩

end ReadThrough.Ledger
