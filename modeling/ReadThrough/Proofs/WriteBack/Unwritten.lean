import ReadThrough.Proofs.Runs.Tenants

/-! # Values That Are Not Written Back

  A value with changes stays where it is. Its entry is protected, so its node stays in the table,
  and an update that starts from the value gives it back unless it makes another one.

  - **Spares**: an action neither updates a key nor forgets it, and it closes no batch that marks
    the entry of the key clean.
  - **Unwritten**: the entry of a node in the table has a value that is not written back, or an
    update that started from this value is in flight.
  - **Unwritten.act**: every action that spares the key keeps this.
-/

namespace ReadThrough

open Cache Entries

variable {K V : Type}

/-! ## Actions that spare a key -/

/-- The key that a running update is about. -/
def Call.updating? (call : Call K V) : Option K :=
  match call.request, call.stage with
  | .update key, .running .. => some key
  | _, _ => none

namespace System

/-- An update of the key succeeds. -/
def Updates (k : K) (s : System K V) : Action K V → Prop
  | .resume (.value _) i => s.calls[i]?.bind Call.updating? = some k
  | _ => False

/-- A batch is closed, and the entry of the key is marked clean thereby. -/
def Cleans [DecidableEq K] (k : K) (s : System K V) (a : Action K V) : Prop :=
  a.closed?.isSome = true ∧ ∃ n ∈ s.cache.table.nodes, n.key = k ∧
    (s.cache.valueOf n.payload).isDirty = true ∧
    ((s.act a).cache.valueOf n.payload).isDirty = false

/-- The action neither updates the key nor forgets it, and it does not mark its entry clean. -/
structure Spares [DecidableEq K] (k : K) (s : System K V) (a : Action K V) : Prop where
  updates : ¬ s.Updates k a
  forgets : ¬ s.Forgets k a
  cleans : ¬ s.Cleans k a

section

variable [DecidableEq K] (k : K) (s : System K V) (a : Action K V)

instance : Decidable (s.Updates k a) :=
  match a with
  | .resume (.value _) i => inferInstanceAs (Decidable (s.calls[i]?.bind Call.updating? = some k))
  | .resume .empty _ => .isFalse id
  | .resume (.fail _) _ => .isFalse id
  | .resume (.panic _) _ => .isFalse id
  | .spawn _ => .isFalse id
  | .advance _ => .isFalse id
  | .expire _ => .isFalse id
  | .collect _ _ => .isFalse id
  | .upkeep _ => .isFalse id

instance : Decidable (s.Cleans k a) := by
  unfold Cleans
  infer_instance

instance : Decidable (s.Spares k a) :=
  decidable_of_iff (¬ s.Updates k a ∧ ¬ s.Forgets k a ∧ ¬ s.Cleans k a)
    ⟨fun ⟨hupdates, hforgets, hcleans⟩ => ⟨hupdates, hforgets, hcleans⟩,
      fun ⟨hupdates, hforgets, hcleans⟩ => ⟨hupdates, hforgets, hcleans⟩⟩

variable {k s}

/-- A critical section spares the key unless it looks the key up to forget it. -/
theorem spares_advance {i : Nat} (h : ∀ call, s.calls[i]? = some call → call.forgets? ≠ some k) :
    s.Spares k (.advance i) where
  updates := id
  forgets := by
    intro hforgets
    obtain ⟨call, hi, hcall⟩ := Option.bind_eq_some_iff.1 hforgets
    exact h call hi hcall
  cleans := by
    rintro ⟨hcloses, -⟩
    cases hcloses

theorem spares_spawn (r : Request K V) : s.Spares k (.spawn r) where
  updates := id
  forgets := id
  cleans := by
    rintro ⟨hcloses, -⟩
    cases hcloses

end

end System

/-! ## The call that looks at the entry -/

namespace Call

variable {held : Held} {call : Call K V} {node : EntryNode K} {e e' : Entry K V}
  {stage : Stage K V} {v : Value V}

/-- A look at a value with changes leaves it in place, unless it starts an update from it. -/
theorem Inspects.dirty (h : call.Inspects held node e e' stage) (hv : e.value = .dirty v) :
    e'.value = .dirty v ∨ ∃ f ∈ stage.flights, f.entry = node.payload ∧ f.prior = .dirty v := by
  have hpeek : e.value.peek held = some v := by
    rw [hv]
    rfl
  have hresolve : (e.resolve held).value = .dirty v :=
    (ValueState.resolve_eq_dirty held e.value v).2 hv
  have hfind (policy : NullPolicy) (expire : Nat) (acceptEmpty : Bool) (now : Nat) :
      e.find held policy expire acceptEmpty now ≠ .load := by
    simp [Entry.find, hv]
  -- By what the look decides; only an update takes the value out of the entry.
  cases h with
  | restarts hremoved => exact .inl hv
  | parks hpending => exact .inl hv
  | givesUp seconds hpending => exact .inl hv
  | takes w now hw hr => exact .inl hresolve
  | takesEmpty now hr hmissing => exact .inl hresolve
  | misses outcome hnone hr => exact .inl hresolve
  | refuses policy key expire acceptEmpty now limit hr hload => exact .inl hresolve
  | loads policy key expire acceptEmpty now hr hload =>
    exact absurd hload (hfind policy expire acceptEmpty now)
  | updates key hr hpending =>
    exact .inr ⟨_, List.mem_singleton.2 rfl, rfl, (ValueState.resolve_eq_dirty held _ v).2 hv⟩
  | puts key content w now hr hnone hpending =>
    rw [hpeek] at hnone
    cases hnone
  | marks key w now next? hr hw =>
    rw [hpeek] at hw
    obtain rfl := Option.some.inj hw
    exact .inl rfl

/-- An update that does not make a value gives back the one that it started from. -/
theorem Settles.dirty {r : Return V} {epoch : Nat}
    (h : call.Settles r node epoch (.dirty v) e e' stage) (hload : call.request.isLoad = false)
    (hr : ∀ content, r ≠ .value content) (hpending : e.value = .pending)
    (hepoch : e.epoch = epoch) : e'.value = .dirty v := by
  cases h with
  | loaded w now hrequest => simp [hload] at hrequest
  | empty now hrequest => simp [hload] at hrequest
  | failed now error hrequest => simp [hload] at hrequest
  | updated content w now next? hresult hrequest => exact absurd hresult (hr content)
  | restored outcome stage hstage hvalue hnone =>
    rw [← hepoch]
    exact Entry.restore_value _ hpending

end Call

/-- The flight of an entry that is not written back started from the value with the changes. -/
theorem Ledger.Owned.prior_of_unflushed {L : Ledger K V} {f : Flight V} {v : Value V}
    (h : L.Owned) (hf : f ∈ L.flights) (hunflushed : L.Unflushed f.entry v) :
    f.prior = .dirty v := by
  rcases hunflushed with ⟨e, he, hv⟩ | ⟨g, hg, hid, hprior⟩
  · -- The entry is pending as long as the flight lasts.
    obtain ⟨e', he', hpending, -⟩ := h.pending f hf
    rw [he] at he'
    obtain rfl := Option.some.inj he'
    rw [hv] at hpending
    cases hpending
  · rw [← List.inj_on_of_nodup_map h.single hg hf hid, hprior]

/-! ## The value stays -/

namespace System

variable {s : System K V} {node : EntryNode K} {v : Value V}

/-- The node is in the table, and its entry has a value with changes that are not written back, or
    an update that started from this value is in flight. -/
structure Unwritten (node : EntryNode K) (v : Value V) (s : System K V) : Prop where
  present : node ∈ s.cache.table.nodes
  unflushed : s.ledger.Unflushed node.payload v

/-- The entry of the node is dirty, or it is pending as long as the update is in flight. -/
theorem Unwritten.entry (h : s.Unwritten node v) (hs : s.Sound) :
    ∃ e, s.cache.entries[node.payload]? = some e ∧ (e.value = .dirty v ∨
      e.value = .pending ∧
        ∃ f ∈ s.ledger.flights, f.entry = node.payload ∧ f.prior = .dirty v) := by
  rcases h.unflushed with ⟨e, he, hv⟩ | ⟨f, hf, hid, hprior⟩
  · exact ⟨e, he, .inl hv⟩
  · obtain ⟨e, he, hpending, -⟩ := hs.ledger.owned.pending f hf
    rw [hid] at he
    exact ⟨e, he, .inr ⟨hpending, f, hf, hid, hprior⟩⟩

theorem Unwritten.protected (h : s.Unwritten node v) (hs : s.Sound) :
    ∃ e, s.cache.entries[node.payload]? = some e ∧ e.isProtected = true := by
  obtain ⟨e, he, hv | ⟨hpending, -⟩⟩ := h.entry hs
  · exact ⟨e, he, by simp [Entry.isProtected, hv, ValueState.isDirty]⟩
  · exact ⟨e, he, by simp [Entry.isProtected, hpending, ValueState.isPending]⟩

variable [DecidableEq K] {a : Action K V}

/-- A flight goes on unless it is ended by its own call. -/
theorem act_flights {f : Flight V} (hf : f ∈ s.ledger.flights)
    (hown : ∀ i call, a.call? = some i → s.calls[i]? = some call → f ∈ call.flights →
      f ∈ (a.onCall s.held s.cache call).2.flights) : f ∈ (s.act a).ledger.flights := by
  obtain ⟨call, hmem, hf⟩ := List.mem_flatMap.1 hf
  refine List.mem_flatMap.2 ?_
  have hgoes (outcome : Outcome V) : call.stage ≠ .done outcome := by
    intro hdone
    rw [Call.flights, hdone] at hf
    cases hf
  rcases mem_calls_act hmem hgoes with hstays | ⟨i, ha, hi⟩
  · exact ⟨call, hstays, hf⟩
  · exact ⟨_, List.mem_of_getElem? (act_getElem? ha hi), hown i call ha hi hf⟩

/-- An update that started from the value is in flight after an action as well, unless the action
    is about its call. -/
theorem unflushed_of_flight {id : EntryId} {f : Flight V} (hf : f ∈ s.ledger.flights)
    (hid : f.entry = id) (hprior : f.prior = .dirty v)
    (hown : ∀ i call, a.call? = some i → s.calls[i]? = some call → f ∈ call.flights →
      f ∈ (a.onCall s.held s.cache call).2.flights) : (s.act a).ledger.Unflushed id v :=
  .inr ⟨f, act_flights hf hown, hid, hprior⟩

/-- The callback that has taken the value out of the entry gives it back. -/
theorem Unwritten.lands (h : s.Unwritten node v) (hs : s.Reachable) {r : Return V} {i epoch : Nat}
    (ha : s.Spares node.key (.resume r i)) {call : Call K V} {m : EntryNode K}
    {prior : ValueState V} {stage : Stage K V} {e e' : Entry K V} (hi : s.calls[i]? = some call)
    (hstage : call.stage = .running m epoch prior) (hid : node.payload = m.payload)
    (he : s.cache.entries[m.payload]? = some e)
    (hsettles : call.Settles r m epoch prior e e' stage) : e'.value = .dirty v := by
  have hmem := List.mem_of_getElem? hi
  have howned := hs.sound.ledger.owned
  have hflight := mem_flights hmem hstage
  -- The callback was given the value, so it is an update of the key.
  obtain rfl : prior = .dirty v := howned.prior_of_unflushed hflight (hid ▸ h.unflushed)
  obtain ⟨key, hrequest⟩ : ∃ key, call.request = .update key := by
    have hsuits := hs.orderly call hmem
    rw [hstage] at hsuits
    exact hsuits.resolve_right fun hload => by cases hload.2
  have hload : call.request.isLoad = false := by
    rw [hrequest]
    rfl
  have hkey : key = node.key := by
    have hm : call.node? = some m := by rw [Call.node?, hstage]
    rw [← hs.keyed.request_key hmem hm h.present hid, hrequest]
    rfl
  have hr (content : V) : r ≠ .value content := by
    rintro rfl
    refine ha.updates ?_
    show s.calls[i]?.bind Call.updating? = some node.key
    rw [hi, ← hkey]
    simp [Call.updating?, hrequest, hstage]
  obtain ⟨e₀, he₀, hpending, hepoch⟩ := howned.pending _ hflight
  rw [show s.ledger.entries[m.payload]? = some e from he] at he₀
  obtain rfl := Option.some.inj he₀
  exact hsettles.dirty hload hr hpending hepoch

/-- The call that refers to the entry keeps the value, whatever it does. -/
theorem Unwritten.own (h : s.Unwritten node v) (hs : s.Reachable) (ha : s.Spares node.key a)
    {i : Nat} {call : Call K V} {m : EntryNode K} (hcall : a.call? = some i)
    (hi : s.calls[i]? = some call) (hm : call.node? = some m) (hid : node.payload = m.payload) :
    (s.act a).ledger.Unflushed node.payload v := by
  have hmem := List.mem_of_getElem? hi
  obtain ⟨e, he, hvalue⟩ := h.entry hs.sound
  rw [hid] at he hvalue ⊢
  obtain ⟨e', he', hdeals⟩ := act_own hcall hi (hs.sound.proper call hmem)
    (hs.orderly call hmem) hm
    (fun hstage => hs.tenants.left call hmem m hstage node h.present hid) he
  -- The flights of other calls go on, so only those of this call are of interest.
  have hflight {f : Flight V} (hf : f ∈ s.ledger.flights) (hfid : f.entry = m.payload)
      (hprior : f.prior = .dirty v)
      (hgoes : f ∈ call.flights → f ∈ (a.onCall s.held s.cache call).2.flights) :
      (s.act a).ledger.Unflushed m.payload v := by
    refine unflushed_of_flight hf hfid hprior fun j other hj hother hin => ?_
    rw [hcall] at hj
    obtain rfl := Option.some.inj hj
    rw [hi] at hother
    obtain rfl := Option.some.inj hother
    exact hgoes hin
  rcases hdeals with ⟨hrests, hinspects⟩ | ⟨r, epoch, prior, rfl, hstage, hsettles⟩ |
    ⟨hcalm, hsame⟩
  · rcases hvalue with hv | ⟨-, f, hf, hfid, hprior⟩
    · rcases hinspects.dirty hv with hv' | ⟨f, hf, hfid, hprior⟩
      · exact .inl ⟨e', he', hv'⟩
      · have hstays := List.mem_of_getElem? (act_getElem? hcall hi)
        exact .inr ⟨f, List.mem_flatMap.2 ⟨_, hstays, hf⟩, hfid, hprior⟩
    · exact hflight hf hfid hprior fun hin => by simp [hrests] at hin
  · exact .inl ⟨e', he', h.lands hs ha hi hstage hid he hsettles⟩
  · rcases hvalue with hv | ⟨-, f, hf, hfid, hprior⟩
    · refine .inl ⟨e', he', ?_⟩
      rcases hcalm.value (by simp [hv]) with hkept | ⟨hcleans, -⟩
      · rw [hkept, hv]
      · cases hcleans
    · exact hflight hf hfid hprior fun hin => hsame ▸ hin

/-- A value that is not written back stays so through every action that spares the key. -/
theorem Unwritten.act (h : s.Unwritten node v) (hs : s.Reachable) (ha : s.Spares node.key a) :
    (s.act a).Unwritten node v := by
  have hk := hs.keyed
  obtain ⟨e, he, hprotected⟩ := h.protected hs.sound
  have hpresent : node ∈ (s.act a).cache.table.nodes :=
    act_kept hk.table h.present he hprotected ha.forgets
  refine ⟨hpresent, ?_⟩
  by_cases hown : ∃ i call m, a.call? = some i ∧ s.calls[i]? = some call ∧
      call.node? = some m ∧ node.payload = m.payload
  · obtain ⟨i, call, m, hcall, hi, hm, hid⟩ := hown
    exact h.own hs ha hcall hi hm hid
  have hother : ∀ i call, a.call? = some i → s.calls[i]? = some call →
      ∀ m, call.node? = some m → node.payload ≠ m.payload :=
    fun i call hcall hi m hm hid => hown ⟨i, call, m, hcall, hi, hm, hid⟩
  obtain ⟨e, he, hv | ⟨-, f, hf, hid, hprior⟩⟩ := h.entry hs.sound
  · have hstays : Stays node.payload s.cache.table (s.act a).cache.table := by
      intro m hm hid
      rw [hk.distinct m hm node h.present hid]
      exact hpresent
    obtain ⟨e', he', hcalm⟩ :=
      act_calmAt hs.sound hk a (fun _ => h.protected hs.sound) hother hstays e he
    refine .inl ⟨e', he', ?_⟩
    rcases hcalm.value (by simp [hv]) with hkept | ⟨hcloses, hclean⟩
    · rw [hkept, hv]
    · -- Only an action that marks the entry clean does so.
      refine absurd ⟨hcloses, node, h.present, rfl, ?_, ?_⟩ ha.cleans
      · rw [valueOf_eq he, hv]
        rfl
      · rw [valueOf_eq he', hclean, hv]
        rfl
  · refine unflushed_of_flight hf hid hprior fun i call hcall hi hin => ?_
    -- A call whose callback runs for the entry refers to it.
    obtain ⟨m, hm, hentry⟩ := Call.node?_of_mem_flights hin
    exact absurd (hid.symm.trans hentry.symm) (hother i call hcall hi m hm)

/-- A value that is not written back stays so in every run that spares the key. -/
theorem Unwritten.actAll (h : s.Unwritten node v) (hs : s.Reachable) {as : List (Action K V)}
    (has : s.Throughout (Spares node.key) as) : (s.actAll as).Unwritten node v := by
  induction as generalizing s with
  | nil => exact h
  | cons a as ih =>
    obtain ⟨ha, hrest⟩ := has
    exact ih (h.act hs ha) (hs.actAll [a]) hrest

end System

end ReadThrough
