import ReadThrough.Proofs.Runs.Dealings
import ReadThrough.Proofs.Runs.Owners

/-! # Dates of Results

  An entry remembers when its value, or the empty result of its load, was put in place. Nothing but
  putting another result in place changes this date: neither letting the value go and finding it
  again, nor marking, nor writing back, nor an update in vain.

  - **result?**: what was put in place last, in any of the states that it may be in.
  - **Aged**: date and result of an entry stay, or the result is lost.
  - **Dated**: an entry, and the callback that runs for it, know the date of what was put in place.
  - **Dated.act**: every action keeps this that puts nothing in place.
-/

namespace ReadThrough

open Cache Entries

variable {K V : Type}

/-! ## Results -/

/-- Something that was put in place: a value, or the empty result of a load. -/
structure Deposit (V : Type) where
  tick : Nat
  made? : Option (Value V)
  deriving DecidableEq, Repr

namespace ValueState

/-- What was put in place, whether or not it can still be had. -/
def result? : ValueState V → Option (Option (Value V))
  | ready v => some (some v)
  | dirty v => some (some v)
  | detached v => some (some v)
  | missing => some none
  | _ => none

/-- The state after has no other result than the one before. -/
def Keeps (s s' : ValueState V) : Prop :=
  ∀ w?, s'.result? = some w? → s.result? = some w?

theorem Keeps.refl (s : ValueState V) : s.Keeps s := fun _ => id

theorem Keeps.trans {a b c : ValueState V} (h : a.Keeps b) (k : b.Keeps c) : a.Keeps c :=
  fun w? hw => h w? (k w? hw)

theorem keeps_of_none {s s' : ValueState V} (h : s'.result? = none) : s.Keeps s' := by
  intro w? hw
  rw [h] at hw
  cases hw

theorem keeps_resolve (held : Held) (s : ValueState V) : s.Keeps (s.resolve held) := by
  cases s with
  | detached v => by_cases h : held v.id <;> simp [Keeps, resolve, result?, h]
  | _ => exact .refl _

theorem keeps_detach (s : ValueState V) : s.Keeps s.detach := by
  cases s <;> exact .refl _

theorem keeps_clean (s : ValueState V) : s.Keeps s.clean := by
  cases s <;> exact .refl _

/-- A value that can be had was put in place. -/
theorem result?_of_peek {held : Held} {s : ValueState V} {v : Value V}
    (h : s.peek held = some v) : s.result? = some (some v) := by
  cases s with
  | ready w => exact congrArg some h
  | dirty w => exact congrArg some h
  | detached w =>
    by_cases hheld : held w.id
    · simpa [peek, result?, hheld] using h
    · simp [peek, hheld] at h
  | _ => cases h

end ValueState

namespace Entry

/-- Date and result of the entry stay, or the result is lost. -/
structure Aged (e e' : Entry K V) : Prop where
  date : e'.lastReady = e.lastReady
  kept : e.value.Keeps e'.value

variable {e e' : Entry K V}

theorem Aged.refl (e : Entry K V) : e.Aged e := ⟨rfl, .refl _⟩

theorem Aged.trans {a b c : Entry K V} (h : a.Aged b) (k : b.Aged c) : a.Aged c :=
  ⟨k.date.trans h.date, h.kept.trans k.kept⟩

theorem aged_resolve (held : Held) (e : Entry K V) : e.Aged (e.resolve held) :=
  ⟨rfl, ValueState.keeps_resolve held _⟩

theorem aged_begin (e : Entry K V) : e.Aged e.begin :=
  ⟨rfl, ValueState.keeps_of_none rfl⟩

theorem aged_retire (held : Held) (e : Entry K V) : e.Aged (e.retire held) := by
  unfold retire
  dsimp only
  split
  · exact ⟨rfl, ValueState.keeps_resolve held _⟩
  · exact ⟨rfl, ValueState.keeps_of_none rfl⟩

theorem Relinked.aged (h : e.Relinked e') : e.Aged e' := by
  obtain ⟨n, rfl⟩ := h
  exact ⟨rfl, .refl _⟩

theorem tolerant_aged : Tolerant (Aged : Entry K V → Entry K V → Prop) where
  refl := Aged.refl
  trans := Aged.trans
  removed := fun _ => ⟨rfl, .refl _⟩
  detach := fun e => ⟨rfl, e.value.keeps_detach⟩
  retire := aged_retire
  stamp := fun _ _ => ⟨rfl, .refl _⟩
  relinked := Relinked.aged

theorem Leaves.aged (h : e.Leaves e') : e.Aged e' := by
  obtain ⟨inChain, next?, rfl, -⟩ := h
  exact ⟨rfl, .refl _⟩

end Entry

/-- Whoever finishes a batch leaves dates and results alone: what is written back is clean. -/
theorem Batch.Finished.aged {b : Batch} {how : Finish} {id : EntryId} {e e' : Entry K V}
    (h : b.Finished how id e e') : e.Aged e' := by
  obtain ⟨n, d, ⟨-, rfl⟩ | ⟨i, version, -, rfl⟩, rfl⟩ := h
  · exact ⟨rfl, .refl _⟩
  · cases Batch.fate how b.copyOn (decide (i < b.consumed)) version e with
    | clean => exact ⟨rfl, e.value.keeps_clean⟩
    | leave => exact ⟨rfl, .refl _⟩
    | relink => exact ⟨rfl, .refl _⟩

/-! ## Calls -/

/-- Whether a request is for a value to be put. -/
def Request.isPut : Request K V → Bool
  | .put .. => true
  | _ => false

namespace Call

variable {held : Held} {call : Call K V} {node : EntryNode K} {e e' : Entry K V}
  {stage : Stage K V}

/-- Nobody but a put puts something in place when it looks at an entry. -/
theorem Inspects.aged (h : call.Inspects held node e e' stage)
    (hput : call.request.isPut = false) : e.Aged e' := by
  have hresolve := e.aged_resolve held
  cases h with
  | restarts hremoved => exact .refl e
  | parks hpending => exact .refl e
  | givesUp seconds hpending => exact .refl e
  | loads policy key expire acceptEmpty now hr hfind => exact hresolve.trans (Entry.aged_begin _)
  | updates key hr hpending => exact e.aged_begin
  | puts key content v now hr hpeek hpending =>
    rw [hr] at hput
    cases hput
  | marks key v now next? hr hpeek =>
    -- Marking makes the value dirty that was there already, and leaves its date alone.
    refine ⟨rfl, fun w? hw => ?_⟩
    rw [ValueState.result?_of_peek hpeek, ← hw]
    rfl
  | _ => exact hresolve

/-- A callback that starts is given the result of its entry, if anything. -/
theorem Inspects.given (h : call.Inspects held node e e' stage) {f : Flight V}
    (hf : f ∈ stage.flights) : f.entry = node.payload ∧ e.value.Keeps f.prior := by
  cases h with
  | loads policy key expire acceptEmpty now hr hfind =>
    obtain rfl := List.mem_singleton.1 hf
    exact ⟨rfl, ValueState.keeps_of_none rfl⟩
  | updates key hr hpending =>
    obtain rfl := List.mem_singleton.1 hf
    exact ⟨rfl, ValueState.keeps_resolve held _⟩
  | _ => cases hf

theorem Settles.flights {r : Return V} {epoch : Nat} {prior : ValueState V}
    (h : call.Settles r node epoch prior e e' stage) : stage.flights = [] := by
  cases h with
  | restored outcome stage hstage hvalue hload => rcases hstage with rfl | ⟨now, rfl⟩ <;> rfl
  | _ => rfl

/-- Nobody but a put inserts an entry with a value. -/
theorem Proper.firstState_eq (h : call.Proper) (hput : call.request.isPut = false) :
    call.firstState = .pending := by
  unfold Proper at h
  unfold firstState
  split at h
  · next key content hrequest =>
    rw [hrequest] at hput
    cases hput
  · rw [h]

/-- A callback that starts with a new entry is given nothing. -/
theorem insert_given [DecidableEq K] {now : Nat} {c : Cache K V} {f : Flight V}
    (hf : f ∈ (call.insert now c).2.flights) : f.prior = .unassigned := by
  have hinserts := insert_inserts (lenient_quiet.evictor c.entries) call now c
    (Entries.Quiet.refl c.entries)
  generalize call.insert now c = out at hf hinserts
  cases hinserts with
  | found m hget htable hentries hchain hstage => rcases hstage with rfl | rfl <;> cases hf
  | refused m hget hkeep hhash hentries hchain hstage =>
    rcases hstage with ⟨capacity, rfl | rfl⟩ <;> cases hf
  | made room m hget hkeep hhash htable hentries hchain hstage =>
    subst hstage
    unfold inserted at hf
    split at hf
    · cases hf
    · rw [List.mem_singleton.1 hf]

end Call

/-! ## Systems -/

/-- What an entry says about the date of a result that it has, or that the callback was given that
    runs for it. -/
def Entry.Dates (d? : Option (Deposit V)) (value : ValueState V) (e : Entry K V) : Prop :=
  ∀ made?, value.result? = some made? → d? = some ⟨e.lastReady, made?⟩

theorem Entry.dates_of_none {d? : Option (Deposit V)} {value : ValueState V} {e : Entry K V}
    (h : value.result? = none) : e.Dates d? value := by
  intro made? hmade
  rw [h] at hmade
  cases hmade

namespace System

open Entry

variable {s s' : System K V} {id : EntryId} {d? : Option (Deposit V)}

/-- An entry knows the date of what was put in place for it last, and so it does while a callback
    runs for it that may give the result back. -/
def Dated (id : EntryId) (d? : Option (Deposit V)) (s : System K V) : Prop :=
  ∀ e, s.cache.entries[id]? = some e → e.Dates d? e.value ∧
    ∀ f ∈ s.ledger.flights, f.entry = id → e.Dates d? f.prior

/-- No callback runs for an entry that is not pending, so what the entry knows is all there is to
    know. -/
theorem dated_of_dates (hs : s.Sound)
    (h : ∀ e, s.cache.entries[id]? = some e → e.value ≠ .pending ∧ e.Dates d? e.value) :
    s.Dated id d? := by
  intro e he
  obtain ⟨hne, hdates⟩ := h e he
  refine ⟨hdates, fun f hf hid => ?_⟩
  obtain ⟨e', he', hpending, -⟩ := hs.ledger.owned.pending f hf
  obtain rfl : e = e' := Option.some.inj (he.symm.trans (hid ▸ he'))
  exact absurd hpending hne

/-- The entry was there before, and it has aged at most; if it is new then there is nothing in
    place yet. -/
def Ages (id : EntryId) (s s' : System K V) : Prop :=
  ∀ e', s'.cache.entries[id]? = some e' →
    (∃ e, s.cache.entries[id]? = some e ∧ e.Aged e') ∨
      (s.cache.entries[id]? = none ∧ e'.value = .pending)

theorem ages_of_each (h : Each (fun _ => Entry.Aged) s.cache.entries s'.cache.entries) :
    s.Ages id s' :=
  fun _ he' => .inl (h.backward he')

/-- The callback was given the result of its entry, or nothing. -/
def Given (s : System K V) (f : Flight V) : Prop :=
  f.prior.result? = none ∨ ∃ e, s.cache.entries[f.entry]? = some e ∧ e.value.Keeps f.prior

theorem Dated.ages (h : s.Dated id d?) (hs : s.Sound) (hages : s.Ages id s')
    (hflights : ∀ f ∈ s'.ledger.flights, f ∈ s.ledger.flights ∨ s.Given f) : s'.Dated id d? := by
  intro e' he'
  rcases hages e' he' with ⟨e, he, haged⟩ | ⟨hnew, hpending⟩
  · obtain ⟨hvalue, hgiven⟩ := h e he
    have hdates {value : ValueState V} (hdate : e.Dates d? value) : e'.Dates d? value := by
      intro made? hmade
      rw [haged.date]
      exact hdate made? hmade
    refine ⟨hdates fun made? hmade => hvalue made? (haged.kept made? hmade), fun f hf hid => ?_⟩
    -- A callback that was running was given a result of this date, and so was one that starts.
    rcases hflights f hf with hold | hnone | ⟨e₀, he₀, hkeeps⟩
    · exact hdates (hgiven f hold hid)
    · exact dates_of_none hnone
    · rw [hid, he] at he₀
      obtain rfl := Option.some.inj he₀
      exact hdates fun made? hmade => hvalue made? (hkeeps made? hmade)
  · refine ⟨dates_of_none (by rw [hpending]; rfl), fun f hf hid => ?_⟩
    -- No callback runs for an entry that was not there, so this one has just started.
    have hnone : s.cache.entries[f.entry]? = none := hid ▸ hnew
    rcases hflights f hf with hold | hgiven | ⟨e, he, -⟩
    · obtain ⟨e, he, -⟩ := hs.ledger.owned.pending f hold
      cases hnone.symm.trans he
    · exact dates_of_none hgiven
    · cases hnone.symm.trans he

variable [DecidableEq K] {a : Action K V}

/-- A callback that runs after an action ran before, or it was given the result of its entry. -/
theorem mem_act_flights (hs : s.Sound) (ho : s.Orderly) {f : Flight V}
    (hf : f ∈ (s.act a).ledger.flights) : f ∈ s.ledger.flights ∨ s.Given f := by
  obtain ⟨call', hmem, hf⟩ := List.mem_flatMap.1 hf
  rcases mem_act_calls hmem with hold | ⟨r, rfl, rfl⟩ | ⟨i, call, ha, hi, rfl⟩
  · exact .inl (List.mem_flatMap.2 ⟨call', hold, hf⟩)
  · -- A call that has just been made runs nothing yet.
    rw [Call.flights, Call.start_stage] at hf
    cases hf
  have hcall := List.mem_of_getElem? hi
  -- Callbacks start when a call looks at an entry or inserts one, and nowhere else.
  rcases onCall_cases ha s.held s.cache call with ⟨node, now, rfl, hstage⟩ | ⟨now, rfl, hstage⟩ |
    ⟨node, rfl, hstage⟩ | ⟨r, node, epoch, prior, rfl, hstage⟩ | ⟨hpasses, -⟩
  · have hsuits := ho call hcall
    rw [hstage] at hsuits
    rw [Action.onCall, Call.advance_inspect _ _ hstage] at hf
    cases hnode : s.cache.entries[node.payload]? with
    | none =>
      rw [Call.inspect, hnode] at hf
      cases hf
    | some e =>
      obtain ⟨_, -, hinspects⟩ :=
        Call.inspect_inspects s.held now (hs.proper call hcall) hsuits hnode
      obtain ⟨hid, hkeeps⟩ := hinspects.given hf
      exact .inr (.inr ⟨e, hid ▸ hnode, hkeeps⟩)
  · rw [Action.onCall, Call.advance, hstage] at hf
    exact .inr (.inl (by rw [Call.insert_given hf]; rfl))
  · rw [Action.onCall, Call.advance, hstage] at hf
    cases hf
  · obtain ⟨-, e, he, -⟩ := exists_pending hs hcall hstage
    obtain ⟨_, -, hsettles⟩ := Call.resume_settles (c := s.cache) r hstage he
    rw [Action.onCall, Call.flights, hsettles.flights] at hf
    cases hf
  · refine .inl (List.mem_flatMap.2 ⟨call, hcall, ?_⟩)
    rw [← hpasses.flights]
    exact hf

/-- Whether an action may put something in place: a callback ends, or a put goes on. -/
def mayPlace (s : System K V) : Action K V → Bool
  | .resume .. => true
  | .advance i => s.calls[i]?.any (·.request.isPut)
  | _ => false

/-- An action that puts nothing in place lets entries age, or it adds one for its callback. -/
theorem act_ages (hs : s.Sound) (ho : s.Orderly) (ha : s.mayPlace a = false) :
    s.Ages id (s.act a) := by
  cases hclosed : a.closed? with
  -- Batches put nothing in place: entries leave the chain, become clean or go back.
  | some name =>
    cases a with
    | upkeep u =>
      cases keepUp_closes hs hclosed with
      | nothing hb h => exact ages_of_each (h.imp fun _ _ _ => Leaves.aged)
      | finishes b how hb hu h => exact ages_of_each (h.imp fun _ _ _ => Batch.Finished.aged)
      | drops b es hb h hlast =>
        exact ages_of_each (h.comp hlast fun _ _ _ _ hleaves hfinished =>
          hleaves.aged.trans hfinished.aged)
    | _ => cases hclosed
  | none =>
    cases act_deals tolerant_aged hs ho hclosed with
    | leaves h => exact ages_of_each h
    | inspects i call node now hadvance hi hstage h =>
      refine ages_of_each (h.imp fun id e e' hinspects => ?_)
      by_cases hid : id = node.payload
      · -- The call is no put, so it puts nothing in place of what it finds.
        refine (hinspects.1 hid).aged ?_
        subst hadvance
        simpa [mayPlace, hi] using ha
      · exact (hinspects.2 hid).aged
    -- An entry that is there already ages; the new one is not the entry of a put.
    | inserts i call now es node hadvance hi hstage hes hentries hnode hnext =>
      intro e' he'
      rw [hentries, Array.getElem?_push] at he'
      split at he'
      · next hid =>
        refine .inr ⟨Array.getElem?_eq_none (Nat.le_of_eq (hid.trans hes.1).symm), ?_⟩
        rw [← Option.some.inj he']
        subst hadvance
        refine (hs.proper call (List.mem_of_getElem? hi)).firstState_eq ?_
        simpa [mayPlace, hi] using ha
      · exact .inl (hes.backward he')
    -- A callback that ends may put a value in place.
    | settles r i call node epoch prior hresume hi hstage h =>
      subst hresume
      cases ha

/-- Every action that puts nothing in place keeps the dates. -/
theorem Dated.act (h : s.Dated id d?) (hs : s.Sound) (ho : s.Orderly)
    (ha : s.mayPlace a = false) : (s.act a).Dated id d? :=
  h.ages hs (act_ages hs ho ha) fun _ => mem_act_flights hs ho

end System

end ReadThrough
