import ReadThrough.Proofs.Runs.Dealings
import ReadThrough.Proofs.Runs.Owners

/-! # Records of Failed Loads

  An entry remembers the error of a failed load together with the epoch of that load. The record
  outlives the load, and epochs are counted by loads and updates alike.

  - **Landing**, **landing?**: the end of a callback, as an action brings it about.
  - **filled?**: the entry in which a put finds no value and puts its own in place.
  - **Fares**, **act_fares**: all that an action can make of the record of an entry, of its epoch
    and of its being pending.
  - **ends_once**: the operation of an epoch ends once.
  - **record_origin**, **record_stays**: where a record comes from, and how long it stays.
-/

namespace ReadThrough

open Cache Entries

variable {K V : Type}

/-! ## The ends of callbacks -/

/-- The end of a callback: the entry that it ran for, the epoch at which it was started, whether it
    was a loader, and what it returned. -/
structure Landing (V : Type) where
  entry : EntryId
  epoch : Nat
  loads : Bool
  result : Return V
  deriving DecidableEq

namespace Landing

/-- Whether the end decides what the entry remembers: a load or an update has succeeded, or a load
    has failed. -/
def decides (f : Landing V) : Bool :=
  match f.result with
  | .value _ => true
  | .empty => f.loads
  | .fail _ => f.loads
  | .panic _ => false

/-- What the entry remembers of failed loads after the end. -/
def record (f : Landing V) (failure? : Option (Nat × CacheError)) : Option (Nat × CacheError) :=
  match f.result, f.loads with
  | .fail reason, true => some (f.epoch, .loader reason)
  | _, _ => if f.decides then none else failure?

theorem record_of_not_decides {f : Landing V} (h : f.decides = false)
    (failure? : Option (Nat × CacheError)) : f.record failure? = failure? := by
  unfold record
  split
  · next hresult hloads =>
    rw [decides, hresult, hloads] at h
    cases h
  · rw [h]
    rfl

/-- A new record is made by the end of the load that it is about. -/
theorem record_eq_some {f : Landing V} {failure? : Option (Nat × CacheError)} {epoch : Nat}
    {error : CacheError} (h : f.record failure? = some (epoch, error)) :
    failure? = some (epoch, error) ∨
      ∃ reason, f = ⟨f.entry, epoch, true, .fail reason⟩ ∧ error = .loader reason := by
  obtain ⟨entry, at?, loads, result⟩ := f
  unfold record at h
  split at h
  · next reason hresult hloads =>
    obtain ⟨rfl, rfl⟩ := Prod.mk.inj (Option.some.inj h)
    subst hresult hloads
    exact .inr ⟨reason, rfl, rfl⟩
  · split at h
    · cases h
    · exact .inl h

end Landing

/-! ## Records of single entries -/

namespace Entry

/-- Record, epoch and being pending are as before. -/
structure SameRecord (e e' : Entry K V) : Prop where
  pending : e'.value = .pending ↔ e.value = .pending
  epoch : e'.epoch = e.epoch
  failure : e'.failure? = e.failure?

variable {e e' : Entry K V} {epoch : Nat}

theorem isPendingAt_iff : e.isPendingAt epoch = true ↔ e.value = .pending ∧ e.epoch = epoch := by
  rw [isPendingAt, Bool.and_eq_true, ValueState.isPending_iff, beq_iff_eq]

theorem isPendingAt_of_ne (h : e.value ≠ .pending) : e.isPendingAt epoch = false :=
  Bool.eq_false_iff.2 fun hpending => h (isPendingAt_iff.1 hpending).1

theorem SameRecord.refl (e : Entry K V) : e.SameRecord e := ⟨Iff.rfl, rfl, rfl⟩

theorem SameRecord.trans {a b c : Entry K V} (h : a.SameRecord b) (k : b.SameRecord c) :
    a.SameRecord c :=
  ⟨k.pending.trans h.pending, k.epoch.trans h.epoch, k.failure.trans h.failure⟩

theorem SameRecord.isPendingAt (h : e.SameRecord e') (epoch : Nat) :
    e'.isPendingAt epoch = e.isPendingAt epoch := by
  rw [Bool.eq_iff_iff, isPendingAt_iff, isPendingAt_iff, h.pending, h.epoch]

theorem Quiet.sameRecord (h : e.Quiet e') (hfailure : e'.failure? = e.failure?) :
    e.SameRecord e' :=
  ⟨h.pending, h.toSameMarks.epoch, hfailure⟩

theorem sameRecord_resolve (held : Held) (e : Entry K V) : e.SameRecord (e.resolve held) :=
  (quiet_resolve held e).sameRecord rfl

theorem sameRecord_retire (held : Held) (e : Entry K V) : e.SameRecord (e.retire held) := by
  refine (quiet_retire held e).sameRecord ?_
  unfold retire
  dsimp only
  split <;> rfl

theorem Relinked.sameRecord (h : e.Relinked e') : e.SameRecord e' := by
  obtain ⟨n, rfl⟩ := h
  exact ⟨Iff.rfl, rfl, rfl⟩

theorem Leaves.sameRecord (h : e.Leaves e') : e.SameRecord e' := by
  obtain ⟨inChain, next?, rfl, -⟩ := h
  exact ⟨Iff.rfl, rfl, rfl⟩

theorem tolerant_sameRecord : Tolerant (SameRecord : Entry K V → Entry K V → Prop) where
  refl := SameRecord.refl
  trans := SameRecord.trans
  removed := fun e => (quiet_removed e).sameRecord rfl
  detach := fun e => (quiet_detach e).sameRecord rfl
  retire := sameRecord_retire
  stamp := fun now e => (quiet_stamp now e).sameRecord rfl
  relinked := Relinked.sameRecord

end Entry

theorem Batch.Finished.sameRecord {b : Batch} {how : Finish} {id : EntryId} {e e' : Entry K V}
    (h : b.Finished how id e e') : e.SameRecord e' := by
  obtain ⟨n, d, ⟨-, rfl⟩ | ⟨i, version, -, rfl⟩, rfl⟩ := h
  · exact ⟨Iff.rfl, rfl, rfl⟩
  · cases Batch.fate how b.copyOn (decide (i < b.consumed)) version e with
    | clean =>
      refine ⟨?_, rfl, rfl⟩
      show e.value.clean = .pending ↔ e.value = .pending
      cases e.value <;> simp [ValueState.clean]
    | _ => exact ⟨Iff.rfl, rfl, rfl⟩

/-! ## What a callback that ends makes of the record -/

/-- What the end of a callback makes of its entry's record. -/
theorem Call.resume_record {c : Cache K V} {call : Call K V} {node : EntryNode K} {epoch : Nat}
    {prior : ValueState V} {e : Entry K V} (r : Return V)
    (hstage : call.stage = .running node epoch prior) (he : c.entries[node.payload]? = some e) :
    ∃ e', (call.resume r c).1.entries[node.payload]? = some e' ∧ e'.epoch = e.epoch ∧
      e'.failure? = Landing.record ⟨node.payload, epoch, call.request.isLoad, r⟩ e.failure? := by
  have hmod (f : Entry K V → Entry K V) :
      (c.entries.modify node.payload f)[node.payload]? = some (f e) := by
    simp [Array.getElem?_modify, he]
  have hrestore : (e.restore epoch prior).epoch = e.epoch ∧
      (e.restore epoch prior).failure? = e.failure? := by
    unfold Entry.restore
    split <;> exact ⟨rfl, rfl⟩
  -- Calls that are no loads leave the record alone, unless they come to a value.
  have hupdate (hr : call.request.isLoad = false) :
      ∃ e', (settleUpdate node epoch prior r c).1.entries[node.payload]? = some e' ∧
        e'.epoch = e.epoch ∧
        e'.failure? = Landing.record ⟨node.payload, epoch, false, r⟩ e.failure? := by
    cases r with
    | value content =>
      unfold settleUpdate
      dsimp only
      rw [makeDirty_entries]
      obtain ⟨e', he', n, rfl⟩ := (enlist_each node.payload (c.allocate content).2
        (c.entries.modify node.payload (Entry.install (.dirty (c.allocate content).2) c.now))
        c.chain).2 _ _ (hmod _)
      rw [if_pos rfl] at he'
      exact ⟨_, he', rfl, rfl⟩
    | _ => exact ⟨_, hmod _, hrestore⟩
  unfold resume
  rw [hstage]
  dsimp only
  cases hr : call.request with
  | load key expire acceptEmpty =>
    cases r with
    -- A loader that panics leaves the record alone, and any other end of it makes one.
    | panic reason => exact ⟨_, hmod _, hrestore⟩
    | _ => exact ⟨_, hmod _, rfl, rfl⟩
  | _ => exact hupdate (by rw [hr]; rfl)

/-! ## Actions -/

namespace System

/-- The end of a callback that an action brings about. -/
def landing? (s : System K V) : Action K V → Option (Landing V)
  | .resume r i =>
    s.calls[i]?.bind fun call =>
      match call.stage with
      | .running node epoch _ => some ⟨node.payload, epoch, call.request.isLoad, r⟩
      | _ => none
  | _ => none

/-- The entry in which a put finds no value, so that it puts its own in place. -/
def filled? (s : System K V) : Action K V → Option EntryId
  | .advance i =>
    s.calls[i]?.bind fun call =>
      match call.request, call.stage with
      | .put .., .inspect node _ =>
        if s.cache.entries[node.payload]?.any fun e =>
            !e.removed && !e.value.isPending && (e.value.peek s.held).isNone then
          some node.payload
        else none
      | _, _ => none
  | _ => none

/-- What an action makes of the record of an entry, of its epoch and of its being pending. -/
inductive Fares (s : System K V) (a : Action K V) (id : EntryId) (e e' : Entry K V) : Prop where
  /-- It leaves them alone. -/
  | same (h : e.SameRecord e')
  /-- A load or an update starts. -/
  | begins (hidle : e.value ≠ .pending) (hepoch : e'.epoch = e.epoch + 1)
      (hfailure : e'.failure? = e.failure?)
  /-- The callback of a load or of an update ends. -/
  | ends (f : Landing V) (hf : s.landing? a = some f) (hid : f.entry = id)
      (hpending : e.value = .pending) (hat : e.epoch = f.epoch) (hover : e'.value ≠ .pending)
      (hepoch : e'.epoch = e.epoch) (hfailure : e'.failure? = f.record e.failure?)
  /-- A put puts its value in place. -/
  | filled (hf : s.filled? a = some id) (hover : e'.value ≠ .pending)
      (hepoch : e'.epoch = e.epoch) (hfailure : e'.failure? = none)

section

variable {s : System K V} {a : Action K V} {i : Nat} {call : Call K V} {node : EntryNode K}
  {epoch now : Nat} {prior : ValueState V} {e : Entry K V}

theorem landing?_eq (r : Return V) (hi : s.calls[i]? = some call)
    (hstage : call.stage = .running node epoch prior) :
    s.landing? (.resume r i) = some ⟨node.payload, epoch, call.request.isLoad, r⟩ := by
  simp [landing?, hi, hstage]

theorem exists_of_landing? {f : Landing V} (h : s.landing? a = some f) :
    ∃ i call node prior, a = .resume f.result i ∧ s.calls[i]? = some call ∧
      call.stage = .running node f.epoch prior ∧ node.payload = f.entry := by
  cases a with
  | resume r i =>
    obtain ⟨call, hi, hf⟩ := Option.bind_eq_some_iff.1 h
    split at hf
    · next node epoch prior hstage =>
      obtain rfl := Option.some.inj hf
      exact ⟨i, call, node, prior, rfl, hi, hstage, rfl⟩
    · cases hf
  | _ => cases h

/-- The entry of a callback that ends is pending at the epoch of the callback. -/
theorem landing?_pending (hs : s.Sound) {f : Landing V} (h : s.landing? a = some f) :
    ∃ e, s.cache.entries[f.entry]? = some e ∧ e.value = .pending ∧ e.epoch = f.epoch := by
  obtain ⟨i, call, node, prior, -, hi, hstage, hentry⟩ := exists_of_landing? h
  exact hentry ▸ (exists_pending hs (List.mem_of_getElem? hi) hstage).2

theorem filled?_eq {key : K} {content : V} (hi : s.calls[i]? = some call)
    (hr : call.request = .put key content) (hstage : call.stage = .inspect node now)
    (he : s.cache.entries[node.payload]? = some e) (hremoved : e.removed = false)
    (hpending : e.value ≠ .pending) (hpeek : e.value.peek s.held = none) :
    s.filled? (.advance i) = some node.payload := by
  have hidle : e.value.isPending = false := by
    rw [← Bool.not_eq_true, ValueState.isPending_iff]
    exact hpending
  simp [filled?, hi, hr, hstage, he, hremoved, hidle, hpeek]

end

section

variable [DecidableEq K] {s : System K V} {a : Action K V} {id : EntryId} {e e' : Entry K V}

/-- A put that meets an entry which has left the table starts again. -/
theorem advance_removed {call : Call K V} {node : EntryNode K} {now : Nat} {key : K}
    {content : V} (hr : call.request = .put key content) (hstage : call.stage = .inspect node now)
    (he : s.cache.entries[node.payload]? = some e) (hremoved : e.removed = true) :
    (call.advance s.held s.cache).2.stage = .lookup := by
  rw [Call.advance_inspect _ _ hstage]
  show (Call.inspect s.held call node now s.cache).2 = .lookup
  unfold Call.inspect
  rw [he, hr]
  dsimp only
  rw [Call.inspectPut, if_pos hremoved]

/-- How an entry fares that a call looks at. -/
theorem fares_of_inspects {i : Nat} {call : Call K V} {node : EntryNode K} {now : Nat}
    {stage : Stage K V} (hi : s.calls[i]? = some call) (hstage : call.stage = .inspect node now)
    (he : s.cache.entries[node.payload]? = some e)
    (hnext : (call.advance s.held s.cache).2.stage = stage)
    (h : call.Inspects s.held node e e' stage) : s.Fares (.advance i) node.payload e e' := by
  have hresolve := Entry.sameRecord_resolve s.held e
  cases h with
  | restarts _ => exact .same (.refl e)
  | parks _ => exact .same (.refl e)
  | givesUp _ _ => exact .same (.refl e)
  | takes _ _ _ _ => exact .same hresolve
  | takesEmpty _ _ _ => exact .same hresolve
  | misses _ _ _ => exact .same hresolve
  | refuses _ _ _ _ _ _ _ _ => exact .same hresolve
  | loads policy key expire acceptEmpty now hr hfind =>
    refine .begins (fun hpending => ?_) rfl rfl
    simp [Entry.find, hpending] at hfind
  | updates key hr hpending => exact .begins hpending rfl rfl
  | puts key content v now hr hpeek hpending =>
    refine .filled (filled?_eq hi hr hstage he ?_ hpending hpeek) (fun hready => ?_) rfl rfl
    case refine_2 => cases hready
    -- In an entry that has left the table a put does not fill anything in.
    by_contra hremoved
    rw [Bool.not_eq_false] at hremoved
    have hlookup := advance_removed hr hstage he hremoved
    rw [hnext] at hlookup
    cases hlookup
  | marks key v now next? hr hpeek =>
    refine .same ⟨?_, rfl, rfl⟩
    have hpending := ValueState.ne_pending_of_peek hpeek
    exact ⟨fun hdirty => (by cases hdirty), fun h => absurd h hpending⟩

omit [DecidableEq K] in
/-- How an entry fares whose callback ends. -/
theorem fares_of_resume (hs : s.Sound) {r : Return V} {i : Nat} {call : Call K V}
    {node : EntryNode K} {epoch : Nat} {prior : ValueState V} (hi : s.calls[i]? = some call)
    (hstage : call.stage = .running node epoch prior)
    (he : s.cache.entries[node.payload]? = some e)
    (he' : (call.resume r s.cache).1.entries[node.payload]? = some e') :
    s.Fares (.resume r i) node.payload e e' := by
  obtain ⟨hprior, e₀, he₀, hpending, hat⟩ :=
    exists_pending hs (List.mem_of_getElem? hi) hstage
  obtain rfl : e = e₀ := Option.some.inj (he.symm.trans he₀)
  obtain ⟨e₁, he₁, hepoch, hfailure⟩ := Call.resume_record r hstage he
  obtain rfl : e₁ = e' := Option.some.inj (he₁.symm.trans he')
  obtain ⟨e₂, he₂, hsettles⟩ := Call.resume_settles r hstage he
  obtain rfl : e₂ = e₁ := Option.some.inj (he₂.symm.trans he')
  exact .ends _ (landing?_eq r hi hstage) rfl hpending hat
    (hsettles.ne_pending hprior hpending hat) hepoch hfailure

/-- All that an action can make of an entry. -/
theorem act_fares (hs : s.Reachable) (a : Action K V) (he : s.cache.entries[id]? = some e) :
    ∃ e', (s.act a).cache.entries[id]? = some e' ∧ s.Fares a id e e' := by
  have hsame {R : EntryId → Entry K V → Entry K V → Prop} {es : Entries K V}
      (h : Each R s.cache.entries es) (hR : ∀ j e e', R j e e' → e.SameRecord e') :
      ∃ e', es[id]? = some e' ∧ s.Fares a id e e' := by
    obtain ⟨e', he', hfares⟩ := h.2 id e he
    exact ⟨e', he', .same (hR _ _ _ hfares)⟩
  cases hclosed : a.closed? with
  -- What closes a batch has to do with values and the chain only.
  | some name =>
    cases a with
    | upkeep u =>
      cases keepUp_closes hs.sound hclosed with
      | nothing hb h => exact hsame h fun _ _ _ => Entry.Leaves.sameRecord
      | finishes b how hb hu h => exact hsame h fun _ _ _ => Batch.Finished.sameRecord
      | drops b es hb h hlast =>
        refine hsame (h.comp (T := fun _ => Entry.SameRecord) hlast ?_) fun _ _ _ h => h
        exact fun _ _ _ _ hab hbc => hab.sameRecord.trans hbc.sameRecord
    | _ => cases hclosed
  | none =>
    cases act_deals Entry.tolerant_sameRecord hs.sound hs.orderly hclosed with
    | leaves h => exact hsame h fun _ _ _ h => h
    | inspects i call node now ha hi hstage h =>
      subst ha
      obtain ⟨e', he', hown, hother⟩ := h.2 id e he
      refine ⟨e', he', ?_⟩
      by_cases hid : id = node.payload
      · subst hid
        exact fares_of_inspects hi hstage he rfl (hown rfl)
      · exact .same (hother hid).sameRecord
    -- Entries that are evicted for the new one keep their records.
    | inserts i call now es node ha hi hstage hes hentries hnode hnext =>
      obtain ⟨e', he', hrecord⟩ := hes.2 id e he
      refine ⟨e', ?_, .same hrecord⟩
      rw [hentries]
      exact getElem?_push_of_some he'
    | settles r i call node epoch prior ha hi hstage h =>
      subst ha
      obtain ⟨e', he', -, hother⟩ := h.2 id e he
      refine ⟨e', he', ?_⟩
      by_cases hid : id = node.payload
      · subst hid
        rw [act_cache rfl hi] at he'
        exact fares_of_resume hs.sound hi hstage he he'
      · exact .same (hother hid).sameRecord

/-- A new entry remembers nothing. -/
theorem act_fresh (hs : s.Reachable) {a : Action K V} (he : s.cache.entries[id]? = none)
    (he' : (s.act a).cache.entries[id]? = some e') : e'.failure? = none := by
  have hold {R : EntryId → Entry K V → Entry K V → Prop} {es : Entries K V}
      (h : Each R s.cache.entries es) {e' : Entry K V} (he' : es[id]? = some e') : False := by
    obtain ⟨e, he₀, -⟩ := h.backward he'
    rw [he] at he₀
    cases he₀
  cases hclosed : a.closed? with
  | some name =>
    cases a with
    | upkeep u =>
      cases keepUp_closes hs.sound hclosed with
      | nothing hb h => exact (hold h he').elim
      | finishes b how hb hu h => exact (hold h he').elim
      | drops b es hb h hlast =>
        obtain ⟨e₁, he₁, -⟩ := hlast.backward he'
        exact (hold h he₁).elim
    | _ => cases hclosed
  | none =>
    cases act_deals Entry.tolerant_sameRecord hs.sound hs.orderly hclosed with
    | leaves h => exact (hold h he').elim
    | inspects i call node now ha hi hstage h => exact (hold h he').elim
    | inserts i call now es node ha hi hstage hes hentries hnode hnext =>
      rw [hentries, Array.getElem?_push] at he'
      split at he'
      · rw [← Option.some.inj he']
        rfl
      · exact (hold hes he').elim
    | settles r i call node epoch prior ha hi hstage h => exact (hold h he').elim

/-! ## Operations that are over -/

/-- The action brings the end of a callback about. -/
def Ends (f : Landing V) (s : System K V) (a : Action K V) : Prop :=
  s.landing? a = some f

/-- The action decides what the entry remembers of failed loads: a load or an update of it succeeds,
    a load of it fails, or a put puts its value in place. -/
def Rewrites (id : EntryId) (s : System K V) (a : Action K V) : Prop :=
  s.filled? a = some id ∨ (s.landing? a).any (fun f => f.entry == id && f.decides) = true

instance [DecidableEq V] (f : Landing V) (s : System K V) (a : Action K V) :
    Decidable (s.Ends f a) :=
  inferInstanceAs (Decidable (s.landing? a = some f))

instance (id : EntryId) (s : System K V) (a : Action K V) : Decidable (s.Rewrites id a) :=
  inferInstanceAs (Decidable (s.filled? a = some id ∨ _ = true))

/-- The operation that was started at an epoch of an entry is over. -/
def Over (id : EntryId) (epoch : Nat) (s : System K V) : Prop :=
  ∃ e, s.cache.entries[id]? = some e ∧ epoch ≤ e.epoch ∧ e.isPendingAt epoch = false

variable {epoch : Nat} {as : List (Action K V)} {f g : Landing V}

theorem Over.act (h : s.Over id epoch) (hs : s.Reachable) (a : Action K V) :
    (s.act a).Over id epoch := by
  obtain ⟨e, he, hle, hover⟩ := h
  obtain ⟨e', he', hfares⟩ := act_fares hs a he
  refine ⟨e', he', ?_⟩
  cases hfares with
  | same h => exact ⟨h.epoch ▸ hle, (h.isPendingAt epoch).trans hover⟩
  | begins hidle hepoch hfailure =>
    -- The epoch that starts now is a later one.
    refine ⟨by omega, Bool.eq_false_iff.2 fun hpending => ?_⟩
    have hat := (Entry.isPendingAt_iff.1 hpending).2
    omega
  | ends f hf hid hpending hat hdone hepoch hfailure =>
    exact ⟨hepoch ▸ hle, Entry.isPendingAt_of_ne hdone⟩
  | filled hf hdone hepoch hfailure => exact ⟨hepoch ▸ hle, Entry.isPendingAt_of_ne hdone⟩

theorem Over.actAll (h : s.Over id epoch) (hs : s.Reachable) (as : List (Action K V)) :
    (s.actAll as).Over id epoch := by
  induction as generalizing s with
  | nil => exact h
  | cons a as ih => exact ih (h.act hs a) (hs.actAll [a])

omit [DecidableEq K] in
/-- What is over does not end again. -/
theorem Over.not_ends (h : s.Over f.entry f.epoch) (hs : s.Sound) : ¬ s.Ends f a := by
  intro hends
  obtain ⟨e, he, -, hover⟩ := h
  obtain ⟨e', he', hpending, hepoch⟩ := landing?_pending hs hends
  obtain rfl : e' = e := Option.some.inj (he'.symm.trans he)
  rw [Entry.isPendingAt_iff.2 ⟨hpending, hepoch⟩] at hover
  cases hover

theorem over_of_ends (hs : s.Reachable) (h : s.Ends f a) : (s.act a).Over f.entry f.epoch := by
  obtain ⟨i, call, node, prior, rfl, hi, hstage, hentry⟩ := exists_of_landing? h
  obtain ⟨hprior, e, he, hpending, hepoch⟩ :=
    exists_pending hs.sound (List.mem_of_getElem? hi) hstage
  obtain ⟨e', he', hsettles⟩ := Call.resume_settles f.result hstage he
  obtain ⟨e₁, he₁, hsame, -⟩ := Call.resume_record f.result hstage he
  obtain rfl : e₁ = e' := Option.some.inj (he₁.symm.trans he')
  refine ⟨e₁, ?_, by omega, ?_⟩
  · rw [act_cache rfl hi, ← hentry]
    exact he₁
  · exact Entry.isPendingAt_of_ne (hsettles.ne_pending hprior hpending hepoch)

/-- What has ended in a run is over after it. -/
theorem over_of_sometime (hs : s.Reachable) (h : s.Sometime (Ends f) as) :
    (s.actAll as).Over f.entry f.epoch := by
  induction as generalizing s with
  | nil => exact h.elim
  | cons a as ih =>
    rcases h with h | h
    · exact (over_of_ends hs h).actAll (hs.actAll [a]) as
    · exact ih (hs.actAll [a]) h

theorem Over.not_sometime (h : s.Over f.entry f.epoch) (hs : s.Reachable) :
    ¬ s.Sometime (Ends f) as := by
  induction as generalizing s with
  | nil => exact fun h => h
  | cons a as ih => exact not_or.2 ⟨h.not_ends hs.sound, ih (h.act hs a) (hs.actAll [a])⟩

/-- The operation of an epoch of an entry ends once in a run. -/
theorem ends_once (hs : s.Reachable) (hf : s.Sometime (Ends f) as) (hg : s.Sometime (Ends g) as)
    (hentry : f.entry = g.entry) (hepoch : f.epoch = g.epoch) : f = g := by
  induction as generalizing s with
  | nil => exact hf.elim
  | cons a as ih =>
    rcases hf with hf | hf
    · rcases hg with hg | hg
      · exact Option.some.inj (hf.symm.trans hg)
      · have hover := over_of_ends hs hf
        rw [hentry, hepoch] at hover
        exact absurd hg (hover.not_sometime (hs.actAll [a]))
    · rcases hg with hg | hg
      · have hover := over_of_ends hs hg
        rw [← hentry, ← hepoch] at hover
        exact absurd hf (hover.not_sometime (hs.actAll [a]))
      · exact ih (hs.actAll [a]) hf hg

/-! ## Records -/

/-- What an entry remembers of failed loads. -/
def failureOf (id : EntryId) (s : System K V) : Option (Nat × CacheError) :=
  s.cache.entries[id]?.bind Entry.failure?

omit [DecidableEq K] in
theorem failureOf_eq (he : s.cache.entries[id]? = some e) : s.failureOf id = e.failure? := by
  rw [failureOf, he]
  rfl

/-- A record is there from the start, or it is that of a load which has failed in the run. -/
theorem record_origin (hs : s.Reachable) {error : CacheError}
    (h : (s.actAll as).failureOf id = some (epoch, error)) :
    s.failureOf id = some (epoch, error) ∨ ∃ reason, error = .loader reason ∧
      s.Sometime (Ends ⟨id, epoch, true, .fail reason⟩) as := by
  induction as generalizing s with
  | nil => exact .inl h
  | cons a as ih =>
    -- The record is there after the first action, or it is made later on.
    rcases ih (hs.actAll [a]) h with hmade | ⟨reason, herror, hlater⟩
    · cases he : s.cache.entries[id]? with
      -- A new entry has no record.
      | none =>
        obtain ⟨e', he', hfailure⟩ := Option.bind_eq_some_iff.1 hmade
        have he' : (s.act a).cache.entries[id]? = some e' := he'
        rw [act_fresh hs he he'] at hfailure
        cases hfailure
      | some e =>
        obtain ⟨e', he', hfares⟩ := act_fares hs a he
        have hmade : (s.act a).failureOf id = some (epoch, error) := hmade
        rw [failureOf_eq he'] at hmade
        rw [failureOf_eq he]
        cases hfares with
        | same hsame => exact .inl (hsame.failure ▸ hmade)
        | begins hidle hepoch hfailure => exact .inl (hfailure ▸ hmade)
        -- The record is the one that the end of this callback has made, or it was there before.
        | ends f hf hid hpending hat hdone hepoch hfailure =>
          rw [hfailure] at hmade
          rcases Landing.record_eq_some hmade with hold | ⟨reason, hload, herror⟩
          · exact .inl hold
          · refine .inr ⟨reason, herror, .inl ?_⟩
            rw [hid] at hload
            rw [← hload]
            exact hf
        | filled hf hdone hepoch hfailure =>
          rw [hfailure] at hmade
          cases hmade
    · exact .inr ⟨reason, herror, .inr hlater⟩

/-- A record stays until a load or an update succeeds, another load fails, or a put puts its value
    in place. -/
theorem record_stays (hs : s.Reachable) {failure : Nat × CacheError}
    (h : s.failureOf id = some failure) (hsame : ¬ s.Sometime (Rewrites id) as) :
    (s.actAll as).failureOf id = some failure := by
  induction as generalizing s with
  | nil => exact h
  | cons a as ih =>
    obtain ⟨hnow, hlater⟩ := not_or.1 hsame
    refine ih (hs.actAll [a]) ?_ hlater
    obtain ⟨e, he, hfailure⟩ := Option.bind_eq_some_iff.1 h
    obtain ⟨e', he', hfares⟩ := act_fares hs a he
    rw [failureOf_eq he', ← hfailure]
    cases hfares with
    | same hsame => exact hsame.failure
    | begins hidle hepoch hfailure => exact hfailure
    | ends f hf hid hpending hat hdone hepoch hfailure =>
      rw [hfailure]
      refine Landing.record_of_not_decides (Bool.eq_false_iff.2 fun hdecides => hnow (.inr ?_)) _
      simp [hf, hid, hdecides]
    | filled hf hdone hepoch hfailure => exact absurd (.inl hf) hnow

/-- A load that fails leaves its record. -/
theorem record_of_ends (hs : s.Reachable) {reason : String}
    (h : s.Ends ⟨id, epoch, true, .fail reason⟩ a) :
    (s.act a).failureOf id = some (epoch, .loader reason) := by
  obtain ⟨i, call, node, prior, rfl, hi, hstage, hentry⟩ := exists_of_landing? h
  obtain ⟨-, e, he, -, -⟩ := exists_pending hs.sound (List.mem_of_getElem? hi) hstage
  obtain ⟨e', he', -, hfailure⟩ := Call.resume_record (.fail reason) hstage he
  have hloads : call.request.isLoad = true := by
    have hlanding := (landing?_eq (.fail reason) hi hstage).symm.trans h
    exact congrArg Landing.loads (Option.some.inj hlanding)
  rw [failureOf, act_cache rfl hi]
  show ((call.resume (.fail reason) s.cache).1.entries[id]?).bind Entry.failure? = _
  rw [← show node.payload = id from hentry, he', Option.bind_some, hfailure, hloads]
  rfl

end

end System

end ReadThrough
