import ReadThrough.Proofs.Expiry.Deposits
import ReadThrough.Proofs.Expiry.Found

/-! # Which Loads Run Their Loader

  Whether a load that nobody interferes with is served or runs its loader depends on what the entry
  of its key has, and on how long ago that was put in place.

  - **NeedsLoad**: nothing that will do is in place.
  - **find_usable**, **find_unusable**: what a load finds, by the date of what is in place.
  - **Decides**: a load runs its loader exactly if it needs to.
  - **load_decided**: this is so after every run of a single caller whose clock never goes back.
-/

namespace ReadThrough

open Cache

variable {K V : Type}

/-! ## Ages -/

/-- Something that was put in place `age` ticks ago has not expired. -/
def Unexpired (expire age : Nat) : Prop :=
  expire = 0 ∨ age < expire

/-- An empty result that was put in place `age` ticks ago is to be served at all. -/
def NullPolicy.Trusts (policy : NullPolicy) (age : Nat) : Prop :=
  match policy with
  | .keep => True
  | .retry seconds => age < seconds

namespace Entry

variable {held : Held} {policy : NullPolicy} {expire now : Nat} {acceptEmpty : Bool}
  {e : Entry K V}

theorem isFresh_iff {age : Nat} : isFresh expire age = true ↔ Unexpired expire age := by
  simp [isFresh, Unexpired]

theorem isStale_iff {age : Nat} : isStale policy age = false ↔ policy.Trusts age := by
  cases policy <;> simp [isStale, NullPolicy.Trusts]

/-- What is in place will do for a load. -/
def Usable (held : Held) (policy : NullPolicy) (expire : Nat) (acceptEmpty : Bool) (now : Nat)
    (e : Entry K V) : Prop :=
  match e.value.peek held with
  | some _ => e.value.isDirty = true ∨ Unexpired expire (now - e.lastReady)
  | none => e.value = .missing ∧ acceptEmpty = true ∧ Unexpired expire (now - e.lastReady) ∧
      policy.Trusts (now - e.lastReady)

theorem find_usable (h : e.Usable held policy expire acceptEmpty now) :
    e.find held policy expire acceptEmpty now = .hit (e.value.peek held) := by
  unfold Usable at h
  unfold find
  cases hvalue : e.value with
  | dirty v => rfl
  | ready v =>
    simp only [hvalue, ValueState.peek, ValueState.isDirty, Bool.false_eq_true, false_or] at h
    simp [ValueState.peek, isFresh_iff.2 h]
  | detached v =>
    by_cases hheld : held v.id
    · simp only [hvalue, ValueState.peek, hheld, if_true, ValueState.isDirty, Bool.false_eq_true,
        false_or] at h
      simp [ValueState.peek, hheld, isFresh_iff.2 h]
    · simp [hvalue, ValueState.peek, hheld] at h
  | missing =>
    simp only [hvalue, ValueState.peek, true_and] at h
    obtain ⟨haccepts, hfresh, htrusts⟩ := h
    simp [ValueState.peek, haccepts, isFresh_iff.2 hfresh, isStale_iff.2 htrusts]
  | _ => simp [hvalue, ValueState.peek] at h

theorem find_unusable (h : ¬ e.Usable held policy expire acceptEmpty now)
    (hne : e.value ≠ .pending) : e.find held policy expire acceptEmpty now = .load := by
  unfold Usable at h
  unfold find
  cases hvalue : e.value with
  | pending => exact absurd hvalue hne
  | dirty v => simp [hvalue, ValueState.peek, ValueState.isDirty] at h
  | ready v =>
    simp only [hvalue, ValueState.peek, ValueState.isDirty, Bool.false_eq_true, false_or,
      ← isFresh_iff] at h
    simp [ValueState.peek, h]
  | detached v =>
    by_cases hheld : held v.id
    · simp only [hvalue, ValueState.peek, hheld, if_true, ValueState.isDirty, Bool.false_eq_true,
        false_or, ← isFresh_iff] at h
      simp [ValueState.peek, hheld, h]
    · simp [ValueState.peek, hheld]
  | missing =>
    simp only [hvalue, ValueState.peek, true_and, ← isFresh_iff, ← isStale_iff] at h
    simp only [ite_eq_right_iff, Bool.and_eq_true, Bool.not_eq_true']
    rintro ⟨⟨haccepts, hfresh⟩, htrusts⟩
    exact absurd ⟨haccepts, hfresh, htrusts⟩ h
  | unassigned => rfl

end Entry

namespace System

/-! ## Loads by date -/

section

variable [DecidableEq K] (k : K) (expire : Nat) (acceptEmpty : Bool)

/-- A callback is running for the entry of the key. -/
def Pending (s : System K V) : Prop :=
  ∃ node ∈ s.cache.table.get? k, (s.cache.valueOf node.payload).isPending = true

instance (s : System K V) : Decidable (s.Pending k) := by
  unfold Pending
  infer_instance

/-- The load goes to its loader, or fails on the way to it. -/
def GoesToLoader (s : System K V) : Prop :=
  ∃ call, (s.start (.load k expire acceptEmpty)).calls[s.calls.length]? = some call ∧
    call.stage.reachesLoader = true

/-- The load is served with a value, or with an empty result: no loader runs, and nothing is
    reported. -/
def Serves (v? : Option (Value V)) (s : System K V) : Prop :=
  (s.start (.load k expire acceptEmpty)).outcome? s.calls.length = some (.value v?) ∧
    (s.start (.load k expire acceptEmpty)).cache.log = s.cache.log

/-- The empty result of the entry was put in place at a tick, and it is still to be served. -/
def EmptyHolds (tick : Nat) (s : System K V) : Prop :=
  Unexpired expire (s.cache.now - tick) ∧ s.cache.nullPolicy.Trusts (s.cache.now - tick)

/-- Nothing that will do is in place for the key, where `last` has been put in place last for each
    entry: there is no entry, or it has no value and no empty result that will do, or its value is
    not dirty and has expired. -/
def NeedsLoad (last : EntryId → Option (Deposit V)) (s : System K V) : Prop :=
  match s.cache.table.get? k with
  | none => True
  | some node =>
    match s.cache.peek s.held node.payload with
    | some v => (s.cache.valueOf node.payload).isDirty = false ∧ 0 < expire ∧
        ∃ tick, last node.payload = some ⟨tick, some v⟩ ∧ expire ≤ s.cache.now - tick
    | none => ¬ (s.cache.valueOf node.payload = .missing ∧ acceptEmpty = true ∧
        ∃ tick, last node.payload = some ⟨tick, none⟩ ∧ s.EmptyHolds expire tick)

/-- What a load of a key comes to, where `last` has been put in place last for each entry. -/
structure Decides (last : EntryId → Option (Deposit V)) (s : System K V) : Prop where
  /-- The load goes to its loader exactly if it needs to. -/
  loads : s.GoesToLoader k expire acceptEmpty ↔ s.NeedsLoad k expire acceptEmpty last
  /-- Otherwise it is served with what is in place. -/
  serves : ¬ s.NeedsLoad k expire acceptEmpty last → ∃ node,
    s.cache.table.get? k = some node ∧
      s.Serves k expire acceptEmpty (s.cache.peek s.held node.payload)
  /-- The value of the entry was put in place at some tick in the past. -/
  value : ∀ node v, s.cache.table.get? k = some node →
    s.cache.peek s.held node.payload = some v →
    ∃ tick ≤ s.cache.now, last node.payload = some ⟨tick, some v⟩
  /-- So was the empty result, which is served exactly if the load accepts it and neither the
      expiry nor the policy speaks against it. -/
  empty : ∀ node, s.cache.table.get? k = some node → s.cache.valueOf node.payload = .missing →
    ∃ tick ≤ s.cache.now, last node.payload = some ⟨tick, none⟩ ∧
      (s.Serves k expire acceptEmpty none ↔ acceptEmpty = true ∧ s.EmptyHolds expire tick)

end

section

variable [DecidableEq K] {s : System K V} {k : K} {expire : Nat} {acceptEmpty : Bool}
  {last : EntryId → Option (Deposit V)} {node : EntryNode K} {e : Entry K V} {v? : Option (Value V)}

/-- A load that finds its entry needs its loader if what is in place will not do. The dates that the
    entry knows are those of what was put in place. -/
theorem needsLoad_iff (hget : s.cache.table.get? k = some node)
    (he : s.cache.entries[node.payload]? = some e) (hdated : e.Dates (last node.payload) e.value) :
    s.NeedsLoad k expire acceptEmpty last ↔
      ¬ e.Usable s.held s.cache.nullPolicy expire acceptEmpty s.cache.now := by
  unfold NeedsLoad Entry.Usable
  rw [hget]
  dsimp only
  rw [Cache.peek, valueOf_eq he]
  -- What was put in place last has one date only, the one that the entry knows.
  cases hpeek : e.value.peek s.held with
  | some v =>
    have hlast := hdated _ (ValueState.result?_of_peek hpeek)
    simp only [not_or, Bool.not_eq_true, Unexpired, Nat.not_lt]
    constructor
    · rintro ⟨hclean, hpos, tick, htick, hage⟩
      obtain ⟨rfl, -⟩ := Deposit.mk.inj (Option.some.inj (hlast.symm.trans htick))
      exact ⟨hclean, Nat.ne_of_gt hpos, hage⟩
    · rintro ⟨hclean, hne, hage⟩
      exact ⟨hclean, Nat.pos_of_ne_zero hne, e.lastReady, hlast, hage⟩
  | none =>
    refine not_congr (and_congr_right fun hmissing => and_congr_right fun _ => ?_)
    have hlast := hdated none (by rw [hmissing]; rfl)
    constructor
    · rintro ⟨tick, htick, hholds⟩
      obtain ⟨rfl, -⟩ := Deposit.mk.inj (Option.some.inj (hlast.symm.trans htick))
      exact hholds
    · exact fun hholds => ⟨e.lastReady, hlast, hholds⟩

/-- A load that finds something that will do is served with it. -/
theorem serves_of_usable (hget : s.cache.table.get? k = some node)
    (he : s.cache.entries[node.payload]? = some e) (hpresent : e.removed = false)
    (husable : e.Usable s.held s.cache.nullPolicy expire acceptEmpty s.cache.now) :
    s.Serves k expire acceptEmpty (e.value.peek s.held) := by
  obtain ⟨q, ⟨hdone, hlog⟩, hstart⟩ :=
    start_load_hit hget he hpresent (Entry.find_usable husable)
  rw [Serves, hstart]
  exact ⟨by simp [outcome?, hdone], hlog⟩

theorem goesToLoader_of_start {q : Cache K V × Call K V}
    (hstart : s.start (.load k expire acceptEmpty) = s.withLatest q)
    (hreaches : q.2.stage.reachesLoader = true) : s.GoesToLoader k expire acceptEmpty := by
  rw [GoesToLoader, hstart]
  exact ⟨q.2, withLatest_getElem? q s, hreaches⟩

/-- A load that finds nothing that will do goes to its loader. -/
theorem goesToLoader_of_unusable (hget : s.cache.table.get? k = some node)
    (he : s.cache.entries[node.payload]? = some e) (hpresent : e.removed = false)
    (hne : e.value ≠ .pending)
    (hunusable : ¬ e.Usable s.held s.cache.nullPolicy expire acceptEmpty s.cache.now) :
    s.GoesToLoader k expire acceptEmpty := by
  obtain ⟨q, hreaches, hstart⟩ :=
    start_load_miss hget he hpresent (Entry.find_unusable hunusable hne)
  exact goesToLoader_of_start hstart hreaches

/-- A load that goes to its loader is not served. -/
theorem GoesToLoader.not_serves (h : s.GoesToLoader k expire acceptEmpty)
    (v? : Option (Value V)) : ¬ s.Serves k expire acceptEmpty v? := by
  rintro ⟨houtcome, -⟩
  obtain ⟨call, hcall, hreaches⟩ := h
  rw [outcome?, hcall, Option.map_some] at houtcome
  generalize call.stage = stage at hreaches houtcome
  cases stage with
  | done outcome =>
    obtain rfl : outcome = .value v? := Option.some.inj houtcome
    cases hreaches
  | _ => cases houtcome

/-- A load of an absent key goes to its loader, whatever was in place before. -/
theorem decides_absent (hget : s.cache.table.get? k = none) :
    s.Decides k expire acceptEmpty last := by
  obtain ⟨q, hreaches, hstart⟩ := start_load_absent hget expire acceptEmpty
  have hneeds : s.NeedsLoad k expire acceptEmpty last := by
    rw [NeedsLoad, hget]
    trivial
  exact {
    loads := ⟨fun _ => hneeds, fun _ => goesToLoader_of_start hstart hreaches⟩
    serves := fun hnot => absurd hneeds hnot
    value := fun node v hsome => by cases hget.symm.trans hsome
    empty := fun node hsome => by cases hget.symm.trans hsome }

/-- A load that finds its entry decides by the dates that the entry knows. -/
theorem decides_present (hget : s.cache.table.get? k = some node)
    (he : s.cache.entries[node.payload]? = some e) (hpresent : e.removed = false)
    (hne : e.value ≠ .pending) (hdated : e.Dates (last node.payload) e.value)
    (hpast : ∀ d, last node.payload = some d → d.tick ≤ s.cache.now) :
    s.Decides k expire acceptEmpty last := by
  have hneeds : s.NeedsLoad k expire acceptEmpty last ↔
      ¬ e.Usable s.held s.cache.nullPolicy expire acceptEmpty s.cache.now :=
    needsLoad_iff hget he hdated
  have hpeek : s.cache.peek s.held node.payload = e.value.peek s.held := by
    rw [Cache.peek, valueOf_eq he]
  have hnode {m : EntryNode K} (hsome : s.cache.table.get? k = some m) : node = m :=
    Option.some.inj (hget.symm.trans hsome)
  have hgoes : ¬ e.Usable s.held s.cache.nullPolicy expire acceptEmpty s.cache.now →
      s.GoesToLoader k expire acceptEmpty := goesToLoader_of_unusable hget he hpresent hne
  have hserves : e.Usable s.held s.cache.nullPolicy expire acceptEmpty s.cache.now →
      s.Serves k expire acceptEmpty (e.value.peek s.held) := serves_of_usable hget he hpresent
  -- A load that is served does not go to its loader, so one case decides the other.
  refine ⟨⟨fun hgoes' => ?_, fun hneeds' => hgoes (hneeds.1 hneeds')⟩, fun hnot => ?_,
    fun m v hsome hv => ?_, fun m hsome hmissing => ?_⟩
  · exact hneeds.2 fun husable => hgoes'.not_serves _ (hserves husable)
  · exact ⟨node, hget, hpeek ▸ hserves (not_not.1 (mt hneeds.2 hnot))⟩
  · obtain rfl := hnode hsome
    have hlast := hdated _ (ValueState.result?_of_peek (hpeek.symm.trans hv))
    exact ⟨e.lastReady, hpast _ hlast, hlast⟩
  · obtain rfl := hnode hsome
    have hvalue : e.value = .missing := (valueOf_eq he).symm.trans hmissing
    have hlast := hdated none (by rw [hvalue]; rfl)
    have hnone : e.value.peek s.held = none := by rw [hvalue]; rfl
    have husable : e.Usable s.held s.cache.nullPolicy expire acceptEmpty s.cache.now ↔
        acceptEmpty = true ∧ s.EmptyHolds expire e.lastReady := by
      simp only [Entry.Usable, hvalue, true_and]
      rfl
    refine ⟨e.lastReady, hpast _ hlast, hlast, fun hserved => ?_, fun hholds => ?_⟩
    · by_contra hnot
      exact (hgoes (mt husable.1 hnot)).not_serves none hserved
    · exact hnone ▸ hserves (husable.2 hholds)

theorem Sequential.decides (h : s.Sequential last)
    (hpast : ∀ id d, last id = some d → d.tick ≤ s.cache.now) (hidle : ¬ s.Pending k) :
    s.Decides k expire acceptEmpty last := by
  cases hget : s.cache.table.get? k with
  | none => exact decides_absent hget
  | some node =>
    obtain ⟨hmem, -⟩ := h.reachable.keyed.table.get?_eq_some_iff.1 hget
    obtain ⟨e, he, hpresent⟩ := h.reachable.tenants.present node hmem
    have hne : e.value ≠ .pending := fun hpending =>
      hidle ⟨node, hget, by rw [valueOf_eq he, hpending]; rfl⟩
    exact decides_present hget he hpresent hne (h.dated node.payload e he).1 (hpast node.payload)

/-! ## Clocks that never go back -/

/-- The clock does not go back in a move. -/
def Forward (s : System K V) (m : Move K V) : Prop :=
  s.cache.now ≤ (s.move m).cache.now

instance (s : System K V) (m : Move K V) : Decidable (s.Forward m) := by
  unfold Forward
  infer_instance

theorem now_le {ms : List (Move K V)} (hms : s.Along Forward ms) :
    s.cache.now ≤ (s.moveAll ms).cache.now := by
  induction ms generalizing s with
  | nil => exact Nat.le_refl _
  | cons m ms ih => exact Nat.le_trans hms.1 (ih hms.2)

/-- What a move puts in place has the date of the move. -/
theorem deposit?_tick {id : EntryId} {m : Move K V} {d : Deposit V}
    (h : s.deposit? id m = some d) : d.tick = s.cache.now := by
  unfold deposit? at h
  split at h
  · -- A callback ends.
    dsimp only at h
    split at h
    · split at h
      · obtain ⟨made?, -, rfl⟩ := Option.map_eq_some_iff.1 h
        rfl
      · cases h
    · cases h
  · -- A put is made.
    split at h
    · cases h
    split at h
    · split at h
      · rw [← Option.some.inj h]
      · cases h
    · cases h
  · cases h

/-- What a run puts in place lies in the past. -/
theorem tick_le {id : EntryId} {ms : List (Move K V)} (hms : s.Along Forward ms) {d : Deposit V}
    (hd : d ∈ s.deposits id ms) : d.tick ≤ (s.moveAll ms).cache.now := by
  induction ms generalizing s with
  | nil => cases hd
  | cons m ms ih =>
    rcases List.mem_append.1 hd with hfirst | hlater
    · rw [deposit?_tick (Option.mem_toList.1 hfirst)]
      exact now_le hms
    · exact ih hms.2 hlater

end

end System

/-- After every run of a single caller whose clock never goes back, a load of a key that is not
    pending goes to its loader, or fails on the way to it, exactly if the key has no entry, or the
    entry has nothing that will do, or its value is not dirty and was put in place `expire` ticks
    ago or earlier; and otherwise it is served with what is in place. Whatever happened to the
    entry since then makes no difference: the value was let go and found again, marked, written
    back, or updated in vain. Loads that accept no empty result never come to one. -/
theorem load_decided [DecidableEq K] (config : Config) (clock : Clock) (hashOf : K → UInt64)
    (ms : List (Move K V))
    (hclock : (System.new config clock hashOf : System K V).Along System.Forward ms)
    (htyped : (System.new config clock hashOf : System K V).Along System.Typed ms) :
    ((System.new config clock hashOf).moveAll ms).NeverEmpty ∧
      ∀ k expire acceptEmpty, ¬ ((System.new config clock hashOf).moveAll ms).Pending k →
        ((System.new config clock hashOf).moveAll ms).Decides k expire acceptEmpty
          fun id => ((System.new config clock hashOf).deposits id ms).getLast? := by
  have hnew : (System.new config clock hashOf : System K V).Reachable := ⟨_, _, _, [], rfl⟩
  have hempty : (System.new config clock hashOf : System K V).NeverEmpty := by
    simp [System.NeverEmpty, System.new]
  refine ⟨hempty.moveAll hnew htyped, fun k expire acceptEmpty hidle => ?_⟩
  have hlast := (System.sequential_new config clock hashOf).moveAll ms
  simp only [Option.or_none] at hlast
  exact hlast.decides (fun id d hd => System.tick_le hclock (List.mem_of_getLast? hd)) hidle

/-- An empty result, and a value that is marked, updated in vain, written back, let go and put
    again. -/
theorem load_decided_reattached :
    let s₀ : System Nat Nat :=
      System.new { nullPolicy := .retry 9, idlePolicy := .detach } (.manual 0) fun _ => 0
    let ms : List (Move Nat Nat) :=
      [.start (.load 1 0 true), .reply .empty, .collect none, .upkeep (.advanceClock 3),
       .start (.load 2 10 false), .upkeep (.advanceClock 1), .reply (.value 5),
       .collect (some "v"), .start (.mark 2), .collect none, .upkeep (.drain "b" 10 false),
       .upkeep (.next "b" none), .start (.update 2), .reply (.fail "no"), .collect none,
       .upkeep (.finish "b" .commit), .upkeep (.advanceClock 3), .upkeep (.idleTrim 100),
       .start (.put 2 7), .collect none]
    let last : EntryId → Option (Deposit Nat) := fun id => (s₀.deposits id ms).getLast?
    let s := s₀.moveAll ms
    s.cache.now = 7 ∧ last 0 = some ⟨0, none⟩ ∧ last 1 = some ⟨4, some ⟨0, 5⟩⟩ ∧ s.NeverEmpty ∧
      ∀ expire acceptEmpty, s.Decides 1 expire acceptEmpty last ∧
        s.Decides 2 expire acceptEmpty last := by
  intro s₀ ms last s
  obtain ⟨hempty, hdecides⟩ := load_decided { nullPolicy := .retry 9, idlePolicy := .detach }
    (.manual 0) (fun _ => 0) ms (by decide +kernel) (by decide +kernel)
  exact ⟨by decide +kernel, by decide +kernel, by decide +kernel, hempty,
    fun expire acceptEmpty => ⟨hdecides 1 expire acceptEmpty (by decide +kernel),
      hdecides 2 expire acceptEmpty (by decide +kernel)⟩⟩

end ReadThrough
