import ReadThrough.Proofs.Runs.Inspections

/-! # A Key as a Register

  As long as a key stays in the table and nothing expires, it is a register: what is put in place
  for it stays until something else is put in place, whoever looks at it, fails or panics meanwhile.

  - **Installation**: what a call puts in place, with what it was given.
  - **Call.installs?**: the calls that put something in place: a load whose loader has returned, an
    update, and a put that has found no value.
  - **Register**: table, entry and calls agree about what was put in place last.
  - **Moves**: what a step of a call on the key does to the register.
-/

namespace ReadThrough

open Cache Entries

variable {K V : Type}

/-! ## Installations -/

/-- Something is put in place for a key. -/
structure Installation (V : Type) where
  /-- What the callback was given: the value before, if there was one. -/
  given? : Option (Value V)
  /-- The new value, or the empty result of a load. -/
  made? : Option (Value V)
  deriving DecidableEq

/-- What is in place after some installations, where `v?` was in place before. -/
def Installation.latest (v? : Option (Value V)) : List (Installation V) → Option (Value V)
  | [] => v?
  | i :: is => latest i.made? is

/-- Every installation was given what the one before it has put in place, where `v?` was in place
    at first. -/
def Installation.Chain (v? : Option (Value V)) : List (Installation V) → Prop
  | [] => True
  | i :: is => i.given? = v? ∧ Chain i.made? is

/-- What a call puts in place when its next stage is one with an outcome, if anything. A put does
    so if no value was `found` for its key. -/
def Call.installs? (found : Bool) (call : Call K V) (next : Stage K V) :
    Option (Installation V) :=
  if call.stage.outcome?.isSome then none
  else
    match call.request, next.outcome? with
    | .load .., some (.value v?) => if call.isRunning then some ⟨call.current?, v?⟩ else none
    | .update _, some (.value (some v)) => some ⟨call.current?, some v⟩
    | .put .., some (.value v?) => if found then none else some ⟨none, v?⟩
    | _, _ => none

/-- A request that takes no value away: it removes nothing by name, and it asks for no expiry. -/
def Request.retains : Request K V → Bool
  | .load _ expire _ => expire == 0
  | .invalidate _ => false
  | _ => true

/-! ## The register -/

/-- The state keeps a value, or it keeps none. -/
def ValueState.Holds (v? : Option (Value V)) (s : ValueState V) : Prop :=
  (∀ v, s ≠ .detached v) ∧ s.kept = v?

/-- The entry keeps a value or none, or it is pending. -/
def Entry.Holds (v? : Option (Value V)) (e : Entry K V) : Prop :=
  e.value = .pending ∨ e.value.Holds v?

/-- What the table and the entry of a key say about what is in place. -/
structure Cache.Register (k : K) (v? : Option (Value V)) (c : Cache K V) : Prop where
  table : c.table.Sound
  entry : ∀ n ∈ c.table.nodes, n.key = k → ∃ e, c.entries[n.payload]? = some e ∧ e.Holds v?
  blank : (∀ n ∈ c.table.nodes, n.key ≠ k) → v? = none

/-- What a call on the key says about what is in place: it refers to an entry in the table, and its
    callback was given what is in place. -/
structure Call.Register (k : K) (v? : Option (Value V)) (c : Cache K V) (call : Call K V) :
    Prop where
  retains : call.request.retains = true
  node : ∀ n, call.node? = some n → n ∈ c.table.nodes ∧ n.key = k
  given : ∀ f ∈ call.flights, f.prior.Holds v?

namespace ValueState

theorem holds_ready (v : Value V) : (ready v).Holds (some v) := ⟨by simp, rfl⟩

theorem holds_dirty (v : Value V) : (dirty v).Holds (some v) := ⟨by simp, rfl⟩

theorem holds_missing : (missing : ValueState V).Holds none := ⟨by simp, rfl⟩

theorem holds_unassigned : (unassigned : ValueState V).Holds none := ⟨by simp, rfl⟩

end ValueState

namespace Entry

variable {v? : Option (Value V)} {e e' : Entry K V}

theorem Holds.calm {cleans : Bool} (h : e.Holds v?) (hc : e.Calm cleans e') : e'.Holds v? := by
  rcases h with hpending | ⟨hattached, hkept⟩
  · exact .inl (hc.pending hpending)
  · rcases hc.value hattached with hsame | ⟨-, hsame⟩
    · exact .inr ⟨hsame ▸ hattached, by rw [hsame, hkept]⟩
    · refine .inr ⟨fun v => ?_, ?_⟩
      · rw [hsame]
        exact ValueState.clean_ne_detached hattached v
      · rw [hsame, ← hkept]
        cases e.value <;> rfl

theorem Holds.settled (h : e.Holds v?) (hne : e.value ≠ .pending) : e.value.Holds v? :=
  h.resolve_left hne

/-- A value that can be had is the one in place. -/
theorem Holds.peek {held : Held} {v : Value V} (h : e.Holds v?)
    (hpeek : e.value.peek held = some v) : v? = some v := by
  obtain ⟨hattached, hkept⟩ := h.settled (ValueState.ne_pending_of_peek hpeek)
  rw [← hkept]
  cases hvalue : e.value with
  | detached w => exact absurd hvalue (hattached w)
  | ready w =>
    rw [hvalue] at hpeek
    exact hpeek
  | dirty w =>
    rw [hvalue] at hpeek
    exact hpeek
  | _ =>
    rw [hvalue] at hpeek
    cases hpeek

/-- If no value can be had, none is in place. -/
theorem Holds.peek_none {held : Held} (h : e.value.Holds v?) (hpeek : e.value.peek held = none) :
    v? = none := by
  obtain ⟨hattached, hkept⟩ := h
  rw [← hkept]
  cases hvalue : e.value with
  | detached w => exact absurd hvalue (hattached w)
  | ready w =>
    rw [hvalue] at hpeek
    cases hpeek
  | dirty w =>
    rw [hvalue] at hpeek
    cases hpeek
  | _ => rfl

/-- A load that asks for no expiry starts only if no value is in place. -/
theorem Holds.find_load {held : Held} {policy : NullPolicy} {acceptEmpty : Bool} {now : Nat}
    (h : e.Holds v?) (hfind : e.find held policy 0 acceptEmpty now = .load) : v? = none := by
  have hne : e.value ≠ .pending := by
    intro hvalue
    simp [find, hvalue] at hfind
  have hnone : e.value.peek held = none := by
    obtain ⟨hattached, -⟩ := h.settled hne
    cases hvalue : e.value with
    | detached w => exact absurd hvalue (hattached w)
    | ready w => simp [find, hvalue, ValueState.peek, isFresh] at hfind
    | dirty w => simp [find, hvalue] at hfind
    | _ => rfl
  exact Holds.peek_none (h.settled hne) hnone

end Entry

/-! ## The steps of calls on the key -/

/-- A step of a call on the key. If it puts something in place, the call was given what was in place
    before, and the entry of the key is settled then. -/
structure Call.Moves (k : K) (v? : Option (Value V)) (found : Bool) (call : Call K V)
    (out : Cache K V × Stage K V) : Prop where
  given : ∀ inst, call.installs? found out.2 = some inst → inst.given? = v?
  cache : out.1.Register k (Installation.latest v? (call.installs? found out.2).toList)
  flights : ∀ f ∈ out.2.flights,
    f.prior.Holds (Installation.latest v? (call.installs? found out.2).toList)
  settled : (call.installs? found out.2).isSome = true → ∀ n ∈ out.1.table.nodes, n.key = k →
    ∃ e, out.1.entries[n.payload]? = some e ∧ e.value ≠ .pending

theorem Cache.Register.calm {k : K} {v? : Option (Value V)} {c c' : Cache K V}
    (h : c.Register k v?) (htable : c'.table.Sound)
    (hnodes : ∀ n, n.key = k → (n ∈ c'.table.nodes ↔ n ∈ c.table.nodes))
    (hentry : ∀ n ∈ c.table.nodes, n.key = k → CalmAt true n.payload c.entries c'.entries) :
    c'.Register k v? where
  table := htable
  entry := by
    intro n hn hkey
    have hold := (hnodes n hkey).1 hn
    obtain ⟨e, he, hholds⟩ := h.entry n hold hkey
    obtain ⟨e', he', hcalm⟩ := hentry n hold hkey e he
    exact ⟨e', he', hholds.calm hcalm⟩
  blank := fun habsent => h.blank fun n hn hkey => habsent n ((hnodes n hkey).2 hn) hkey

namespace Call

variable {k : K} {v? : Option (Value V)} {found : Bool} {c c' : Cache K V} {call : Call K V}
  {out : Cache K V × Stage K V} {node : EntryNode K} {held : Held} {now : Nat} {e e' : Entry K V}

/-- A step that puts nothing in place. -/
theorem Moves.keeps (hnone : call.installs? found out.2 = none) (hcache : out.1.Register k v?)
    (hflights : ∀ f ∈ out.2.flights, f.prior.Holds v?) : Moves k v? found call out where
  given := by simp [hnone]
  cache := by
    rw [hnone]
    exact hcache
  flights := by
    rw [hnone]
    exact hflights
  settled := by simp [hnone]

/-- A step that puts something in place. -/
theorem Moves.makes {inst : Installation V} (hsome : call.installs? found out.2 = some inst)
    (hgiven : inst.given? = v?) (hcache : out.1.Register k inst.made?)
    (hrests : out.2.flights = [])
    (hsettled : ∀ n ∈ out.1.table.nodes, n.key = k →
      ∃ e, out.1.entries[n.payload]? = some e ∧ e.value ≠ .pending) :
    Moves k v? found call out where
  given := by
    intro inst' hinst
    rw [hsome] at hinst
    rw [← Option.some.inj hinst, hgiven]
  cache := by
    rw [hsome]
    exact hcache
  flights := by simp [hrests]
  settled := fun _ => hsettled

/-- A call that takes no value away and comes to no value puts nothing in place. -/
theorem installs?_eq_none {next : Stage K V}
    (h : call.stage.outcome? = none → call.request.inserts = true →
      ∀ v?, next.outcome? ≠ some (.value v?)) : call.installs? found next = none := by
  unfold installs?
  split
  · rfl
  next hnone =>
  have hnever := h (by simpa using hnone)
  split
  · next hr houtcome => exact absurd houtcome (hnever (by rw [hr]; rfl) _)
  · next hr houtcome => exact absurd houtcome (hnever (by rw [hr]; rfl) _)
  · next hr houtcome => exact absurd houtcome (hnever (by rw [hr]; rfl) _)
  · rfl

/-- A step that passes leaves the register alone. -/
theorem Passes.moves (hp : call.Passes c out) (hcache : c.Register k v?)
    (hcall : call.Register k v? c) (hwithin : c.table.Within out.1.table)
    (hstays : ∀ n ∈ c.table.nodes, n.key = k → n ∈ out.1.table.nodes) :
    Moves k v? found call out := by
  refine .keeps (installs?_eq_none hp.value) ?_ ?_
  · refine hcache.calm (hwithin.sound hcache.table) (fun n hkey => ?_) fun n _ _ e he => ?_
    · exact ⟨hwithin.sub hcache.table n, fun hn => hstays n hn hkey⟩
    · obtain ⟨e', he', hcalm⟩ := hp.entries n.payload e he
      exact ⟨e', he', hcalm.mayClean⟩
  · rw [hp.flights]
    exact hcall.given

section own

variable [DecidableEq K]

/-- A change of the entry of the key alone. -/
theorem register_of_entry (hs : c.table.Sound) (hn : node ∈ c.table.nodes) (hkey : node.key = k)
    (htable : c'.table = c.table) (he : c'.entries[node.payload]? = some e')
    (hholds : e'.Holds v?) : c'.Register k v? where
  table := htable ▸ hs
  entry := by
    intro n hmem hkey'
    rw [htable] at hmem
    obtain rfl := hs.node_unique hmem hn (hkey'.trans hkey.symm)
    exact ⟨e', he, hholds⟩
  blank := fun habsent => absurd hkey (habsent node (htable ▸ hn))

/-- A key has a value if it can be had from its entry. -/
theorem contains_eq (hs : c.table.Sound) (hn : node ∈ c.table.nodes)
    (he : c.entries[node.payload]? = some e) (held : Held) :
    c.contains held node.key = (e.value.peek held).isSome := by
  have hget : c.table.get? node.key = some node := hs.get?_eq_some_iff.2 ⟨hn, rfl⟩
  simp [contains, hget, Cache.peek, valueOf_eq he]

/-- A look at the entry of the key. -/
theorem inspect_moves (hcache : c.Register k v?) (hcall : call.Register k v? c)
    (hproper : call.Proper) (hstage : call.stage = .inspect node now) :
    Moves k v? (c.contains held k) call (inspect held call node now c) := by
  obtain ⟨hn, rfl⟩ := hcall.node node (by rw [node?, hstage])
  obtain ⟨e, he, hholds⟩ := hcache.entry node hn rfl
  have hsuits : ∀ key, call.request ≠ .invalidate key := by
    intro key hr
    have hretains := hcall.retains
    rw [hr] at hretains
    cases hretains
  obtain ⟨e', he', hinspects⟩ := inspect_inspects held now hproper hsuits he
  have htable := inspect_table held call node now c
  rw [contains_eq hcache.table hn he held]
  generalize inspect held call node now c = out at *
  obtain ⟨c', next⟩ := out
  have hregister {w? : Option (Value V)} (h : e'.Holds w?) : c'.Register node.key w? :=
    register_of_entry hcache.table hn rfl htable he' h
  have hrests : call.isRunning = false := by
    rw [isRunning, hstage]
  have hresolve : (e.resolve held).Holds v? :=
    hholds.calm (Entry.calm_resolve held e : e.Calm true (e.resolve held))
  have hkeeps (hnone : call.installs? (e.value.peek held).isSome next = none) (h : e'.Holds v?)
      (hflights : next.flights = []) :
      Moves node.key v? (e.value.peek held).isSome call (c', next) :=
    .keeps hnone (hregister h) (by simp [hflights])
  cases hinspects with
  | restarts hremoved => exact hkeeps (by simp [installs?, Stage.outcome?]) hholds rfl
  | parks hpending => exact hkeeps (by simp [installs?, Stage.outcome?]) hholds rfl
  | givesUp seconds hpending => exact hkeeps (by simp [installs?, Stage.outcome?]) hholds rfl
  | takes v now' hpeek hr =>
    refine hkeeps ?_ hresolve rfl
    cases hrequest : call.request with
    | update key => simp [hrequest, Request.isLoad] at hr
    | _ => simp [installs?, Stage.outcome?, hrequest, hrests, hpeek]
  | takesEmpty now' hr hmissing =>
    refine hkeeps ?_ hresolve rfl
    cases hrequest : call.request with
    | load key expire acceptEmpty => simp [installs?, Stage.outcome?, hrequest, hrests]
    | _ => simp [hrequest, Request.isLoad] at hr
  | misses outcome hpeek hr =>
    refine hkeeps ?_ hresolve rfl
    rcases hr with ⟨key, hrequest, rfl⟩ | rfl
    · simp [installs?, hrequest]
    · simp [installs?, Stage.outcome?]
  | refuses policy key expire acceptEmpty now' limit hr hfind =>
    exact hkeeps (by simp [installs?, Stage.outcome?]) hresolve rfl
  | loads policy key expire acceptEmpty now' hr hfind =>
    -- Nothing expires, so the load starts only because nothing is in place.
    have hretains := hcall.retains
    rw [hr] at hretains
    obtain rfl : expire = 0 := by simpa [Request.retains] using hretains
    obtain rfl := hholds.find_load hfind
    refine .keeps (by simp [installs?, Stage.outcome?]) (hregister (.inl rfl)) fun f hf => ?_
    obtain rfl := List.mem_singleton.1 hf
    exact ValueState.holds_unassigned
  | updates key hr hpending =>
    refine .keeps (by simp [installs?, Stage.outcome?]) (hregister (.inl rfl)) fun f hf => ?_
    obtain rfl := List.mem_singleton.1 hf
    have hsettled := hholds.settled hpending
    show (e.value.resolve held).Holds v?
    rw [ValueState.resolve_eq_self held hsettled.1]
    exact hsettled
  | puts key content v now' hr hpeek hpending =>
    obtain rfl := Entry.Holds.peek_none (hholds.settled hpending) hpeek
    have hsome : call.installs? (e.value.peek held).isSome (.touch node now' (.value (some v))) =
        some ⟨none, some v⟩ := by
      simp [installs?, Stage.outcome?, hstage, hr, hpeek]
    refine .makes hsome rfl (hregister (.inr (ValueState.holds_ready v))) rfl fun n hn' hkey => ?_
    rw [htable] at hn'
    obtain rfl := hcache.table.node_unique hn' hn hkey
    exact ⟨_, he', fun h => by cases h⟩
  | marks key v now' next? hr hpeek =>
    obtain rfl := hholds.peek hpeek
    exact hkeeps (by simp [installs?, hr]) (.inr (ValueState.holds_dirty v)) rfl

/-- An insertion of the key. -/
theorem insert_moves (hcache : c.Register call.request.key v?) (hproper : call.Proper)
    (hstage : call.stage = .insert now) (hr : call.request.inserts = true) :
    Moves call.request.key v? (c.contains held call.request.key) call (call.insert now c) := by
  have hinserts := insert_spared call now hcache.table
  obtain ⟨hsound, -⟩ := hinserts.nodes hcache.table
  generalize call.insert now c = out at hinserts hsound
  cases hinserts with
  | @found c' next node hget htable hentries hchain hnext =>
    have hregister : c'.Register call.request.key v? := by
      refine hcache.calm hsound (fun n _ => by rw [htable]) fun n _ _ => ?_
      exact calmAt_of_same (by rw [hentries])
    rcases hnext with rfl | rfl
    · exact .keeps (by simp [installs?, Stage.outcome?]) hregister fun _ hf => by cases hf
    · exact .keeps (by simp [installs?, Stage.outcome?]) hregister fun _ hf => by cases hf
  | @refused c' next m hget hkeep hhash hentries hchain hnext =>
    have habsent := hcache.table.get?_eq_none_iff.1 hget
    have hregister : c'.Register call.request.key v? :=
      ⟨hsound, fun n hn hkey => absurd hkey (habsent n (hkeep.sub n hn)),
        fun _ => hcache.blank habsent⟩
    rcases hnext with ⟨capacity, rfl | rfl⟩
    · exact .keeps (by simp [installs?, Stage.outcome?]) hregister fun _ hf => by cases hf
    · exact .keeps (by simp [installs?, Stage.outcome?]) hregister fun _ hf => by cases hf
  | @made c' next room m hget hkeep hhash htable hentries hchain hnext =>
    have hblank := hcache.blank (hcache.table.get?_eq_none_iff.1 hget)
    obtain ⟨hroom, habsent⟩ := hkeep.room hhash hcache.table hget
    obtain ⟨-, hnodes⟩ := hroom.insertNew habsent c.entries.size
    have hkey := Table.insertNew_key call.request.key c.entries.size room
    have hplace := Table.insertNew_payload (t := room) call.request.key c.entries.size
    generalize (room.insertNew call.request.key c.entries.size).value = new at *
    have hnew : new ∈ c'.table.nodes := by
      rw [htable]
      exact (hnodes new).2 (.inl rfl)
    have he : c'.entries[new.payload]? =
        some (Entry.new call.request.key call.firstState now) := by
      rw [hentries, hplace, ← hkeep.size, Array.getElem?_push_size]
    have hregister {w? : Option (Value V)}
        (h : (Entry.new call.request.key call.firstState now).Holds w?) :
        c'.Register call.request.key w? :=
      register_of_entry hsound hnew hkey rfl he h
    subst hnext hblank
    have hfound : c.contains held call.request.key = false := by simp [contains, hget]
    -- A callback starts with nothing in place.
    have hruns (hload : call.own? = none) (hnext : call.inserted new = .running new 1 .unassigned) :
        Moves call.request.key none (c.contains held call.request.key) call
          (c', call.inserted new) := by
      have hfirst : call.firstState = .pending := by simp [firstState, hload]
      rw [hnext]
      refine .keeps (by simp [installs?, Stage.outcome?]) (hregister (.inl hfirst)) fun f hf => ?_
      obtain rfl := List.mem_singleton.1 hf
      exact ValueState.holds_unassigned
    unfold Proper at hproper
    cases hrequest : call.request with
    | put key content =>
      rw [hrequest] at hproper
      obtain ⟨v, hown⟩ := hproper
      have hfirst : call.firstState = .ready v := by simp [firstState, hown]
      have hnext : call.inserted new = .done (.value (some v)) := by
        simp [inserted, hrequest, hown]
      have hsome : call.installs? (c.contains held call.request.key) (call.inserted new) =
          some ⟨none, some v⟩ := by
        rw [hnext, hfound]
        simp [installs?, Stage.outcome?, hstage, hrequest]
      rw [← hrequest]
      refine .makes hsome rfl (hregister (.inr ?_)) (by rw [hnext]; rfl) fun n hn hkey' => ?_
      · show call.firstState.Holds (some v)
        rw [hfirst]
        exact ValueState.holds_ready v
      · obtain rfl := hsound.node_unique hn hnew (hkey'.trans hkey.symm)
        refine ⟨_, he, ?_⟩
        show call.firstState ≠ .pending
        rw [hfirst]
        simp
    | load key expire acceptEmpty =>
      rw [hrequest] at hproper
      rw [← hrequest]
      exact hruns hproper (by rw [inserted, hrequest])
    | update key =>
      rw [hrequest] at hproper
      rw [← hrequest]
      exact hruns hproper (by rw [inserted, hrequest])
    | _ =>
      rw [hrequest] at hr
      cases hr

/-- The end of a callback for the key. -/
theorem resume_moves {epoch : Nat} {prior : ValueState V} (r : Return V)
    (hcache : c.Register k v?) (hcall : call.Register k v? c)
    (hstage : call.stage = .running node epoch prior) (hsuits : call.stage.Suits call.request)
    (hpending : ∃ e, c.entries[node.payload]? = some e ∧ e.value = .pending ∧ e.epoch = epoch) :
    Moves k v? found call ((call.resume r c).1, (call.resume r c).2.stage) := by
  obtain ⟨hn, rfl⟩ := hcall.node node (by rw [node?, hstage])
  obtain ⟨e, he, hvalue, rfl⟩ := hpending
  have hgiven : prior.Holds v? := by
    have hflight := hcall.given ⟨node.payload, e.epoch, prior⟩
    rw [flights, hstage] at hflight
    exact hflight List.mem_cons_self
  obtain ⟨e', he', hsettles⟩ := resume_settles r hstage he
  have htable := resume_table r c call
  have hrunning : call.isRunning = true := by rw [isRunning, hstage]
  have hcurrent : call.current? = v? := by
    rw [current?, hstage]
    exact hgiven.2
  generalize (call.resume r c).1 = c' at *
  generalize (call.resume r c).2.stage = next at *
  have hregister {w? : Option (Value V)} (h : e'.Holds w?) : c'.Register node.key w? :=
    register_of_entry hcache.table hn rfl htable he' h
  have hsettled (h : e'.value ≠ .pending) : ∀ n ∈ c'.table.nodes, n.key = node.key →
      ∃ e, c'.entries[n.payload]? = some e ∧ e.value ≠ .pending := by
    intro n hn' hkey
    rw [htable] at hn'
    obtain rfl := hcache.table.node_unique hn' hn hkey
    exact ⟨e', he', h⟩
  rw [hstage] at hsuits
  cases hsettles with
  | loaded v now hr =>
    have hsome : call.installs? found (.release node now (.value (some v))) =
        some ⟨v?, some v⟩ := by
      cases hrequest : call.request with
      | load key expire acceptEmpty =>
        simp [installs?, Stage.outcome?, hstage, hrequest, hrunning, hcurrent]
      | _ => simp [hrequest, Request.isLoad] at hr
    exact .makes hsome rfl (hregister (.inr (ValueState.holds_ready v))) rfl
      (hsettled fun h => by cases h)
  | empty now hr =>
    have hsome : call.installs? found (.release node now (.value none)) = some ⟨v?, none⟩ := by
      cases hrequest : call.request with
      | load key expire acceptEmpty =>
        simp [installs?, Stage.outcome?, hstage, hrequest, hrunning, hcurrent]
      | _ => simp [hrequest, Request.isLoad] at hr
    exact .makes hsome rfl (hregister (.inr ValueState.holds_missing)) rfl
      (hsettled fun h => by cases h)
  | failed now error hr =>
    -- A loader starts with nothing in place, so a failed one leaves nothing.
    have hprior : prior = .unassigned := by
      rcases hsuits with ⟨key, hrequest⟩ | ⟨-, hprior⟩
      · simp [hrequest, Request.isLoad] at hr
      · exact hprior
    obtain rfl : v? = none := by
      rw [← hgiven.2, hprior]
      rfl
    exact .keeps (by simp [installs?, Stage.outcome?])
      (hregister (.inr ValueState.holds_unassigned)) fun _ hf => by cases hf
  | updated content v now next? hresult hr =>
    have hsome : call.installs? found (.touch node now (.value (some v))) = some ⟨v?, some v⟩ := by
      rcases hsuits with ⟨key, hrequest⟩ | ⟨hload, -⟩
      · simp [installs?, Stage.outcome?, hstage, hrequest, hcurrent]
      · rw [hr] at hload
        cases hload
    exact .makes hsome rfl (hregister (.inr (ValueState.holds_dirty v))) rfl
      (hsettled fun h => by cases h)
  | restored outcome stage hnext houtcome hload =>
    have hreached : next.outcome? = some outcome ∧ next.flights = [] := by
      rcases hnext with rfl | ⟨now, rfl⟩
      · exact ⟨rfl, rfl⟩
      · exact ⟨rfl, rfl⟩
    have hnone : call.installs? found next = none := by
      rcases hsuits with ⟨key, hrequest⟩ | ⟨hisLoad, -⟩
      · cases outcome with
        | value w? =>
          have hw : w? = none := houtcome
          simp [installs?, hrequest, hreached.1, hw]
        | _ => simp [installs?, hrequest, hreached.1]
      · exact installs?_eq_none fun _ _ w? => by simpa [hreached.1] using hload hisLoad w?
    refine .keeps hnone (hregister (.inr ?_)) (by simp [hreached.2])
    rw [Entry.restore_value prior hvalue]
    exact hgiven

end own

end Call

end ReadThrough
