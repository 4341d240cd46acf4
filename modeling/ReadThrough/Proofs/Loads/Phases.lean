import ReadThrough.Proofs.Runs.Bystanders

/-! # The Phases of a Key That Is Loaded

  A key is first absent, then it is in the table without a value, then it has one. As long as
  nobody disturbs it, it goes through these phases once.

  - **Progress**: how far the key has come: its node and its value, once it has them.
  - **Outcome.Fits**, **Stage.Fits**: how calls on the key may end, and where they may stand.
  - **Cache.Phase**: what the table and the entry look like.
  - **Phase.advance**, **Phase.resume**, **Phase.expire**: one lemma for each way in which a call on
    the key goes on.
-/

namespace ReadThrough

open Cache Entries

variable {K V : Type}

/-! ## Requests and outcomes -/

/-- A request for the value of a key that does not expire: it is looked up, loaded or put. -/
def Request.isPlain : Request K V → Bool
  | .get _ => true
  | .load _ expire acceptEmpty => expire == 0 && !acceptEmpty
  | .put .. => true
  | _ => false

/-- How far a key has come. -/
structure Progress (K V : Type) where
  node? : Option (EntryNode K) := none
  value? : Option (Value V) := none

/-- The key keeps what it has. -/
def Progress.Upto (p q : Progress K V) : Prop :=
  (∀ n, p.node? = some n → q.node? = some n) ∧ ∀ v, p.value? = some v → q.value? = some v

theorem Progress.Upto.refl (p : Progress K V) : p.Upto p :=
  ⟨fun _ h => h, fun _ h => h⟩

theorem Progress.Upto.trans {p q r : Progress K V} (h : p.Upto q) (k : q.Upto r) : p.Upto r :=
  ⟨fun n hn => k.1 n (h.1 n hn), fun v hv => k.2 v (h.2 v hv)⟩

/-- How a plain request may end: with the value of the key, without one if it only asks for it, or
    because there was no time, no load or no room left. -/
inductive Outcome.Fits (value? : Option (Value V)) (r : Request K V) : Outcome V → Prop where
  | value (v : Value V) (h : value? = some v) : Fits value? r (.value (some v))
  | miss (key : K) (h : r = .get key) : Fits value? r (.value none)
  | loadTimeout (seconds : Nat) : Fits value? r (.failed (.loadTimeout seconds))
  | overload (limit : Nat) : Fits value? r (.failed (.overload limit))
  | capacityExhausted (capacity : Nat) : Fits value? r (.failed (.capacityExhausted capacity))

/-- Where a call with a plain request may stand. -/
inductive Stage.Fits (p : Progress K V) (r : Request K V) : Stage K V → Prop where
  | lookup : Fits p r .lookup
  | inspect (node : EntryNode K) (now : Nat) (hnode : p.node? = some node) :
      Fits p r (.inspect node now)
  | reserve (now : Nat) (hr : ∀ key, r ≠ .get key) : Fits p r (.reserve now)
  | refuse (limit : Nat) : Fits p r (.refuse limit)
  | insert (now : Nat) (hr : ∀ key, r ≠ .get key) : Fits p r (.insert now)
  | giveBack (error? : Option CacheError)
      (h : ∀ error, error? = some error → ∃ capacity, error = .capacityExhausted capacity) :
      Fits p r (.giveBack error?)
  | parked (node : EntryNode K) (hnode : p.node? = some node) : Fits p r (.parked node 1)
  | running (node : EntryNode K) (hnode : p.node? = some node) (hvalue : p.value? = none)
      (hr : ∃ key expire acceptEmpty, r = .load key expire acceptEmpty) :
      Fits p r (.running node 1 .unassigned)
  | release (node : EntryNode K) (now : Nat) (v : Value V) (hnode : p.node? = some node)
      (hv : p.value? = some v) : Fits p r (.release node now (.value (some v)))
  | touch (node : EntryNode K) (now : Nat) (v : Value V) (hnode : p.node? = some node)
      (hv : p.value? = some v) : Fits p r (.touch node now (.value (some v)))
  | done (outcome : Outcome V) (h : outcome.Fits p.value? r) : Fits p r (.done outcome)

theorem Outcome.Fits.mono {value? value?' : Option (Value V)} {r : Request K V}
    {outcome : Outcome V} (h : outcome.Fits value? r)
    (hle : ∀ v, value? = some v → value?' = some v) : outcome.Fits value?' r := by
  cases h with
  | value v h => exact .value v (hle v h)
  | miss key h => exact .miss key h
  | loadTimeout seconds => exact .loadTimeout seconds
  | overload limit => exact .overload limit
  | capacityExhausted capacity => exact .capacityExhausted capacity

/-- A call whose loader is not running is where it may stand later as well. -/
theorem Stage.Fits.mono {p q : Progress K V} {r : Request K V} {stage : Stage K V}
    (h : stage.Fits p r) (hle : p.Upto q) (hstage : stage.flights = [] ∨ q.value? = none) :
    stage.Fits q r := by
  cases h with
  | lookup => exact .lookup
  | inspect node now hnode => exact .inspect node now (hle.1 node hnode)
  | reserve now hr => exact .reserve now hr
  | refuse limit => exact .refuse limit
  | insert now hr => exact .insert now hr
  | giveBack error? h => exact .giveBack error? h
  | parked node hnode => exact .parked node (hle.1 node hnode)
  | running node hnode hvalue hr =>
    rcases hstage with hstage | hstage
    · cases hstage
    · exact .running node (hle.1 node hnode) hstage hr
  | release node now v hnode hv => exact .release node now v (hle.1 node hnode) (hle.2 v hv)
  | touch node now v hnode hv => exact .touch node now v (hle.1 node hnode) (hle.2 v hv)
  | done outcome h => exact .done outcome (h.mono hle.2)

/-! ## The cache in a phase -/

/-- The entry of a key as it should be: its only load is in flight, or its value is there. -/
structure Entry.Fits (value? : Option (Value V)) (e : Entry K V) : Prop where
  present : e.removed = false
  sane : e.failure? = none
  loading : value? = none → e.value = .pending ∧ e.epoch = 1
  settled : ∀ v, value? = some v → e.value = .ready v

/-- What the table and the entry of a key look like. -/
structure Cache.Phase (k : K) (p : Progress K V) (c : Cache K V) : Prop where
  table : c.table.Sound
  nodes : ∀ n, n ∈ c.table.nodes ∧ n.key = k ↔ p.node? = some n
  entry : ∀ node, p.node? = some node →
    ∃ e, c.entries[node.payload]? = some e ∧ e.key = k ∧ e.Fits p.value?
  blank : p.node? = none → p.value? = none

theorem Entry.Fits.calm {value? : Option (Value V)} {e e' : Entry K V} (h : e.Fits value?)
    (hc : e.Calm true e') : e'.Fits value? where
  present := hc.removed.trans h.present
  sane := hc.failure.trans h.sane
  loading := fun hnone => ⟨hc.pending (h.loading hnone).1, hc.epoch.trans (h.loading hnone).2⟩
  settled := fun v hv => hc.ready v (h.settled v hv)

namespace Cache

variable {k : K} {p : Progress K V} {c c' : Cache K V}

/-- The phase stays if the nodes of the key stay and its entry is left alone. -/
theorem Phase.calm (h : c.Phase k p) (htable : c'.table.Sound)
    (hnodes : ∀ n, n.key = k → (n ∈ c'.table.nodes ↔ n ∈ c.table.nodes))
    (hentry : ∀ node, p.node? = some node → CalmAt true node.payload c.entries c'.entries) :
    c'.Phase k p where
  table := htable
  nodes := fun n => by
    rw [← h.nodes]
    exact ⟨fun ⟨hn, hkey⟩ => ⟨(hnodes n hkey).1 hn, hkey⟩,
      fun ⟨hn, hkey⟩ => ⟨(hnodes n hkey).2 hn, hkey⟩⟩
  entry := by
    intro node hnode
    obtain ⟨e, he, hkey, hfits⟩ := h.entry node hnode
    obtain ⟨e', he', hcalm⟩ := hentry node hnode e he
    exact ⟨e', he', hcalm.key.trans hkey, hfits.calm hcalm⟩
  blank := h.blank

/-- Changes that leave table and entries alone leave the phase as it is. -/
theorem Phase.same (h : c.Phase k p) (htable : c'.table = c.table)
    (hentries : c'.entries = c.entries) : c'.Phase k p := by
  refine h.calm (htable ▸ h.table) (fun n _ => by rw [htable]) fun node _ => ?_
  rw [hentries]
  exact .refl _ _

/-- A change of an entry that calls do not notice. -/
theorem Phase.modify (h : c.Phase k p) (id : EntryId) {f : Entry K V → Entry K V}
    (hf : ∀ e : Entry K V, e.Calm true (f e)) (htable : c'.table = c.table)
    (hentries : c'.entries = c.entries.modify id f) : c'.Phase k p := by
  refine h.calm (htable ▸ h.table) (fun n _ => by rw [htable]) fun node _ => ?_
  rw [hentries]
  exact calmAt_modify hf

theorem Phase.get?_eq [DecidableEq K] (h : c.Phase k p) : c.table.get? k = p.node? := by
  refine Option.ext fun n => ?_
  rw [h.table.get?_eq_some_iff, h.nodes]

end Cache

/-! ## Critical sections of calls on the key -/

namespace Call

/-- A critical section of a call on the key that starts no loader: the key stays where it is, and
    the call stands where it may. -/
structure Stands (k : K) (p : Progress K V) (r : Request K V) (out : Cache K V × Stage K V) :
    Prop where
  phase : out.1.Phase k p
  fits : out.2.Fits p r
  rests : out.2.flights = []

variable {k : K} {p : Progress K V} {c : Cache K V} {r : Request K V} {call : Call K V}
  {node : EntryNode K} {now : Nat} {held : Held}

theorem lookup_stands [DecidableEq K] (h : c.Phase k p) (hkey : r.key = k)
    (hplain : r.isPlain = true) : Stands k p r (lookup r c) := by
  have hget : c.table.get? r.key = p.node? := hkey ▸ h.get?_eq
  unfold lookup
  split
  · cases hplain
  rw [hget]
  cases hnode : p.node? with
  | some node => exact ⟨h, .inspect node c.now hnode, rfl⟩
  | none =>
    cases r with
    | get key => exact ⟨h.same rfl rfl, .done _ (.miss key rfl), rfl⟩
    | load key expire acceptEmpty =>
      exact ⟨h.same rfl rfl, .reserve c.now (by simp), rfl⟩
    | put key content => exact ⟨h, .insert c.now (by simp), rfl⟩
    | _ => cases hplain

theorem reserve_stands (h : c.Phase k p) (hr : ∀ key, r ≠ .get key) :
    Stands k p r (reserve now c) := by
  unfold reserve
  split
  · exact ⟨h.same rfl rfl, .refuse _, rfl⟩
  · exact ⟨h.same rfl rfl, .insert now hr, rfl⟩

theorem refuse_stands (h : c.Phase k p) (limit : Nat) : Stands k p r (refuse limit c) :=
  ⟨h.same rfl rfl, .done _ (.overload limit), rfl⟩

theorem giveBack_stands (h : c.Phase k p) {error? : Option CacheError}
    (herror : ∀ error, error? = some error → ∃ capacity, error = .capacityExhausted capacity) :
    Stands k p r (giveBack error? c) := by
  cases error? with
  | none => exact ⟨h.same rfl rfl, .lookup, rfl⟩
  | some error =>
    obtain ⟨capacity, rfl⟩ := herror error rfl
    exact ⟨h.same rfl rfl, .done _ (.capacityExhausted capacity), rfl⟩

/-- A call that finds the load of its key in flight waits for it, or has no time to. -/
theorem park_stands {e : Entry K V} (h : c.Phase k p) (hnode : p.node? = some node)
    (hepoch : e.epoch = 1) : Stands k p r (park call node e c) := by
  unfold park
  split
  · exact ⟨h.same rfl rfl, .done _ (.loadTimeout 0), rfl⟩
  · rw [hepoch]
    exact ⟨h, .parked node hnode, rfl⟩

/-- A call that looks at the entry of its key takes its value or waits for it. -/
theorem inspect_stands (h : c.Phase k p) (hplain : call.request.isPlain = true)
    (hnode : p.node? = some node) : Stands k p call.request (inspect held call node now c) := by
  obtain ⟨e, he, hkey, hfits⟩ := h.entry node hnode
  have hresolve : (c.modify node.payload (Entry.resolve held)).Phase k p :=
    h.modify node.payload (Entry.calm_resolve held) rfl rfl
  have hpresent := hfits.present
  unfold inspect
  rw [he]
  dsimp only
  cases hvalue : p.value? with
  | none =>
    -- The load is in flight.
    obtain ⟨hpending, hepoch⟩ := hfits.loading hvalue
    cases hr : call.request with
    | get key =>
      simp only [inspectGet, hpending, ValueState.peek]
      exact ⟨hresolve.same rfl rfl, .done _ (.miss key rfl), rfl⟩
    | load key expire acceptEmpty =>
      simp only [inspectLoad, hpresent, Entry.find, hpending]
      exact park_stands hresolve hnode hepoch
    | put key content =>
      simp only [inspectPut, hpresent, hpending, ValueState.isPending]
      exact park_stands h hnode hepoch
    | _ =>
      rw [hr] at hplain
      cases hplain
  | some v =>
    have hready := hfits.settled v hvalue
    have htouch (now : Nat) : Stage.Fits p call.request (.touch node now (.value (some v))) :=
      .touch node now v hnode hvalue
    cases hr : call.request with
    | get key =>
      simp only [inspectGet, hready, ValueState.peek]
      exact ⟨hresolve.same rfl rfl, hr ▸ htouch _, rfl⟩
    | load key expire acceptEmpty =>
      rw [hr] at hplain
      simp only [Request.isPlain, Bool.and_eq_true, beq_iff_eq, Bool.not_eq_true'] at hplain
      obtain ⟨rfl, rfl⟩ := hplain
      simp only [inspectLoad, hpresent, Entry.find, hready, ValueState.peek, Entry.isFresh]
      exact ⟨hresolve.same rfl rfl, hr ▸ htouch _, rfl⟩
    | put key content =>
      simp only [inspectPut, hpresent, hready, ValueState.isPending, ValueState.peek]
      exact ⟨hresolve, hr ▸ htouch _, rfl⟩
    | _ =>
      rw [hr] at hplain
      cases hplain

/-- A call that waits goes on waiting as long as the load is in flight, and starts again then. -/
theorem wake_stands (h : c.Phase k p) (hnode : p.node? = some node) :
    Stands k p call.request (wake call node 1 c) := by
  obtain ⟨e, he, hkey, hfits⟩ := h.entry node hnode
  unfold wake
  rw [he]
  dsimp only
  split
  · exact ⟨h, .parked node hnode, rfl⟩
  · have hsane : e.failureAt 1 = none := by simp [Entry.failureAt, hfits.sane]
    rw [hsane]
    split
    · next heq => cases heq
    · exact ⟨h, .lookup, rfl⟩

/-- A call that waits and whose time is up has failed, or starts again. -/
theorem expire_stands (h : c.Phase k p) (hfits : call.stage.Fits p call.request) :
    (call.expire c).1.Phase k p ∧ (call.expire c).2.stage.Fits p call.request ∧
      (call.expire c).2.flights = call.flights := by
  unfold expire
  split
  · next node epoch hstage =>
    rw [hstage] at hfits
    cases hfits with
    | parked _ hnode =>
    obtain ⟨hphase, hfits, hrests⟩ : Stands k p call.request (wake call node 1 c) :=
      wake_stands h hnode
    have hbefore : call.flights = [] := by
      rw [flights, hstage]
      rfl
    rw [hbefore]
    dsimp only
    split
    · next heq =>
      rw [heq] at hphase
      exact ⟨hphase.same rfl rfl, .done _ (.loadTimeout _), rfl⟩
    · exact ⟨hphase, hfits, hrests⟩
  · exact ⟨h, hfits, rfl⟩

/-- A step of a call on the key: the key gets on, and the call stands where it may. A loader starts
    only when the key comes into the table. -/
structure GetsOn (k : K) (p q : Progress K V) (before : Stage K V) (r : Request K V)
    (out : Cache K V × Stage K V) : Prop where
  upto : p.Upto q
  phase : out.1.Phase k q
  fits : out.2.Fits q r
  starts : before.flights = [] → out.2.flights ≠ [] → p.node? = none ∧ q.node? ≠ none

theorem Stands.getsOn {out : Cache K V × Stage K V} (h : Stands k p r out) (before : Stage K V) :
    GetsOn k p p before r out :=
  ⟨.refl p, h.phase, h.fits, fun _ hne => absurd h.rests hne⟩

/-- A call that inserts the key brings its node into the table, together with its value or for its
    loader. -/
theorem insert_getsOn [DecidableEq K] (h : c.Phase k p) (hkey : call.request.key = k)
    (hplain : call.request.isPlain = true) (hproper : call.Proper)
    (hr : ∀ key, call.request ≠ .get key) :
    ∃ q, GetsOn k p q (.insert now) call.request (call.insert now c) := by
  have hinserts := insert_spared call now h.table
  have hget : c.table.get? call.request.key = p.node? := hkey ▸ h.get?_eq
  obtain ⟨hsound, -⟩ := hinserts.nodes h.table
  generalize call.insert now c = out at hinserts hsound
  cases hinserts with
  | found node hsome htable hentries hchain hstage =>
    refine ⟨p, Stands.getsOn ⟨h.same htable hentries, ?_, ?_⟩ _⟩
    · rcases hstage with rfl | rfl
      · exact .giveBack none (by simp)
      · exact .lookup
    · rcases hstage with rfl | rfl <;> rfl
  | @refused c' stage m hnone hkeep hhash hentries hchain hstage =>
    -- Without room, the key stays absent.
    have hnode : p.node? = none := hget.symm.trans hnone
    have hphase : c'.Phase k p := by
      refine h.calm hsound (fun n hn => ⟨hkeep.sub n, fun hmem => ?_⟩) fun node hsome => ?_
      · have hsome := (h.nodes n).1 ⟨hmem, hn⟩
        rw [hnode] at hsome
        cases hsome
      · rw [hnode] at hsome
        cases hsome
    refine ⟨p, Stands.getsOn ⟨hphase, ?_, ?_⟩ _⟩
    · rcases hstage with ⟨capacity, rfl | rfl⟩
      · exact .giveBack _ fun error herror => ⟨capacity, (Option.some.inj herror).symm⟩
      · exact .done _ (.capacityExhausted capacity)
    · rcases hstage with ⟨capacity, rfl | rfl⟩ <;> rfl
  | @made c' stage room m hnone hkeep hhash htable hentries hchain hstage =>
    have hnode : p.node? = none := hget.symm.trans hnone
    obtain ⟨hroom, habsent⟩ := hkeep.room hhash h.table hnone
    obtain ⟨-, hnodes⟩ := hroom.insertNew habsent c.entries.size
    have hnewKey := Table.insertNew_key call.request.key c.entries.size room
    have hplace : (room.insertNew call.request.key c.entries.size).value.payload =
        c.entries.size := Table.insertNew_payload _ _
    generalize (room.insertNew call.request.key c.entries.size).value = new at *
    have hentry : c'.entries[new.payload]? =
        some (Entry.new call.request.key call.firstState now) := by
      rw [hentries, hplace, ← hkeep.size, Array.getElem?_push_size]
    have hfirst : Entry.Fits call.own? (Entry.new call.request.key call.firstState now) := by
      unfold firstState
      refine ⟨rfl, rfl, fun hown => ?_, fun v hown => ?_⟩
      · rw [hown]
        exact ⟨rfl, rfl⟩
      · rw [hown]
        rfl
    subst hstage
    refine ⟨{ node? := some new, value? := call.own? }, ?_, ?_, ?_, fun _ _ => ⟨hnode, by simp⟩⟩
    · refine ⟨fun n hn => ?_, fun v hv => ?_⟩
      · rw [hnode] at hn
        cases hn
      · rw [h.blank hnode] at hv
        cases hv
    · refine ⟨hsound, fun n => ?_, fun node hn => ?_, fun hn => by cases hn⟩
      · rw [htable, hnodes]
        constructor
        · rintro ⟨rfl | hold, hn⟩
          · rfl
          · exact absurd (hn.trans hkey.symm) (habsent n hold)
        · intro hn
          obtain rfl := Option.some.inj hn
          exact ⟨.inl rfl, hnewKey.trans hkey⟩
      · obtain rfl := Option.some.inj hn
        exact ⟨_, hentry, hkey, hfirst⟩
    · unfold Proper at hproper
      unfold inserted
      cases hreq : call.request with
      | get key => exact absurd hreq (hr key)
      | load key expire acceptEmpty =>
        rw [hreq] at hproper
        exact .running new rfl hproper ⟨key, expire, acceptEmpty, rfl⟩
      | put key content =>
        rw [hreq] at hproper
        obtain ⟨v, hown⟩ := hproper
        rw [hown]
        exact .done _ (.value v rfl)
      | _ =>
        rw [hreq] at hplain
        cases hplain

/-- One critical section of a call on the key. -/
theorem advance_getsOn [DecidableEq K] (h : c.Phase k p) (hkey : call.request.key = k)
    (hplain : call.request.isPlain = true) (hproper : call.Proper)
    (hfits : call.stage.Fits p call.request) : ∃ q, GetsOn k p q call.stage call.request
      ((call.advance held c).1, (call.advance held c).2.stage) := by
  unfold advance
  generalize call.stage = stage at hfits
  cases hfits with
  | lookup => exact ⟨p, (lookup_stands h hkey hplain).getsOn _⟩
  | inspect node now hnode => exact ⟨p, (inspect_stands h hplain hnode).getsOn _⟩
  | reserve now hr => exact ⟨p, (reserve_stands h hr).getsOn _⟩
  | refuse limit => exact ⟨p, (refuse_stands h limit).getsOn _⟩
  | insert now hr => exact insert_getsOn h hkey hplain hproper hr
  | giveBack error? herror => exact ⟨p, (giveBack_stands h herror).getsOn _⟩
  | parked node hnode => exact ⟨p, (wake_stands h hnode).getsOn _⟩
  | running node hnode hvalue hr =>
    exact ⟨p, .refl p, h, .running node hnode hvalue hr, fun hbefore _ => by cases hbefore⟩
  | release node now v hnode hv =>
    exact ⟨p, Stands.getsOn ⟨h.same rfl rfl, .touch node now v hnode hv, rfl⟩ _⟩
  | touch node now v hnode hv =>
    refine ⟨p, Stands.getsOn ⟨?_, .done _ (.value v hv), rfl⟩ _⟩
    refine h.calm ((Table.touch_within node c.table).sound h.table) (fun n _ => Iff.rfl) ?_
    exact fun _ _ => calmAt_modify (Entry.calm_stamp now)
  | done outcome houtcome =>
    exact ⟨p, Stands.getsOn ⟨h, .done outcome houtcome, rfl⟩ _⟩

/-- The end of the loader of the key, which returns a value. -/
theorem resume_getsOn (h : c.Phase k p) (result : Return V)
    (hresult : call.flights ≠ [] → ∃ content, result = .value content)
    (hfits : call.stage.Fits p call.request) : ∃ q, GetsOn k p q call.stage call.request
      ((call.resume result c).1, (call.resume result c).2.stage) := by
  unfold resume
  unfold flights at hresult
  split
  · next node epoch prior hstage =>
    rw [hstage] at hfits hresult ⊢
    obtain ⟨content, rfl⟩ := hresult (List.cons_ne_nil _ _)
    cases hfits with
    | running _ hnode hvalue hr =>
    obtain ⟨key, expire, acceptEmpty, hr⟩ := hr
    let v : Value V := { id := c.nextValue, content }
    -- The phase has its value from here on.
    refine ⟨{ p with value? := some v }, ⟨fun n hn => hn, fun w hw => ?_⟩, ?_, ?_, ?_⟩
    · rw [hvalue] at hw
      cases hw
    · rw [hr]
      refine ⟨h.table, h.nodes, fun node' hnode' => ?_, fun hnone => ?_⟩
      · rw [hnode] at hnode'
        obtain rfl := Option.some.inj hnode'
        obtain ⟨e, he, hkey, hold⟩ := h.entry node hnode
        refine ⟨e.install (.ready v) c.now, ?_, hkey, hold.present, rfl, nofun, fun w hw => ?_⟩
        · simp [settleLoad, allocate, Array.getElem?_modify, he, v]
        · rw [← Option.some.inj hw]
          rfl
      · rw [hnode] at hnone
        cases hnone
    · rw [hr]
      exact .release node c.now v hnode rfl
    · intro hbefore
      cases hbefore
  · -- No callback of this call is running, so nothing happens.
    exact ⟨p, .refl p, h, hfits, fun hbefore hafter => absurd hbefore hafter⟩

end Call

end ReadThrough
