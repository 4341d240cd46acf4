import ReadThrough.Proofs.Loads.Phases

/-! # A Key Is Loaded at Most Once

  Any number of callers look one absent key up, load it and put it, in any order of their critical
  sections, and meanwhile anything else happens that does not disturb the key.

  - **Undisturbed**: an action that leaves the key in place: it is not removed by name, updated,
    evicted or looked at by an idle pass, and its loaders return values.
  - **loaderStarts**: how often a loader of the key starts in a run.
  - **load_once**: at most one loader starts, and all calls that return a value return the same
    one.
-/

namespace ReadThrough

open Cache

variable {K V : Type}

/-! ## Undisturbed runs -/

/-- Whether the callback returned a value. -/
def Return.isValue : Return V → Bool
  | .value _ => true
  | _ => false

/-- Requests about the key are for its value, and its loaders neither fail nor panic. -/
def Action.Plain (k : K) (calls : List (Call K V)) : Action K V → Prop
  | .spawn r => r.key = k → r.isPlain = true
  | .resume r i => ∀ call ∈ calls[i]?, call.request.key = k → call.isRunning = true →
      r.isValue = true
  | _ => True

namespace System

variable [DecidableEq K]

/-- The action leaves the key where it is. -/
structure Undisturbed (k : K) (s : System K V) (a : Action K V) : Prop where
  plain : a.Plain k s.calls
  stays : ∀ n ∈ s.cache.table.nodes, n.key = k → n ∈ (s.act a).cache.table.nodes
  idle : ∀ n ∈ s.cache.table.nodes, n.key = k → a.isIdlePass = false

/-- Whether the action starts a loader of the key. -/
def startsLoader (k : K) (s : System K V) : Action K V → Bool
  | .advance i =>
    match s.calls[i]?, (s.advance i).calls[i]? with
    | some call, some call' =>
      decide (call.request.key = k) && !call.isRunning && call'.isRunning
    | _, _ => false
  | _ => false

/-- How often a loader of the key starts in the run. -/
def loaderStarts (k : K) (s : System K V) : List (Action K V) → Nat
  | [] => 0
  | a :: as => (if s.startsLoader k a then 1 else 0) + (s.act a).loaderStarts k as

instance (k : K) (calls : List (Call K V)) (a : Action K V) : Decidable (a.Plain k calls) :=
  match a with
  | .spawn r => inferInstanceAs (Decidable (r.key = k → r.isPlain = true))
  | .resume r i => inferInstanceAs (Decidable (∀ call ∈ calls[i]?, call.request.key = k →
      call.isRunning = true → r.isValue = true))
  | .advance _ => .isTrue trivial
  | .expire _ => .isTrue trivial
  | .collect _ _ => .isTrue trivial
  | .upkeep _ => .isTrue trivial

instance (k : K) (s : System K V) (a : Action K V) : Decidable (s.Undisturbed k a) :=
  decidable_of_iff (a.Plain k s.calls ∧
      (∀ n ∈ s.cache.table.nodes, n.key = k → n ∈ (s.act a).cache.table.nodes) ∧
      ∀ n ∈ s.cache.table.nodes, n.key = k → a.isIdlePass = false)
    ⟨fun ⟨hplain, hstays, hidle⟩ => ⟨hplain, hstays, hidle⟩,
      fun ⟨hplain, hstays, hidle⟩ => ⟨hplain, hstays, hidle⟩⟩

/-! ## The phases of a run -/

variable {k : K} {p q : Progress K V} {s s' : System K V} {a : Action K V}

/-- What the cache and the calls on a key look like in a phase. -/
structure Phase (k : K) (p : Progress K V) (s : System K V) : Prop where
  cache : s.cache.Phase k p
  calls : ∀ call ∈ s.calls, call.request.key = k →
    call.request.isPlain = true ∧ call.stage.Fits p call.request

omit [DecidableEq K] in
/-- Once the key has its value no loader is running for it. -/
theorem rests_of_value (hs : s.Sound) (h : s.cache.Phase k q) {v : Value V}
    (hv : q.value? = some v) (hupto : p.Upto q) {call : Call K V} (hcall : call ∈ s.calls)
    (hfits : call.stage.Fits p call.request) : call.stage.flights = [] := by
  by_contra hrunning
  generalize hstage : call.stage = stage at hfits hrunning
  cases hfits with
  | running node hnode hvalue hr =>
    obtain ⟨e, he, -, hready⟩ := h.entry node (hupto.1 node hnode)
    obtain ⟨e', he', hpending, -⟩ := hs.ledger.owned.pending _ (mem_flights hcall hstage)
    have hsame : some e = some e' := he.symm.trans he'
    obtain rfl := Option.some.inj hsame
    rw [hready.settled v hv] at hpending
    cases hpending
  | _ => exact hrunning rfl

omit [DecidableEq K] in
/-- The calls stand where they may in a later phase if they did so before. -/
theorem phase_of_upto (hs : s.Sound) (hupto : p.Upto q) (hcache : s.cache.Phase k q)
    (hcalls : ∀ call ∈ s.calls, call.request.key = k → call.request.isPlain = true ∧
      (call.stage.Fits p call.request ∨ call.stage.Fits q call.request)) : s.Phase k q where
  cache := hcache
  calls := by
    intro call hmem hkey
    obtain ⟨hplain, hfits | hfits⟩ := hcalls call hmem hkey
    · refine ⟨hplain, hfits.mono hupto ?_⟩
      cases hv : q.value? with
      | none => exact .inr rfl
      | some v => exact .inl (rests_of_value hs hcache hv hupto hmem hfits)
    · exact ⟨hplain, hfits⟩

/-- A call on the key goes on. -/
theorem Phase.own {f : Held → Cache K V → Call K V → Cache K V × Call K V} {i : Nat}
    {call : Call K V} (h : s.Phase k p) (hact : s.act a = s.withCall f i)
    (hs : (s.act a).Sound) (hi : s.calls[i]? = some call)
    (hrequest : (f s.held s.cache call).2.request = call.request)
    (hgets : Call.GetsOn k p q call.stage call.request
      ((f s.held s.cache call).1, (f s.held s.cache call).2.stage)) : (s.act a).Phase k q := by
  have heq := withCall_eq (f := f) hi
  refine phase_of_upto hs hgets.upto ?_ ?_
  · rw [hact, heq]
    exact hgets.phase
  · rw [hact, heq]
    intro call' hmem hkey
    rcases List.mem_or_eq_of_mem_set hmem with hmem | rfl
    · obtain ⟨hplain, hfits⟩ := h.calls call' hmem hkey
      exact ⟨hplain, .inl hfits⟩
    · rw [hrequest] at hkey ⊢
      exact ⟨(h.calls call (List.mem_of_getElem? hi) hkey).1, .inr hgets.fits⟩

/-- Nobody who deals with other keys changes the phase of the key. -/
theorem Phase.foreign (h : s.Phase k p) (hs : s.Sound) (hk : s.Keyed) (ha : s.Undisturbed k a)
    (hforeign : ∀ i call, a.call? = some i → s.calls[i]? = some call → call.request.key ≠ k) :
    (s.act a).cache.Phase k p := by
  obtain ⟨hnodes, hcalm⟩ := act_foreign hs hk ha.stays ha.idle hforeign
  refine h.cache.calm (act_nodes hk a).1 hnodes fun node hnode => ?_
  obtain ⟨hmem, hkey⟩ := (h.cache.nodes node).2 hnode
  exact hcalm node hmem hkey

/-- The calls on the key are those before, and the ones that start. -/
theorem Phase.foreign_calls (h : s.Phase k p) (ha : s.Undisturbed k a)
    (hforeign : ∀ i call, a.call? = some i → s.calls[i]? = some call → call.request.key ≠ k) :
    ∀ call ∈ (s.act a).calls, call.request.key = k →
      call.request.isPlain = true ∧ call.stage.Fits p call.request := by
  intro call' hmem hkey
  rcases mem_act_calls hmem with hold | ⟨r, rfl, rfl⟩ | ⟨i, call, hcall, hi, rfl⟩
  · exact h.calls call' hold hkey
  · rw [Call.start_request] at hkey ⊢
    rw [Call.start_stage]
    exact ⟨ha.plain hkey, .lookup⟩
  · rw [onCall_request] at hkey
    exact absurd hkey (hforeign i call hcall hi)

/-- A critical section of a call on the key. A loader starts only when the key comes into the
    table. -/
theorem Phase.advance (h : s.Phase k p) (hs : s.Sound) {i : Nat} {call : Call K V}
    (hi : s.calls[i]? = some call) (hkey : call.request.key = k) :
    ∃ q, p.Upto q ∧ (s.act (.advance i)).Phase k q ∧
      (s.startsLoader k (.advance i) = true → p.node? = none ∧ q.node? ≠ none) := by
  have hmem := List.mem_of_getElem? hi
  have hlt := (List.getElem?_eq_some_iff.1 hi).1
  obtain ⟨hplain, hfits⟩ := h.calls call hmem hkey
  obtain ⟨q, hgets⟩ : ∃ q, Call.GetsOn k p q call.stage call.request
      ((call.advance s.held s.cache).1, (call.advance s.held s.cache).2.stage) :=
    Call.advance_getsOn h.cache hkey hplain (hs.proper call hmem) hfits
  refine ⟨q, hgets.upto, h.own rfl (hs.act _) hi rfl hgets, fun hstart => ?_⟩
  rw [startsLoader, System.advance, withCall_eq hi, hi, List.getElem?_set_self hlt] at hstart
  simp only [Bool.and_eq_true, Bool.not_eq_true'] at hstart
  refine hgets.starts ((Call.isRunning_eq_false_iff call).1 hstart.1.2) fun hrests => ?_
  rw [(Call.isRunning_eq_false_iff _).2 hrests] at hstart
  cases hstart.2

/-- A loader of the key returns. -/
theorem Phase.resume (h : s.Phase k p) (hs : s.Sound) {i : Nat} {call : Call K V} {r : Return V}
    (hi : s.calls[i]? = some call) (hkey : call.request.key = k)
    (ha : s.Undisturbed k (.resume r i)) :
    ∃ q, p.Upto q ∧ (s.act (.resume r i)).Phase k q := by
  have hresult : call.flights ≠ [] → ∃ content, r = .value content := by
    intro hrunning
    have hvalue := ha.plain call hi hkey (by
      rw [← Bool.not_eq_false, Call.isRunning_eq_false_iff]
      exact hrunning)
    cases r with
    | value content => exact ⟨content, rfl⟩
    | _ => cases hvalue
  have hfits := (h.calls call (List.mem_of_getElem? hi) hkey).2
  obtain ⟨q, hgets⟩ := Call.resume_getsOn h.cache r hresult hfits
  exact ⟨q, hgets.upto, h.own (f := fun _ => Call.resume r) rfl (hs.act _) hi
    (Call.resume_request r _ call) hgets⟩

/-- A call that waits for the key runs out of time. -/
theorem Phase.expire (h : s.Phase k p) (hs : s.Sound) {i : Nat} {call : Call K V}
    (hi : s.calls[i]? = some call) (hkey : call.request.key = k) :
    (s.act (.expire i)).Phase k p := by
  have hfits := (h.calls call (List.mem_of_getElem? hi) hkey).2
  obtain ⟨hphase, hfits', hsame⟩ := Call.expire_stands h.cache hfits
  have hgets : Call.GetsOn k p p call.stage call.request
      ((call.expire s.cache).1, (call.expire s.cache).2.stage) :=
    ⟨.refl p, hphase, hfits', fun hbefore hafter => absurd (hsame.trans hbefore) hafter⟩
  exact h.own (f := fun _ => Call.expire) rfl (hs.act _) hi (Call.expire_request _ call) hgets

/-- Only a call on the key starts a loader of it. -/
theorem call_of_startsLoader (hstart : s.startsLoader k a = true) :
    ∃ i call, a.call? = some i ∧ s.calls[i]? = some call ∧ call.request.key = k := by
  cases a with
  | advance i =>
    rw [startsLoader] at hstart
    split at hstart
    · next call call' hi hi' =>
      simp only [Bool.and_eq_true, decide_eq_true_eq] at hstart
      exact ⟨i, call, rfl, hi, hstart.1.1⟩
    · cases hstart
  | _ => cases hstart

/-- Every action that leaves the key undisturbed lets it get on, if it does anything at all about
    it. A loader starts only when the key comes into the table. -/
theorem Phase.act (h : s.Phase k p) (hs : s.Sound) (hk : s.Keyed) (ha : s.Undisturbed k a) :
    ∃ q, p.Upto q ∧ (s.act a).Phase k q ∧
      (s.startsLoader k a = true → p.node? = none ∧ q.node? ≠ none) := by
  by_cases hown : ∃ i call, a.call? = some i ∧ s.calls[i]? = some call ∧ call.request.key = k
  · obtain ⟨i, call, hcall, hi, hkey⟩ := hown
    cases a with
    | advance j =>
      obtain rfl := Option.some.inj hcall
      exact h.advance hs hi hkey
    | resume r j =>
      obtain rfl := Option.some.inj hcall
      obtain ⟨q, hupto, hphase⟩ := h.resume hs hi hkey ha
      exact ⟨q, hupto, hphase, nofun⟩
    | expire j =>
      obtain rfl := Option.some.inj hcall
      exact ⟨p, .refl p, h.expire hs hi hkey, nofun⟩
    | _ => cases hcall
  · have hforeign : ∀ i call, a.call? = some i → s.calls[i]? = some call →
        call.request.key ≠ k := fun i call hcall hi hkey => hown ⟨i, call, hcall, hi, hkey⟩
    exact ⟨p, .refl p, ⟨h.foreign hs hk ha hforeign, h.foreign_calls ha hforeign⟩,
      fun hstart => absurd (call_of_startsLoader hstart) hown⟩

/-- Over an undisturbed run a loader starts at most once, and only if the key is absent at first;
    and all calls end in a way that fits the value that the key has at last. -/
theorem Phase.actAll (h : s.Phase k p) (hs : s.Sound) (hk : s.Keyed) {as : List (Action K V)}
    (has : s.Throughout (Undisturbed k) as) :
    ∃ q, p.Upto q ∧ (p.node? ≠ none → s.loaderStarts k as = 0) ∧ s.loaderStarts k as ≤ 1 ∧
      ∀ before after, as = before ++ after → ∀ call ∈ (s.actAll before).calls,
        call.request.key = k → ∀ outcome, call.stage = .done outcome →
          outcome.Fits q.value? call.request := by
  -- Induction over the run, from its first action on: the phase before each action is what the
  -- rest of the run starts with.
  induction as generalizing s p with
  | nil =>
    refine ⟨p, .refl p, fun _ => rfl, Nat.zero_le 1, ?_⟩
    intro before after hsplit call hmem hkey outcome hdone
    obtain ⟨rfl, rfl⟩ := List.append_eq_nil_iff.1 hsplit.symm
    have hfits := (h.calls call hmem hkey).2
    rw [hdone] at hfits
    cases hfits with
    | done _ hfits => exact hfits
  | cons a as ih =>
    obtain ⟨p', hupto, hphase, hstarts⟩ := h.act hs hk has.1
    obtain ⟨q, hupto', hzero, hone, hall⟩ := ih hphase (hs.act a) (hk.act hs a) has.2
    refine ⟨q, hupto.trans hupto', fun hnode => ?_, ?_, ?_⟩
    -- No loader starts while the key is in the table, and it stays there.
    · rw [loaderStarts, if_neg fun hstart => hnode (hstarts hstart).1, Nat.zero_add]
      refine hzero fun hnone => ?_
      obtain ⟨node, hsome⟩ := Option.ne_none_iff_exists'.1 hnode
      rw [hupto.1 node hsome] at hnone
      cases hnone
    · rw [loaderStarts]
      by_cases hstart : s.startsLoader k a = true
      -- The loader that starts now brings the key into the table, so no other one follows.
      · have hrest := hzero (hstarts hstart).2
        rw [if_pos hstart]
        omega
      · rw [if_neg hstart, Nat.zero_add]
        exact hone
    · intro before after hsplit call hmem hkey outcome hdone
      cases before with
      | nil =>
        have hfits := (h.calls call hmem hkey).2
        rw [hdone] at hfits
        cases hfits with
        | done _ hfits => exact hfits.mono (hupto.trans hupto').2
      | cons x before =>
        obtain ⟨rfl, rfl⟩ := List.cons_eq_cons.1 hsplit
        exact hall before after rfl call hmem hkey outcome hdone

omit [DecidableEq K] in
theorem phase_absent (hk : s.Keyed) (habsent : ∀ n ∈ s.cache.table.nodes, n.key ≠ k)
    (hnone : ∀ call ∈ s.calls, call.request.key ≠ k) : s.Phase k {} where
  cache := {
    table := hk.table
    nodes := fun n => ⟨fun ⟨hn, hkey⟩ => absurd hkey (habsent n hn), nofun⟩
    entry := nofun
    blank := fun _ => rfl }
  calls := fun call hmem hkey => absurd hkey (hnone call hmem)

end System

/-! ## At most one load -/

/-- Let a key be absent, and let any number of callers look it up, load it and put it, in any order
    of their steps, while anything else happens that leaves the key undisturbed. Then at most one
    loader of the key starts; and there is one value such that every call on the key that is done
    at some point of the run has that value, or it is a lookup that found none, or it had no time,
    no load or no room left. -/
theorem load_once [DecidableEq K] {s : System K V} (hs : s.Reachable) {k : K}
    (habsent : ∀ n ∈ s.cache.table.nodes, n.key ≠ k)
    (hnone : ∀ call ∈ s.calls, call.request.key ≠ k) {as : List (Action K V)}
    (has : s.Throughout (System.Undisturbed k) as) :
    s.loaderStarts k as ≤ 1 ∧ ∃ value? : Option (Value V), ∀ before after,
      as = before ++ after → ∀ call ∈ (s.actAll before).calls, call.request.key = k →
        ∀ outcome, call.stage = .done outcome → outcome.Fits value? call.request := by
  obtain ⟨q, -, -, hone, hall⟩ :=
    (System.phase_absent hs.keyed habsent hnone).actAll hs.sound hs.keyed has
  exact ⟨hone, q.value?, hall⟩

/-- Two loads and a put that meet: the slower load and the put wait, and both take the value. -/
theorem load_once_raced :
    let s : System Nat Nat := System.new {} (.manual 0) fun _ => 0
    let as : List (Action Nat Nat) :=
      [.spawn (.load 1 0 false), .spawn (.load 1 0 false), .spawn (.put 1 7),
       .advance 0, .advance 1, .advance 2, .advance 0, .advance 1, .advance 0,
       .advance 1, .advance 2, .advance 1, .advance 2, .advance 1, .advance 2,
       .resume (.value 5) 0, .advance 1, .advance 2, .advance 0, .advance 0,
       .advance 1, .advance 1, .advance 1, .advance 2, .advance 2, .advance 2]
    (s.actAll as).outcome? 1 = some (.value (some ⟨1, 5⟩)) ∧
      (s.actAll as).outcome? 2 = some (.value (some ⟨1, 5⟩)) ∧
      s.loaderStarts 1 as ≤ 1 ∧ ∃ value? : Option (Value Nat), ∀ before after,
        as = before ++ after → ∀ call ∈ (s.actAll before).calls, call.request.key = 1 →
          ∀ outcome, call.stage = .done outcome → outcome.Fits value? call.request := by
  intro s as
  refine ⟨by decide +kernel, by decide +kernel, ?_⟩
  exact load_once ⟨_, _, _, [], rfl⟩ (by decide +kernel) (by decide +kernel) (by decide +kernel)

end ReadThrough
