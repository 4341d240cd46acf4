import Mathlib.Data.List.Flatten
import Mathlib.Data.List.Induction
import Mathlib.Data.List.Perm.Subperm
import ReadThrough.Proofs.Expiry.Deposits
import ReadThrough.Proofs.Expiry.Found
import ReadThrough.Proofs.Loads.Reservations

/-! # Homes of Values

  A value that was put in place for an entry never comes to another one. Entries do not hand values
  over to each other: a value is new when a callback returns it, and what a put brings along is put
  in place once at most.

  - **Has**, **Bears**: a state has a value, and an entry does, or the callback that runs for it.
  - **brings**, **brought**: the values of puts that are not in place yet.
  - **Handover**: what one action makes of all this.
  - **Housed**: in every reachable system each value is borne by one entry at most.
  - **Home**: nobody but one entry bears a value, and **Home.actAll**: nobody else ever will.
-/

namespace ReadThrough

open Cache Entries

variable {K V : Type}

/-! ## Values of states and calls -/

namespace ValueState

/-- The state has the value of that identity, whether or not it can still be had. -/
def Has (w : Nat) (s : ValueState V) : Prop :=
  ∃ v, s.result? = some (some v) ∧ v.id = w

variable {s s' : ValueState V} {w : Nat}

theorem Keeps.has (h : s.Keeps s') (hw : s'.Has w) : s.Has w := by
  obtain ⟨v, hv, rfl⟩ := hw
  exact ⟨v, h _ hv, rfl⟩

theorem not_has_of_none (h : s.result? = none) : ¬ s.Has w := by
  rintro ⟨v, hv, -⟩
  rw [h] at hv
  cases hv

theorem has_ready {v : Value V} : (ready v).Has w ↔ v.id = w := by
  simp [Has, result?]

end ValueState

namespace Call

/-- The value that a call brings along and has not come to put in place. -/
def brings (call : Call K V) : List Nat :=
  match call.stage.outcome? with
  | some _ => []
  | none => (call.own?.map Value.id).toList

variable {held : Held} {c : Cache K V} {call : Call K V} {node : EntryNode K} {now w : Nat}
  {e e' : Entry K V} {stage : Stage K V}

theorem brings_of_none {v : Value V} (h : call.stage.outcome? = none) (hown : call.own? = some v) :
    call.brings = [v.id] := by
  rw [brings, h, hown]
  rfl

theorem brings_of_some {outcome : Outcome V} (h : call.stage.outcome? = some outcome) :
    call.brings = [] := by
  rw [brings, h]

theorem onCall_own [DecidableEq K] (a : Action K V) (held : Held) (c : Cache K V)
    (call : Call K V) : (a.onCall held c call).2.own? = call.own? := by
  cases a with
  | resume r i =>
    show (call.resume r c).2.own? = call.own?
    unfold resume
    split <;> rfl
  | expire i =>
    show (call.expire c).2.own? = call.own?
    unfold expire
    split <;> rfl
  | _ => rfl

/-- A call does not bring along more than before. -/
theorem onCall_brings [DecidableEq K] {a : Action K V} {i : Nat} (ha : a.call? = some i) :
    (a.onCall held c call).2.brings.Sublist call.brings := by
  cases hbefore : call.stage.outcome? with
  | some outcome =>
    rw [brings_of_some hbefore, brings_of_some (onCall_outcome ha hbefore)]
  | none =>
    unfold brings
    rw [hbefore, onCall_own]
    split
    · exact List.nil_sublist _
    · exact List.Sublist.refl _

/-! ## Values that are put in place -/

/-- A put that looks at an entry puts nothing in place but its own value, and it brings nothing
    along any more then. -/
theorem inspectPut_places {own : Value V} (hown : call.own? = some own)
    (he : c.entries[node.payload]? = some e)
    (he' : (inspectPut held call node now e c).1.entries[node.payload]? = some e')
    (hw : e'.value.Has w) :
    e.value.Has w ∨ (w = own.id ∧ ∃ outcome,
      (inspectPut held call node now e c).2.outcome? = some outcome) := by
  have hsame {es : Entries K V} (hes : es = c.entries) (hentry : es[node.payload]? = some e') :
      e.value.Has w := by
    rw [hes, he] at hentry
    exact Option.some.inj hentry ▸ hw
  have hresolved : (c.entries.modify node.payload (Entry.resolve held))[node.payload]? =
      some (e.resolve held) := by simp [Array.getElem?_modify, he]
  unfold inspectPut at he' ⊢
  rw [hown] at he' ⊢
  -- A put of a removed node, or one that waits, leaves the entry as it is.
  split at he'
  · exact .inl (hsame rfl he')
  split at he'
  · unfold park giveUp at he'
    split at he' <;> exact .inl (hsame rfl he')
  next hpresent hidle =>
  rw [if_neg hpresent, if_neg hidle]
  dsimp only at he' ⊢
  cases hpeek : e.value.peek held with
  -- There is a value, which stays.
  | some v =>
    rw [hpeek] at he'
    obtain rfl := Option.some.inj (hresolved.symm.trans he')
    exact .inl ((ValueState.keeps_resolve held e.value).has hw)
  -- There is none, so the call puts its own in place and is done.
  | none =>
    rw [hpeek] at he'
    have hinstalled : e' = (e.resolve held).install (.ready own) now := by
      simpa [Array.getElem?_modify, he] using he'.symm
    rw [hinstalled] at hw
    exact .inr ⟨(ValueState.has_ready.1 hw).symm, _, rfl⟩

/-- A call that looks at an entry puts nothing in place but what it brings along. -/
theorem inspect_places [DecidableEq K] (hproper : call.Proper)
    (hsuits : call.stage.Suits call.request) (hstage : call.stage = .inspect node now)
    (he : c.entries[node.payload]? = some e)
    (he' : (call.advance held c).1.entries[node.payload]? = some e') (hw : e'.value.Has w) :
    e.value.Has w ∨ (call.brings = [w] ∧ (call.advance held c).2.brings = []) := by
  have houtcome : call.stage.outcome? = none := by rw [hstage]; rfl
  rw [hstage] at hsuits
  rw [advance_inspect held c hstage] at he' ⊢
  cases hput : call.request.isPut with
  | false =>
    obtain ⟨e₁, he₁, hinspects⟩ := inspect_inspects held now hproper hsuits he
    obtain rfl := Option.some.inj (he₁.symm.trans he')
    exact .inl ((hinspects.aged hput).kept.has hw)
  | true =>
    cases hr : call.request with
    | put key content =>
      obtain ⟨own, hown⟩ : ∃ v, call.own? = some v := by
        rw [Proper, hr] at hproper
        exact hproper
      have hinspect : inspect held call node now c = inspectPut held call node now e c := by
        rw [inspect, he, hr]
      rw [hinspect] at he' ⊢
      rcases inspectPut_places hown he he' hw with hold | ⟨rfl, outcome, hdone⟩
      · exact .inl hold
      · exact .inr ⟨brings_of_none houtcome hown, brings_of_some hdone⟩
    | _ =>
      rw [hr] at hput
      cases hput

/-- A call that inserts an entry puts what it brings along in place for it, if anything. -/
theorem firstState_has (hproper : call.Proper) (hstage : call.stage = .insert now)
    (hw : call.firstState.Has w) :
    call.brings = [w] ∧ (call.goTo (call.inserted node)).brings = [] := by
  unfold firstState at hw
  cases hown : call.own? with
  | none =>
    rw [hown] at hw
    exact absurd hw (ValueState.not_has_of_none rfl)
  | some own =>
    rw [hown] at hw
    obtain rfl := ValueState.has_ready.1 hw
    refine ⟨brings_of_none (by rw [hstage]; rfl) hown, ?_⟩
    unfold Proper at hproper
    unfold inserted
    cases hr : call.request with
    | put key content => exact brings_of_some rfl
    | _ =>
      rw [hr, hown] at hproper
      cases hproper

theorem makeDirty_nextValue (id : EntryId) (v : Value V) (c : Cache K V) :
    (c.makeDirty id v).nextValue = c.nextValue := by
  unfold Cache.makeDirty
  dsimp only
  split <;> rfl

/-- What a callback returns is a new value. -/
theorem resume_makes {r : Return V} {epoch : Nat} {prior : ValueState V} {v : Value V}
    (hstage : call.stage = .running node epoch prior)
    (houtcome : (call.resume r c).2.stage.outcome? = some (.value (some v))) :
    v.id = c.nextValue ∧ (call.resume r c).1.nextValue = c.nextValue + 1 := by
  unfold resume at houtcome ⊢
  rw [hstage] at houtcome ⊢
  dsimp only at houtcome ⊢
  split at houtcome
  · cases r with
    | value content =>
      obtain rfl : Value.mk c.nextValue content = v := by
        simpa [settleLoad, goTo, Stage.outcome?, allocate] using houtcome
      exact ⟨rfl, rfl⟩
    | _ => cases houtcome
  · cases r with
    | value content =>
      obtain rfl : Value.mk c.nextValue content = v := by
        simpa [settleUpdate, goTo, Stage.outcome?, allocate] using houtcome
      exact ⟨rfl, makeDirty_nextValue _ _ _⟩
    | _ => cases houtcome

/-- The end of a callback puts what it was given or what it has made in place, or nothing. -/
theorem Settles.places {r : Return V} {epoch : Nat} {prior : ValueState V}
    (h : call.Settles r node epoch prior e e' stage) (hpending : e.value = .pending)
    (hepoch : e.epoch = epoch) (hw : e'.value.Has w) :
    prior.Has w ∨ ∃ v, stage.outcome? = some (.value (some v)) ∧ v.id = w := by
  cases h with
  | loaded v now hr => exact .inr ⟨v, rfl, ValueState.has_ready.1 hw⟩
  | empty now hr =>
    obtain ⟨v, hv, -⟩ := hw
    cases hv
  | failed now error hr => exact absurd hw (ValueState.not_has_of_none rfl)
  | updated content v now next? hresult hr =>
    obtain ⟨v', hv, rfl⟩ := hw
    cases hv
    exact .inr ⟨v, rfl, rfl⟩
  | restored outcome stage hstage hvalue hload =>
    rw [← hepoch, Entry.restore_value prior hpending] at hw
    exact .inl hw

/-! ## New values -/

theorem inspect_nextValue (held : Held) (call : Call K V) (node : EntryNode K) (now : Nat)
    (c : Cache K V) : (inspect held call node now c).1.nextValue = c.nextValue := by
  unfold inspect
  split
  · rfl
  split
  · unfold inspectGet
    dsimp only
    split <;> rfl
  · unfold inspectLoad park giveUp startLoader
    dsimp only
    repeat' split
    all_goals rfl
  · unfold inspectUpdate park giveUp
    repeat' split
    all_goals rfl
  · unfold inspectPut park giveUp
    dsimp only
    repeat' split
    all_goals rfl
  · unfold inspectMark
    dsimp only
    split
    · rfl
    · exact makeDirty_nextValue _ _ _
  · rfl

theorem insert_nextValue [DecidableEq K] (call : Call K V) (now : Nat) (c : Cache K V) :
    (call.insert now c).1.nextValue = c.nextValue := by
  unfold insert startLoader
  dsimp only
  repeat' split
  all_goals rfl

/-- A call makes no value but when its callback ends. -/
theorem advance_nextValue [DecidableEq K] (held : Held) (c : Cache K V) (call : Call K V) :
    (call.advance held c).1.nextValue = c.nextValue := by
  unfold advance
  dsimp only
  cases call.stage with
  | lookup =>
    show (lookup call.request c).1.nextValue = c.nextValue
    unfold lookup
    repeat' split
    all_goals rfl
  | inspect node now => exact inspect_nextValue held call node now c
  | insert now => exact insert_nextValue call now c
  | giveBack error? => cases error? <;> rfl
  | parked node epoch =>
    show (wake call node epoch c).1.nextValue = c.nextValue
    rw [wake_cache]
  | release node now outcome => cases outcome <;> rfl
  | _ => rfl

theorem resume_nextValue (r : Return V) (c : Cache K V) (call : Call K V) :
    c.nextValue ≤ (call.resume r c).1.nextValue := by
  unfold resume
  split
  · dsimp only
    split
    · cases r with
      | value content => exact Nat.le_succ _
      | _ => exact Nat.le_refl _
    · cases r with
      | value content =>
        show c.nextValue ≤ (Cache.makeDirty _ _ _).nextValue
        rw [makeDirty_nextValue]
        exact Nat.le_succ _
      | _ => exact Nat.le_refl _
  · exact Nat.le_refl _

theorem expire_nextValue (c : Cache K V) (call : Call K V) :
    (call.expire c).1.nextValue = c.nextValue := by
  unfold expire
  split
  · next node epoch hstage =>
    have hwake := wake_cache call node epoch c
    dsimp only
    split
    · next heq =>
      rw [heq] at hwake
      rw [← hwake]
      rfl
    · rw [hwake]
  · rfl

theorem onCall_nextValue [DecidableEq K] {a : Action K V} {i : Nat} (ha : a.call? = some i)
    (held : Held) (c : Cache K V) (call : Call K V) :
    c.nextValue ≤ (a.onCall held c call).1.nextValue := by
  cases a with
  | advance j => exact Nat.le_of_eq (advance_nextValue held c call).symm
  | resume r j => exact resume_nextValue r c call
  | expire j => exact Nat.le_of_eq (expire_nextValue c call).symm
  | _ => cases ha

end Call

/-! ## Single actions -/

namespace System

/-- The values that puts have brought along and not come to put in place. -/
def brought (s : System K V) : List Nat :=
  s.calls.flatMap Call.brings

/-- The entry has the value, or the callback that runs for the entry may give it back. -/
def Bears (w : Nat) (id : EntryId) (s : System K V) : Prop :=
  (∃ e, s.cache.entries[id]? = some e ∧ e.value.Has w) ∨
    ∃ f ∈ s.ledger.flights, f.entry = id ∧ f.prior.Has w

/-- What an action makes of the values: those that it makes are new, and those that it puts in place
    are new ones or were brought along, and are brought along no more. -/
structure Handover (fresh : List Nat) (placed : List (Nat × EntryId)) (s s' : System K V) :
    Prop where
  bears : ∀ w id, s'.Bears w id → s.Bears w id ∨ (w, id) ∈ placed
  brought : (placed.map Prod.fst ++ s'.brought).Subperm (s.brought ++ fresh)
  distinct : fresh.Nodup
  fresh : ∀ w ∈ fresh, s.cache.nextValue ≤ w ∧ w < s'.cache.nextValue
  next : s.cache.nextValue ≤ s'.cache.nextValue

variable {s s' : System K V} {i w : Nat} {call call' : Call K V} {id : EntryId}

/-- The values that all calls bring along, those of one call first. -/
theorem brings_perm {calls : List (Call K V)} (hi : calls[i]? = some call) :
    (calls.flatMap Call.brings).Perm
      (call.brings ++ (calls.eraseIdx i).flatMap Call.brings) := by
  obtain ⟨hlt, rfl⟩ := List.getElem?_eq_some_iff.1 hi
  exact (List.getElem_cons_eraseIdx_perm hlt).symm.flatMap_right Call.brings

/-- Whatever becomes of the values of one call, the other calls keep theirs. -/
theorem subperm_brought {fresh placed : List Nat} (hi : s.calls[i]? = some call)
    (hcalls : s'.calls = s.calls.set i call')
    (h : (placed ++ call'.brings).Subperm (call.brings ++ fresh)) :
    (placed ++ s'.brought).Subperm (s.brought ++ fresh) := by
  have hlt : i < s.calls.length := (List.getElem?_eq_some_iff.1 hi).1
  have hbefore := brings_perm hi
  have hafter : s'.brought.Perm (call'.brings ++ (s.calls.eraseIdx i).flatMap Call.brings) := by
    have hset : s'.calls[i]? = some call' := by simp [hcalls, hlt]
    have hperm := brings_perm hset
    rw [hcalls, List.eraseIdx_set_eq, ← hcalls] at hperm
    exact hperm
  generalize (s.calls.eraseIdx i).flatMap Call.brings = rest at hbefore hafter
  -- Both sides are rearranged so that the values of the call and those of the others stand apart.
  have hleft : (placed ++ s'.brought).Perm (placed ++ call'.brings ++ rest) := by
    rw [List.append_assoc]
    exact hafter.append_left placed
  have hright : (call.brings ++ fresh ++ rest).Perm (s.brought ++ fresh) := by
    have hswap : (call.brings ++ fresh ++ rest).Perm (call.brings ++ rest ++ fresh) := by
      rw [List.append_assoc, List.append_assoc]
      exact List.perm_append_comm.append_left call.brings
    exact hswap.trans (hbefore.symm.append_right fresh)
  exact hleft.subperm.trans (((List.subperm_append_right rest).2 h).trans hright.subperm)

variable [DecidableEq K] {a : Action K V}

/-- What a callback may give back after an action is what its entry had before, or what it might
    have given back already. -/
theorem bears_of_flight (hs : s.Sound) (ho : s.Orderly) {f : Flight V}
    (hf : f ∈ (s.act a).ledger.flights) (hw : f.prior.Has w) : s.Bears w f.entry := by
  rcases mem_act_flights hs ho hf with hold | hnone | ⟨e, he, hkeeps⟩
  · exact .inr ⟨f, hold, rfl, hw⟩
  · exact absurd hw (ValueState.not_has_of_none hnone)
  · exact .inl ⟨e, he, hkeeps.has hw⟩

/-- Only what entries come to have is of interest. -/
theorem bears_of_entries {placed : List (Nat × EntryId)} (hs : s.Sound) (ho : s.Orderly)
    (h : ∀ w id e', (s.act a).cache.entries[id]? = some e' → e'.value.Has w →
      s.Bears w id ∨ (w, id) ∈ placed) (w : Nat) (id : EntryId) (hbears : (s.act a).Bears w id) :
    s.Bears w id ∨ (w, id) ∈ placed := by
  rcases hbears with ⟨e', he', hw⟩ | ⟨f, hf, rfl, hw⟩
  · exact h w id e' he' hw
  · exact .inl (bears_of_flight hs ho hf hw)

omit [DecidableEq K] in
theorem bears_of_aged {es : Entries K V} {e' : Entry K V}
    (h : Each (fun _ => Entry.Aged) s.cache.entries es) (he' : es[id]? = some e')
    (hw : e'.value.Has w) : s.Bears w id := by
  obtain ⟨e, he, haged⟩ := h.backward he'
  exact .inl ⟨e, he, haged.kept.has hw⟩

/-- An action that is about no call puts nothing in place. -/
theorem act_bears (hs : s.Sound) (ho : s.Orderly) (ha : a.call? = none)
    (hbears : (s.act a).Bears w id) : s.Bears w id := by
  rcases hbears with ⟨e', he', hw⟩ | ⟨f, hf, rfl, hw⟩
  · have hplaces : s.mayPlace a = false := by
      cases a with
      | advance i => cases ha
      | resume r i => cases ha
      | _ => rfl
    rcases act_ages hs ho hplaces e' he' with ⟨e, he, haged⟩ | ⟨-, hpending⟩
    · exact .inl ⟨e, he, haged.kept.has hw⟩
    · rw [hpending] at hw
      exact absurd hw (ValueState.not_has_of_none rfl)
  · exact bears_of_flight hs ho hf hw

/-- An action that is about no call: a put may start and bring a new value along. -/
theorem act_handover_idle (hs : s.Sound) (ho : s.Orderly) (ha : a.call? = none) :
    ∃ fresh, Handover fresh [] s (s.act a) := by
  have hbears (w : Nat) (id : EntryId) (h : (s.act a).Bears w id) :
      s.Bears w id ∨ (w, id) ∈ ([] : List (Nat × EntryId)) := .inl (act_bears hs ho ha h)
  -- Nothing is put in place, so it remains to see what is brought along.
  have hquiet (hbrought : (s.act a).brought.Subperm s.brought)
      (hnext : (s.act a).cache.nextValue = s.cache.nextValue) :
      ∃ fresh, Handover fresh [] s (s.act a) := by
    refine ⟨[], hbears, ?_, List.nodup_nil, by simp, Nat.le_of_eq hnext.symm⟩
    rw [List.append_nil]
    exact hbrought
  cases a with
  | spawn r =>
    cases r with
    -- The value that a put brings along is a new one.
    | put key content =>
      refine ⟨[s.cache.nextValue], hbears, ?_, List.nodup_singleton _, ?_, Nat.le_succ _⟩
      · have hbrought : (s.act (.spawn (.put key content))).brought =
            s.brought ++ [s.cache.nextValue] := by
          simp [System.act, spawn, withCache, brought, Call.start, allocate, Call.brings,
            Stage.outcome?]
        rw [hbrought]
        exact (List.Perm.refl _).subperm
      · intro w hw
        rw [List.mem_singleton.1 hw]
        exact ⟨Nat.le_refl _, Nat.lt_succ_self _⟩
    | _ =>
      refine hquiet (List.Perm.of_eq ?_).subperm rfl
      simp [System.act, spawn, withCache, brought, Call.start, Call.brings, Stage.outcome?]
  -- What a call has brought along goes with it.
  | collect i keepAs =>
    refine hquiet ?_ ?_
    · show (s.collect i keepAs).brought.Subperm s.brought
      unfold collect
      split
      · exact List.Subperm.refl _
      · exact ((List.eraseIdx_sublist s.calls i).flatMap _).subperm
    · show (s.collect i keepAs).cache.nextValue = _
      unfold collect
      split <;> rfl
  | upkeep u =>
    refine hquiet (List.Perm.of_eq ?_).subperm (keepUp_counts u s).2.1
    exact congrArg (List.flatMap Call.brings) (keepUp_calls u s)
  | _ => cases ha

omit [DecidableEq K] in
/-- The values that a call has put in place for an entry if it brings nothing along any more. -/
def settled (call call' : Call K V) (id : EntryId) : List (Nat × EntryId) :=
  if call'.brings = [] then call.brings.map (·, id) else []

omit [DecidableEq K] in
theorem mem_settled (h : call.brings = [w]) (h' : call'.brings = []) :
    (w, id) ∈ settled call call' id := by
  simp [settled, h, h']

/-- A call goes on and makes no value: what it puts in place it has brought along. -/
theorem handover_of_settled (hs : s.Sound) (ho : s.Orderly) (ha : a.call? = some i)
    (hi : s.calls[i]? = some call) (id : EntryId)
    (h : ∀ w j e', (s.act a).cache.entries[j]? = some e' → e'.value.Has w →
      s.Bears w j ∨ (w, j) ∈ settled call (a.onCall s.held s.cache call).2 id) :
    Handover [] (settled call (a.onCall s.held s.cache call).2 id) s (s.act a) where
  bears := bears_of_entries hs ho h
  brought := by
    have hsub : (a.onCall s.held s.cache call).2.brings.Sublist call.brings := Call.onCall_brings ha
    refine subperm_brought hi (by rw [act_onCall ha, withCall_eq hi]) ?_
    rw [List.append_nil]
    unfold settled
    split
    · next hnone => simpa [hnone, Function.comp_def] using List.Subperm.refl call.brings
    · simpa using hsub.subperm
  distinct := List.nodup_nil
  fresh := by simp
  next := by
    rw [act_cache ha hi]
    exact Call.onCall_nextValue ha _ _ _

/-- A call looks at an entry. -/
theorem handover_of_inspects (hs : s.Sound) (ho : s.Orderly) {node : EntryNode K} {now : Nat}
    (hi : s.calls[i]? = some call) (hstage : call.stage = .inspect node now)
    (h : Each (call.InspectsAt s.held node (call.advance s.held s.cache).2.stage) s.cache.entries
      (s.act (.advance i)).cache.entries) :
    Handover [] (settled call (call.advance s.held s.cache).2 node.payload) s
      (s.act (.advance i)) := by
  have hcall := List.mem_of_getElem? hi
  refine handover_of_settled (a := .advance i) hs ho rfl hi node.payload fun w id e' he' hw => ?_
  obtain ⟨e, he, -, hother⟩ := h.backward he'
  by_cases hid : id = node.payload
  · subst hid
    rw [act_cache rfl hi] at he'
    rcases Call.inspect_places (hs.proper call hcall) (ho call hcall) hstage he he' hw with
      hold | ⟨hw, hdone⟩
    · exact .inl (.inl ⟨e, he, hold⟩)
    · exact .inr (mem_settled hw hdone)
  · exact .inl (.inl ⟨e, he, (hother hid).aged.kept.has hw⟩)

/-- A call inserts an entry. -/
theorem handover_of_inserts (hs : s.Sound) (ho : s.Orderly) {node : EntryNode K} {now : Nat}
    {es : Entries K V} (hi : s.calls[i]? = some call) (hstage : call.stage = .insert now)
    (hes : Each (fun _ => Entry.Aged) s.cache.entries es)
    (hentries : (s.act (.advance i)).cache.entries =
      es.push (Entry.new call.request.key call.firstState now))
    (hnext : (call.advance s.held s.cache).2.stage = call.inserted node) :
    Handover [] (settled call (call.advance s.held s.cache).2 es.size) s (s.act (.advance i)) := by
  have hproper := hs.proper call (List.mem_of_getElem? hi)
  refine handover_of_settled (a := .advance i) hs ho rfl hi es.size fun w id e' he' hw => ?_
  rw [hentries, Array.getElem?_push] at he'
  split at he'
  · next hid =>
    subst hid
    rw [← Option.some.inj he'] at hw
    have hplaced : call.brings = [w] ∧ (call.goTo (call.inserted node)).brings = [] :=
      Call.firstState_has hproper hstage hw
    obtain ⟨hbrings, hdone⟩ := hplaced
    have hgoes : (call.advance s.held s.cache).2 = call.goTo (call.inserted node) :=
      congrArg call.goTo hnext
    refine .inr (mem_settled hbrings ?_)
    show (call.advance s.held s.cache).2.brings = []
    rw [hgoes]
    exact hdone
  · exact .inl (bears_of_aged hes he' hw)

/-- What an entry has when a callback has ended it had before, or the callback was given it, or it
    is the outcome. -/
theorem bears_of_settles (hs : s.Sound) {r : Return V} {node : EntryNode K} {epoch : Nat}
    {prior : ValueState V} (hi : s.calls[i]? = some call)
    (hstage : call.stage = .running node epoch prior)
    (h : Each (call.SettlesAt r node epoch prior (call.resume r s.cache).2.stage) s.cache.entries
      (s.act (.resume r i)).cache.entries) :
    ∃ outcome, (call.resume r s.cache).2.stage.outcome? = some outcome ∧
      ∀ w j e', (s.act (.resume r i)).cache.entries[j]? = some e' → e'.value.Has w →
        s.Bears w j ∨ ∃ v, outcome = .value (some v) ∧ v.id = w ∧ j = node.payload := by
  have hcall := List.mem_of_getElem? hi
  obtain ⟨-, e, he, hpending, hepoch⟩ := exists_pending hs hcall hstage
  obtain ⟨e₁, -, hown, -⟩ := h.2 node.payload e he
  obtain ⟨outcome, houtcome⟩ := (hown rfl).outcome
  refine ⟨outcome, houtcome, fun w j e' he' hw => ?_⟩
  obtain ⟨e₀, he₀, hsettles, hother⟩ := h.backward he'
  by_cases hj : j = node.payload
  · obtain rfl : e = e₀ := Option.some.inj (he.symm.trans (hj ▸ he₀))
    rcases (hsettles hj).places hpending hepoch hw with hgiven | ⟨v, hv, hid⟩
    · exact .inl (.inr ⟨_, mem_flights hcall hstage, hj.symm, hgiven⟩)
    · rw [houtcome] at hv
      exact .inr ⟨v, Option.some.inj hv, hid, hj⟩
  · exact .inl (.inl ⟨e₀, he₀, (hother hj).aged.kept.has hw⟩)

/-- The callback of a call ends. -/
theorem handover_of_settles (hs : s.Sound) (ho : s.Orderly) {r : Return V} {node : EntryNode K}
    {epoch : Nat} {prior : ValueState V} (hi : s.calls[i]? = some call)
    (hstage : call.stage = .running node epoch prior)
    (h : Each (call.SettlesAt r node epoch prior (call.resume r s.cache).2.stage) s.cache.entries
      (s.act (.resume r i)).cache.entries) :
    ∃ fresh placed, Handover fresh placed s (s.act (.resume r i)) := by
  obtain ⟨outcome, houtcome, hentries⟩ := bears_of_settles hs hi hstage h
  have hcache : (s.act (.resume r i)).cache = (call.resume r s.cache).1 := act_cache rfl hi
  have hnone : (call.resume r s.cache).2.brings = [] := Call.brings_of_some houtcome
  have hcalls : (s.act (.resume r i)).calls = s.calls.set i (call.resume r s.cache).2 := by
    rw [act_onCall rfl, withCall_eq hi]
    rfl
  by_cases hmakes : ∃ v, outcome = .value (some v)
  · -- The value is new, and it is put in place for the entry of the callback.
    obtain ⟨v, rfl⟩ := hmakes
    obtain ⟨hid, hnext⟩ := Call.resume_makes hstage houtcome
    have hlt : v.id < (s.act (.resume r i)).cache.nextValue := by
      rw [hcache, hnext, hid]
      exact Nat.lt_succ_self _
    refine ⟨[v.id], [(v.id, node.payload)], bears_of_entries hs ho fun w j e' he' hw => ?_, ?_,
      List.nodup_singleton _, fun w hw => ?_, ?_⟩
    · rcases hentries w j e' he' hw with hold | ⟨v', hv, rfl, rfl⟩
      · exact .inl hold
      · obtain rfl : v = v' := by simpa using hv
        exact .inr (List.mem_singleton.2 rfl)
    · refine subperm_brought hi hcalls ?_
      rw [hnone]
      exact (List.sublist_append_right _ _).subperm
    · rw [List.mem_singleton.1 hw]
      exact ⟨Nat.le_of_eq hid.symm, hlt⟩
    · exact Nat.le_of_lt (hid ▸ hlt)
  · -- Without a value as outcome nothing is put in place, and nothing is new.
    refine ⟨[], [], bears_of_entries hs ho fun w j e' he' hw => ?_, ?_, List.nodup_nil, by simp, ?_⟩
    · rcases hentries w j e' he' hw with hold | ⟨v, hv, -⟩
      · exact .inl hold
      · exact absurd ⟨v, hv⟩ hmakes
    · refine subperm_brought hi hcalls ?_
      rw [hnone]
      exact (List.nil_sublist _).subperm
    · rw [hcache]
      exact Call.resume_nextValue r s.cache call

/-- What every action makes of the values. -/
theorem act_handover (hs : s.Sound) (ho : s.Orderly) (a : Action K V) :
    ∃ fresh placed, Handover fresh placed s (s.act a) := by
  cases ha : a.call? with
  -- The action is about no call.
  | none =>
    obtain ⟨fresh, h⟩ := act_handover_idle hs ho ha
    exact ⟨fresh, [], h⟩
  | some i =>
    have hopen : a.closed? = none := by
      cases a with
      | upkeep u => cases ha
      | _ => rfl
    cases hi : s.calls[i]? with
    | none =>
      rw [act_onCall ha, withCall_eq_self hi]
      refine ⟨[], [], fun _ _ => .inl, ?_, List.nodup_nil, by simp, Nat.le_refl _⟩
      simpa using List.Subperm.refl s.brought
    | some call =>
      -- What the action does to the entries depends on the stage of its call.
      cases act_deals Entry.tolerant_aged hs ho hopen with
      | leaves h =>
        refine ⟨[], _, handover_of_settled hs ho ha hi 0 fun w j e' he' hw => ?_⟩
        exact .inl (bears_of_aged h he' hw)
      | inspects j own node now hadvance hj hstage h =>
        subst hadvance
        exact ⟨[], _, handover_of_inspects hs ho hj hstage h⟩
      | inserts j own now es node hadvance hj hstage hes hentries hnode hnext =>
        subst hadvance
        exact ⟨[], _, handover_of_inserts hs ho hj hstage hes hentries hnext⟩
      | settles r j own node epoch prior hresume hj hstage h =>
        subst hresume
        exact handover_of_settles hs ho hj hstage h

/-! ## Runs -/

/-- No value is borne by two entries, and none that is borne is still brought along. -/
structure Housed (s : System K V) : Prop where
  once : ∀ w id j, s.Bears w id → s.Bears w j → id = j
  apart : ∀ w id, s.Bears w id → w ∉ s.brought
  distinct : s.brought.Nodup
  borne : ∀ w id, s.Bears w id → w < s.cache.nextValue
  below : ∀ w ∈ s.brought, w < s.cache.nextValue

/-- Nobody bears the value but the entry, and nobody brings it along. -/
structure Home (w : Nat) (id : EntryId) (s : System K V) : Prop where
  own : ∀ j, s.Bears w j → j = id
  placed : w ∉ s.brought
  old : w < s.cache.nextValue

section

variable {fresh : List Nat} {placed : List (Nat × EntryId)}

omit [DecidableEq K] in
/-- What is put in place was brought along, or it is new. -/
theorem Handover.placed_mem (h : Handover fresh placed s s') (hw : (w, id) ∈ placed) :
    w ∈ s.brought ∨ w ∈ fresh :=
  List.mem_append.1 (h.brought.subset (List.mem_append_left _ (List.mem_map_of_mem hw)))

omit [DecidableEq K] in
theorem Handover.brought_mem (h : Handover fresh placed s s') (hw : w ∈ s'.brought) :
    w ∈ s.brought ∨ w ∈ fresh :=
  List.mem_append.1 (h.brought.subset (List.mem_append_right _ hw))

omit [DecidableEq K] in
theorem Home.handover (h : s.Home w id) (hs : Handover fresh placed s s') : s'.Home w id := by
  -- The value is neither new nor brought along.
  have hold : ¬ (w ∈ s.brought ∨ w ∈ fresh) := by
    rintro (hw | hw)
    · exact h.placed hw
    · have hlt := h.old
      have hle := (hs.fresh w hw).1
      omega
  refine ⟨fun j hj => ?_, fun hw => hold (hs.brought_mem hw), Nat.lt_of_lt_of_le h.old hs.next⟩
  rcases hs.bears w j hj with hbears | hplaced
  · exact h.own j hbears
  · exact absurd (hs.placed_mem hplaced) hold

omit [DecidableEq K] in
theorem Housed.home (h : s.Housed) (hw : s.Bears w id) : s.Home w id :=
  ⟨fun j hj => h.once w j id hj hw, h.apart w id hw, h.borne w id hw⟩

omit [DecidableEq K] in
theorem Housed.handover (h : s.Housed) (hs : Handover fresh placed s s') : s'.Housed := by
  have hnodup : (placed.map Prod.fst ++ s'.brought).Nodup := by
    obtain ⟨l, hperm, hsub⟩ := hs.brought
    refine hperm.nodup_iff.1 (List.Nodup.sublist hsub ?_)
    refine List.nodup_append.2 ⟨h.distinct, hs.distinct, ?_⟩
    rintro w hw _ hw' rfl
    have hlt := h.below w hw
    have hle := (hs.fresh w hw').1
    omega
  obtain ⟨hplaced, hbrought, hdisjoint⟩ := List.nodup_append.1 hnodup
  -- A value that was borne stays where it is, so it is not put in place now.
  have hcontra {w : Nat} {id j : EntryId} (hw : s.Bears w id) (hj : (w, j) ∈ placed) : False := by
    rcases hs.placed_mem hj with hmem | hmem
    · exact h.apart w id hw hmem
    · have hlt := h.borne w id hw
      have hle := (hs.fresh w hmem).1
      omega
  have hnext := hs.next
  refine ⟨fun w id j hid hj => ?_, fun w id hid hw => ?_, hbrought, fun w id hid => ?_,
    fun w hw => ?_⟩
  · rcases hs.bears w id hid with hold | hnew
    · exact (((h.home hold).handover hs).own j hj).symm
    · rcases hs.bears w j hj with hold | hnew'
      · exact (hcontra hold hnew).elim
      · exact congrArg Prod.snd (List.inj_on_of_nodup_map hplaced hnew hnew' rfl)
  · rcases hs.bears w id hid with hold | hnew
    · exact ((h.home hold).handover hs).placed hw
    · exact hdisjoint w (List.mem_map_of_mem hnew) w hw rfl
  · rcases hs.bears w id hid with hold | hnew
    · exact ((h.home hold).handover hs).old
    · rcases hs.placed_mem hnew with hmem | hmem
      · have hlt := h.below w hmem
        omega
      · exact (hs.fresh w hmem).2
  · rcases hs.brought_mem hw with hmem | hmem
    · have hlt := h.below w hmem
      omega
    · exact (hs.fresh w hmem).2

end

omit [DecidableEq K] in
theorem housed_new (config : Config) (clock : Clock) (hashOf : K → UInt64) :
    (System.new config clock hashOf : System K V).Housed := by
  have hnone (w : Nat) (id : EntryId) :
      ¬ (System.new config clock hashOf : System K V).Bears w id := by
    rintro (⟨e, he, -⟩ | ⟨f, hf, -⟩)
    · simp [System.new, Cache.new] at he
    · cases hf
  exact ⟨fun w id j hid => absurd hid (hnone w id), fun w id hid => absurd hid (hnone w id),
    List.nodup_nil, fun w id hid => absurd hid (hnone w id), fun w hw => by cases hw⟩

theorem Reachable.housed (h : s.Reachable) : s.Housed := by
  obtain ⟨config, clock, hashOf, as, rfl⟩ := h
  induction as using List.reverseRecOn with
  | nil => exact housed_new config clock hashOf
  | append_singleton as a ih =>
    have hbefore : ((System.new config clock hashOf : System K V).actAll as).Reachable :=
      ⟨config, clock, hashOf, as, rfl⟩
    obtain ⟨fresh, placed, hs⟩ := act_handover hbefore.sound hbefore.orderly a
    rw [actAll_append]
    exact ih.handover hs

/-- A value that belongs to an entry never comes to another one. -/
theorem Home.actAll (h : s.Home w id) (hs : s.Reachable) (as : List (Action K V)) :
    (s.actAll as).Home w id := by
  induction as generalizing s with
  | nil => exact h
  | cons a as ih =>
    obtain ⟨fresh, placed, hhandover⟩ := act_handover hs.sound hs.orderly a
    exact ih (h.handover hhandover) (hs.actAll [a])

theorem Home.moveAll (h : s.Home w id) (hs : s.Reachable) (ms : List (Move K V)) :
    (s.moveAll ms).Home w id := by
  obtain ⟨as, has⟩ := exists_actAll_eq_moveAll s ms
  exact has ▸ h.actAll hs as

end System

end ReadThrough
