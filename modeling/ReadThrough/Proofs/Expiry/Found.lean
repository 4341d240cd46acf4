import ReadThrough.Proofs.Expiry.Courses

/-! # Loads That Must Find a Value

  A load that accepts no empty result never ends with one, neither when it is served nor when its
  loader returns, as long as its loader does not come back without a value.

  - **mustFind**: loads that accept no empty result.
  - **Along**: every move of a run satisfies a condition.
  - **NeverEmpty**: no such load has come to an empty outcome.
  - **NeverEmpty.moveAll**: this holds after every run whose loaders keep to their types.
-/

namespace ReadThrough

open Cache

variable {K V : Type}

/-- Whether a request is for a load that accepts no empty result. -/
def Request.mustFind : Request K V → Bool
  | .load _ _ acceptEmpty => !acceptEmpty
  | _ => false

/-! ## Single calls -/

namespace Call

variable {held : Held} {c : Cache K V} {call : Call K V} {node : EntryNode K} {now : Nat}
  {e : Entry K V} {outcome : Outcome V}

theorem inserts_of_mustFind {r : Request K V} (h : r.mustFind = true) : r.inserts = true := by
  cases r with
  | load key expire acceptEmpty => rfl
  | _ => cases h

/-- A call keeps the outcome that it has come to. -/
theorem advance_outcome [DecidableEq K] (held : Held) (c : Cache K V)
    (h : call.stage.outcome? = some outcome) :
    (call.advance held c).2.stage.outcome? = some outcome := by
  unfold advance
  cases hstage : call.stage with
  | release node now o =>
    rw [hstage] at h
    obtain rfl := Option.some.inj h
    cases o <;> rfl
  | touch node now o =>
    rw [hstage] at h
    exact h
  | done o =>
    rw [hstage] at h
    exact h
  | _ =>
    rw [hstage] at h
    cases h

theorem onCall_outcome [DecidableEq K] {a : Action K V} {i : Nat} (ha : a.call? = some i)
    (h : call.stage.outcome? = some outcome) :
    (a.onCall held c call).2.stage.outcome? = some outcome := by
  cases a with
  | advance j => exact advance_outcome held c h
  | resume r j =>
    show (call.resume r c).2.stage.outcome? = some outcome
    unfold resume
    split
    · next node epoch prior hstage =>
      rw [hstage] at h
      cases h
    · exact h
  | expire j =>
    have hawake (node : EntryNode K) (epoch : Nat) : call.stage ≠ .parked node epoch := by
      intro hstage
      rw [hstage] at h
      cases h
    show (call.expire c).2.stage.outcome? = some outcome
    rw [expire_awake c hawake]
    exact h
  | _ => cases ha

/-- A load that accepts no empty result finds none. -/
theorem find_ne_empty {policy : NullPolicy} {expire : Nat} :
    e.find held policy expire false now ≠ .hit none := by
  intro h
  rcases find_hit h with ⟨v, hv, -⟩ | ⟨-, hmissing⟩
  · cases hv
  · simp [Entry.find, hmissing] at h

theorem inspect_found (hmust : call.request.mustFind = true)
    (he : c.entries[node.payload]? = some e) :
    (inspect held call node now c).2.outcome? ≠ some (.value none) := by
  unfold inspect
  rw [he]
  cases hr : call.request with
  | load key expire acceptEmpty =>
    rw [hr] at hmust
    obtain rfl : acceptEmpty = false := by simpa [Request.mustFind] using hmust
    unfold inspectLoad park giveUp startLoader
    dsimp only
    split
    · simp [Stage.outcome?]
    split
    · next v? hfind =>
      intro hempty
      obtain rfl : v? = none := by simpa [Stage.outcome?] using hempty
      exact find_ne_empty hfind
    · split <;> simp [Stage.outcome?]
    · split <;> simp [Stage.outcome?]
  | _ =>
    rw [hr] at hmust
    cases hmust

theorem insert_found [DecidableEq K] (hmust : call.request.mustFind = true) :
    (call.insert now c).2.outcome? ≠ some (.value none) := by
  have hinserts := insert_inserts (lenient_quiet.evictor c.entries) call now c
    (Entries.Quiet.refl c.entries)
  generalize call.insert now c = out at hinserts
  cases hinserts with
  | found m hget htable hentries hchain hstage => rcases hstage with rfl | rfl <;> simp [Stage.outcome?]
  | refused m hget hkeep hhash hentries hchain hstage =>
    rcases hstage with ⟨capacity, rfl | rfl⟩
    · simp [Stage.outcome?]
    · simp [Stage.outcome?]
  | made room m hget hkeep hhash htable hentries hchain hstage =>
    subst hstage
    unfold inserted
    split
    · next key content hr =>
      rw [hr] at hmust
      cases hmust
    · simp [Stage.outcome?]

/-- A loader that must find a value does not end with an empty result. -/
theorem settleLoad_found {epoch : Nat} {prior : ValueState V} {r : Return V} (hr : r ≠ .empty) :
    (settleLoad node epoch prior r c).2.outcome? ≠ some (.value none) := by
  cases r with
  | empty => exact absurd rfl hr
  | _ => simp [settleLoad, Stage.outcome?]

end Call

/-! ## Runs -/

namespace System

variable [DecidableEq K]

/-- Every move of the run satisfies `P`, together with the state before it. -/
def Along (P : System K V → Move K V → Prop) (s : System K V) : List (Move K V) → Prop
  | [] => True
  | m :: ms => P s m ∧ (s.move m).Along P ms

instance decidableAlong {P : System K V → Move K V → Prop} [∀ s m, Decidable (P s m)]
    (ms : List (Move K V)) (s : System K V) : Decidable (s.Along P ms) :=
  match ms with
  | [] => .isTrue trivial
  | m :: ms =>
    have : Decidable ((s.move m).Along P ms) := decidableAlong ms (s.move m)
    inferInstanceAs (Decidable (P s m ∧ (s.move m).Along P ms))

/-- A loader that must find a value does not come back without one: its type does not let it. -/
def Typed (s : System K V) : Move K V → Prop
  | .reply .empty => ∀ call ∈ s.calls[s.calls.length - 1]?, call.request.mustFind = false
  | _ => True

instance (s : System K V) (m : Move K V) : Decidable (s.Typed m) := by
  unfold Typed
  split <;> infer_instance

/-- No load that accepts no empty result has come to one. -/
def NeverEmpty (s : System K V) : Prop :=
  ∀ call ∈ s.calls, call.request.mustFind = true → call.stage.outcome? ≠ some (.value none)

variable {s : System K V} {a : Action K V}

theorem NeverEmpty.act (h : s.NeverEmpty) (hs : s.Reachable)
    (ha : ∀ i, a = .resume .empty i → ∀ call, s.calls[i]? = some call →
      call.request.mustFind = false) : (s.act a).NeverEmpty := by
  intro call' hmem hmust
  rcases mem_act_calls hmem with hold | ⟨r, rfl, rfl⟩ | ⟨i, call, hcall, hi, rfl⟩
  · exact h call' hold hmust
  · rw [Call.start_stage]
    simp [Stage.outcome?]
  have hmem' := List.mem_of_getElem? hi
  rw [onCall_request] at hmust
  have hsuits := hs.orderly call hmem'
  -- A call comes to an outcome when it looks at an entry, inserts one, retires one or its callback
  -- ends; otherwise it keeps the outcome that it has.
  rcases onCall_cases hcall s.held s.cache call with ⟨node, now, rfl, hstage⟩ |
    ⟨now, rfl, hstage⟩ | ⟨node, rfl, hstage⟩ | ⟨r, node, epoch, prior, rfl, hstage⟩ |
    ⟨hpasses, -⟩
  · obtain ⟨e, he, -⟩ := hs.keyed.calls call hmem' node (by rw [Call.node?, hstage])
    rw [Action.onCall, Call.advance_inspect _ _ hstage]
    exact Call.inspect_found hmust he
  · rw [Action.onCall, Call.advance, hstage]
    exact Call.insert_found hmust
  · rw [hstage] at hsuits
    obtain ⟨key, hr⟩ := hsuits
    rw [hr] at hmust
    cases hmust
  · show (call.resume r s.cache).2.stage.outcome? ≠ some (.value none)
    unfold Call.resume
    rw [hstage]
    cases hr : call.request with
    | load key expire acceptEmpty =>
      refine Call.settleLoad_found ?_
      rintro rfl
      rw [ha i rfl call hi] at hmust
      cases hmust
    | _ =>
      rw [hr] at hmust
      cases hmust
  · cases houtcome : call.stage.outcome? with
    | none => exact hpasses.value houtcome (Call.inserts_of_mustFind hmust) none
    | some outcome =>
      rw [Call.onCall_outcome hcall houtcome, ← houtcome]
      exact h call hmem' hmust

/-- A call that goes on. -/
theorem NeverEmpty.carryOn {i : Nat} (h : s.NeverEmpty) (hs : s.Reachable) :
    (s.carryOn i).NeverEmpty := by
  refine (carryOn_induct (P := fun t : System K V => t.Reachable ∧ t.NeverEmpty)
    (fun t ht => ?_) (fun t ht => ?_) ⟨hs, h⟩).2
  · exact ⟨ht.1.actAll [.advance i], ht.2.act ht.1 fun _ hresume => by cases hresume⟩
  · exact ⟨ht.1.actAll [.expire i], ht.2.act ht.1 fun _ hresume => by cases hresume⟩

theorem NeverEmpty.move (h : s.NeverEmpty) (hs : s.Reachable) {m : Move K V} (hm : s.Typed m) :
    (s.move m).NeverEmpty := by
  cases m with
  | start r =>
    have hspawn : (s.act (.spawn r)).NeverEmpty := h.act hs fun _ hresume => by cases hresume
    exact hspawn.carryOn (hs.actAll [.spawn r])
  | reply r =>
    have hresume : (s.act (.resume r (s.calls.length - 1))).NeverEmpty := by
      refine h.act hs fun i hempty call hi => ?_
      obtain ⟨rfl, rfl⟩ := Action.resume.inj hempty
      exact hm call hi
    exact hresume.carryOn (hs.actAll [.resume r (s.calls.length - 1)])
  | collect keepAs =>
    exact fun call hmem => h call (collect_calls_subset (s.calls.length - 1) keepAs s hmem)
  | upkeep u => exact fun call hmem => h call (keepUp_calls u s ▸ hmem)

theorem NeverEmpty.moveAll (h : s.NeverEmpty) (hs : s.Reachable) {ms : List (Move K V)}
    (hms : s.Along Typed ms) : (s.moveAll ms).NeverEmpty := by
  induction ms generalizing s with
  | nil => exact h
  | cons m ms ih => exact ih (h.move hs hms.1) (hs.move m) hms.2

end System

end ReadThrough
