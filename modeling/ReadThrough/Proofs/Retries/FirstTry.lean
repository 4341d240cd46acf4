import ReadThrough.Proofs.Retries.Residents

/-! # First Tries

  Loads, updates and puts look their key up again if the entry they found has left the table, or if
  somebody else was faster to insert the key. Under a single caller neither ever happens, however
  deep its callbacks are nested: each of these calls goes from its first look-up to its end.

  - **OnCourse**: what a call on its way has found is still so. Nothing sends it back then.
  - **Stage.ahead**: how many critical sections it is from its end, its callback or a wait.
  - **advance_onCourse**: a critical section keeps the call on course and takes it nearer.
  - **carryOn_eq_actAll**: so the fuelled loop of a call is a fixed number of critical sections.
  - **never_retries**: marks and table agree, and no call of a single caller looks its key up twice.
-/

namespace ReadThrough

open Cache Entries

variable {K V : Type}

/-! ## Single calls -/

/-- How many critical sections a call is at most from its end, its callback or a wait, if nobody
    interferes. -/
def Stage.ahead : Stage K V → Nat
  | .lookup => 4
  | .reserve _ => 3
  | .insert _ => 2
  | .inspect .. => 2
  | .release .. => 2
  | .refuse _ => 1
  | .giveBack _ => 1
  | .touch .. => 1
  | .retire _ => 1
  | .parked .. => 0
  | .running .. => 0
  | .done _ => 0

namespace Call

variable {held : Held} {c : Cache K V} {call : Call K V} {node : EntryNode K} {e : Entry K V}
  {now : Nat}

theorem isHalted_iff : call.isHalted = true ↔ call.stage.ahead = 0 := by
  unfold isHalted
  cases call.stage <;> simp [Stage.ahead]

/-- A call that has no time does not wait. -/
theorem inspect_awake (htime : call.timeout = 0) (node m : EntryNode K) (now epoch : Nat) :
    (inspect held call node now c).2 ≠ .parked m epoch := by
  -- Whatever the request, a call only comes to wait by parking.
  have hpark (e : Entry K V) (c : Cache K V) : (park call node e c).2 ≠ .parked m epoch := by
    unfold park
    rw [if_pos htime]
    exact nofun
  unfold inspect
  split
  · exact nofun
  split
  · unfold inspectGet
    dsimp only
    split <;> exact nofun
  · unfold inspectLoad
    dsimp only
    repeat' split
    all_goals first | exact hpark _ _ | exact nofun
  · unfold inspectUpdate
    repeat' split
    all_goals first | exact hpark _ _ | exact nofun
  · unfold inspectPut
    dsimp only
    repeat' split
    all_goals first | exact hpark _ _ | exact nofun
  · unfold inspectMark
    dsimp only
    split <;> exact nofun
  · exact nofun

theorem wake_eq_self {epoch : Nat} (he : c.entries[node.payload]? = some e)
    (hpending : e.isPendingAt epoch = true) :
    wake call node epoch c = (c, .parked node epoch) := by
  rw [wake, he]
  exact if_pos hpending

variable [DecidableEq K]

/-- What the call has found is still so: the entry that it is about to look at has not been removed,
    the key that it is about to insert is absent, and what it waits for is in flight. It is not
    about to look its key up, nor to give a reservation back for another try, and it only waits if
    it has time. -/
def OnCourse (c : Cache K V) (call : Call K V) : Prop :=
  match call.stage with
  | .lookup => False
  | .inspect node _ => ∃ e, c.entries[node.payload]? = some e ∧ e.removed = false
  | .reserve _ => c.table.get? call.request.key = none
  | .insert _ => c.table.get? call.request.key = none
  | .giveBack error? => error? ≠ none
  | .parked node epoch => call.timeout ≠ 0 ∧
      ∃ e, c.entries[node.payload]? = some e ∧ e.isPendingAt epoch = true
  | _ => True

/-- Where a step of a call leads is on course, at most `n` critical sections from the end. -/
structure Nears (call : Call K V) (n : Nat) (out : Cache K V × Stage K V) : Prop where
  course : (call.goTo out.2).OnCourse out.1
  ahead : out.2.ahead ≤ n

/-- From the look-up on a call is on course, since no node in the table leads to an entry that has
    been removed. -/
theorem lookup_nears (hs : c.table.Sound)
    (hpresent : ∀ n ∈ c.table.nodes, ∃ e, c.entries[n.payload]? = some e ∧ e.removed = false)
    (call : Call K V) : call.Nears 3 (lookup call.request c) := by
  cases hget : c.table.get? call.request.key with
  | none =>
    rcases lookup_absent hget with ⟨outcome, c', hlookup, -, -⟩ | hlookup | hlookup
    · rw [hlookup]
      exact ⟨trivial, Nat.zero_le 3⟩
    · rw [hlookup]
      exact ⟨hget, (by decide : 2 ≤ 3)⟩
    · rw [hlookup]
      exact ⟨hget, Nat.le_refl 3⟩
  | some node =>
    by_cases hr : ∃ key, call.request = .invalidate key
    · obtain ⟨key, hr⟩ := hr
      rw [hr] at hget ⊢
      rw [lookup_forgets (show c.table.get? key = some node from hget)]
      exact ⟨trivial, (by decide : 1 ≤ 3)⟩
    · rw [lookup_found (not_exists.1 hr) hget]
      exact ⟨hpresent node (hs.get?_eq_some_iff.1 hget).1, (by decide : 2 ≤ 3)⟩

/-- A call that finds its entry in place does not start again. -/
theorem inspect_nears (hproper : call.Proper) (hsuits : ∀ key, call.request ≠ .invalidate key)
    (he : c.entries[node.payload]? = some e) (hpresent : e.removed = false) :
    call.Nears 1 (inspect held call node now c) := by
  have hawake (htime : call.timeout = 0) (epoch : Nat) :
      (inspect held call node now c).2 ≠ .parked node epoch :=
    inspect_awake htime node node now epoch
  obtain ⟨e', he', hinspects⟩ := inspect_inspects held now hproper hsuits he
  generalize inspect held call node now c = out at he' hinspects hawake
  obtain ⟨c', stage⟩ := out
  cases hinspects with
  -- The only way back to the look-up.
  | restarts hremoved =>
    rw [hpresent] at hremoved
    cases hremoved
  | parks hpending =>
    refine ⟨⟨fun htime => hawake htime e.epoch rfl, e, he', ?_⟩, Nat.zero_le 1⟩
    simp [Entry.isPendingAt, hpending, ValueState.isPending]
  | givesUp seconds hpending => exact ⟨trivial, Nat.zero_le 1⟩
  | takes v tick hpeek hr => exact ⟨trivial, Nat.le_refl 1⟩
  | takesEmpty tick hr hmissing => exact ⟨trivial, Nat.le_refl 1⟩
  | misses outcome hpeek hr => exact ⟨trivial, Nat.zero_le 1⟩
  | refuses policy key expire acceptEmpty tick limit hr hfind => exact ⟨trivial, Nat.le_refl 1⟩
  | loads policy key expire acceptEmpty tick hr hfind => exact ⟨trivial, Nat.zero_le 1⟩
  | updates key hr hpending => exact ⟨trivial, Nat.zero_le 1⟩
  | puts key content v tick hr hpeek hpending => exact ⟨trivial, Nat.le_refl 1⟩
  | marks key v tick next? hr hpeek => exact ⟨trivial, Nat.le_refl 1⟩

/-- A call that inserts its key while it is absent is not too late. -/
theorem insert_nears (hget : c.table.get? call.request.key = none) (now : Nat) :
    call.Nears 1 (call.insert now c) := by
  have hinserts := insert_inserts (lenient_quiet.evictor c.entries) call now c
    (Entries.Quiet.refl c.entries)
  generalize call.insert now c = out at hinserts
  cases hinserts with
  -- Somebody else was faster, which cannot be since the key is absent.
  | found m hsome =>
    rw [hget] at hsome
    cases hsome
  | refused m hnone hkeep hhash hentries hchain hnext =>
    obtain ⟨capacity, rfl | rfl⟩ := hnext
    · exact ⟨nofun, Nat.le_refl 1⟩
    · exact ⟨trivial, Nat.zero_le 1⟩
  | made room m hnone hkeep hhash htable hentries hchain hnext =>
    subst hnext
    unfold inserted
    split <;> exact ⟨trivial, Nat.zero_le 1⟩

/-- A critical section keeps a call on course, and takes it nearer. -/
theorem advance_nears (hs : c.table.Sound)
    (hpresent : ∀ n ∈ c.table.nodes, ∃ e, c.entries[n.payload]? = some e ∧ e.removed = false)
    (hproper : call.Proper) (hsuits : call.stage.Suits call.request)
    (h : call.stage = .lookup ∨ call.OnCourse c) (held : Held) :
    call.Nears (call.stage.ahead - 1)
      ((call.advance held c).1, (call.advance held c).2.stage) := by
  unfold OnCourse at h
  unfold advance
  dsimp only [goTo]
  cases hstage : call.stage with
  | lookup => exact lookup_nears hs hpresent call
  | inspect node now =>
    rw [hstage] at h hsuits
    obtain ⟨e, he, hin⟩ := h.resolve_left nofun
    exact inspect_nears hproper hsuits he hin
  | reserve now =>
    rw [hstage] at h
    show call.Nears 2 (c.reserveLoad, if c.atLoadLimit then .refuse c.loadLimit else .insert now)
    by_cases hlimit : c.atLoadLimit = true
    · rw [if_pos hlimit]
      exact ⟨trivial, (by decide : 1 ≤ 2)⟩
    · rw [if_neg hlimit]
      exact ⟨h.resolve_left nofun, Nat.le_refl 2⟩
  | refuse limit => exact ⟨trivial, Nat.le_refl 0⟩
  -- The key is still absent.
  | insert now =>
    rw [hstage] at h
    exact insert_nears (h.resolve_left nofun) now
  -- A reservation is not given back for another look-up: nobody has been faster.
  | giveBack error? =>
    rw [hstage] at h
    cases error? with
    | none => exact absurd rfl (h.resolve_left nofun)
    | some error => exact ⟨trivial, Nat.le_refl 0⟩
  -- The entry is still pending, so the call goes on waiting.
  | parked node epoch =>
    rw [hstage] at h
    obtain ⟨htime, e, he, hpending⟩ := h.resolve_left nofun
    show call.Nears 0 (wake call node epoch c)
    rw [wake_eq_self he hpending]
    exact ⟨⟨htime, e, he, hpending⟩, Nat.le_refl 0⟩
  | running node epoch prior => exact ⟨trivial, Nat.le_refl 0⟩
  | release node now outcome => cases outcome <;> exact ⟨trivial, by simp [release, Stage.ahead]⟩
  | touch node now outcome => exact ⟨trivial, Nat.le_refl 0⟩
  | retire node => exact ⟨trivial, Nat.le_refl 0⟩
  | done outcome => exact ⟨trivial, Nat.le_refl 0⟩

/-- A call that has come to a halt stays as it is. -/
theorem advance_halted (h : call.OnCourse c) (hhalted : call.isHalted = true)
    (held : Held) : call.advance held c = (c, call) := by
  obtain ⟨request, timeout, own?, stage⟩ := call
  unfold OnCourse at h
  unfold isHalted at hhalted
  cases stage with
  | parked node epoch =>
    obtain ⟨htime, e, he, hpending⟩ := h
    show ((wake _ node epoch c).1, goTo _ (wake _ node epoch c).2) = _
    rw [wake_eq_self he hpending]
    rfl
  | running node epoch prior => rfl
  | done outcome => rfl
  | _ => cases hhalted

/-- A wait that is given up is the end of a call, and nothing else is given up. -/
theorem expire_onCourse (h : call.OnCourse c) : (call.expire c).2.OnCourse (call.expire c).1 ∧
    (call.expire c).2.stage.ahead = call.stage.ahead := by
  by_cases hwaits : ∃ node epoch, call.stage = .parked node epoch
  · obtain ⟨node, epoch, hstage⟩ := hwaits
    unfold OnCourse at h
    rw [hstage] at h
    obtain ⟨htime, e, he, hpending⟩ := h
    have hexpire : call.expire c =
        ((giveUp call.timeout c).1, call.goTo (giveUp call.timeout c).2) := by
      unfold expire
      rw [hstage]
      simp only [wake_eq_self he hpending]
    rw [hexpire, hstage]
    exact ⟨trivial, rfl⟩
  · rw [expire_awake c fun node epoch hstage => hwaits ⟨node, epoch, hstage⟩]
    exact ⟨h, rfl⟩

/-- The end of a callback leaves two critical sections at most. -/
theorem resume_onCourse {epoch : Nat} {prior : ValueState V} (r : Return V) (c : Cache K V)
    (hstage : call.stage = .running node epoch prior) (hsuits : call.stage.Suits call.request) :
    (call.resume r c).2.OnCourse (call.resume r c).1 ∧ (call.resume r c).2.stage.ahead ≤ 2 := by
  rw [hstage] at hsuits
  obtain ⟨stage, hcall, hends⟩ := resume_ends r c hstage hsuits
  rw [hcall]
  cases hends with
  | closes outcome hno => exact ⟨trivial, Nat.zero_le 2⟩
  | uses outcome huse => exact ⟨trivial, (by decide : 1 ≤ 2)⟩
  | loads v? huse => exact ⟨trivial, Nat.le_refl 2⟩
  | fails error => exact ⟨trivial, Nat.le_refl 2⟩
  | panics reason => exact ⟨trivial, Nat.le_refl 2⟩

omit [DecidableEq K] in
/-- A call whose callback ends, or that was done, has an outcome. -/
theorem exists_outcome_resume (r : Return V) (c : Cache K V) (hrests : call.stage.rests = true)
    (hsuits : call.stage.Suits call.request) :
    ∃ outcome, (call.resume r c).2.stage.outcome? = some outcome := by
  cases hstage : call.stage with
  | running node epoch prior =>
    rw [hstage] at hsuits
    obtain ⟨stage, hcall, hends⟩ := resume_ends r c hstage hsuits
    rw [hcall]
    cases hends with
    | _ => exact ⟨_, rfl⟩
  | done outcome =>
    refine ⟨outcome, ?_⟩
    rw [resume_of_idle r c (by simp [hstage]), hstage]
    rfl
  | _ =>
    rw [hstage] at hrests
    cases hrests

end Call

/-! ## Runs of a single call -/

/-- What a call does by itself: it goes on, or it gives a wait up. -/
def Action.IsOwn (i : Nat) (a : Action K V) : Prop :=
  a = .advance i ∨ a = .expire i

namespace System

variable [DecidableEq K] {s : System K V} {a : Action K V} {as : List (Action K V)} {i m n : Nat}
  {call : Call K V}

/-- The call of a place is on course, at most `n` critical sections from its end, its callback or a
    wait, and it only waits for so many seconds. -/
def OnCourseWithin (seconds n i : Nat) (s : System K V) : Prop :=
  ∃ call, s.calls[i]? = some call ∧ call.OnCourse s.cache ∧ call.stage.ahead ≤ n ∧
    call.timeout = seconds

/-- The call of a place is on course. -/
def OnCourse (i : Nat) (s : System K V) : Prop :=
  ∃ call, s.calls[i]? = some call ∧ call.OnCourse s.cache

/-- One critical section takes a call nearer that looks its key up or is on course. -/
theorem onCourseWithin_advance (hs : s.Reachable) (hi : s.calls[i]? = some call)
    (h : call.stage = .lookup ∨ call.OnCourse s.cache) (hn : call.stage.ahead ≤ n + 1) :
    (s.act (.advance i)).OnCourseWithin call.timeout n i := by
  have hmem := List.mem_of_getElem? hi
  have hnears := Call.advance_nears hs.keyed.table hs.tenants.present
    (hs.sound.proper call hmem) (hs.orderly call hmem) h s.held
  refine ⟨_, act_getElem? (a := .advance i) rfl hi, ?_, ?_, rfl⟩
  · rw [act_cache (a := .advance i) rfl hi]
    exact hnears.course
  · have hahead : (call.advance s.held s.cache).2.stage.ahead ≤ call.stage.ahead - 1 := hnears.ahead
    show (call.advance s.held s.cache).2.stage.ahead ≤ n
    omega

theorem OnCourseWithin.advance (h : s.OnCourseWithin m n i) (hs : s.Reachable) :
    (s.act (.advance i)).OnCourseWithin m (n - 1) i := by
  obtain ⟨call, hi, hcourse, hahead, rfl⟩ := h
  exact onCourseWithin_advance hs hi (.inr hcourse) (by omega)

theorem OnCourseWithin.expire (h : s.OnCourseWithin m n i) :
    (s.act (.expire i)).OnCourseWithin m n i := by
  obtain ⟨call, hi, hcourse, hahead, htime⟩ := h
  obtain ⟨hexpired, hsame⟩ := Call.expire_onCourse hcourse
  refine ⟨_, act_getElem? (a := .expire i) rfl hi, ?_, ?_, ?_⟩
  · rw [act_cache (a := .expire i) rfl hi]
    exact hexpired
  · exact Nat.le_trans (Nat.le_of_eq hsame) hahead
  · show (call.expire s.cache).2.timeout = m
    unfold Call.expire
    split <;> exact htime

/-- A call that is on course stays so whatever it does by itself. -/
theorem OnCourseWithin.actAll (h : s.OnCourseWithin m n i) (hs : s.Reachable)
    (has : ∀ a ∈ as, a.IsOwn i) : ∃ n, (s.actAll as).OnCourseWithin m n i := by
  induction as generalizing s n with
  | nil => exact ⟨n, h⟩
  | cons a as ih =>
    have hrest : ∀ b ∈ as, b.IsOwn i := fun b hb => has b (List.mem_cons_of_mem a hb)
    rcases has a List.mem_cons_self with rfl | rfl
    · exact ih (h.advance hs) (hs.actAll [.advance i]) hrest
    · exact ih h.expire (hs.actAll [.expire i]) hrest

theorem OnCourseWithin.onCourse (h : s.OnCourseWithin m n i) : s.OnCourse i := by
  obtain ⟨call, hi, hcourse, -⟩ := h
  exact ⟨call, hi, hcourse⟩

/-! ### Fixed numbers of steps -/

/-- A call that has come to a halt does not move. -/
theorem OnCourseWithin.actAll_halted (h : s.OnCourseWithin m 0 i) (n : Nat) :
    s.actAll (List.replicate n (.advance i)) = s := by
  induction n with
  | zero => rfl
  | succ n ih =>
    obtain ⟨call, hi, hcourse, hahead, -⟩ := h
    have hhalted := Call.isHalted_iff.2 (Nat.le_zero.1 hahead)
    have hsame : s.act (.advance i) = s := by
      obtain ⟨hlt, hcall⟩ := List.getElem?_eq_some_iff.1 hi
      show s.withCall Call.advance i = s
      rw [withCall_eq hi, Call.advance_halted hcourse hhalted, ← hcall, List.set_getElem_self hlt]
    rw [List.replicate_succ, actAll_cons, hsame]
    exact ih

/-- The loop of a call is as many critical sections as it can be from a halt. -/
theorem OnCourseWithin.runCall (h : s.OnCourseWithin m n i) (hs : s.Reachable) {fuel : Nat}
    (hfuel : n ≤ fuel) : s.runCall i fuel = s.actAll (List.replicate n (.advance i)) := by
  -- The induction is on the distance from a halt, since the fuel may be more than that.
  induction n generalizing s fuel with
  | zero =>
    obtain ⟨call, hi, -, hahead, -⟩ := h
    exact runCall_halted hi (Call.isHalted_iff.2 (Nat.le_zero.1 hahead)) fuel
  | succ n ih =>
    obtain ⟨call, hi, hcourse, hahead, htime⟩ := h
    by_cases hhalted : call.stage.ahead = 0
    · have hzero : s.OnCourseWithin m 0 i := ⟨call, hi, hcourse, Nat.le_of_eq hhalted, htime⟩
      rw [hzero.actAll_halted, runCall_halted hi (Call.isHalted_iff.2 hhalted)]
    · obtain ⟨fuel, rfl⟩ : ∃ k, fuel = k + 1 := ⟨fuel - 1, by omega⟩
      have hgoes : call.isHalted = false := by
        rw [Bool.eq_false_iff]
        exact fun hyes => hhalted (Call.isHalted_iff.1 hyes)
      rw [runCall_succ hi hgoes, List.replicate_succ, actAll_cons]
      exact ih (htime ▸ onCourseWithin_advance hs hi (.inr hcourse) hahead) (hs.actAll [.advance i])
        (Nat.le_of_succ_le_succ hfuel)

/-- After as many critical sections as it can be from a halt a call has come to one. -/
theorem OnCourseWithin.halts (h : s.OnCourseWithin m n i) (hs : s.Reachable) :
    (s.actAll (List.replicate n (.advance i))).OnCourseWithin m 0 i := by
  induction n generalizing s with
  | zero => exact h
  | succ n ih =>
    rw [List.replicate_succ, actAll_cons]
    exact ih (h.advance hs) (hs.actAll [.advance i])

/-- A call that has come to a halt and has no time is at rest. -/
theorem OnCourseWithin.rests (h : s.OnCourseWithin 0 0 i) :
    ∃ call, s.calls[i]? = some call ∧ call.stage.rests = true := by
  obtain ⟨call, hi, hcourse, hahead, htime⟩ := h
  refine ⟨call, hi, ?_⟩
  unfold Call.OnCourse at hcourse
  cases hstage : call.stage with
  | parked node epoch =>
    rw [hstage] at hcourse
    exact absurd htime hcourse.1
  | running node epoch prior => rfl
  | done outcome => rfl
  | _ => simp [hstage, Stage.ahead] at hahead

/-! ### Starts -/

theorem onCourseWithin_spawn (hs : s.Reachable) (r : Request K V) :
    ((s.spawn r).advance s.calls.length).OnCourseWithin s.cache.pendingTimeout 3
      s.calls.length := by
  have hstart := spawn_getElem? r s
  have htime : (Call.start r s.cache).2.timeout = s.cache.pendingTimeout := by
    cases r <;> rfl
  have hwithin := onCourseWithin_advance (n := 3) (hs.actAll [.spawn r]) hstart
    (.inl (Call.start_stage r s.cache)) (by rw [Call.start_stage]; exact Nat.le_refl 4)
  rw [htime] at hwithin
  exact hwithin

/-- A call that starts takes four critical sections at most, and gives a wait up if it waits. -/
theorem start_eq (hs : s.Reachable) (r : Request K V) :
    let i := s.calls.length
    s.start r = ((s.spawn r).actAll (List.replicate 4 (.advance i))).expire i := by
  intro i
  have hstart : (s.spawn r).calls[i]? = some (Call.start r s.cache).2 := spawn_getElem? r s
  -- The first critical section is the look-up, which puts the call on course.
  have hgoes : (Call.start r s.cache).2.isHalted = false := by
    rw [Call.isHalted, Call.start_stage]
  have hreach : ((s.spawn r).advance i).Reachable := hs.actAll [.spawn r, .advance i]
  have hwithin : ((s.spawn r).advance i).OnCourseWithin s.cache.pendingTimeout 3 i :=
    onCourseWithin_spawn hs r
  have hrun : (s.spawn r).runCall i stepLimit =
      (s.spawn r).actAll (List.replicate 4 (.advance i)) := by
    rw [show stepLimit = 31 + 1 from rfl, runCall_succ hstart hgoes]
    exact hwithin.runCall hreach (by decide)
  have hends := (hwithin.halts hreach).expire
  obtain ⟨call, hi, -, hahead, -⟩ := hends
  -- After a wait that was given up the call is done, so its loop has nothing left to do.
  show (((s.spawn r).runCall i stepLimit).expire i).runCall i stepLimit = _
  rw [hrun]
  exact runCall_halted hi (Call.isHalted_iff.2 (Nat.le_zero.1 hahead)) stepLimit

/-- A call that starts without time waits for nothing: its callback runs, or it is done. -/
theorem start_ends (hs : s.Reachable) (htime : s.cache.pendingTimeout = 0) (r : Request K V) :
    let i := s.calls.length
    s.start r = (s.spawn r).actAll (List.replicate 4 (.advance i)) ∧
      ∃ call, (s.start r).calls[i]? = some call ∧ call.stage.rests = true := by
  intro i
  have hwithin := onCourseWithin_spawn hs r
  rw [htime] at hwithin
  obtain ⟨call, hi, hrests⟩ := (hwithin.halts (hs.actAll [.spawn r, .advance i])).rests
  have hstart : s.start r = (s.spawn r).actAll (List.replicate 4 (.advance i)) := by
    rw [start_eq hs r]
    exact expire_eq hi (Stage.ne_parked_of_rests hrests)
  exact ⟨hstart, call, hstart ▸ hi, hrests⟩

/-! ### Replies -/

theorem onCourseWithin_resume (hs : s.Reachable) (hi : s.calls[i]? = some call)
    (hrests : call.stage.rests = true) (ret : Return V) :
    ∃ m, (s.resume ret i).OnCourseWithin m 2 i := by
  have hmem := List.mem_of_getElem? hi
  have hcall : (s.resume ret i).calls[i]? = some (call.resume ret s.cache).2 :=
    act_getElem? (a := .resume ret i) rfl hi
  have hcache : (s.resume ret i).cache = (call.resume ret s.cache).1 :=
    act_cache (a := .resume ret i) rfl hi
  by_cases hruns : ∃ node epoch prior, call.stage = .running node epoch prior
  · obtain ⟨node, epoch, prior, hstage⟩ := hruns
    obtain ⟨hcourse, hahead⟩ := Call.resume_onCourse ret s.cache hstage (hs.orderly call hmem)
    exact ⟨_, _, hcall, hcache ▸ hcourse, hahead, rfl⟩
  · rw [Call.resume_of_idle ret s.cache fun node epoch prior hstage =>
      hruns ⟨node, epoch, prior, hstage⟩] at hcall hcache
    refine ⟨_, call, hcall, ?_, ?_, rfl⟩
    · unfold Call.OnCourse
      cases hstage : call.stage with
      | done outcome => trivial
      | running node epoch prior => trivial
      | _ => rw [hstage] at hrests; cases hrests
    · cases hstage : call.stage with
      | done outcome => exact Nat.zero_le 2
      | running node epoch prior => exact Nat.zero_le 2
      | _ => rw [hstage] at hrests; cases hrests

/-- A callback that ends leaves two critical sections at most, and the call waits for nothing. -/
theorem reply_eq (hs : s.Reachable) (hi : s.calls[i]? = some call)
    (hrests : call.stage.rests = true) (ret : Return V) :
    s.reply ret i = (s.resume ret i).actAll (List.replicate 2 (.advance i)) := by
  obtain ⟨m, hwithin⟩ := onCourseWithin_resume hs hi hrests ret
  have hrun : (s.resume ret i).runCall i stepLimit =
      (s.resume ret i).actAll (List.replicate 2 (.advance i)) :=
    hwithin.runCall (hs.actAll [.resume ret i]) (by decide)
  have hcall : (s.resume ret i).calls[i]? = some (call.resume ret s.cache).2 :=
    act_getElem? (a := .resume ret i) rfl hi
  obtain ⟨outcome, houtcome⟩ :=
    Call.exists_outcome_resume ret s.cache hrests (hs.orderly call (List.mem_of_getElem? hi))
  obtain ⟨k, hk, hcloses⟩ := Stage.exists_closes houtcome
  have hfuel : k ≤ stepLimit := Nat.le_trans hk (by decide)
  obtain ⟨last, hlast, hdone⟩ := runCall_closes hcloses hcall hfuel
  rw [reply, carryOn_done hlast hdone, hrun]

theorem reply_ends (hs : s.Reachable) (hi : s.calls[i]? = some call)
    (hrests : call.stage.rests = true) (ret : Return V) :
    ∃ outcome, (s.reply ret i).outcome? i = some outcome := by
  obtain ⟨outcome, houtcome⟩ :=
    Call.exists_outcome_resume ret s.cache hrests (hs.orderly call (List.mem_of_getElem? hi))
  exact ⟨outcome, carryOn_outcome (act_getElem? (a := .resume ret i) rfl hi) houtcome⟩

end System

/-- Let a single caller do whatever it likes, with callbacks that call the cache themselves, nested
    to any depth. Between its operations and during every callback the mark of an entry says whether
    its node has left the table. From its first look-up on, a call stays on course whatever it does
    by itself: it never finds that its entry has been removed, nor that its key has been inserted
    meanwhile, and it never looks its key up again. So four critical sections bring it to its
    callback, its end or a wait that it gives up, and without a timeout there is no such wait; when
    its callback ends, two more bring it to its end. -/
theorem never_retries [DecidableEq K] (config : Config) (clock : Clock) (hashOf : K → UInt64)
    (ms : List (Move K V)) :
    let s := (System.new config clock hashOf : System K V).moveAll ms
    let i := s.calls.length
    (∀ id e, s.cache.entries[id]? = some e →
      (e.removed = false ↔ ∃ n ∈ s.cache.table.nodes, n.payload = id)) ∧
    (∀ r as, (∀ a ∈ as, a.IsOwn i) → (((s.spawn r).advance i).actAll as).OnCourse i) ∧
    (∀ r, s.start r = ((s.spawn r).actAll (List.replicate 4 (.advance i))).expire i) ∧
    (s.cache.pendingTimeout = 0 → ∀ r,
      s.start r = (s.spawn r).actAll (List.replicate 4 (.advance i)) ∧
        ∃ call, (s.start r).calls[i]? = some call ∧ call.stage.rests = true) ∧
    ∀ call, s.calls[i - 1]? = some call → ∀ ret,
      (∀ as, (∀ a ∈ as, a.IsOwn (i - 1)) → ((s.resume ret (i - 1)).actAll as).OnCourse (i - 1)) ∧
        s.reply ret (i - 1) =
          (s.resume ret (i - 1)).actAll (List.replicate 2 (.advance (i - 1))) ∧
        ∃ outcome, (s.reply ret (i - 1)).outcome? (i - 1) = some outcome := by
  intro s i
  have hs : s.Reachable := (System.reachable_new config clock hashOf).moveAll ms
  have hrest : s.Resting :=
    (System.resting_new config clock hashOf).moveAll (System.reachable_new config clock hashOf) ms
  refine ⟨fun id e he => hs.removed_iff hrest he, fun r as has => ?_, System.start_eq hs,
    System.start_ends hs, fun call hi ret => ?_⟩
  · -- A start is on course from its look-up on, and stays so.
    obtain ⟨n, hwithin⟩ := (System.onCourseWithin_spawn hs r).actAll
      (hs.actAll [.spawn r, .advance i]) has
    exact hwithin.onCourse
  · -- So is a call whose callback ends.
    have hrests := hrest call (List.mem_of_getElem? hi)
    refine ⟨fun as has => ?_, System.reply_eq hs hi hrests ret,
      System.reply_ends hs hi hrests ret⟩
    obtain ⟨m, hresumed⟩ := System.onCourseWithin_resume hs hi hrests ret
    obtain ⟨n, hwithin⟩ := hresumed.actAll (hs.actAll [.resume ret (i - 1)]) has
    exact hwithin.onCourse

/-- The load of a key has evicted the only other one, and its loader is running. Without a timeout
    an update of the key ends at once, since it finds the key pending, and forgetting the key does
    not keep the load from its end. -/
theorem never_retries_nested :
    let s : System Nat Nat :=
      (System.new { maxCapacity := 1, pendingTimeout := 0 } (.manual 0) fun _ => 0).moveAll
        [.start (.put 1 5), .start (.load 2 0 false)]
    s.cache.entries.toList.map Entry.removed = [true, false] ∧
      s.cache.table.nodes.map Table.Node.payload = [1] ∧
      s.start (.update 2) =
        (s.spawn (.update 2)).actAll (List.replicate 4 (.advance s.calls.length)) ∧
      (s.start (.update 2)).outcome? s.calls.length = some (.failed (.loadTimeout 0)) ∧
      (s.move (.start (.invalidate 2))).cache.entries.toList.map Entry.removed = [true, true] := by
  intro s
  obtain ⟨-, -, -, hzero, -⟩ := never_retries { maxCapacity := 1, pendingTimeout := 0 } (.manual 0)
    (fun _ => 0) [.start (.put 1 5), .start (.load 2 0 false)]
  exact ⟨by decide +kernel, by decide +kernel, (hzero (by decide +kernel) (.update 2)).1,
    by decide +kernel, by decide +kernel⟩

end ReadThrough
