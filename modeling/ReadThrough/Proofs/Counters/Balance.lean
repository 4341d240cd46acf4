import ReadThrough.Proofs.Counters.Books

/-! # Balanced Counters

  What a single caller has done to a cache can be told from the counters, and the other way round.
  Between its operations and during every callback three sums come out even:

  - Every entry that was ever made is in the table, was evicted, or was removed by name or by
    clearing the cache.
  - Every hit is a get that returned a value, or a load that returned without its loader.
  - Every miss is a get that returned none, or a load whose loader has returned, has failed, has
    panicked or is running.

  The parts:

  - **total**: what the moves of a run add up to.
  - **removed**, **foundGets**, **foundLoads**, **emptyGets**, **panickedLoads**: the sums that only
    the caller knows.
  - **Balances**: one move changes both sides alike.
  - **counters_balance**: so both sides are the same after every run.
-/

namespace ReadThrough

open Cache

variable {K V : Type}

/-- Only updates and loads have callbacks. -/
theorem Stage.Suits.callback {r : Request K V} {node : EntryNode K} {epoch : Nat}
    {prior : ValueState V} (h : (Stage.running node epoch prior).Suits r) :
    (∃ key, r = .update key) ∨ ∃ key expire acceptEmpty, r = .load key expire acceptEmpty := by
  rcases h with ⟨key, rfl⟩ | ⟨hload, -⟩
  · exact .inl ⟨key, rfl⟩
  · cases r with
    | load key expire acceptEmpty => exact .inr ⟨key, expire, acceptEmpty, rfl⟩
    | _ => cases hload

namespace System

variable [DecidableEq K] {s : System K V} {i m n : Nat} {p q : Cache K V × Call K V}
  {call : Call K V} {as : List (Action K V)}

/-! ## Sums -/

/-- What the moves of a run add up to. -/
def total (f : System K V → Move K V → Nat) : System K V → List (Move K V) → Nat
  | _, [] => 0
  | s, m :: ms => f s m + total f (s.move m) ms

/-- How many entries a move removes by name or by clearing the cache. -/
def removed (s : System K V) : Move K V → Nat
  | .start r => s.cache.removals r
  | .upkeep u => s.cache.cleared u
  | _ => 0

/-- How a call ends that starts and comes to its end at once, without its callback. -/
def atOnce? (r : Request K V) (s : System K V) : Option (Outcome V) :=
  (s.start r).outcome? s.calls.length

/-- One for a get that returns a value. -/
def foundGets (s : System K V) : Move K V → Nat
  | .start (.get key) =>
    match s.atOnce? (.get key) with
    | some (.value (some _)) => 1
    | _ => 0
  | _ => 0

/-- One for a get that returns none. -/
def emptyGets (s : System K V) : Move K V → Nat
  | .start (.get key) =>
    match s.atOnce? (.get key) with
    | some (.value none) => 1
    | _ => 0
  | _ => 0

/-- One for a load that returns, with a value or with none, but without its loader. -/
def foundLoads (s : System K V) : Move K V → Nat
  | .start (.load key expire acceptEmpty) =>
    match s.atOnce? (.load key expire acceptEmpty) with
    | some (.value _) => 1
    | _ => 0
  | _ => 0

/-- One for a loader that panics. -/
def panickedLoads (s : System K V) : Move K V → Nat
  | .reply (.panic _) => (s.calls[s.calls.length - 1]?.any Call.runsLoader).toNat
  | _ => 0

theorem total_add (f g : System K V → Move K V → Nat) (s : System K V) (ms : List (Move K V)) :
    s.total (fun s m => f s m + g s m) ms = s.total f ms + s.total g ms := by
  induction ms generalizing s with
  | nil => rfl
  | cons m ms ih =>
    have hrest := ih (s.move m)
    show f s m + g s m + (s.move m).total _ ms =
      f s m + (s.move m).total f ms + (g s m + (s.move m).total g ms)
    omega

/-- If every move adds as much to the difference of two figures as `f` says, a run adds the total. -/
theorem telescope (f : System K V → Move K V → Nat) (plus minus : System K V → Nat)
    (hstep : ∀ s m, s.Reachable → s.Resting →
      plus (s.move m) + minus s = plus s + minus (s.move m) + f s m)
    (hs : s.Reachable) (hrest : s.Resting) (ms : List (Move K V)) :
    plus (s.moveAll ms) + minus s = plus s + minus (s.moveAll ms) + s.total f ms := by
  induction ms generalizing s with
  | nil => rfl
  | cons m ms ih =>
    have hfirst := hstep s m hs hrest
    have hthen := ih (hs.move m) (hrest.move hs m)
    show plus ((s.move m).moveAll ms) + minus s =
      plus s + minus ((s.move m).moveAll ms) + (f s m + (s.move m).total f ms)
    omega

/-! ## Single calls -/

/-- A step that the latest call takes by itself balances the books, and leaves it on course. -/
theorem OnCourseWithin.exists_step {a : Action K V}
    (h : (s.withLatest p).OnCourseWithin m n s.calls.length)
    (hs : (s.withLatest p).Reachable) (ha : a.IsOwn s.calls.length) :
    ∃ q k, (s.withLatest p).act a = s.withLatest q ∧
      (s.withLatest q).OnCourseWithin m k s.calls.length ∧ q.2.request = p.2.request ∧
        Books p.2.request 0 (p.1, p.2.stage) (q.1, q.2.stage) := by
  have hmem : p.2 ∈ (s.withLatest p).calls := List.mem_of_getElem? (withLatest_getElem? p s)
  rcases ha with rfl | rfl
  · have hact := withLatest_act (s := s) (p := p) (a := .advance s.calls.length) rfl
    refine ⟨_, _, hact, hact ▸ h.advance hs, rfl, ?_⟩
    obtain ⟨call, hi, hcourse, -⟩ := h
    rw [withLatest_getElem?] at hi
    obtain rfl := Option.some.inj hi
    apply Call.advance_books hs.filed.complete _ (hs.orderly p.2 hmem)
      (hs.accounted.onlyLoads p.2 hmem)
    · intro hlookup
      rw [Call.OnCourse, hlookup] at hcourse
      exact hcourse
    · intro node hnode
      exact (hs.keyed.calls p.2 hmem node hnode).imp fun _ he => he.1
  · have hact := withLatest_act (s := s) (p := p) (a := .expire s.calls.length) rfl
    exact ⟨_, _, hact, hact ▸ h.expire, Call.expire_request p.1 p.2, Call.expire_books p.1 p.2⟩

/-- Whatever the latest call does by itself balances the books. -/
theorem OnCourseWithin.exists_books (h : (s.withLatest p).OnCourseWithin m n s.calls.length)
    (hs : (s.withLatest p).Reachable) (has : ∀ a ∈ as, a.IsOwn s.calls.length) :
    ∃ q, (s.withLatest p).actAll as = s.withLatest q ∧ q.2.request = p.2.request ∧
      Books p.2.request 0 (p.1, p.2.stage) (q.1, q.2.stage) := by
  induction as generalizing p n with
  | nil => exact ⟨p, rfl, rfl, .refl _ _⟩
  | cons a as ih =>
    obtain ⟨o, k, hact, hwithin, hrequest, hbooks⟩ := h.exists_step hs (has a List.mem_cons_self)
    have hreach : (s.withLatest o).Reachable := hact ▸ hs.actAll [a]
    obtain ⟨q, hacts, hsame, hrest⟩ :=
      ih hwithin hreach fun b hb => has b (List.mem_cons_of_mem a hb)
    rw [hrequest] at hsame hrest
    exact ⟨q, by rw [actAll_cons, hact, hacts], hsame, hbooks.trans hrest⟩

/-- A call that starts looks its key up, balances the books from there on, and comes to rest. -/
theorem exists_start_books (hs : s.Reachable) (hrest : s.Resting) (r : Request K V) :
    ∃ q, s.start r = s.withLatest q ∧ q.2.request = r ∧ q.2.stage.rests = true ∧
      Books r (s.cache.removals r) (s.cache, .lookup) (q.1, q.2.stage) := by
  let i := s.calls.length
  let p := Call.start r s.cache
  -- The look-up comes first, since only from there on the call is on course.
  let o := p.2.advance (s.withLatest p).held p.1
  have hspawn : s.spawn r = s.withLatest p := act_spawn r s
  have hfirst : (s.withLatest p).act (.advance i) = s.withLatest o := withLatest_act rfl
  have hwithin : (s.withLatest o).OnCourseWithin s.cache.pendingTimeout 3 i := by
    rw [← hfirst, ← hspawn]
    exact onCourseWithin_spawn hs r
  have hreach : (s.withLatest o).Reachable := by
    rw [← hfirst, ← hspawn]
    exact hs.actAll [.spawn r, .advance i]
  have hlookup : Books r (s.cache.removals r) (s.cache, .lookup) (o.1, o.2.stage) := by
    have hbooks := Call.lookup_books (c := p.1)
      ((Call.start_cache r s.cache).1 ▸ hs.filed.complete) r
    have hout : o = ((Call.lookup r p.1).1, p.2.goTo (Call.lookup r p.1).2) :=
      Call.start_advance r _ s.cache
    rw [hout]
    -- A put has made its value, which does not show in the books.
    cases r with
    | _ => exact ⟨hbooks.hits, hbooks.misses, hbooks.entries⟩
  let as : List (Action K V) := List.replicate 3 (.advance i) ++ [.expire i]
  have hown : ∀ a ∈ as, a.IsOwn i := by
    intro a ha
    rcases List.mem_append.1 ha with hin | hin
    · exact .inl (List.eq_of_mem_replicate hin)
    · exact .inr (List.mem_singleton.1 hin)
  obtain ⟨q, hacts, hrequest, hbooks⟩ := hwithin.exists_books hreach hown
  have hstart : s.start r = s.withLatest q := by
    rw [start_eq hs r, hspawn, ← hacts, actAll_append, ← hfirst]
    rfl
  have ho : o.2.request = r := Call.start_request r s.cache
  rw [ho] at hrequest hbooks
  have hrests := hrest.start hs r q.2 (hstart ▸ List.mem_append_right _ (List.mem_singleton_self _))
  exact ⟨q, hstart, hrequest, hrests, hlookup.trans hbooks⟩

omit [DecidableEq K] in
theorem runningLoads_withLatest (s : System K V) (p : Cache K V × Call K V) :
    (s.withLatest p).runningLoads = s.runningLoads + p.2.runsLoader.toNat := by
  show (s.calls ++ [p.2]).countP Call.runsLoader = _
  rw [List.countP_append, List.countP_singleton]
  cases p.2.runsLoader <;> rfl

omit [DecidableEq K] in
/-- A call at rest is done with its outcome, or it has none. -/
theorem outcome?_withLatest (s : System K V) (hrests : q.2.stage.rests = true) :
    (s.withLatest q).outcome? s.calls.length = q.2.stage.outcome? := by
  rw [outcome?, withLatest_getElem?, Option.map_some]
  cases hstage : q.2.stage with
  | running node epoch prior => rfl
  | done outcome => rfl
  | _ =>
    rw [hstage] at hrests
    cases hrests

/-! ## Moves -/

/-- What a move changes in the counters and what it adds to the sums of the caller come out even. -/
structure Balances (s : System K V) (m : Move K V) : Prop where
  entries : (s.move m).cache.entries.size + (s.cache.size + s.cache.counters.evictions) =
    s.cache.entries.size + ((s.move m).cache.size + (s.move m).cache.counters.evictions) +
      s.removed m
  hits : (s.move m).cache.counters.hits = s.cache.counters.hits + (s.foundGets m + s.foundLoads m)
  misses : (s.move m).cache.counters.misses + (s.cache.counters.landed + s.runningLoads) =
    s.cache.counters.misses + ((s.move m).cache.counters.landed + (s.move m).runningLoads) +
      (s.emptyGets m + s.panickedLoads m)

/-- What a call at rest stands for in the hits is what the caller has found. -/
theorem hits_eq {r : Request K V} (hstart : s.start r = s.withLatest q)
    (hrests : q.2.stage.rests = true) :
    q.2.stage.hits r = s.foundGets (.start r) + s.foundLoads (.start r) := by
  have hends : s.atOnce? r = q.2.stage.outcome? := by
    rw [atOnce?, hstart, outcome?_withLatest s hrests]
  unfold Stage.hits
  rw [← hends]
  cases r with
  | get key =>
    simp only [foundGets, foundLoads]
    cases s.atOnce? (.get key) with
    | none => rfl
    | some outcome =>
      cases outcome with
      | value v? => cases v? <;> rfl
      | _ => rfl
  | load key expire acceptEmpty =>
    simp only [foundGets, foundLoads]
    cases s.atOnce? (.load key expire acceptEmpty) with
    | none => rfl
    | some outcome =>
      cases outcome with
      | _ => rfl
  | _ =>
    cases s.atOnce? _ with
    | none => rfl
    | some outcome =>
      cases outcome with
      | _ => rfl

/-- What a call at rest stands for in the misses is that the caller has found nothing, or that its
    loader is running. -/
theorem missed_eq {r : Request K V} (hstart : s.start r = s.withLatest q)
    (hrequest : q.2.request = r) (hrests : q.2.stage.rests = true) :
    q.2.stage.missed r = s.emptyGets (.start r) + q.2.runsLoader.toNat := by
  have hends : s.atOnce? r = q.2.stage.outcome? := by
    rw [atOnce?, hstart, outcome?_withLatest s hrests]
  unfold Call.runsLoader Call.isRunning
  rw [hrequest]
  cases hstage : q.2.stage with
  | running node epoch prior =>
    rw [hstage] at hends
    cases r with
    | get key =>
      simp only [emptyGets, hends]
      rfl
    | _ => rfl
  | done outcome =>
    rw [hstage] at hends
    cases r with
    | get key =>
      simp only [emptyGets, hends]
      cases outcome with
      | value v? => cases v? <;> rfl
      | _ => rfl
    | _ =>
      cases outcome with
      | _ => rfl
  | _ =>
    rw [hstage] at hrests
    cases hrests

theorem start_balances (hs : s.Reachable) (hrest : s.Resting) (r : Request K V) :
    s.Balances (.start r) := by
  obtain ⟨q, hstart, hrequest, hrests, hbooks⟩ := exists_start_books hs hrest r
  have hhits := hits_eq hstart hrests
  have hmissed := missed_eq hstart hrequest hrests
  have hrunning := runningLoads_withLatest s q
  have hmove : s.move (.start r) = s.withLatest q := hstart
  have hnone : s.panickedLoads (.start r) = 0 := rfl
  have hentries := hbooks.entries
  have hcounted := hbooks.hits
  have hmisses := hbooks.misses
  have hquiet : (Stage.lookup : Stage K V).hits r = 0 ∧ (Stage.lookup : Stage K V).missed r = 0 :=
    ⟨rfl, rfl⟩
  constructor
  · rw [hmove]
    show q.1.entries.size + (s.cache.size + s.cache.counters.evictions) =
      s.cache.entries.size + (q.1.size + q.1.counters.evictions) + s.cache.removals r
    dsimp only at hentries
    omega
  · rw [hmove]
    show q.1.counters.hits = _
    dsimp only at hcounted
    omega
  · rw [hmove, hrunning, hnone]
    show q.1.counters.misses + (s.cache.counters.landed + s.runningLoads) =
      s.cache.counters.misses + (q.1.counters.landed + (s.runningLoads + _)) + _
    dsimp only at hmisses
    omega

/-! ### Replies -/

/-- A callback that ends is followed by the rest of its call, which balances the books. -/
theorem exists_reply_books (hs : s.Reachable) (hi : s.calls[s.calls.length - 1]? = some call)
    (hrests : call.stage.rests = true) (ret : Return V) :
    let p := call.resume ret s.cache
    ∃ (t : System K V) (q : Cache K V × Call K V) (outcome : Outcome V),
      s = t.withLatest (s.cache, call) ∧ s.move (.reply ret) = t.withLatest q ∧
        p.2.stage.outcome? = some outcome ∧ q.2.stage = .done outcome ∧
        Books call.request 0 (p.1, p.2.stage) (q.1, q.2.stage) := by
  intro p
  obtain ⟨t, ht, hlength⟩ := exists_withLatest hi
  obtain ⟨outcome, houtcome⟩ := Call.exists_outcome_resume ret s.cache hrests
    (hs.orderly call (List.mem_of_getElem? hi))
  obtain ⟨n, hwithin⟩ := onCourseWithin_resume hs hi hrests ret
  have hreply := reply_eq hs hi hrests ret
  have hends : (s.reply ret (s.calls.length - 1)).outcome? (s.calls.length - 1) = some outcome :=
    carryOn_outcome (act_getElem? (a := .resume ret (s.calls.length - 1)) rfl hi) houtcome
  have hreach : (s.resume ret (s.calls.length - 1)).Reachable :=
    hs.actAll [.resume ret (s.calls.length - 1)]
  have hresume : s.resume ret (s.calls.length - 1) = t.withLatest p := by
    rw [hlength]
    nth_rewrite 1 [ht]
    exact withLatest_act (a := .resume ret t.calls.length) rfl
  rw [hresume] at hwithin hreach hreply
  rw [hlength] at hwithin hreply
  have hown : ∀ a ∈ List.replicate 2 (.advance t.calls.length : Action K V),
      a.IsOwn t.calls.length := fun a ha => .inl (List.eq_of_mem_replicate ha)
  obtain ⟨q, hacts, hrequest, hbooks⟩ := hwithin.exists_books hreach hown
  rw [hacts] at hreply
  have hmove : s.move (.reply ret) = t.withLatest q := by
    show s.reply ret (s.calls.length - 1) = _
    rw [hlength, hreply]
  rw [hlength, hreply, outcome?, withLatest_getElem?, Option.map_some] at hends
  refine ⟨t, q, outcome, ht, hmove, houtcome, ?_, Call.resume_request ret s.cache call ▸ hbooks⟩
  -- Only a call that is done hands an outcome over.
  cases hstage : q.2.stage with
  | done last =>
    rw [hstage] at hends
    exact congrArg Stage.done (Option.some.inj hends)
  | _ =>
    rw [hstage] at hends
    cases hends

omit [DecidableEq K] in
/-- A callback that ends leaves one miss to be accounted for if it is a loader that did not panic;
    the caller knows about the others. -/
theorem missed_resume (hi : s.calls[s.calls.length - 1]? = some call)
    (hruns : ∃ node epoch prior, call.stage = .running node epoch prior)
    (hsuits : call.stage.Suits call.request) (ret : Return V) (c : Cache K V) :
    (call.resume ret c).2.stage.missed call.request + s.panickedLoads (.reply ret) =
      call.runsLoader.toNat := by
  obtain ⟨node, epoch, prior, hstage⟩ := hruns
  rw [hstage] at hsuits
  have hloader : call.runsLoader = call.request.isLoad := by
    rw [Call.runsLoader, Call.isRunning, hstage, Bool.and_true]
  unfold panickedLoads Call.resume
  rw [hi, Option.any_some, hloader, hstage]
  rcases hsuits.callback with ⟨key, hr⟩ | ⟨key, expire, acceptEmpty, hr⟩
  · rw [hr]
    cases ret with
    | _ => rfl
  · rw [hr]
    cases ret with
    | _ => rfl

/-- A callback that ends: its load is counted, unless its loader has panicked. -/
theorem reply_balances (hs : s.Reachable) (hi : s.calls[s.calls.length - 1]? = some call)
    (hruns : ∃ node epoch prior, call.stage = .running node epoch prior) (ret : Return V) :
    s.Balances (.reply ret) := by
  have hsuits := hs.orderly call (List.mem_of_getElem? hi)
  have hleft := missed_resume hi hruns hsuits ret s.cache
  obtain ⟨node, epoch, prior, hstage⟩ := hruns
  obtain ⟨t, q, outcome, ht, hmove, houtcome, hdone, hbooks⟩ :=
    exists_reply_books hs hi (by rw [hstage]; rfl) ret
  obtain ⟨hcounters, hsize, hentries⟩ := Call.resume_aside ret s.cache call
  have hbefore : s.runningLoads = t.runningLoads + call.runsLoader.toNat := by
    nth_rewrite 1 [ht]
    exact runningLoads_withLatest t (s.cache, call)
  have hafter : (t.withLatest q).runningLoads = t.runningLoads := by
    rw [runningLoads_withLatest, Call.runsLoader, Call.isRunning, hdone, Bool.and_false]
    rfl
  -- The call ends with the outcome that the end of its callback has settled.
  have hsame : (Stage.done outcome : Stage K V).hits call.request =
      (call.resume ret s.cache).2.stage.hits call.request := by
    unfold Stage.hits
    rw [houtcome]
    rfl
  have hover : (Stage.done outcome : Stage K V).missed call.request = 0 := by
    rw [hstage] at hsuits
    rcases hsuits.callback with ⟨key, hr⟩ | ⟨key, expire, acceptEmpty, hr⟩
    · rw [hr]
      cases outcome <;> rfl
    · rw [hr]
      cases outcome <;> rfl
  have hall := hbooks.entries
  have hhits := hbooks.hits
  have hmisses := hbooks.misses
  dsimp only at hall hhits hmisses
  rw [hcounters] at hall hhits hmisses
  rw [hsize, hentries] at hall
  rw [hdone] at hhits hmisses
  constructor
  · rw [hmove]
    show q.1.entries.size + (s.cache.size + s.cache.counters.evictions) =
      s.cache.entries.size + (q.1.size + q.1.counters.evictions) + 0
    omega
  · rw [hmove]
    show q.1.counters.hits = s.cache.counters.hits + 0
    omega
  · rw [hmove, hbefore, hafter]
    show q.1.counters.misses + _ =
      s.cache.counters.misses + (q.1.counters.landed + t.runningLoads) + (0 + _)
    omega

/-! ### All moves -/

/-- A move that does nothing to the cache and starts no loader. -/
theorem balances_of_same {m : Move K V} (hcache : (s.move m).cache = s.cache)
    (hrunning : (s.move m).runningLoads = s.runningLoads) (hremoved : s.removed m = 0)
    (hfound : s.foundGets m + s.foundLoads m = 0)
    (hmissed : s.emptyGets m + s.panickedLoads m = 0) : s.Balances m := by
  constructor
  · rw [hcache, hremoved]
    rfl
  · rw [hcache, hfound]
    rfl
  · rw [hcache, hrunning, hmissed]
    rfl

theorem move_balances (hs : s.Reachable) (hrest : s.Resting) (m : Move K V) : s.Balances m := by
  cases m with
  | start r => exact start_balances hs hrest r
  | reply ret =>
    by_cases hruns : ∃ call node epoch prior, s.calls[s.calls.length - 1]? = some call ∧
        call.stage = .running node epoch prior
    · obtain ⟨call, node, epoch, prior, hi, hstage⟩ := hruns
      exact reply_balances hs hi ⟨node, epoch, prior, hstage⟩ ret
    · -- Nothing is running that could end, and nothing that could panic.
      have hdone : ∀ call, s.calls[s.calls.length - 1]? = some call →
          ∃ outcome, call.stage = .done outcome := by
        intro call hi
        have hrests := hrest call (List.mem_of_getElem? hi)
        cases hstage : call.stage with
        | done outcome => exact ⟨outcome, rfl⟩
        | running node epoch prior => exact absurd ⟨call, node, epoch, prior, hi, hstage⟩ hruns
        | _ => rw [hstage] at hrests; cases hrests
      have hmove : s.move (.reply ret) = s := reply_of_halted hdone
      have hpanics : s.panickedLoads (.reply ret) = 0 := by
        cases ret with
        | panic reason =>
          unfold panickedLoads
          cases hi : s.calls[s.calls.length - 1]? with
          | none => rfl
          | some call =>
            obtain ⟨outcome, hstage⟩ := hdone call hi
            simp [Call.runsLoader, Call.isRunning, hstage]
        | _ => rfl
      refine balances_of_same (congrArg System.cache hmove) (congrArg runningLoads hmove) rfl rfl ?_
      rw [hpanics]
      rfl
  -- A call that is taken off the list is done, so no loader runs for it.
  | collect keepAs =>
    have hcache : (s.move (.collect keepAs)).cache = s.cache := by
      unfold move collect
      dsimp only
      split <;> rfl
    have hrunning : (s.move (.collect keepAs)).runningLoads = s.runningLoads := by
      apply act_countP (a := .collect (s.calls.length - 1) keepAs) _ _ rfl
      · intro r c
        simp [Call.runsLoader, Call.isRunning]
      · intro call outcome hstage
        simp [Call.runsLoader, Call.isRunning, hstage]
    exact balances_of_same hcache hrunning rfl rfl rfl
  -- Upkeep may evict and clear, which is counted, and it concerns no call.
  | upkeep u =>
    have hupkept := keepUp_upkept hs u
    have hentries := hupkept.entries
    have hcalls : (s.keepUp u).runningLoads = s.runningLoads :=
      congrArg (List.countP Call.runsLoader) (keepUp_calls u s)
    constructor
    · show (s.keepUp u).cache.entries.size + _ =
        _ + ((s.keepUp u).cache.size + (s.keepUp u).cache.counters.evictions) + s.cache.cleared u
      omega
    · exact hupkept.hits
    · show (s.keepUp u).cache.counters.misses + _ =
        _ + ((s.keepUp u).cache.counters.landed + (s.keepUp u).runningLoads) + 0
      rw [hupkept.misses, hupkept.landed, hcalls]
      rfl

/-! ## Runs -/

omit [DecidableEq K] in
/-- Without a callback no loader is running. -/
theorem runningLoads_eq_zero (hidle : ∀ call ∈ s.calls, call.isRunning = false) :
    s.runningLoads = 0 := by
  apply List.countP_eq_zero.2
  intro call hmem hruns
  rw [Call.runsLoader, hidle call hmem, Bool.and_false] at hruns
  cases hruns

end System

/-- Let a single caller do whatever it likes, with callbacks that call the cache themselves, nested
    to any depth, and loaders that fail or panic. Between its operations and during every callback
    the entries that were ever made are those in the table, those evicted and those removed by name
    or by clearing the cache; the hits are the gets that returned a value and the loads that returned
    without their loader; and the misses are the gets that returned none, the loads that were counted
    as over, those whose loader panicked, and those whose loader is running. The latter are none when
    no operation is running. -/
theorem counters_balance [DecidableEq K] (config : Config) (clock : Clock) (hashOf : K → UInt64)
    (ms : List (Move K V)) :
    let s₀ : System K V := System.new config clock hashOf
    let s := s₀.moveAll ms
    let stats := s.cache.stats
    s.cache.size + stats.evictions + s₀.total System.removed ms = s.cache.entries.size ∧
    stats.hits = s₀.total System.foundGets ms + s₀.total System.foundLoads ms ∧
    stats.misses = s₀.total System.emptyGets ms + stats.loads + stats.loadFailures +
      s₀.total System.panickedLoads ms + s.runningLoads ∧
    ((∀ call ∈ s.calls, call.isRunning = false) →
      stats.misses = s₀.total System.emptyGets ms + stats.loads + stats.loadFailures +
        s₀.total System.panickedLoads ms) := by
  intro s₀ s stats
  have hs : s₀.Reachable := System.reachable_new config clock hashOf
  have hrest : s₀.Resting := System.resting_new config clock hashOf
  have hentries : s.cache.entries.size + (s₀.cache.size + s₀.cache.counters.evictions) =
      s₀.cache.entries.size + (s.cache.size + s.cache.counters.evictions) +
        s₀.total System.removed ms :=
    System.telescope _ (fun s => s.cache.entries.size)
      (fun s => s.cache.size + s.cache.counters.evictions)
      (fun s m hs hrest => (System.move_balances hs hrest m).entries) hs hrest ms
  have hhits : s.cache.counters.hits = s₀.cache.counters.hits +
      s₀.total (fun s m => s.foundGets m + s.foundLoads m) ms :=
    System.telescope _ (fun s => s.cache.counters.hits) (fun _ => 0)
      (fun s m hs hrest => (System.move_balances hs hrest m).hits) hs hrest ms
  have hmisses : s.cache.counters.misses + (s₀.cache.counters.landed + s₀.runningLoads) =
      s₀.cache.counters.misses + (s.cache.counters.landed + s.runningLoads) +
        s₀.total (fun s m => s.emptyGets m + s.panickedLoads m) ms :=
    System.telescope _ (fun s => s.cache.counters.misses)
      (fun s => s.cache.counters.landed + s.runningLoads)
      (fun s m hs hrest => (System.move_balances hs hrest m).misses) hs hrest ms
  rw [System.total_add] at hhits hmisses
  -- Nothing has been made or counted in a new cache.
  have hmade : s₀.cache.entries.size = 0 ∧ s₀.cache.size + s₀.cache.counters.evictions = 0 :=
    ⟨rfl, rfl⟩
  have hcounted : s₀.cache.counters.hits = 0 ∧ s₀.cache.counters.misses = 0 ∧
      s₀.cache.counters.landed + s₀.runningLoads = 0 := ⟨rfl, rfl, rfl⟩
  have hlanded : s.cache.counters.landed = s.cache.counters.loads + s.cache.counters.loadFailures :=
    rfl
  have hall : s.cache.counters.misses = s₀.total System.emptyGets ms + s.cache.counters.loads +
      s.cache.counters.loadFailures + s₀.total System.panickedLoads ms + s.runningLoads := by
    omega
  refine ⟨?_, ?_, hall, fun hidle => ?_⟩
  · show s.cache.size + s.cache.counters.evictions + s₀.total System.removed ms = _
    omega
  · show s.cache.counters.hits = _
    omega
  · rw [System.runningLoads_eq_zero hidle] at hall
    exact hall

/-- A loader that starts another load, which fails, and looks its key up; a loader that panics after
    its insertion has evicted an entry; an update, a key that is forgotten, and all the rest cleared. -/
theorem counters_balance_nested :
    let s₀ : System Nat Nat := System.new { maxCapacity := 2 } (.manual 0) fun _ => 0
    let ms : List (Move Nat Nat) :=
      [.start (.get 1), .collect none, .start (.load 1 0 false), .start (.load 2 0 false),
       .reply (.fail "unreachable"), .collect none, .start (.get 2), .collect none,
       .reply (.value 5), .collect none, .start (.load 1 0 false), .collect none,
       .start (.get 1), .collect none, .start (.load 3 0 false), .reply (.panic "broken"),
       .collect none, .start (.invalidate 1), .collect none, .start (.update 4),
       .reply (.value 7), .collect none, .upkeep .clear]
    let s := s₀.moveAll ms
    s.cache.stats.hits = 2 ∧ s.cache.stats.misses = 5 ∧ s.cache.stats.loads = 1 ∧
      s.cache.stats.loadFailures = 1 ∧ s₀.total System.emptyGets ms = 2 ∧
      s₀.total System.panickedLoads ms = 1 ∧ s.cache.entries.size = 4 ∧
      s.cache.size + s.cache.stats.evictions + s₀.total System.removed ms = 4 ∧
      s.cache.stats.misses = s₀.total System.emptyGets ms + s.cache.stats.loads +
        s.cache.stats.loadFailures + s₀.total System.panickedLoads ms := by
  intro s₀ ms s
  obtain ⟨-, -, -, hmisses⟩ := counters_balance { maxCapacity := 2 } (.manual 0) (fun _ => 0) ms
  have hidle : ∀ call ∈ s.calls, call.isRunning = false := by decide +kernel
  have hbalance := hmisses hidle
  refine ⟨by decide +kernel, by decide +kernel, by decide +kernel, by decide +kernel,
    by decide +kernel, by decide +kernel, by decide +kernel, by decide +kernel, ?_⟩
  unfold s s₀
  exact hbalance

end ReadThrough
