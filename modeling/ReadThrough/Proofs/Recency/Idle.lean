import ReadThrough.Proofs.Expiry.Decisions
import ReadThrough.Proofs.Recency.Uses

/-! # Idle Passes

  As long as the clock does not go back, the entries of the table are in the order of the ticks of
  their last uses. So an idle pass, which ends at the first entry that was used recently, meets all
  entries that were not.

  - **lapse**: what an idle pass is to make of an entry.
  - **Idled**, **idler_tour**: what a tour along sorted nodes makes of the entries.
  - **IdlePass**: exactly the idle entries of the table have been dealt with as the policy says.
  - **Stamped**: the order is sorted; **Stamped.turned** is the step.
  - **idle_exact**: idle passes miss nothing, after every run of moves.
-/

namespace ReadThrough

open Cache Table

variable {K V : Type}

/-! ## Single entries -/

/-- What an idle pass makes of an entry by its fate. -/
def Entry.IdleFate.apply (e : Entry K V) : Entry.IdleFate → Entry K V
  | .keep => e
  | .detach => { e with value := e.value.detach }
  | .remove => { e with removed := true }

namespace Entry

/-- What an idle pass is to make of an entry, where it is told by the tick of its last use whether
    an entry is idle. -/
def lapse (held : Held) (policy : IdlePolicy) (idle : Nat → Prop) [DecidablePred idle]
    (e : Entry K V) : Entry K V :=
  if idle e.lastAccess then (e.idleFate held policy).apply e else e

/-- Whether an idle pass is to remove the node of the entry. -/
def Lapses (held : Held) (policy : IdlePolicy) (idle : Nat → Prop) (e : Entry K V) : Prop :=
  idle e.lastAccess ∧ e.idleFate held policy = .remove

variable {held : Held} {policy : IdlePolicy} {idle : Nat → Prop} [DecidablePred idle]
  {e : Entry K V}

theorem lapse_of_recent (h : ¬ idle e.lastAccess) : e.lapse held policy idle = e :=
  if_neg h

theorem lapse_of_idle (h : idle e.lastAccess) :
    e.lapse held policy idle = (e.idleFate held policy).apply e :=
  if_pos h

theorem lapse_lastAccess : (e.lapse held policy idle).lastAccess = e.lastAccess := by
  unfold lapse
  split
  · cases e.idleFate held policy <;> rfl
  · rfl

end Entry

namespace Cache

variable {held : Held} {policy : IdlePolicy} {cutoff n : Nat} {es : Entries K V}
  {node : EntryNode K} {e : Entry K V} {ns : List (EntryNode K)}

theorem lastUse_eq {id : EntryId} (he : es[id]? = some e) : lastUse es id = e.lastAccess := by
  rw [lastUse, he]
  rfl

/-! ## Tours -/

theorem idler_recent (he : es[node.payload]? = some e) (h : cutoff ≤ e.lastAccess) :
    idler held policy cutoff node (es, n) = (.stop, (es, n)) := by
  rw [idler, if_pos (lastUse_eq he ▸ h)]

/-- An idle entry meets its fate. -/
theorem idler_idle (held : Held) (policy : IdlePolicy) (n : Nat)
    (he : es[node.payload]? = some e) (h : e.lastAccess < cutoff) :
    ∃ m, idler held policy cutoff node (es, n) =
        (if e.idleFate held policy = .remove then .evict else .keep, m) ∧
      m.1[node.payload]? = some ((e.idleFate held policy).apply e) ∧
      ∀ id, id ≠ node.payload → m.1[id]? = es[id]? := by
  have hidle : ¬ cutoff ≤ lastUse es node.payload := by
    rw [lastUse_eq he]
    exact Nat.not_le.2 h
  unfold idler
  simp only [if_neg hidle, he, Option.map_some, Option.getD_some]
  cases hfate : e.idleFate held policy with
  | keep => exact ⟨_, rfl, he, fun _ _ => rfl⟩
  | detach =>
    refine ⟨_, rfl, by simp [Array.getElem?_modify, he, Entry.IdleFate.apply], fun id hne => ?_⟩
    simp [Array.getElem?_modify, hne.symm]
  | remove =>
    refine ⟨_, rfl, by simp [markRemoved, Array.getElem?_modify, he, Entry.IdleFate.apply],
      fun id hne => ?_⟩
    simp [markRemoved, Array.getElem?_modify, hne.symm]

/-- What an idle pass makes of the entries of some nodes: those that were last used before the
    cutoff meet their fate, and nothing happens to the others. -/
structure Idled (held : Held) (policy : IdlePolicy) (cutoff : Nat) (es : Entries K V)
    (ns : List (EntryNode K)) (o : Tour K EntryId (Census K V)) : Prop where
  left : ∀ node, node ∈ o.left ↔
    node ∈ ns ∧ ∀ e ∈ es[node.payload]?, ¬ e.Lapses held policy (· < cutoff)
  met : ∀ node ∈ ns, o.memory.1[node.payload]? =
    es[node.payload]?.map (Entry.lapse held policy (· < cutoff))
  others : ∀ id, (∀ node ∈ ns, node.payload ≠ id) → o.memory.1[id]? = es[id]?

/-- Behind an entry that was used recently there are only such entries. -/
theorem idled_of_recent (h : ∀ node ∈ ns, cutoff ≤ lastUse es node.payload) (ending : Ending) :
    Idled held policy cutoff es ns ⟨ns, [], (es, n), ending⟩ := by
  have hrecent {node : EntryNode K} {e : Entry K V} (hn : node ∈ ns)
      (he : es[node.payload]? = some e) : ¬ e.lastAccess < cutoff :=
    Nat.not_lt.2 (lastUse_eq he ▸ h node hn)
  refine ⟨fun node => ⟨fun hn => ⟨hn, fun e he hlapses => hrecent hn he hlapses.1⟩, And.left⟩,
    fun node hn => ?_, fun _ _ => rfl⟩
  show es[node.payload]? = _
  cases he : es[node.payload]? with
  | none => rfl
  | some e => rw [Option.map_some, Entry.lapse_of_recent (hrecent hn he)]

/-- An idle entry meets its fate before the tour goes on. -/
theorem Idled.cons {es' : Entries K V} {ahead : List (EntryNode K)}
    {o : Tour K EntryId (Census K V)} (h : Idled held policy cutoff es' ahead o)
    (hown : ∀ n ∈ ahead, node.payload ≠ n.payload) (he : es[node.payload]? = some e)
    (hidle : e.lastAccess < cutoff)
    (hmet : es'[node.payload]? = some ((e.idleFate held policy).apply e))
    (hothers : ∀ id, id ≠ node.payload → es'[id]? = es[id]?) :
    Idled held policy cutoff es (node :: ahead)
      (if e.idleFate held policy = .remove then o.removing node else o.passing node) := by
  have hahead {n : EntryNode K} (hn : n ∈ ahead) : es'[n.payload]? = es[n.payload]? :=
    hothers _ (hown n hn).symm
  have hmemory : (if e.idleFate held policy = .remove then o.removing node
      else o.passing node).memory = o.memory := by
    split <;> rfl
  -- The node stays with those that are left unless its fate is to be removed.
  have hleft (n : EntryNode K) : n ∈ (if e.idleFate held policy = .remove then o.removing node
      else o.passing node).left ↔ (n = node ∧ e.idleFate held policy ≠ .remove) ∨ n ∈ o.left := by
    split
    · next hremove => simp [Tour.removing, hremove]
    · next hkeep => simp [Tour.passing, hkeep]
  refine ⟨fun n => ?_, fun n hn => ?_, fun id hid => ?_⟩
  · rw [hleft, h.left]
    constructor
    · rintro (⟨rfl, hkeep⟩ | ⟨hn, hno⟩)
      · refine ⟨List.mem_cons_self, fun e' he' hlapses => hkeep ?_⟩
        rw [he] at he'
        exact Option.some.inj he' ▸ hlapses.2
      · exact ⟨List.mem_cons_of_mem _ hn, hahead hn ▸ hno⟩
    · rintro ⟨hn, hno⟩
      rcases List.mem_cons.1 hn with rfl | hn
      · exact .inl ⟨rfl, fun hremove => hno e he ⟨hidle, hremove⟩⟩
      · exact .inr ⟨hn, hahead hn ▸ hno⟩
  · -- The entry has met its fate already, and the rest of the tour leaves it alone.
    rw [hmemory]
    rcases List.mem_cons.1 hn with rfl | hn
    · rw [h.others _ fun n' hn' => (hown n' hn').symm, hmet, he, Option.map_some,
        Entry.lapse_of_idle hidle]
    · rw [h.met n hn, hahead hn]
  · rw [hmemory, h.others id fun n hn => hid n (List.mem_cons_of_mem _ hn),
      hothers id (hid node List.mem_cons_self).symm]

/-- A tour along nodes that are in the order of their last uses, the earliest one first. -/
theorem idler_tour (held : Held) (policy : IdlePolicy) (cutoff n : Nat)
    (hentries : ∀ node ∈ ns, ∃ e, es[node.payload]? = some e)
    (hdistinct : ns.Pairwise fun a b => a.payload ≠ b.payload)
    (hsorted : ns.Pairwise fun a b => lastUse es a.payload ≤ lastUse es b.payload) :
    Idled held policy cutoff es ns ((idler held policy cutoff).tour ns none (es, n)) := by
  induction ns generalizing es n with
  | nil => exact ⟨fun _ => by simp [Judge.tour], nofun, fun _ _ => rfl⟩
  | cons node ahead ih =>
    obtain ⟨e, he⟩ := hentries node List.mem_cons_self
    obtain ⟨hfirst, hsorted⟩ := List.pairwise_cons.1 hsorted
    obtain ⟨hown, hdistinct⟩ := List.pairwise_cons.1 hdistinct
    rw [Judge.tour, if_neg (by simp)]
    rcases Nat.lt_or_ge e.lastAccess cutoff with hidle | hrecent
    · obtain ⟨m, hjudge, hmet, hothers⟩ := idler_idle held policy n he hidle
      -- The nodes ahead lead to other entries, which are what they were.
      have hahead {node' : EntryNode K} (hn : node' ∈ ahead) :
          m.1[node'.payload]? = es[node'.payload]? := hothers _ (hown node' hn).symm
      have hrest : Idled held policy cutoff m.1 ahead
          ((idler held policy cutoff).tour ahead none m) := ih m.2
        (fun node' hn => hahead hn ▸ hentries node' (List.mem_cons_of_mem _ hn)) hdistinct
        (hsorted.imp_of_mem fun ha hb hle => by
          rw [lastUse, lastUse, hahead ha, hahead hb]
          exact hle)
      have hnext := hrest.cons hown he hidle hmet hothers
      rw [hjudge]
      split at hnext
      · next hremove => simpa [hremove] using hnext
      · next hkeep => simpa [hkeep] using hnext
    · -- The tour ends here, and by their order the nodes ahead were used even later.
      rw [idler_recent he hrecent]
      refine idled_of_recent (fun node' hn => ?_) _
      rcases List.mem_cons.1 hn with rfl | hn
      · exact lastUse_eq he ▸ hrecent
      · exact Nat.le_trans (lastUse_eq he ▸ hrecent) (hfirst node' hn)

/-! ## Passes -/

variable {c c' : Cache K V} {idle : Nat → Prop} [DecidablePred idle]

/-- Exactly the entries of the table that are idle have been dealt with as the policy says, where it
    is told by the tick of its last use whether an entry is idle. The result is the number of those
    that were removed. -/
structure IdlePass (held : Held) (idle : Nat → Prop) [DecidablePred idle] (c : Cache K V)
    (r : Cache K V × Nat) : Prop where
  /-- The nodes of the idle entries that are to be removed have left the table. -/
  left : ∀ node, node ∈ r.1.table.nodes ↔ node ∈ c.table.nodes ∧
    ∀ e ∈ c.entries[node.payload]?, ¬ e.Lapses held c.idlePolicy idle
  /-- The idle entries of the table have met their fate, and the recent ones are what they were. -/
  met : ∀ node ∈ c.table.nodes, r.1.entries[node.payload]? =
    c.entries[node.payload]?.map (Entry.lapse held c.idlePolicy idle)
  /-- Entries that have left the table are what they were. -/
  others : ∀ id, (∀ node ∈ c.table.nodes, node.payload ≠ id) → r.1.entries[id]? = c.entries[id]?
  count : r.2 + r.1.size = c.size

/-- It only matters which entries are idle. -/
theorem IdlePass.congr {idle' : Nat → Prop} [DecidablePred idle'] {r : Cache K V × Nat}
    (h : c.IdlePass held idle r)
    (hsame : ∀ (id : EntryId) (e : Entry K V), c.entries[id]? = some e →
      (idle e.lastAccess ↔ idle' e.lastAccess)) :
    c.IdlePass held idle' r where
  left := by
    intro node
    rw [h.left]
    refine and_congr_right fun _ => forall₂_congr fun e he => not_congr ?_
    exact and_congr_left fun _ => hsame node.payload e he
  met := by
    intro node hn
    rw [h.met node hn]
    cases he : c.entries[node.payload]? with
    | none => rfl
    | some e => simp [Entry.lapse, hsame node.payload e he]
  others := h.others
  count := h.count

/-- Nothing happens if no entry is idle. -/
theorem idlePass_of_recent
    (h : ∀ (id : EntryId) (e : Entry K V), c.entries[id]? = some e → ¬ idle e.lastAccess) :
    c.IdlePass held idle (c, 0) where
  left := fun node => ⟨fun hn => ⟨hn, fun e he hlapses => h _ e he hlapses.1⟩, And.left⟩
  met := by
    intro node hn
    cases he : c.entries[node.payload]? with
    | none => rfl
    | some e => rw [Option.map_some, Entry.lapse_of_recent (h _ e he)]
  others := fun _ _ => rfl
  count := Nat.zero_add _

/-- Along the recency list the ticks of the last uses do not increase, and none is ahead of the
    clock. -/
structure Stamped (c : Cache K V) : Prop where
  sorted : c.order.Pairwise fun a b => lastUse c.entries b ≤ lastUse c.entries a
  past : ∀ id, lastUse c.entries id ≤ c.now

theorem stamped_new (config : Config) (clock : Clock) (hashOf : K → UInt64) :
    (Cache.new config clock hashOf : Cache K V).Stamped where
  sorted := List.Pairwise.nil
  past := fun _ => Nat.zero_le _

/-- What is used now comes to stand in front. -/
theorem Stamped.turned {u : Option EntryId} (h : c.Stamped) (hturned : Turned c.now u c c')
    (hnow : c.now ≤ c'.now) : c'.Stamped where
  sorted := by
    refine List.Pairwise.sublist hturned.order (List.pairwise_append.2 ⟨?_, ?_, ?_⟩)
    · cases u <;> simp
    · -- The others have not been used.
      refine (h.sorted.filter _).imp_of_mem fun ha hb hle => ?_
      rw [hturned.stamps, hturned.stamps, if_neg (by simpa using (List.mem_filter.1 hb).2),
        if_neg (by simpa using (List.mem_filter.1 ha).2)]
      exact hle
    · -- Whatever was used before was so at the current tick at the latest.
      intro a ha b hb
      rw [hturned.stamps, hturned.stamps, if_neg (by simpa using (List.mem_filter.1 hb).2),
        if_pos (by simpa using ha)]
      exact Nat.le_trans (h.past b) (Nat.le_max_right _ _)
  past := by
    intro id
    refine Nat.le_trans ?_ hnow
    rw [hturned.stamps]
    split
    · exact Nat.max_le.2 ⟨h.past id, Nat.le_refl _⟩
    · exact h.past id

/-- An idle pass along a sorted list ends where no more idle entries are to come. -/
theorem Stamped.idleTrim (h : c.Stamped) (hc : c.table.Complete)
    (hdistinct : Distinct c.table.buckets)
    (hentries : ∀ node ∈ c.table.nodes, ∃ e, c.entries[node.payload]? = some e)
    (held : Held) (cutoff : Nat) : c.IdlePass held (· < cutoff) (c.idleTrim held cutoff) := by
  let judge : Judge K EntryId (Census K V) := idler held c.idlePolicy cutoff
  let ns := c.table.byRecency.reverse
  have hmem {node : EntryNode K} : node ∈ ns ↔ node ∈ c.table.nodes :=
    List.mem_reverse.trans hc.mem_byRecency
  -- No entry is met twice, so what one question does to it is final.
  have hdifferent : ns.Pairwise fun a b => a.payload ≠ b.payload :=
    (List.nodup_reverse.2 hc.nodup).imp_of_mem fun ha hb hne heq =>
      hne (hdistinct _ (hmem.1 ha) _ (hmem.1 hb) heq)
  -- From the least recently used end on the ticks go up.
  have hsorted : ns.Pairwise fun a b => lastUse c.entries a.payload ≤ lastUse c.entries b.payload :=
    List.pairwise_reverse.2 (List.pairwise_map.1 h.sorted)
  have hidled := idler_tour held c.idlePolicy cutoff 0
    (fun node hn => hentries node (hmem.1 hn)) hdifferent hsorted
  obtain ⟨hcomplete, hbyRecency, hmemory, hremoved⟩ := hc.sweep lastUseIn judge (c.entries, 0)
  have htable : (c.idleTrim held cutoff).1.table =
      (c.table.sweep lastUseIn judge (c.entries, 0)).table := rfl
  have hafter : (c.idleTrim held cutoff).1.entries = (judge.tour ns none (c.entries, 0)).memory.1 :=
    congrArg Prod.fst hmemory
  refine ⟨fun node => ?_, fun node hn => ?_, fun id hid => ?_, ?_⟩
  · rw [htable, ← hcomplete.mem_byRecency, hbyRecency, List.mem_reverse]
    exact (hidled.left node).trans (and_congr_left fun _ => hmem)
  · exact hafter ▸ hidled.met node (hmem.2 hn)
  · exact hafter ▸ hidled.others id fun node hn => hid node (hmem.1 hn)
  · have hlength := judge.tour_length ns none (c.entries, 0)
    have hsize := Lined.length_eq hcomplete
    rw [hbyRecency, List.length_reverse] at hsize
    rw [List.length_reverse, Lined.length_eq hc, ← hremoved, hsize] at hlength
    exact hlength

/-- An idle pass by age, where no entry can be older than the clock. -/
theorem Stamped.evictIdle (h : c.Stamped) (hc : c.table.Complete)
    (hdistinct : Distinct c.table.buckets)
    (hentries : ∀ node ∈ c.table.nodes, ∃ e, c.entries[node.payload]? = some e)
    (held : Held) (seconds : Nat) (hnext : seconds = 0 → c.now + 1 < tickSpan) :
    c.IdlePass held (seconds ≤ c.now - ·) (c.evictIdle held seconds) := by
  have hpast {id : EntryId} {e : Entry K V} (he : c.entries[id]? = some e) :
      e.lastAccess ≤ c.now := lastUse_eq he ▸ h.past id
  unfold Cache.evictIdle
  split
  · next hyoung =>
    refine idlePass_of_recent fun id e he => ?_
    have := hpast he
    omega
  · next hold =>
    have hnow : c.now < tickSpan := c.clock.now_lt
    have hcutoff : (c.now - seconds + 1) % tickSpan = c.now - seconds + 1 :=
      Nat.mod_eq_of_lt (by omega)
    rw [hcutoff]
    refine (h.idleTrim hc hdistinct hentries held (c.now - seconds + 1)).congr fun id e he => ?_
    have := hpast he
    omega

end Cache

/-! ## Runs -/

namespace System

variable [DecidableEq K] {s : System K V}

omit [DecidableEq K] in
theorem Keyed.exists_entry (h : s.Keyed) (node : EntryNode K) (hn : node ∈ s.cache.table.nodes) :
    ∃ e, s.cache.entries[node.payload]? = some e := by
  obtain ⟨e, he, -⟩ := h.nodes node hn
  exact ⟨e, he⟩

theorem Reachable.stamped_moveAll (hs : s.Reachable) (hrest : s.Resting) (h : s.cache.Stamped)
    {ms : List (Move K V)} (hclock : s.Along Forward ms) : (s.moveAll ms).cache.Stamped := by
  induction ms generalizing s with
  | nil => exact h
  | cons m ms ih =>
    exact ih (hs.move m) (hrest.move hs m) (h.turned (hs.move_turned hrest m) hclock.1) hclock.2

end System

/-- After every run of a single caller whose clock never goes back, the ticks of the last uses do not
    increase along the recency list, from its most recently used end on. So an idle pass deals with
    exactly the entries that were last used before the cutoff, or as long ago as asked for, however
    soon it ends. -/
theorem idle_exact [DecidableEq K] (config : Config) (clock : Clock) (hashOf : K → UInt64)
    (ms : List (Move K V))
    (hclock : (System.new config clock hashOf : System K V).Along System.Forward ms) :
    let s : System K V := (System.new config clock hashOf).moveAll ms
    s.cache.Stamped ∧
      (∀ cutoff, s.cache.IdlePass s.held (· < cutoff) (s.cache.idleTrim s.held cutoff)) ∧
      -- For no time at all the cutoff is the next tick, and there has to be one.
      ∀ seconds, (seconds = 0 → s.cache.now + 1 < tickSpan) →
        s.cache.IdlePass s.held (seconds ≤ s.cache.now - ·)
          (s.cache.evictIdle s.held seconds) := by
  intro s
  have hs₀ := System.reachable_new (V := V) config clock hashOf
  have hs := hs₀.moveAll ms
  have hstamped : s.cache.Stamped := hs₀.stamped_moveAll (System.resting_new config clock hashOf)
    (stamped_new config clock hashOf) hclock
  have hc := hs.filed.complete
  have hdistinct := hs.keyed.distinct
  exact ⟨hstamped, hstamped.idleTrim hc hdistinct hs.keyed.exists_entry s.held,
    hstamped.evictIdle hc hdistinct hs.keyed.exists_entry s.held⟩

/-- A loader that takes its time and looks another key up. -/
theorem idle_exact_nested :
    let s₀ : System Nat Nat :=
      System.new { idlePolicy := .reachability } (.manual 0) fun _ => 0
    let ms : List (Move Nat Nat) :=
      [.start (.put 1 5), .collect (some "v"), .upkeep (.advanceClock 3), .start (.put 2 6),
       .collect none, .upkeep (.advanceClock 1), .start (.load 3 0 false),
       .upkeep (.advanceClock 4), .start (.get 1), .collect none, .reply (.value 7),
       .collect none, .upkeep (.advanceClock 2)]
    let s := s₀.moveAll ms
    s.cache.order = [2, 0, 1] ∧ (s.cache.evictIdle s.held 5).2 = 1 ∧
      (s.cache.evictIdle s.held 5).1.order = [2, 0] ∧ s.cache.Stamped ∧
      s.cache.IdlePass s.held (5 ≤ s.cache.now - ·) (s.cache.evictIdle s.held 5) := by
  intro s₀ ms s
  obtain ⟨hstamped, -, hpass⟩ := idle_exact { idlePolicy := .reachability } (.manual 0)
    (fun _ => 0) ms (by decide +kernel)
  exact ⟨by decide +kernel, by decide +kernel, by decide +kernel, hstamped, hpass 5 (by decide)⟩

end ReadThrough
