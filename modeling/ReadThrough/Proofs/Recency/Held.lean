import ReadThrough.Proofs.Recency.Idle
import ReadThrough.Proofs.WriteBack.Unchanged

/-! # Held Values and Idle Passes

  An idle pass that does not remove entries outright lets their values go. A value that a client
  holds is found again, and no other one is kept alive.

  - **Stores**: a node of the table leads to an entry with a value, whether it is let go or not.
  - **idler_stores**: a value that is held stays where it is.
  - **Holds**, **isIdling**: the clients, and what may happen meanwhile.
  - **Entry.kept_met**: an entry that an idle pass has met and that may be evicted keeps no value
    alive.
  - **held_survives_idle**: both for every run of a single caller.
-/

namespace ReadThrough

open Cache Table

variable {K V : Type}

/-! ## Single entries -/

theorem ValueState.peek_of_result {held : Held} {state : ValueState V} {v : Value V}
    (h : state.result? = some (some v)) (hheld : held v.id = true) : state.peek held = some v := by
  cases state <;> simp_all [result?, peek]

namespace Entry

variable {held : Held} {policy : IdlePolicy} {e : Entry K V} {v : Value V}

/-- An entry whose value is held is not removed. -/
theorem idleFate_of_held (hpolicy : policy ≠ .remove) (hheld : held v.id = true)
    (hv : e.value.result? = some (some v)) : e.idleFate held policy ≠ .remove := by
  unfold idleFate
  split
  · simp
  cases policy with
  | remove => exact absurd rfl hpolicy
  | detach => cases e.value <;> simp
  | reachability => cases hcase : e.value <;> simp_all [ValueState.result?]

/-- What an idle pass leaves to an entry that may be evicted, unless it removes the entry. -/
theorem idleFate_open (hopen : e.isProtected = false) (hstays : e.idleFate held policy ≠ .remove) :
    (e.idleFate held policy = .detach ∧ ∃ v, e.value = .ready v) ∨
      (e.idleFate held policy = .keep ∧ e.value.kept = none) := by
  simp only [isProtected, Bool.or_eq_false_iff] at hopen
  obtain ⟨⟨hpending, hdirty⟩, hmember⟩ := hopen
  unfold idleFate at hstays ⊢
  simp only [isProtected, hpending, hdirty, hmember, Bool.or_false, Bool.false_eq_true, if_false]
    at hstays ⊢
  -- What may be evicted is ready, let go already, or without a value.
  cases hvalue : e.value with
  | pending => rw [hvalue] at hpending; cases hpending
  | dirty v => rw [hvalue] at hdirty; cases hdirty
  | ready v =>
    left
    cases policy with
    | remove => simp [hvalue] at hstays
    | detach => exact ⟨rfl, v, rfl⟩
    | reachability =>
      by_cases hheld : held v.id
      · simp [hheld]
      · simp [hvalue, hheld] at hstays
  | detached v =>
    right
    cases policy with
    | remove => simp [hvalue] at hstays
    | detach => exact ⟨rfl, rfl⟩
    | reachability =>
      by_cases hheld : held v.id
      · simp [hheld, ValueState.kept]
      · simp [hvalue, hheld] at hstays
  | unassigned =>
    right
    cases policy with
    | detach => exact ⟨rfl, rfl⟩
    | _ => simp [hvalue] at hstays
  | missing =>
    right
    cases policy with
    | detach => exact ⟨rfl, rfl⟩
    | _ => simp [hvalue] at hstays

/-- An idle pass changes nothing that protects an entry. -/
theorem apply_isProtected (e : Entry K V) (fate : IdleFate) :
    (fate.apply e).isProtected = e.isProtected := by
  cases fate with
  | detach =>
    cases hvalue : e.value <;> simp [IdleFate.apply, isProtected, hvalue, ValueState.detach,
      ValueState.isPending, ValueState.isDirty]
  | _ => rfl

/-- An entry that has met its fate, is still in the table and may be evicted keeps no value
    alive. -/
theorem kept_met (hopen : e.isProtected = false) (hstays : e.idleFate held policy ≠ .remove) :
    ((e.idleFate held policy).apply e).value.kept = none := by
  rcases idleFate_open hopen hstays with ⟨hdetach, v, hvalue⟩ | ⟨hkeep, hkept⟩
  · rw [hdetach]
    simp [IdleFate.apply, hvalue, ValueState.detach, ValueState.kept]
  · rw [hkeep]
    exact hkept

end Entry

/-! ## Passes -/

namespace Cache

variable {held : Held} {policy : IdlePolicy} {cutoff : Nat} {c c' : Cache K V}
  {node : EntryNode K} {v : Value V}

/-- The node is in the table and its entry has the value, whether it has let go of it or not. -/
structure Stores (node : EntryNode K) (v : Value V) (c : Cache K V) : Prop where
  present : node ∈ c.table.nodes
  entry : ∃ e, c.entries[node.payload]? = some e ∧ e.value.result? = some (some v)

/-- Only an entry that is to be removed is evicted. -/
theorem idleFate_of_evict {n : EntryNode K} {m m' : Census K V}
    (h : idler held policy cutoff n m = (.evict, m')) :
    ∃ e, m.1[n.payload]? = some e ∧ e.idleFate held policy = .remove := by
  obtain ⟨es, count⟩ := m
  cases he : es[n.payload]? with
  | none =>
    unfold idler at h
    simp only [he, Option.map_none, Option.getD_none] at h
    split at h <;> cases (Prod.mk.inj h).1
  | some e =>
    refine ⟨e, rfl, ?_⟩
    rcases Nat.lt_or_ge e.lastAccess cutoff with hidle | hrecent
    · obtain ⟨m, hjudge, -⟩ := idler_idle held policy count he hidle
      by_contra hstays
      rw [hjudge, if_neg hstays] at h
      cases (Prod.mk.inj h).1
    · rw [idler_recent he hrecent] at h
      cases (Prod.mk.inj h).1

/-- A value that is held stays where it is while an idle pass goes on. -/
theorem idler_stores (cutoff : Nat) (hashOf : K → UInt64) (hpolicy : policy ≠ .remove)
    (hheld : held v.id = true) :
    (idler held policy cutoff : Judge K EntryId (Census K V)).Keeps fun b m =>
      b.Sound hashOf ∧ node ∈ b.nodes ∧
        ∃ e, m.1[node.payload]? = some e ∧ e.value.result? = some (some v) where
  spare := by
    rintro b m m' n verdict hjudge hne ⟨hs, hnode, e, he, hv⟩
    refine ⟨hs, hnode, ?_⟩
    rcases idler_spare hjudge hne with hsame | hdetach
    · exact ⟨e, hsame ▸ he, hv⟩
    · rw [hdetach, Array.getElem?_modify, he]
      split
      · refine ⟨_, rfl, ?_⟩
        cases hvalue : e.value <;> simp_all [ValueState.detach, ValueState.result?]
      · exact ⟨e, rfl, hv⟩
  evict := by
    rintro b m m' slot n hn hjudge ⟨hs, hnode, e, he, hv⟩
    -- The node that is evicted is another one, and so is its entry.
    have hother : n.payload ≠ node.payload := by
      intro heq
      obtain ⟨e', he', hremove⟩ := idleFate_of_evict hjudge
      rw [heq, he] at he'
      exact e.idleFate_of_held hpolicy hheld hv (Option.some.inj he' ▸ hremove)
    refine ⟨hs.removeNode_sound n, ?_, e, ?_, hv⟩
    · refine (hs.mem_removeNode (Buckets.mem_nodes.2 ⟨slot, hn⟩)).2 ⟨hnode, ?_⟩
      exact fun heq => hother (congrArg Node.payload heq).symm
    · rw [idler_evict hjudge, markRemoved, Array.getElem?_modify, if_neg hother, he]

theorem Stores.idleTrim (h : c.Stores node v) (hs : c.table.Sound)
    (hpolicy : c.idlePolicy ≠ .remove) (hheld : held v.id = true) (cutoff : Nat) :
    (c.idleTrim held cutoff).1.Stores node v := by
  obtain ⟨-, hnode, hentry⟩ := sweep_keeps (m := (c.entries, 0)) lastUseIn
    (idler_stores cutoff c.table.hashOf hpolicy hheld) ⟨hs, h.present, h.entry⟩
  exact ⟨hnode, hentry⟩

theorem Stores.evictIdle (h : c.Stores node v) (hs : c.table.Sound)
    (hpolicy : c.idlePolicy ≠ .remove) (hheld : held v.id = true) (seconds : Nat) :
    (c.evictIdle held seconds).1.Stores node v := by
  unfold Cache.evictIdle
  split
  · exact h
  · exact h.idleTrim hs hpolicy hheld _

end Cache

/-! ## Clients -/

/-- Idle passes, and what may happen between them: the clock is moved, and clients take and drop
    references. -/
def Move.isIdling : Move K V → Bool
  | .upkeep (.idleTrim _) => true
  | .upkeep (.evictIdle _) => true
  | .upkeep (.advanceClock _) => true
  | .upkeep (.setClock _) => true
  | .upkeep (.takeYield ..) => true
  | .upkeep (.release _) => true
  | _ => false

namespace System

variable {s : System K V} {node : EntryNode K} {v : Value V} {k : K}

/-- A client holds a reference to the value, or it has kept a dirty entry that does. -/
def Holds (v : Value V) (s : System K V) : Prop :=
  (∃ kept ∈ s.handles, kept.2.id = v.id) ∨ ∃ kept ∈ s.yields, kept.2.value.id = v.id

instance (v : Value V) (s : System K V) : Decidable (s.Holds v) := by
  unfold Holds
  infer_instance

theorem Holds.held (h : s.Holds v) : s.held v.id = true := by
  rcases h with ⟨kept, hmem, hid⟩ | ⟨kept, hmem, hid⟩
  · have hany : s.handles.any (·.2.id == v.id) = true :=
      List.any_eq_true.2 ⟨kept, hmem, beq_iff_eq.2 hid⟩
    simp [System.held, heldBy, hany]
  · have hany : s.yields.any (·.2.value.id == v.id) = true :=
      List.any_eq_true.2 ⟨kept, hmem, beq_iff_eq.2 hid⟩
    simp [System.held, heldBy, hany]

variable [DecidableEq K]

theorem exists_stores (hv : s.valueAt k = some v) (hs : s.cache.table.Sound) :
    ∃ node, s.nodeAt k = some node ∧ node.key = k ∧ s.cache.Stores node v := by
  obtain ⟨node, hget, hpeek⟩ := Option.bind_eq_some_iff.1 hv
  obtain ⟨hnode, hkey⟩ := hs.get?_eq_some_iff.1 hget
  refine ⟨node, hget, hkey, hnode, ?_⟩
  rw [Cache.peek, Cache.valueOf] at hpeek
  cases he : s.cache.entries[node.payload]? with
  | none => simp [he, ValueState.peek] at hpeek
  | some e => exact ⟨e, rfl, ValueState.result?_of_peek (by simpa [he] using hpeek)⟩

end System

/-- What is stored and held can be had. -/
theorem Cache.Stores.valueAt [DecidableEq K] {s : System K V} {node : EntryNode K} {v : Value V}
    (h : s.cache.Stores node v) (hs : s.cache.table.Sound) (hholds : s.Holds v) :
    s.nodeAt node.key = some node ∧ s.valueAt node.key = some v := by
  have hget : s.nodeAt node.key = some node := hs.get?_eq_some_iff.2 ⟨h.present, rfl⟩
  obtain ⟨e, he, hv⟩ := h.entry
  refine ⟨hget, ?_⟩
  rw [System.valueAt, hget, Option.bind_some, Cache.peek, valueOf_eq he]
  exact ValueState.peek_of_result hv hholds.held

namespace System

variable [DecidableEq K] {s : System K V} {node : EntryNode K} {v : Value V}

/-- Idle passes leave a held value where it is, and nothing else concerns it. -/
theorem stores_move (h : s.cache.Stores node v) (hs : s.cache.table.Sound)
    (hpolicy : s.cache.idlePolicy ≠ .remove) (hholds : s.Holds v) {m : Move K V}
    (hm : m.isIdling = true) :
    (s.move m).cache.Stores node v ∧ (s.move m).cache.idlePolicy = s.cache.idlePolicy := by
  cases m with
  | upkeep u =>
    cases u with
    | idleTrim cutoff => exact ⟨h.idleTrim hs hpolicy hholds.held cutoff, rfl⟩
    | evictIdle seconds =>
      refine ⟨h.evictIdle hs hpolicy hholds.held seconds, ?_⟩
      show (s.cache.evictIdle s.held seconds).1.idlePolicy = _
      unfold Cache.evictIdle
      split <;> rfl
    | advanceClock seconds => exact ⟨⟨h.present, h.entry⟩, rfl⟩
    | setClock tick => exact ⟨⟨h.present, h.entry⟩, rfl⟩
    | takeYield name keepAs => exact ⟨h, rfl⟩
    | release name => exact ⟨h, rfl⟩
    | _ => cases hm
  | _ => cases hm

/-- The value is held after every one of the moves, none of which does more than go through idle
    entries. -/
def HeldThroughout (v : Value V) (s : System K V) (ms : List (Move K V)) : Prop :=
  s.Holds v ∧ s.Along (fun t m => m.isIdling = true ∧ (t.move m).Holds v) ms

theorem stores_moveAll (hs : s.Reachable) (h : s.cache.Stores node v)
    (hpolicy : s.cache.idlePolicy ≠ .remove) {ms : List (Move K V)}
    (hheld : s.HeldThroughout v ms) :
    (s.moveAll ms).Reachable ∧ (s.moveAll ms).cache.Stores node v ∧ (s.moveAll ms).Holds v := by
  induction ms generalizing s with
  | nil => exact ⟨hs, h, hheld.1⟩
  | cons m ms ih =>
    obtain ⟨hholds, ⟨hm, hnext⟩, hrest⟩ := hheld
    obtain ⟨hstores, hsame⟩ := stores_move h hs.keyed.table hpolicy hholds hm
    exact ih (hs.move m) hstores (hsame ▸ hpolicy) ⟨hnext, hrest⟩

/-- No entry of the table that was last used before the cutoff keeps a value alive, if it is neither
    pending nor dirty, and neither in the dirty chain nor in an open batch in direct mode. -/
def KeepsNoIdle (cutoff : Nat) (s : System K V) : Prop :=
  ∀ node ∈ s.cache.table.nodes, ∀ e, s.cache.entries[node.payload]? = some e →
    e.lastAccess < cutoff → e.value.isPending = false → e.value.isDirty = false →
      node.payload ∉ s.linked ++ s.dispatched → e.value.kept = none

/-- An idle pass along a sorted list leaves no value alive that it might let go. -/
theorem keepsNoIdle_idleTrim (hs : s.Reachable) (h : s.cache.Stamped) (cutoff : Nat) :
    (s.move (.upkeep (.idleTrim cutoff))).KeepsNoIdle cutoff := by
  intro node hnode e he hidle hpending hdirty hnot
  have ht := hs.move (.upkeep (.idleTrim cutoff))
  have hmember : e.inChain = false := by
    by_contra hin
    rw [Bool.not_eq_false] at hin
    exact hnot (List.mem_append.2 (ht.sound.isMember_iff.1 ⟨e, he, hin⟩))
  have hpass := h.idleTrim hs.filed.complete hs.keyed.distinct hs.keyed.exists_entry s.held cutoff
  obtain ⟨hbefore, hstays⟩ := (hpass.left node).1 hnode
  have hmet := hpass.met node hbefore
  obtain ⟨e₀, he₀⟩ := hs.keyed.exists_entry node hbefore
  rw [he₀] at hmet
  obtain rfl : e = e₀.lapse s.held s.cache.idlePolicy (· < cutoff) :=
    Option.some.inj (he.symm.trans hmet)
  rw [Entry.lapse_lastAccess] at hidle
  have hfate : e₀.idleFate s.held s.cache.idlePolicy ≠ .remove := fun hremove =>
    hstays e₀ he₀ ⟨hidle, hremove⟩
  rw [Entry.lapse_of_idle hidle] at hpending hdirty hmember ⊢
  refine Entry.kept_met ?_ hfate
  rw [← Entry.apply_isProtected e₀ (e₀.idleFate s.held s.cache.idlePolicy)]
  simp [Entry.isProtected, hpending, hdirty, hmember]

end System

/-- Under an idle policy that does not remove entries outright, a value that clients hold throughout
    any number of idle passes keeps its node in the table, and a get returns the same value
    afterwards. If the clock never goes back, no entry that an idle pass leaves in the table keeps a
    value alive, if it was last used before the cutoff, is neither pending nor dirty, and is neither
    in the dirty chain nor in an open batch in direct mode. -/
theorem held_survives_idle [DecidableEq K] (config : Config) (clock : Clock)
    (hashOf : K → UInt64) (ms : List (Move K V)) :
    let s₀ : System K V := System.new config clock hashOf
    let s := s₀.moveAll ms
    (s.cache.idlePolicy ≠ .remove → ∀ k v ms', s.valueAt k = some v → s.HeldThroughout v ms' →
      (s.moveAll ms').nodeAt k = s.nodeAt k ∧ (s.moveAll ms').GetReturns k (some v)) ∧
      (s₀.Along System.Forward ms → ∀ cutoff,
        (s.move (.upkeep (.idleTrim cutoff))).KeepsNoIdle cutoff) := by
  intro s₀ s
  have hs₀ : s₀.Reachable := System.reachable_new config clock hashOf
  have hs := hs₀.moveAll ms
  refine ⟨fun hpolicy k v ms' hv hheld => ?_, fun hclock => ?_⟩
  · obtain ⟨node, hget, rfl, hstores⟩ := System.exists_stores hv hs.keyed.table
    obtain ⟨ht, hstores', hholds⟩ := System.stores_moveAll hs hstores hpolicy hheld
    obtain ⟨hget', hv'⟩ := hstores'.valueAt ht.keyed.table hholds
    exact ⟨hget'.trans hget.symm, hv' ▸ System.start_get node.key _⟩
  · exact System.keepsNoIdle_idleTrim hs
      (hs₀.stamped_moveAll (System.resting_new config clock hashOf)
        (stamped_new config clock hashOf) hclock)

/-- A value that is held by a handle first, by a kept entry then and by another handle at last. -/
theorem held_survives_idle_passedOn :
    let s₀ : System Nat Nat :=
      System.new { idlePolicy := .reachability } (.manual 9) fun _ => 0
    let ms : List (Move Nat Nat) :=
      [.start (.put 1 5), .collect (some "v"), .start (.put 2 6), .collect none, .start (.mark 1),
       .collect none, .upkeep (.drain "b" 9 false), .upkeep (.next "b" (some "y")),
       .upkeep (.finish "b" .commit)]
    let ms' : List (Move Nat Nat) :=
      [.upkeep (.idleTrim 10), .upkeep (.release "v"), .upkeep (.advanceClock 3),
       .upkeep (.evictIdle 1), .upkeep (.takeYield "y" (some "w")), .upkeep (.idleTrim 90)]
    (s₀.moveAll ms).cache.order = [0, 1] ∧ ((s₀.moveAll ms).moveAll ms').cache.order = [0] ∧
      ((s₀.moveAll ms).moveAll ms').cache.valueOf 0 = .detached ⟨0, 5⟩ ∧
      ((s₀.moveAll ms).moveAll ms').nodeAt 1 = (s₀.moveAll ms).nodeAt 1 ∧
      ((s₀.moveAll ms).moveAll ms').GetReturns 1 (some ⟨0, 5⟩) ∧
      ((s₀.moveAll ms).move (.upkeep (.idleTrim 10))).KeepsNoIdle 10 := by
  intro s₀ ms ms'
  obtain ⟨hheld, hidle⟩ := held_survives_idle { idlePolicy := .reachability } (.manual 9)
    (fun _ => 0) ms
  obtain ⟨hnode, hvalue⟩ := hheld (by decide +kernel) 1 ⟨0, 5⟩ ms' (by decide +kernel)
    ⟨by decide +kernel, by decide +kernel⟩
  exact ⟨by decide +kernel, by decide +kernel, by decide +kernel, hnode, hvalue,
    hidle (by decide +kernel) 10⟩

end ReadThrough
