import ReadThrough.Proofs.Recency.Order

/-! # The Recency List Needs No Repair

  A walk that finds the recency list at odds with the table reports it, and the list is rebuilt.
  As every operation keeps the list complete, it never comes to that.

  - **Event.isDefect**: a report that the list was found at odds with the table, or was rebuilt.
  - **Answer.Sane**: an operation of the table rebuilds nothing and reports nothing of the kind.
  - **Cache.defects**: how often the list was rebuilt, and all such reports so far.
  - **act_defects**: no action adds to them.
  - **Intact**, **never_repaired**: what that means for every reachable system.
-/

namespace ReadThrough

open Cache

/-- Whether an event reports that the recency list was found at odds with the table, or that it was
    rebuilt. -/
def Event.isDefect : Event → Bool
  | .listMismatch .. => true
  | .listRebuilt _ => true
  | _ => false

/-! ## Tables -/

namespace Table

variable {K P σ α β : Type} {t : Table K P}

/-- The operation rebuilds nothing, and reports no defect. -/
structure Answer.Sane (t : Table K P) (r : Answer K P α) : Prop where
  repairs : r.table.repairs = t.repairs
  events : r.events.filter Event.isDefect = []

theorem Answer.Sane.map {r : Answer K P α} (h : r.Sane t) (f : α → β) : (r.map f).Sane t :=
  ⟨h.repairs, h.events⟩

theorem sane_pinch (t : Table K P) : t.pinch.Sane t := by
  unfold Table.pinch
  split
  · exact ⟨rfl, rfl⟩
  · exact ⟨rfl, rfl⟩

theorem remove_repairs [DecidableEq K] (key : K) (t : Table K P) :
    (t.remove key).1.repairs = t.repairs := by
  unfold Table.remove
  split
  · rfl
  · unfold Table.removeNode
    dsimp only
    split <;> rfl

theorem insertNew_sane (key : K) (payload : P) (t : Table K P) :
    (t.insertNew key payload).Sane t := by
  unfold Table.insertNew
  dsimp only
  split
  · exact ⟨rfl, rfl⟩
  · exact ⟨rfl, rfl⟩

namespace Complete

variable (h : t.Complete)

include h

theorem sane_sweep (lastUse : σ → P → Nat) (judge : Judge K P σ) (m : σ) :
    (t.sweep lastUse judge m).Sane t := by
  rw [h.sweep_eq]
  exact ⟨rfl, rfl⟩

theorem sane_trim (lastUse : σ → P → Nat) (judge : Judge K P σ) (count : Nat) (m : σ) :
    (t.trim lastUse judge count m).Sane t := by
  rw [h.trim_eq]
  exact ⟨rfl, rfl⟩

theorem sane_getOrInsert [DecidableEq K] (lastUse : σ → P → Nat) (judge : Judge K P σ) (key : K)
    (payload : P) (m : σ) : (t.getOrInsert lastUse judge key (.ok payload) m).Sane t := by
  have hroom : (t.makeRoom lastUse judge m).Sane t := h.sane_trim lastUse judge _ m
  unfold Table.getOrInsert
  split
  · exact ⟨rfl, rfl⟩
  dsimp only
  split
  · exact ⟨hroom.repairs, hroom.events⟩
  split
  · refine ⟨hroom.repairs, ?_⟩
    rw [List.filter_append, hroom.events]
    rfl
  · have hnew := insertNew_sane key payload (t.makeRoom lastUse judge m).table
    refine ⟨hnew.repairs.trans hroom.repairs, ?_⟩
    dsimp only
    rw [List.filter_append, hroom.events, hnew.events]
    rfl

end Complete

end Table

/-! ## Caches -/

variable {K V : Type}

namespace Cache

/-- How often the list was rebuilt, and the reports of defects so far. -/
def defects (c : Cache K V) : Nat × List Event :=
  (c.table.repairs, c.log.filter Event.isDefect)

variable {c : Cache K V}

theorem consult_defects {α : Type}
    (f : Table K EntryId → Entries K V → Table.Answer K EntryId (α × Entries K V))
    (h : (f c.table c.entries).Sane c.table) : (c.consult f).1.defects = c.defects := by
  show ((f c.table c.entries).table.repairs,
    ((f c.table c.entries).events.reverse ++ c.log).filter Event.isDefect) = c.defects
  rw [h.repairs, List.filter_append, List.filter_reverse, h.events]
  rfl

theorem makeDirty_defects (id : EntryId) (v : Value V) (c : Cache K V) :
    (c.makeDirty id v).defects = c.defects := by
  unfold makeDirty
  dsimp only
  split
  · rfl
  · rfl

theorem pinch_defects (c : Cache K V) : c.pinch.1.defects = c.defects :=
  consult_defects _ ((Table.sane_pinch c.table).map _)

theorem dropBatch_defects (b : Batch) (c : Cache K V) : (c.dropBatch b).defects = c.defects := by
  unfold dropBatch
  split
  · rfl
  · rfl

theorem clear_defects (held : Held) (c : Cache K V) : (c.clear held).defects = c.defects := by
  have hfold (nodes : List (EntryNode K)) (c : Cache K V) :
      (nodes.foldl (fun c node => c.modify node.payload (Entry.retire held)) c).defects =
        c.defects := by
    induction nodes generalizing c with
    | nil => rfl
    | cons node nodes ih => exact ih (c.modify node.payload (Entry.retire held))
  exact hfold c.table.clear.2 { c with table := c.table.clear.1 }

section

variable (h : c.table.Complete)

include h

theorem trim_defects (n : Nat) : (c.trim n).1.defects = c.defects := by
  have hconsult := consult_defects (c := c) (fun table entries =>
    (table.trim lastUseIn evictor n (entries, 0)).map fun r =>
      ((r.removed.length, r.memory.2), r.memory.1))
    ((h.sane_trim lastUseIn evictor n (c.entries, 0)).map _)
  unfold trim
  dsimp only
  split
  · exact hconsult
  · exact hconsult

theorem setMaxCapacity_defects (n : Nat) : (c.setMaxCapacity n).defects = c.defects := by
  unfold setMaxCapacity
  dsimp only
  split
  · rfl
  · -- The new capacity leaves the list as it is, so the trim finds it complete.
    exact trim_defects (c := { c with table := c.table.setMaxCapacity n })
      (h.sheds_setMaxCapacity n).complete _

theorem idleTrim_defects (held : Held) (cutoff : Nat) :
    (c.idleTrim held cutoff).1.defects = c.defects :=
  consult_defects (c := c) (fun table entries =>
    (table.sweep lastUseIn (idler held c.idlePolicy cutoff) (entries, 0)).map fun r =>
      ((r.removed.length, r.memory.2), r.memory.1))
    ((h.sane_sweep lastUseIn (idler held c.idlePolicy cutoff) (c.entries, 0)).map _)

theorem evictIdle_defects (held : Held) (seconds : Nat) :
    (c.evictIdle held seconds).1.defects = c.defects := by
  unfold evictIdle
  split
  · rfl
  · exact idleTrim_defects h held _

theorem relieve_defects (level : Pressure) : (c.relieve level).defects = c.defects := by
  have htrim := trim_defects h (level.target c.size)
  unfold relieve
  dsimp only
  split
  · exact (pinch_defects _).trans htrim
  · exact htrim

end

end Cache

/-! ## Calls -/

namespace Call

variable {c : Cache K V} {call : Call K V}

theorem lookup_defects [DecidableEq K] (r : Request K V) (c : Cache K V) :
    (lookup r c).1.defects = c.defects := by
  unfold lookup
  split
  · next key =>
    have hremove := Table.remove_repairs key c.table
    split
    · rfl
    · next table node heq =>
      rw [heq] at hremove
      exact Prod.ext hremove rfl
  · split
    · rfl
    · split <;> rfl

theorem insert_defects [DecidableEq K] (h : c.table.Complete) (call : Call K V) (now : Nat) :
    (call.insert now c).1.defects = c.defects := by
  have hconsult := consult_defects (c := c) (fun table entries =>
    (table.getOrInsert lastUseIn evictor call.request.key (.ok entries.size) (entries, 0)).map
      fun r => ((r.1, r.2.2), r.2.1))
    ((h.sane_getOrInsert lastUseIn evictor call.request.key c.entries.size (c.entries, 0)).map _)
  -- Whatever becomes of the call then, only making room has looked at the list.
  unfold insert startLoader
  dsimp only
  split
  · split <;> exact hconsult
  · split <;> exact hconsult
  · split <;> exact hconsult
  · exact hconsult

theorem park_defects (call : Call K V) (node : EntryNode K) (e : Entry K V) (c : Cache K V) :
    (park call node e c).1.defects = c.defects := by
  unfold park
  split <;> rfl

theorem inspect_defects (held : Held) (call : Call K V) (node : EntryNode K) (now : Nat)
    (c : Cache K V) : (inspect held call node now c).1.defects = c.defects := by
  unfold inspect
  split
  · rfl
  next e he =>
  split
  · -- A get.
    unfold inspectGet
    dsimp only
    split <;> rfl
  · -- A load, which may wait or start its loader.
    unfold inspectLoad
    dsimp only
    split
    · rfl
    split
    · rfl
    · exact park_defects _ _ _ _
    · split <;> rfl
  · -- An update.
    unfold inspectUpdate
    split
    · rfl
    split
    · exact park_defects _ _ _ _
    · rfl
  · -- A put.
    unfold inspectPut
    split
    · rfl
    split
    · exact park_defects _ _ _ _
    · dsimp only
      split <;> rfl
  · -- A mark.
    unfold inspectMark
    dsimp only
    split
    · rfl
    · exact makeDirty_defects _ _ _
  · rfl

theorem advance_defects [DecidableEq K] (h : c.table.Complete) (held : Held) (call : Call K V) :
    (call.advance held c).1.defects = c.defects := by
  unfold advance
  dsimp only
  cases call.stage with
  | lookup => exact lookup_defects call.request c
  | inspect node now => exact inspect_defects held call node now c
  | insert now => exact insert_defects h call now
  | giveBack error? => cases error? <;> rfl
  | parked node epoch => exact congrArg Cache.defects (wake_cache call node epoch c)
  | release node now outcome => cases outcome <;> rfl
  | _ => rfl

theorem resume_defects (r : Return V) (c : Cache K V) (call : Call K V) :
    (call.resume r c).1.defects = c.defects := by
  unfold resume
  split
  · dsimp only
    split
    · cases r <;> rfl
    · cases r with
      | value content => exact makeDirty_defects _ _ _
      | _ => rfl
  · rfl

theorem expire_defects (c : Cache K V) (call : Call K V) :
    (call.expire c).1.defects = c.defects := by
  unfold expire
  split
  · next node epoch hstage =>
    have hwake := wake_cache call node epoch c
    dsimp only
    split
    · next c' m n heq =>
      rw [heq] at hwake
      have hsame : c'.defects = c.defects := congrArg Cache.defects hwake
      exact hsame
    · exact congrArg Cache.defects hwake
  · rfl

end Call

/-! ## Systems -/

namespace System

variable {s : System K V}

theorem keepUp_defects (h : s.cache.table.Complete) (u : Upkeep) :
    (s.keepUp u).cache.defects = s.cache.defects := by
  cases u with
  | clear => exact clear_defects _ _
  | trim n => exact trim_defects h n
  | setMaxCapacity n => exact setMaxCapacity_defects h n
  | idleTrim cutoff => exact idleTrim_defects h _ _
  | evictIdle seconds => exact evictIdle_defects h _ _
  | relieve level => exact relieve_defects h level
  | pinch => exact pinch_defects _
  -- What is about batches does not walk along the recency list.
  | drain name limit copyOn =>
    rw [keepUp, drain_eq]
    dsimp only
    split
    · exact dropBatch_defects _ (s.cache.drain limit copyOn).1
    · rfl
  | next name keepAs =>
    unfold keepUp next
    dsimp only
    split <;> rfl
  | finish name how =>
    unfold keepUp finish
    dsimp only
    split <;> rfl
  | dropBatch name =>
    unfold keepUp dropBatch
    dsimp only
    split
    · rfl
    · exact dropBatch_defects _ _
  | beginItem entries =>
    unfold keepUp beginItem
    dsimp only
    split <;> rfl
  | _ => rfl

variable [DecidableEq K]

/-- No action rebuilds the list or reports a defect, as long as the list is complete. -/
theorem act_defects (h : s.cache.table.Complete) (a : Action K V) :
    (s.act a).cache.defects = s.cache.defects := by
  cases a with
  | spawn r => cases r <;> rfl
  | advance i =>
    exact withCall_cases (P := fun t => t.cache.defects = s.cache.defects) (fun _ => rfl)
      fun call _ => Call.advance_defects h s.held call
  | resume r i =>
    exact withCall_cases (P := fun t => t.cache.defects = s.cache.defects) (fun _ => rfl)
      fun call _ => Call.resume_defects r s.cache call
  | expire i =>
    exact withCall_cases (P := fun t => t.cache.defects = s.cache.defects) (fun _ => rfl)
      fun call _ => Call.expire_defects s.cache call
  | collect i keepAs =>
    unfold act collect
    dsimp only
    split <;> rfl
  | upkeep u => exact keepUp_defects h u

theorem actAll_defects (hs : s.Reachable) (as : List (Action K V)) :
    (s.actAll as).cache.defects = s.cache.defects := by
  induction as generalizing s with
  | nil => rfl
  | cons a as ih => exact (ih (hs.actAll [a])).trans (act_defects hs.filed.complete a)

omit [DecidableEq K] in
/-- The recency list of the cache is in order, and it has always been. -/
structure Intact (s : System K V) : Prop where
  /-- The list links exactly the nodes of the table, each of them once. -/
  nodes : s.cache.table.byRecency.Perm s.cache.table.nodes
  distinct : s.cache.table.byRecency.Nodup
  /-- It has no other links, in either direction. -/
  forward : s.cache.table.recency.toList = s.cache.table.byRecency.map Table.Node.slot
  backward : s.cache.table.recency.toListReverse =
    (s.cache.table.byRecency.map Table.Node.slot).reverse
  links : ∀ node ∈ s.cache.table.nodes, s.cache.table.isLinked node = true
  /-- Whoever walks along it from now on, and whatever is removed on the way, finds it consistent. -/
  walks : ∀ (σ : Type) (judge : Table.Judge K EntryId σ) (quota : Option Nat) (m : σ),
    (s.cache.table.walk judge quota m).consistent = true
  /-- Nobody has found it otherwise, and it was never rebuilt. -/
  reports : ∀ event ∈ s.cache.log, event.isDefect = false
  repairs : s.cache.stats.listRepairs = 0

end System

/-! ## No repairs -/

/-- In every run, of any number of callers, with callbacks that call the cache back, fail or panic,
    the recency list is in order at all times, so that it is never rebuilt. -/
theorem never_repaired [DecidableEq K] {s : System K V} (hs : s.Reachable) : s.Intact := by
  have hcomplete := hs.filed.complete
  have hdefects : s.cache.defects = (0, []) := by
    obtain ⟨config, clock, hashOf, as, rfl⟩ := hs
    exact System.actAll_defects ⟨config, clock, hashOf, [], rfl⟩ as
  exact {
    nodes := hcomplete.perm
    distinct := hcomplete.nodup
    forward := hcomplete.toList_eq
    backward := by
      rw [← hcomplete.toList_eq]
      exact hcomplete.ordered.linked.toListReverse_eq
    links := fun node hn => hcomplete.isLinked (hcomplete.mem_byRecency.2 hn)
    walks := fun σ judge quota m => (hcomplete.walk judge quota m).consistent
    reports := by
      intro event hmem
      by_contra hdefect
      have hin : event ∈ s.cache.log.filter Event.isDefect :=
        List.mem_filter.2 ⟨hmem, by simpa using hdefect⟩
      rw [show s.cache.log.filter Event.isDefect = [] from congrArg Prod.snd hdefects] at hin
      cases hin
    repairs := congrArg Prod.fst hdefects }

/-- A full table that evicts while a loader runs which forgets its own key and panics, a key that is
    inserted anew, an idle pass, and a request for memory. -/
theorem never_repaired_pressed :
    let s : System Nat Nat := System.new { maxCapacity := 2 } (.manual 0) fun _ => 0
    let as : List (Action Nat Nat) :=
      [.spawn (.put 1 5), .advance 0, .advance 0, .spawn (.put 2 6), .advance 1, .advance 1,
       .spawn (.load 3 0 false), .advance 2, .advance 2, .advance 2, .spawn (.invalidate 3),
       .advance 3, .advance 3, .spawn (.put 3 7), .advance 4, .advance 4, .resume (.panic "no") 2,
       .advance 2, .upkeep (.advanceClock 9), .upkeep (.evictIdle 5), .spawn (.put 4 8),
       .advance 5, .advance 5, .upkeep (.relieve .critical)]
    (s.actAll as).cache.stats.evictions = 4 ∧ (s.actAll as).Intact := by
  intro s as
  exact ⟨by decide +kernel, never_repaired ⟨_, _, _, as, rfl⟩⟩

end ReadThrough
