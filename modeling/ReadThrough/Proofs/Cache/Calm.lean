import ReadThrough.Proofs.Cache.Parts
import ReadThrough.Proofs.Table.Tables

/-! # Entries Left Alone

  When an operation leaves an entry as the calls that look at it expect it.

  - **Calm**: an entry keeps its state, except that its changes may be written back if that is
    said, and whether it is removed and what its last load failed with stays the same.
  - **Table.Shrinking**: what holds between a table before and after everything that takes nodes out
    of it holds for the operations of the cache that do so.
  - **Spared**: what evictions keep. Every entry whose node they spare stays what it was.
  - One lemma for each operation: it is calm about the entries whose nodes stay in the table.
-/

namespace ReadThrough

variable {K V : Type}

/-! ## Single entries -/

/-- The entry is as calls expect it that have looked at it before. Its changes may have been written
    back only if it `cleans`. Nothing is said about a value that was let go. -/
structure Entry.Calm (cleans : Bool) (e e' : Entry K V) : Prop where
  key : e'.key = e.key
  epoch : e'.epoch = e.epoch
  removed : e'.removed = e.removed
  failure : e'.failure? = e.failure?
  value : (∀ v, e.value ≠ .detached v) →
    e'.value = e.value ∨ (cleans = true ∧ e'.value = e.value.clean)

namespace Entry

variable {cleans : Bool} {e e' : Entry K V}

theorem Calm.refl (e : Entry K V) : e.Calm cleans e :=
  ⟨rfl, rfl, rfl, rfl, fun _ => .inl rfl⟩

theorem Calm.trans {a b c : Entry K V} (h : a.Calm cleans b) (k : b.Calm cleans c) :
    a.Calm cleans c where
  key := k.key.trans h.key
  epoch := k.epoch.trans h.epoch
  removed := k.removed.trans h.removed
  failure := k.failure.trans h.failure
  value := by
    intro ha
    rcases h.value ha with hb | ⟨hcleans, hb⟩
    · rw [← hb]
      exact k.value (hb ▸ ha)
    · -- What is clean stays so.
      have hkept : ∀ v, b.value ≠ .detached v := by
        intro v hv
        rw [hb] at hv
        exact ValueState.clean_ne_detached ha v hv
      rcases k.value hkept with hc | ⟨-, hc⟩
      · exact .inr ⟨hcleans, hc.trans hb⟩
      · exact .inr ⟨hcleans, by rw [hc, hb, ValueState.clean_clean]⟩

/-- Nothing is promised that does not hold as well if changes may be written back. -/
theorem Calm.mayClean (h : e.Calm cleans e') : e.Calm true e' :=
  ⟨h.key, h.epoch, h.removed, h.failure, fun hv => (h.value hv).imp_right fun ⟨_, hc⟩ => ⟨rfl, hc⟩⟩

theorem Calm.pending (h : e.Calm cleans e') (hv : e.value = .pending) : e'.value = .pending := by
  rcases h.value (by simp [hv]) with hsame | ⟨-, hsame⟩
  · rw [hsame, hv]
  · rw [hsame, hv]
    rfl

theorem Calm.ready (h : e.Calm cleans e') (v : Value V) (hv : e.value = .ready v) :
    e'.value = .ready v := by
  rcases h.value (by simp [hv]) with hsame | ⟨-, hsame⟩
  · rw [hsame, hv]
  · rw [hsame, hv]
    rfl

theorem calm_resolve (held : Held) (e : Entry K V) : e.Calm cleans (e.resolve held) :=
  ⟨rfl, rfl, rfl, rfl, fun h => .inl (ValueState.resolve_eq_self held h)⟩

theorem calm_stamp (now : Nat) (e : Entry K V) : e.Calm cleans (e.stamp now) :=
  ⟨rfl, rfl, rfl, rfl, fun _ => .inl rfl⟩

theorem Relinked.calm (h : e.Relinked e') : e.Calm cleans e' := by
  obtain ⟨n, rfl⟩ := h
  exact ⟨rfl, rfl, rfl, rfl, fun _ => .inl rfl⟩

theorem calm_fate (f : Batch.Fate) (copyOn : Bool) (e : Entry K V) :
    e.Calm true (f.apply copyOn e) := by
  cases f with
  | clean => exact ⟨rfl, rfl, rfl, rfl, fun _ => .inr ⟨rfl, rfl⟩⟩
  | leave => exact .refl e
  | relink => exact ⟨rfl, rfl, rfl, rfl, fun _ => .inl rfl⟩

end Entry

/-! ## One entry among all -/

namespace Entries

/-- The entry of a place is left alone. -/
def CalmAt (cleans : Bool) (id : EntryId) (es es' : Entries K V) : Prop :=
  ∀ e, es[id]? = some e → ∃ e', es'[id]? = some e' ∧ e.Calm cleans e'

variable {cleans : Bool} {es es' es'' : Entries K V} {id j : EntryId}

theorem calmAt_of_same (h : es'[id]? = es[id]?) : CalmAt cleans id es es' :=
  fun e he => ⟨e, h.trans he, .refl e⟩

theorem CalmAt.refl (id : EntryId) (es : Entries K V) : CalmAt cleans id es es :=
  calmAt_of_same rfl

theorem CalmAt.trans (h : CalmAt cleans id es es') (k : CalmAt cleans id es' es'') :
    CalmAt cleans id es es'' := by
  intro e he
  obtain ⟨e', he', hc⟩ := h e he
  obtain ⟨e'', he'', hc'⟩ := k e' he'
  exact ⟨e'', he'', hc.trans hc'⟩

theorem Each.calmAt {R : EntryId → Entry K V → Entry K V → Prop} (h : Each R es es')
    (hR : ∀ e e', R id e e' → e.Calm cleans e') : CalmAt cleans id es es' := by
  intro e he
  obtain ⟨e', he', hr⟩ := h.2 id e he
  exact ⟨e', he', hR e e' hr⟩

theorem calmAt_modify_of_ne {f : Entry K V → Entry K V} (hne : id ≠ j) :
    CalmAt cleans id es (es.modify j f) :=
  calmAt_of_same (by simp [Array.getElem?_modify, hne.symm])

theorem calmAt_modify {f : Entry K V → Entry K V} (hf : ∀ e : Entry K V, e.Calm cleans (f e)) :
    CalmAt cleans id es (es.modify j f) :=
  (each_modify (R := fun _ => Entry.Calm cleans) j f (fun e _ => hf e) fun _ e _ => .refl e).calmAt
    fun _ _ h => h

theorem calmAt_push (x : Entry K V) : CalmAt cleans id es (es.push x) :=
  fun e he => ⟨e, getElem?_push_of_some he, .refl e⟩

end Entries

/-! ## Tables -/

theorem Cache.clear_table (held : Held) (c : Cache K V) :
    (c.clear held).table = c.table.clear.1 := by
  have hfold (nodes : List (EntryNode K)) (c : Cache K V) :
      (nodes.foldl (fun c node => c.modify node.payload (Entry.retire held)) c).table =
        c.table := by
    induction nodes generalizing c with
    | nil => rfl
    | cons node nodes ih => exact ih _
  exact hfold c.table.clear.2 { c with table := c.table.clear.1 }

namespace Table.Shrinking

open Cache

variable {R : Table K EntryId → Table K EntryId → Prop}

theorem cache_trim (hR : Shrinking R) (n : Nat) (c : Cache K V) :
    R c.table (c.trim n).1.table := by
  have htrim := hR.trim lastUseIn evictor n (c.entries, 0) c.table
  unfold Cache.trim
  dsimp only
  split <;> exact htrim

theorem cache_setMaxCapacity (hR : Shrinking R) (n : Nat) (c : Cache K V) :
    R c.table (c.setMaxCapacity n).table := by
  have hlower := hR.setMaxCapacity n c.table
  unfold Cache.setMaxCapacity
  dsimp only
  split
  · exact hlower
  · exact hR.trans hlower (hR.cache_trim _ { c with table := c.table.setMaxCapacity n })

theorem cache_idleTrim (hR : Shrinking R) (held : Held) (cutoff : Nat) (c : Cache K V) :
    R c.table (c.idleTrim held cutoff).1.table :=
  hR.sweep lastUseIn (idler held c.idlePolicy cutoff) (c.entries, 0) c.table

theorem cache_evictIdle (hR : Shrinking R) (held : Held) (seconds : Nat) (c : Cache K V) :
    R c.table (c.evictIdle held seconds).1.table := by
  unfold evictIdle
  split
  · exact hR.refl _
  · exact hR.cache_idleTrim held _ c

theorem cache_relieve (hR : Shrinking R) (level : Pressure) (c : Cache K V) :
    R c.table (c.relieve level).table := by
  have htrim := hR.cache_trim (level.target c.size) c
  unfold relieve
  dsimp only
  split
  · exact hR.trans htrim (hR.pinch _)
  · exact htrim

theorem cache_clear (hR : Shrinking R) (held : Held) (c : Cache K V) :
    R c.table (c.clear held).table := by
  rw [clear_table]
  exact hR.clear _

end Table.Shrinking

namespace Cache

open Table Entries

variable {cleans : Bool} {c : Cache K V} {id : EntryId}

/-! ## Write-back -/

theorem drain_calmAt {ids : List EntryId} (h : DirtyChain.Links c.entries c.chain ids)
    (limit : Nat) (copyOn : Bool) :
    CalmAt cleans id c.entries (c.drain limit copyOn).1.entries := by
  refine (takeDirty_taken copyOn (min limit c.entries.size) h).each.calmAt ?_
  rintro e e' ⟨n, rfl⟩
  exact ⟨rfl, rfl, rfl, rfl, fun _ => .inl rfl⟩

theorem finish_calmAt {b : Batch} (hnodup : b.ids.Nodup) (how : Finish) (es : Entries K V)
    (chain : DirtyChain) : CalmAt true id es (b.finish how es chain).1 := by
  refine (finish_each how b hnodup es chain).calmAt ?_
  rintro e e' ⟨n, d, hd, rfl⟩
  have hrelink : d.Calm true { d with nextDirty? := n } := Entry.Relinked.calm ⟨n, rfl⟩
  rcases hd with ⟨-, rfl⟩ | ⟨i, version, -, rfl⟩
  · exact hrelink
  · exact (Entry.calm_fate _ _ _).trans hrelink

/-! ## Evictions -/

/-- What evictions keep, from the buckets `b₀` and the entries `es₀` on. -/
structure Spared (hashOf : K → UInt64) (b₀ : Buckets K EntryId) (es₀ : Entries K V)
    (b : Buckets K EntryId) (m : Census K V) : Prop where
  sound : b.Sound hashOf
  sub : ∀ n ∈ b.nodes, n ∈ b₀.nodes
  size : m.1.size = es₀.size
  same : ∀ id, (∀ n ∈ b₀.nodes, n.payload = id → n ∈ b.nodes) → m.1[id]? = es₀[id]?

theorem evictor_spared (hashOf : K → UInt64) (b₀ : Buckets K EntryId) (es₀ : Entries K V) :
    evictor.Keeps (Spared hashOf b₀ es₀) where
  spare := by
    intro b m m' node verdict hjudge hne h
    rw [evictor_spare hjudge hne]
    exact h
  evict := by
    intro b m m' slot node hnode hjudge h
    rw [(evictor_evict hjudge).1]
    have hmem : node ∈ b.nodes := Buckets.mem_nodes.2 ⟨slot, hnode⟩
    exact {
      sound := h.sound.removeNode_sound node
      sub := fun n hn => h.sub n (h.sound.of_mem_removeNode node hn)
      size := by simp [markRemoved, h.size]
      same := by
        intro id hstay
        -- The place of the evicted node is another one.
        have hne : node.payload ≠ id := by
          intro heq
          have hleft := hstay node (h.sub node hmem) heq
          exact ((h.sound.mem_removeNode hmem).1 hleft).2 rfl
        rw [markRemoved, Array.getElem?_modify, if_neg hne]
        exact h.same id fun n hn hid => h.sound.of_mem_removeNode node (hstay n hn hid) }

theorem spared_start (h : c.table.Sound) :
    Spared c.table.hashOf c.table.buckets c.entries c.table.buckets (c.entries, 0) :=
  ⟨h, fun _ hn => hn, rfl, fun _ _ => rfl⟩

/-- After evictions the table is in order, and a key that was absent still is. -/
theorem Spared.room [DecidableEq K] {t room : Table K EntryId} {es₀ : Entries K V}
    {m : Census K V} (h : Spared t.hashOf t.buckets es₀ room.buckets m)
    (hhash : room.hashOf = t.hashOf) (hs : t.Sound) {key : K} (hget : t.get? key = none) :
    room.Sound ∧ ∀ n ∈ room.nodes, n.key ≠ key := by
  refine ⟨?_, fun n hn => hs.get?_eq_none_iff.1 hget n (h.sub n hn)⟩
  unfold Table.Sound
  rw [hhash]
  exact h.sound

/-- The entries whose nodes stay in the table. -/
def Stays (id : EntryId) (t t' : Table K EntryId) : Prop :=
  ∀ n ∈ t.nodes, n.payload = id → n ∈ t'.nodes

theorem trim_calmAt (h : c.table.Sound) (n : Nat) (hstay : Stays id c.table (c.trim n).1.table) :
    CalmAt cleans id c.entries (c.trim n).1.entries := by
  have hspared := trim_keeps lastUseIn (evictor_spared _ _ _) n (spared_start h)
  have htrim : (c.trim n).1.table = (c.table.trim lastUseIn evictor n (c.entries, 0)).table ∧
      (c.trim n).1.entries = (c.table.trim lastUseIn evictor n (c.entries, 0)).value.memory.1 := by
    unfold trim
    dsimp only
    split <;> exact ⟨rfl, rfl⟩
  rw [htrim.1] at hstay
  rw [htrim.2]
  exact calmAt_of_same (hspared.same id hstay)

theorem setMaxCapacity_calmAt (h : c.table.Sound) (n : Nat)
    (hstay : Stays id c.table (c.setMaxCapacity n).table) :
    CalmAt cleans id c.entries (c.setMaxCapacity n).entries := by
  unfold setMaxCapacity at hstay ⊢
  dsimp only at hstay ⊢
  split at hstay
  · next heq =>
    rw [if_pos heq]
    exact .refl id c.entries
  · next hne =>
    rw [if_neg hne]
    exact trim_calmAt (c := { c with table := c.table.setMaxCapacity n })
      ((setMaxCapacity_within n c.table).sound h) _ hstay

theorem relieve_calmAt (h : c.table.Sound) (level : Pressure)
    (hstay : Stays id c.table (c.relieve level).table) :
    CalmAt cleans id c.entries (c.relieve level).entries := by
  have htrim := shrinking_within.cache_trim (level.target c.size) c
  have hsound := htrim.sound h
  unfold relieve at hstay ⊢
  dsimp only at hstay ⊢
  split at hstay
  · next heq =>
    rw [if_pos heq]
    refine trim_calmAt h _ fun n hn hid => ?_
    exact (pinch_within _).sub hsound n (hstay n hn hid)
  · next hne =>
    rw [if_neg hne]
    exact trim_calmAt h _ hstay

/-! ## Clearing -/

/-- Clearing retires the entries of the nodes in the table, and no other ones. -/
theorem clear_calmAt (h : c.table.Sound) (held : Held)
    (hstay : Stays id c.table (c.clear held).table) :
    CalmAt cleans id c.entries (c.clear held).entries := by
  have hfold (nodes : List (EntryNode K)) (hnodes : ∀ n ∈ nodes, n.payload ≠ id)
      (c : Cache K V) : CalmAt cleans id c.entries
        (nodes.foldl (fun c node => c.modify node.payload (Entry.retire held)) c).entries := by
    induction nodes generalizing c with
    | nil => exact .refl id _
    | cons node nodes ih =>
      have hfirst :
          CalmAt cleans id c.entries (c.modify node.payload (Entry.retire held)).entries :=
        calmAt_modify_of_ne (hnodes node List.mem_cons_self).symm
      exact hfirst.trans (ih (fun n hn => hnodes n (List.mem_cons_of_mem node hn)) _)
  refine hfold c.table.clear.2 (fun n hn hid => ?_) { c with table := c.table.clear.1 }
  have hleft := hstay n hn hid
  rw [clear_table, h.clear_nodes] at hleft
  cases hleft

end Cache

end ReadThrough
