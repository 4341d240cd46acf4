import ReadThrough.Cache.Call
import ReadThrough.Proofs.WriteBack.Ledger
import ReadThrough.Proofs.Table.Walks

/-! # The Parts of a Cache

  Which parts of a cache an operation changes, and how.

  - **evictor**, **idler**: what the judges of evictions and idle passes do to the entries.
  - **Lenient**: the relations between an entry before and after that trims, idle passes, pressure
    and clearing respect. One of them is that no callback starts or ends, and no change is made or
    written back.
-/

namespace ReadThrough.Cache

open Table

variable {K V : Type}

/-! ## Single entries -/

@[simp] theorem modify_entries (id : EntryId) (f : Entry K V → Entry K V) (c : Cache K V) :
    (c.modify id f).entries = c.entries.modify id f := rfl

theorem valueOf_eq {c : Cache K V} {id : EntryId} {e : Entry K V} (he : c.entries[id]? = some e) :
    c.valueOf id = e.value := by
  simp [valueOf, he]

theorem exists_of_valueOf_dirty {c : Cache K V} {id : EntryId} {v : Value V}
    (h : c.valueOf id = .dirty v) : ∃ e, c.entries[id]? = some e ∧ e.value = .dirty v := by
  cases he : c.entries[id]? with
  | none => simp [valueOf, he] at h
  | some e => exact ⟨e, rfl, (valueOf_eq he).symm.trans h⟩

/-! ## Quiet operations -/

/-- Nothing starts, ends, changes or is written back, and the chain stays. -/
structure Quiet (c c' : Cache K V) : Prop where
  entries : c.entries.Quiet c'.entries
  chain : c'.chain = c.chain

theorem Quiet.refl (c : Cache K V) : c.Quiet c := ⟨.refl _, rfl⟩

theorem Quiet.trans {a b c : Cache K V} (h : a.Quiet b) (k : b.Quiet c) : a.Quiet c :=
  ⟨h.entries.trans k.entries, k.chain.trans h.chain⟩

theorem quiet_modify (id : EntryId) {f : Entry K V → Entry K V} (h : ∀ e : Entry K V, e.Quiet (f e))
    (c : Cache K V) : c.Quiet (c.modify id f) :=
  ⟨Entries.quiet_modify id f fun e _ => h e, rfl⟩

theorem evictor_spare {node : EntryNode K} {m m' : Census K V} {verdict : Verdict}
    (h : evictor node m = (verdict, m')) (hne : verdict ≠ .evict) : m' = m := by
  obtain ⟨es, n⟩ := m
  unfold evictor at h
  dsimp only at h
  split at h
  · exact (Prod.mk.inj h).2.symm
  · exact absurd (Prod.mk.inj h).1.symm hne

theorem evictor_steady : (evictor : Judge K EntryId (Census K V)).Steady := by
  rintro node ⟨es, n⟩ m' reason h
  unfold evictor at h
  dsimp only at h
  split at h
  · cases (Prod.mk.inj h).1
  · cases (Prod.mk.inj h).1

/-- Only entries that are neither pending nor dirty nor members of the chain are evicted. -/
theorem evictor_evict {node : EntryNode K} {m m' : Census K V}
    (h : evictor node m = (.evict, m')) :
    m' = (markRemoved m.1 node.payload, m.2 + 1) ∧
      ∃ e, m.1[node.payload]? = some e ∧ e.isProtected = false := by
  obtain ⟨es, n⟩ := m
  unfold evictor at h
  dsimp only at h
  split at h
  · cases (Prod.mk.inj h).1
  · next hall =>
    refine ⟨(Prod.mk.inj h).2.symm, ?_⟩
    cases he : es[node.payload]? with
    | none => simp [he] at hall
    | some e => exact ⟨e, rfl, by simpa [he] using hall⟩

theorem idler_spare {held : Held} {policy : IdlePolicy} {cutoff : Nat} {node : EntryNode K}
    {m m' : Census K V} {verdict : Verdict} (h : idler held policy cutoff node m = (verdict, m'))
    (hne : verdict ≠ .evict) : m'.1 = m.1 ∨
      m'.1 = m.1.modify node.payload fun e => { e with value := e.value.detach } := by
  obtain ⟨es, n⟩ := m
  unfold idler at h
  dsimp only at h
  split at h
  · exact .inl (congrArg Prod.fst (Prod.mk.inj h).2.symm)
  split at h
  · exact .inl (congrArg Prod.fst (Prod.mk.inj h).2.symm)
  · exact .inr (congrArg Prod.fst (Prod.mk.inj h).2.symm)
  · exact absurd (Prod.mk.inj h).1.symm hne

theorem idler_evict {held : Held} {policy : IdlePolicy} {cutoff : Nat} {node : EntryNode K}
    {m m' : Census K V} (h : idler held policy cutoff node m = (.evict, m')) :
    m'.1 = markRemoved m.1 node.payload := by
  obtain ⟨es, n⟩ := m
  unfold idler at h
  dsimp only at h
  split at h
  · cases (Prod.mk.inj h).1
  split at h
  · cases (Prod.mk.inj h).1
  · cases (Prod.mk.inj h).1
  · exact congrArg Prod.fst (Prod.mk.inj h).2.symm

/-! ### Evictions, idle passes and removals by name -/

/-- A relation between an entry before and after that allows for whatever evictions, idle passes
    and removals by name do to the entry. -/
structure Lenient (R : Entry K V → Entry K V → Prop) : Prop where
  refl : ∀ e, R e e
  trans : ∀ {a b c}, R a b → R b c → R a c
  removed : ∀ e, R e { e with removed := true }
  detach : ∀ e, R e { e with value := e.value.detach }
  retire : ∀ held e, R e (e.retire held)

/-- Every entry is related to itself before, and the chain stays. -/
structure Respects (R : Entry K V → Entry K V → Prop) (c c' : Cache K V) : Prop where
  entries : Entries.Each (fun _ => R) c.entries c'.entries
  chain : c'.chain = c.chain

/-- What a walk remembers respects a relation to the entries `es`. -/
def RespectedSince (R : Entry K V → Entry K V → Prop) (es : Entries K V)
    (_ : Buckets K EntryId) (m : Census K V) : Prop :=
  Entries.Each (fun _ => R) es m.1

namespace Lenient

variable {R : Entry K V → Entry K V → Prop}

theorem each_refl (hR : Lenient R) (es : Entries K V) : Entries.Each (fun _ => R) es es :=
  .refl (fun _ => hR.refl) es

theorem each_modify (hR : Lenient R) {es es' : Entries K V} (h : Entries.Each (fun _ => R) es es')
    (id : EntryId) {f : Entry K V → Entry K V} (hf : ∀ e, R e (f e)) :
    Entries.Each (fun _ => R) es (es'.modify id f) :=
  h.comp (Entries.each_modify id f (fun e _ => hf e) fun _ e _ => hR.refl e)
    fun _ _ _ _ => hR.trans

theorem evictor (hR : Lenient R) (es : Entries K V) :
    (evictor : Judge K EntryId (Census K V)).Keeps (RespectedSince R es) where
  spare := by
    intro b m m' node verdict hjudge hne h
    rw [evictor_spare hjudge hne]
    exact h
  evict := by
    intro b m m' slot node hnode hjudge h
    rw [(evictor_evict hjudge).1]
    exact hR.each_modify h node.payload hR.removed

theorem idler (hR : Lenient R) (held : Held) (policy : IdlePolicy) (cutoff : Nat)
    (es : Entries K V) :
    (idler held policy cutoff : Judge K EntryId (Census K V)).Keeps (RespectedSince R es) where
  spare := by
    intro b m m' node verdict hjudge hne h
    unfold RespectedSince
    rcases idler_spare hjudge hne with hm | hm
    · rw [hm]
      exact h
    · rw [hm]
      exact hR.each_modify h node.payload hR.detach
  evict := by
    intro b m m' slot node hnode hjudge h
    unfold RespectedSince
    rw [idler_evict hjudge]
    exact hR.each_modify h node.payload hR.removed

theorem trim (hR : Lenient R) (n : Nat) (c : Cache K V) : Respects R c (c.trim n).1 := by
  have hentries : Entries.Each (fun _ => R) c.entries
      (c.table.trim lastUseIn Cache.evictor n (c.entries, 0)).value.memory.1 :=
    trim_keeps lastUseIn (hR.evictor c.entries) n (hR.each_refl c.entries)
  unfold Cache.trim
  dsimp only
  split
  · exact ⟨hentries, rfl⟩
  · exact ⟨hentries, rfl⟩

theorem setMaxCapacity (hR : Lenient R) (n : Nat) (c : Cache K V) :
    Respects R c (c.setMaxCapacity n) := by
  unfold Cache.setMaxCapacity
  dsimp only
  split
  · exact ⟨hR.each_refl c.entries, rfl⟩
  · let lowered : Cache K V := { c with table := c.table.setMaxCapacity n }
    have htrim := hR.trim (lowered.table.size - lowered.table.maxCapacity) lowered
    exact ⟨htrim.entries, htrim.chain⟩

theorem idleTrim (hR : Lenient R) (held : Held) (cutoff : Nat) (c : Cache K V) :
    Respects R c (c.idleTrim held cutoff).1 := by
  have hentries : Entries.Each (fun _ => R) c.entries (c.table.sweep lastUseIn
      (Cache.idler held c.idlePolicy cutoff) (c.entries, 0)).value.memory.1 :=
    sweep_keeps lastUseIn (hR.idler held c.idlePolicy cutoff c.entries) (hR.each_refl c.entries)
  exact ⟨hentries, rfl⟩

theorem evictIdle (hR : Lenient R) (held : Held) (seconds : Nat) (c : Cache K V) :
    Respects R c (c.evictIdle held seconds).1 := by
  unfold Cache.evictIdle
  split
  · exact ⟨hR.each_refl c.entries, rfl⟩
  · exact hR.idleTrim held _ c

theorem pinch (hR : Lenient R) (c : Cache K V) : Respects R c c.pinch.1 :=
  ⟨hR.each_refl c.entries, rfl⟩

theorem relieve (hR : Lenient R) (level : Pressure) (c : Cache K V) :
    Respects R c (c.relieve level) := by
  have htrim := hR.trim (level.target c.size) c
  unfold Cache.relieve
  dsimp only
  split
  · exact ⟨htrim.entries, htrim.chain⟩
  · exact ⟨htrim.entries, htrim.chain⟩

theorem clear (hR : Lenient R) (held : Held) (c : Cache K V) : Respects R c (c.clear held) := by
  have hfold (nodes : List (EntryNode K)) (c : Cache K V) : Respects R c
      (nodes.foldl (fun c node => c.modify node.payload (Entry.retire held)) c) := by
    induction nodes generalizing c with
    | nil => exact ⟨hR.each_refl c.entries, rfl⟩
    | cons node nodes ih =>
      have hone := hR.each_modify (hR.each_refl c.entries) node.payload (hR.retire held)
      obtain ⟨hentries, hchain⟩ := ih (c.modify node.payload (Entry.retire held))
      exact ⟨hone.comp hentries fun _ _ _ _ => hR.trans, hchain⟩
  have h := hfold c.table.clear.2 { c with table := c.table.clear.1 }
  exact ⟨h.entries, h.chain⟩

end Lenient

theorem lenient_quiet : Lenient (Entry.Quiet : Entry K V → Entry K V → Prop) where
  refl := Entry.Quiet.refl
  trans := Entry.Quiet.trans
  removed := Entry.quiet_removed
  detach := Entry.quiet_detach
  retire := Entry.quiet_retire

/-! ## Marking and write-back -/

theorem makeDirty_entries (id : EntryId) (v : Value V) (c : Cache K V) :
    (c.makeDirty id v).entries = (c.chain.enlist id v c.entries).1 := by
  unfold makeDirty DirtyChain.enlist
  dsimp only
  split <;> rfl

theorem makeDirty_chain (id : EntryId) (v : Value V) (c : Cache K V) :
    (c.makeDirty id v).chain = (c.chain.enlist id v c.entries).2 := by
  unfold makeDirty DirtyChain.enlist
  dsimp only
  split <;> rfl

end ReadThrough.Cache
