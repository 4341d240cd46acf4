import ReadThrough.Cache.DirtyChain

/-! # What Becomes of Entries

  How the entries after an operation compare with those before it.

  - **Each**: a relation between every entry before and the same entry after; nothing is added.
  - **SameMarks**: key, epoch, version and membership of the dirty chain stay.
  - **Quiet**: beyond that, no operation starts or ends and no change is made or written back.
  - **Relinked**: only the successor in the dirty chain may differ.
-/

namespace ReadThrough

variable {K V : Type}

/-! ## Values -/

namespace ValueState

@[simp] theorem resolve_eq_pending (held : Held) (s : ValueState V) :
    s.resolve held = .pending ↔ s = .pending := by
  cases s with
  | detached v => by_cases h : held v.id <;> simp [resolve, h]
  | _ => simp [resolve]

@[simp] theorem resolve_eq_dirty (held : Held) (s : ValueState V) (v : Value V) :
    s.resolve held = .dirty v ↔ s = .dirty v := by
  cases s with
  | detached w => by_cases h : held w.id <;> simp [resolve, h]
  | _ => simp [resolve]

theorem isPending_iff (s : ValueState V) : s.isPending = true ↔ s = .pending := by
  cases s <;> simp [isPending]

theorem isDirty_iff (s : ValueState V) : s.isDirty = true ↔ ∃ v, s = .dirty v := by
  cases s <;> simp [isDirty]

theorem resolve_eq_self (held : Held) {s : ValueState V} (h : ∀ v, s ≠ .detached v) :
    s.resolve held = s := by
  cases s with
  | detached v => exact absurd rfl (h v)
  | _ => rfl

@[simp] theorem clean_clean (s : ValueState V) : s.clean.clean = s.clean := by
  cases s <;> rfl

theorem clean_ne_detached {s : ValueState V} (h : ∀ v, s ≠ .detached v) (v : Value V) :
    s.clean ≠ .detached v := by
  cases s with
  | detached w => exact absurd rfl (h w)
  | _ => simp [clean]

/-- A value that can be had is not one that is being made. -/
theorem ne_pending_of_peek {held : Held} {s : ValueState V} {v : Value V}
    (h : s.peek held = some v) : s ≠ .pending := by
  intro hs
  simp [hs, peek] at h

end ValueState

/-! ## Single entries -/

namespace Entry

/-- The marks of the entry stay. -/
structure SameMarks (e e' : Entry K V) : Prop where
  key : e'.key = e.key
  epoch : e'.epoch = e.epoch
  inChain : e'.inChain = e.inChain
  version : e'.version = e.version
  next : e'.nextDirty? = e.nextDirty?

/-- No operation on the entry starts or ends, and its value neither becomes dirty nor clean. -/
structure Quiet (e e' : Entry K V) : Prop extends SameMarks e e' where
  pending : e'.value = .pending ↔ e.value = .pending
  dirty : ∀ v, e'.value = .dirty v ↔ e.value = .dirty v

/-- Only the successor in the dirty chain may differ. -/
def Relinked (e e' : Entry K V) : Prop :=
  ∃ next?, e' = { e with nextDirty? := next? }

theorem SameMarks.refl (e : Entry K V) : e.SameMarks e := ⟨rfl, rfl, rfl, rfl, rfl⟩

theorem SameMarks.trans {a b c : Entry K V} (h : a.SameMarks b) (k : b.SameMarks c) :
    a.SameMarks c :=
  ⟨k.key.trans h.key, k.epoch.trans h.epoch, k.inChain.trans h.inChain,
    k.version.trans h.version, k.next.trans h.next⟩

theorem Quiet.refl (e : Entry K V) : e.Quiet e := ⟨.refl e, Iff.rfl, fun _ => Iff.rfl⟩

theorem Quiet.trans {a b c : Entry K V} (h : a.Quiet b) (k : b.Quiet c) : a.Quiet c :=
  ⟨h.toSameMarks.trans k.toSameMarks, k.pending.trans h.pending,
    fun v => (k.dirty v).trans (h.dirty v)⟩

theorem Relinked.refl (e : Entry K V) : e.Relinked e := ⟨e.nextDirty?, rfl⟩

theorem Relinked.trans {a b c : Entry K V} (h : a.Relinked b) (k : b.Relinked c) :
    a.Relinked c := by
  obtain ⟨_, rfl⟩ := h
  obtain ⟨n, rfl⟩ := k
  exact ⟨n, rfl⟩

/-! ### Quiet operations -/

theorem quiet_resolve (held : Held) (e : Entry K V) : e.Quiet (e.resolve held) :=
  ⟨⟨rfl, rfl, rfl, rfl, rfl⟩, by simp [resolve], by simp [resolve]⟩

theorem quiet_stamp (now : Nat) (e : Entry K V) : e.Quiet (e.stamp now) :=
  ⟨⟨rfl, rfl, rfl, rfl, rfl⟩, Iff.rfl, fun _ => Iff.rfl⟩

theorem quiet_removed (e : Entry K V) : e.Quiet { e with removed := true } :=
  ⟨⟨rfl, rfl, rfl, rfl, rfl⟩, Iff.rfl, fun _ => Iff.rfl⟩

theorem quiet_detach (e : Entry K V) : e.Quiet { e with value := e.value.detach } := by
  refine ⟨⟨rfl, rfl, rfl, rfl, rfl⟩, ?_, fun v => ?_⟩ <;>
    cases h : e.value <;> simp [ValueState.detach]

/-- A value is put in place of none without an update. -/
theorem quiet_install {e : Entry K V} (v : Value V) (now : Nat) (hp : e.value ≠ .pending)
    (hd : ∀ w, e.value ≠ .dirty w) : e.Quiet (e.install (.ready v) now) :=
  ⟨⟨rfl, rfl, rfl, rfl, rfl⟩, by simp [install, hp], by simp [install, hd]⟩

/-! ### The end of an operation -/

theorem sameMarks_install (value : ValueState V) (now : Nat) (e : Entry K V) :
    e.SameMarks (e.install value now) :=
  ⟨rfl, rfl, rfl, rfl, rfl⟩

theorem sameMarks_fail (epoch : Nat) (error : CacheError) (e : Entry K V) :
    e.SameMarks (e.fail epoch error) :=
  ⟨rfl, rfl, rfl, rfl, rfl⟩

theorem sameMarks_restore (epoch : Nat) (prior : ValueState V) (e : Entry K V) :
    e.SameMarks (e.restore epoch prior) := by
  unfold restore
  split
  · exact ⟨rfl, rfl, rfl, rfl, rfl⟩
  · exact .refl e

/-- An operation that is still in flight gives the state before back. -/
theorem restore_value {e : Entry K V} (prior : ValueState V) (hval : e.value = .pending) :
    (e.restore e.epoch prior).value = prior := by
  have hpend : e.isPendingAt e.epoch = true := by
    simp [isPendingAt, hval, ValueState.isPending]
  rw [restore, if_pos hpend]

/-! ### Removal by name -/

/-- What is pending or dirty survives its removal by name. -/
theorem quiet_retire (held : Held) (e : Entry K V) : e.Quiet (e.retire held) := by
  have hr : e.Quiet { e.resolve held with removed := true } :=
    (quiet_resolve held e).trans (quiet_removed _)
  unfold retire
  by_cases hprot : ({ e.resolve held with removed := true } : Entry K V).isProtected
  · rw [if_pos hprot]
    exact hr
  · rw [if_neg hprot]
    -- An unprotected entry is neither pending nor dirty, so dropping its value is no loss.
    simp only [isProtected, Bool.or_eq_true, not_or, ValueState.isPending_iff,
      ValueState.isDirty_iff, not_exists] at hprot
    have hpend : e.value ≠ .pending := fun h => hprot.1.1 (hr.pending.2 h)
    have hdirt : ∀ v, e.value ≠ .dirty v := fun v h => hprot.1.2 v ((hr.dirty v).2 h)
    exact ⟨⟨rfl, rfl, rfl, rfl, rfl⟩, by simp [hpend], by simp [hdirt]⟩

end Entry

/-! ## All entries -/

namespace Entries

/-- Every entry before is related to the same entry after, and nothing is added. -/
def Each (R : EntryId → Entry K V → Entry K V → Prop) (es es' : Entries K V) : Prop :=
  es'.size = es.size ∧ ∀ id e, es[id]? = some e → ∃ e', es'[id]? = some e' ∧ R id e e'

/-- Nothing that starts, ends, changes or writes back. -/
abbrev Quiet (es es' : Entries K V) : Prop :=
  Each (fun _ => Entry.Quiet) es es'

variable {R S : EntryId → Entry K V → Entry K V → Prop} {es es' es'' : Entries K V}

theorem Each.backward (h : Each R es es') {id : EntryId} {e' : Entry K V}
    (he : es'[id]? = some e') : ∃ e, es[id]? = some e ∧ R id e e' := by
  have hlt : id < es.size := by
    rw [← h.1]
    exact (Array.getElem?_eq_some_iff.1 he).1
  have hsome : es[id]? = some es[id] := Array.getElem?_eq_getElem hlt
  obtain ⟨e'', he'', hR⟩ := h.2 id _ hsome
  rw [he] at he''
  obtain rfl := Option.some.inj he''
  exact ⟨_, hsome, hR⟩

theorem Each.imp (h : Each R es es') (hRS : ∀ id e e', R id e e' → S id e e') :
    Each S es es' := by
  refine ⟨h.1, fun id e he => ?_⟩
  obtain ⟨e', he', hR⟩ := h.2 id e he
  exact ⟨e', he', hRS id e e' hR⟩

theorem Each.refl (hR : ∀ id e, R id e e) (es : Entries K V) : Each R es es :=
  ⟨rfl, fun id e he => ⟨e, he, hR id e⟩⟩

theorem Each.comp {T : EntryId → Entry K V → Entry K V → Prop} (h : Each R es es')
    (k : Each S es' es'') (hT : ∀ id a b c, R id a b → S id b c → T id a c) :
    Each T es es'' := by
  refine ⟨k.1.trans h.1, fun id e he => ?_⟩
  obtain ⟨e', he', hR⟩ := h.2 id e he
  obtain ⟨e'', he'', hS⟩ := k.2 id e' he'
  exact ⟨e'', he'', hT id e e' e'' hR hS⟩

/-- Changing one entry. The others have to be related to themselves. -/
theorem each_modify (id : EntryId) (f : Entry K V → Entry K V)
    (hid : ∀ e, es[id]? = some e → R id e (f e)) (hrest : ∀ j e, j ≠ id → R j e e) :
    Each R es (es.modify id f) := by
  refine ⟨Array.size_modify, fun j e he => ?_⟩
  rw [Array.getElem?_modify]
  by_cases hj : id = j
  · subst hj
    exact ⟨f e, by simp [he], hid e he⟩
  · exact ⟨e, by simp [hj, he], hrest j e (Ne.symm hj)⟩

theorem Quiet.refl (es : Entries K V) : es.Quiet es :=
  Each.refl (fun _ e => Entry.Quiet.refl e) es

theorem Quiet.trans (h : es.Quiet es') (k : es'.Quiet es'') : es.Quiet es'' :=
  h.comp k fun _ _ _ _ => Entry.Quiet.trans

theorem quiet_modify (id : EntryId) (f : Entry K V → Entry K V)
    (h : ∀ e, es[id]? = some e → e.Quiet (f e)) : es.Quiet (es.modify id f) :=
  each_modify id f h fun _ e _ => Entry.Quiet.refl e

theorem each_sameMarks (id : EntryId) {g : Entry K V → Entry K V}
    (hg : ∀ e : Entry K V, e.SameMarks (g e)) (es : Entries K V) :
    Each (fun _ => Entry.SameMarks) es (es.modify id g) :=
  each_modify id g (fun e _ => hg e) fun _ e _ => Entry.SameMarks.refl e

/-- An operation that starts makes an entry pending and leaves its marks for write-back alone. -/
theorem each_begin (id : EntryId) (es : Entries K V) :
    Each (fun _ e e' => e'.version = e.version ∧ e'.inChain = e.inChain ∧
      e'.nextDirty? = e.nextDirty?) es (es.modify id Entry.begin) :=
  each_modify id _ (fun _ _ => ⟨rfl, rfl, rfl⟩) fun _ _ _ => ⟨rfl, rfl, rfl⟩

/-- What is in place before an entry is added stays in place. -/
theorem getElem?_push_of_some {e x : Entry K V} {id : EntryId} (he : es[id]? = some e) :
    (es.push x)[id]? = some e := by
  have hlt : id < es.size := (Array.getElem?_eq_some_iff.1 he).1
  rw [Array.getElem?_push, if_neg (Nat.ne_of_lt hlt), he]

end Entries

end ReadThrough
