import ReadThrough.Cache.Batch
import ReadThrough.Proofs.WriteBack.Chain

/-! # What Draining and Finishing Do

  The two ends of a batch, told entry by entry.

  - **takeDirty**: the first entries of the chain go to the batch with their versions; in copy-on
    mode they cease to be members.
  - **settle**: every entry of the batch meets its fate, and the others stay as they are.
  - **fate**: what each fate presupposes.
-/

namespace ReadThrough

variable {K V : Type}

namespace Batch

/-- The entries of a batch. -/
def ids (b : Batch) : List EntryId :=
  b.entries.map Prod.fst

/-- The entries that are members of the chain as long as the batch is open. -/
def members (b : Batch) : List EntryId :=
  if b.copyOn then [] else b.ids

theorem mem_ids {b : Batch} {id : EntryId} {version : Nat} (h : (id, version) ∈ b.entries) :
    id ∈ b.ids :=
  List.mem_map_of_mem h

theorem exists_index_of_mem_ids {b : Batch} {id : EntryId} (h : id ∈ b.ids) :
    ∃ (i : Nat) (version : Nat), b.entries[i]? = some (id, version) := by
  obtain ⟨⟨_, version⟩, hp, rfl⟩ := List.mem_map.1 h
  obtain ⟨i, hi⟩ := List.mem_iff_getElem?.1 hp
  exact ⟨i, version, hi⟩

/-- A batch knows one version of an entry. -/
theorem version_unique {b : Batch} (hdistinct : b.ids.Nodup) {id : EntryId} {m n : Nat}
    (hm : (id, m) ∈ b.entries) (hn : (id, n) ∈ b.entries) : m = n :=
  congrArg Prod.snd (List.inj_on_of_nodup_map hdistinct hm hn rfl)

/-! ## Fates -/

section fates

variable {how : Finish} {copyOn consumed : Bool} {version : Nat} {e : Entry K V}

/-- An entry becomes clean only if it was written, has not changed since it was drained, is not
    being updated and has not been linked again. -/
theorem fate_eq_clean (h : fate how copyOn consumed version e = .clean) :
    isWritten how copyOn consumed = true ∧ e.version = version ∧ e.value ≠ .pending ∧
      (copyOn = true → e.inChain = false) := by
  unfold fate at h
  dsimp only at h
  split at h
  · next hc =>
    simp only [Bool.and_eq_true, beq_iff_eq, Bool.not_eq_true', Bool.or_eq_true] at hc
    obtain ⟨⟨⟨hw, hv⟩, hp⟩, hm⟩ := hc
    refine ⟨hw, hv, fun hval => ?_, fun hcopy => ?_⟩
    · simp [hval, ValueState.isPending] at hp
    · exact hm.resolve_left (by simp [hcopy])
  · split at h
    · cases h
    · split at h <;> cases h

/-- Only an entry of a copy-on batch is left alone: because it is a member already, or because it
    was changed after it was drained. -/
theorem fate_eq_leave (h : fate how copyOn consumed version e = .leave) :
    copyOn = true ∧ (e.inChain = true ∨ e.version ≠ version) := by
  unfold fate at h
  dsimp only at h
  split at h
  · cases h
  · split at h
    · next hc =>
      simp only [Bool.and_eq_true, Bool.or_eq_true, bne_iff_ne] at hc
      exact ⟨hc.1.2, hc.2⟩
    · split at h
      · next hc =>
        simp only [Bool.and_eq_true] at hc
        exact ⟨hc.1, .inl hc.2⟩
      · cases h

/-- An entry of a copy-on batch that goes back is no member. -/
theorem fate_eq_relink (h : fate how copyOn consumed version e = .relink)
    (hcopy : copyOn = true) : e.inChain = false := by
  unfold fate at h
  dsimp only at h
  split at h
  · cases h
  · split at h
    · cases h
    · split at h
      · cases h
      · next hc => simpa [hcopy] using hc

/-- A fate changes neither key, epoch, version nor successor. -/
theorem apply_fields (f : Fate) (copyOn : Bool) (e : Entry K V) :
    (f.apply copyOn e).key = e.key ∧ (f.apply copyOn e).epoch = e.epoch ∧
      (f.apply copyOn e).version = e.version ∧ (f.apply copyOn e).nextDirty? = e.nextDirty? := by
  cases f <;> exact ⟨rfl, rfl, rfl, rfl⟩

/-- A fate starts and ends no operation. -/
theorem apply_pending (f : Fate) (copyOn : Bool) (e : Entry K V) :
    (f.apply copyOn e).value = .pending ↔ e.value = .pending := by
  cases f with
  | clean => cases h : e.value <;> simp [Fate.apply, ValueState.clean, h]
  | leave => rfl
  | relink => rfl

/-- Whatever is dirty after a fate was so before, and did not become clean. -/
theorem apply_dirty {f : Fate} {copyOn : Bool} {v : Value V}
    (h : (f.apply copyOn e).value = .dirty v) : e.value = .dirty v ∧ f ≠ .clean := by
  cases f with
  | clean => cases he : e.value <;> simp [Fate.apply, ValueState.clean, he] at h
  | leave => exact ⟨h, by simp⟩
  | relink => exact ⟨h, by simp⟩

end fates

/-! ## Settling -/

/-- What settling a batch makes of an entry: it meets its fate, if it is in the batch. -/
def Settled (how : Finish) (copyOn : Bool) (ps : List (EntryId × Nat)) (consumed : Nat)
    (id : EntryId) (e e' : Entry K V) : Prop :=
  (id ∉ ps.map Prod.fst ∧ e' = e) ∨
    ∃ (i : Nat) (version : Nat), ps[i]? = some (id, version) ∧
      e' = (fate how copyOn (decide (i < consumed)) version e).apply copyOn e

theorem settleOne_entries (how : Finish) (copyOn consumed : Bool) (id : EntryId) (version : Nat)
    (s : Settlement K V) :
    (settleOne how copyOn consumed id version s).entries =
      s.entries.modify id fun e => (fate how copyOn consumed version e).apply copyOn e := by
  obtain ⟨entries, relink, cleaned⟩ := s
  apply Array.ext_getElem?
  intro j
  unfold settleOne
  cases he : entries[id]? with
  | none =>
    by_cases hj : id = j
    · subst hj
      simp [Array.getElem?_modify, he]
    · simp [Array.getElem?_modify, he, hj]
  | some e =>
    by_cases hj : id = j
    · subst hj
      simp [Array.getElem?_modify, he]
    · simp [Array.getElem?_modify, he, hj]

/-- Settling an entry concerns no other one. -/
theorem settleOne_getElem?_ne {how : Finish} {copyOn consumed : Bool} {id j : EntryId}
    {version : Nat} {s : Settlement K V} (h : j ≠ id) :
    (settleOne how copyOn consumed id version s).entries[j]? = s.entries[j]? := by
  rw [settleOne_entries, Array.getElem?_modify, if_neg h.symm]

theorem decide_succ_lt (i consumed : Nat) :
    decide (i < consumed - 1) = decide (i + 1 < consumed) :=
  decide_eq_decide.2 (by omega)

theorem settle_each (how : Finish) (copyOn : Bool) {ps : List (EntryId × Nat)}
    (hnodup : (ps.map Prod.fst).Nodup) (consumed : Nat) (s : Settlement K V) :
    Entries.Each (Settled how copyOn ps consumed) s.entries
      (settle how copyOn ps consumed s).entries := by
  -- The count of consumed entries falls with every entry, so that it tells at each one whether that
  -- entry was consumed.
  induction ps generalizing consumed s with
  | nil => exact Entries.Each.refl (fun id e => .inl ⟨by simp, rfl⟩) _
  | cons p ps ih =>
    obtain ⟨id, version⟩ := p
    obtain ⟨hid, hps⟩ := List.nodup_cons.1 hnodup
    have hone : Entries.Each (fun j e e' => (j ≠ id ∧ e' = e) ∨ (j = id ∧
        e' = (fate how copyOn (consumed != 0) version e).apply copyOn e)) s.entries
        (settleOne how copyOn (consumed != 0) id version s).entries := by
      rw [settleOne_entries]
      exact Entries.each_modify id _ (fun e _ => .inr ⟨rfl, rfl⟩) fun j e hj => .inl ⟨hj, rfl⟩
    refine hone.comp (ih hps (consumed - 1) _) ?_
    rintro j a b c (⟨hj, rfl⟩ | ⟨rfl, rfl⟩) (⟨hnot, rfl⟩ | ⟨i, v, hi, rfl⟩)
    · exact .inl ⟨by simpa [hj] using hnot, rfl⟩
    · exact .inr ⟨i + 1, v, by simpa using hi, by rw [decide_succ_lt]⟩
    · have hzero : (consumed != 0) = decide (0 < consumed) := by
        cases consumed <;> simp
      exact .inr ⟨0, version, rfl, by rw [hzero]⟩
    · -- The entries of a batch are different ones, so none of them meets two fates.
      exact absurd (List.mem_map_of_mem (List.mem_of_getElem? hi)) hid

/-- The entries that go back are those whose fate it is, in the order of the batch. -/
theorem settle_relink (how : Finish) (copyOn : Bool) {ps : List (EntryId × Nat)}
    (hnodup : (ps.map Prod.fst).Nodup) (consumed : Nat) (s : Settlement K V) :
    ∃ back : List EntryId,
      (settle how copyOn ps consumed s).relink = back.reverse ++ s.relink ∧
      back.Sublist (ps.map Prod.fst) ∧
      ∀ (i : Nat) (id : EntryId) (version : Nat) (e : Entry K V), ps[i]? = some (id, version) →
        s.entries[id]? = some e →
        (id ∈ back ↔ fate how copyOn (decide (i < consumed)) version e = .relink) := by
  induction ps generalizing consumed s with
  | nil => exact ⟨[], rfl, .slnil, by simp⟩
  | cons p ps ih =>
    obtain ⟨id, version⟩ := p
    obtain ⟨hid, hps⟩ := List.nodup_cons.1 hnodup
    obtain ⟨back, hback, hsub, hiff⟩ :=
      ih hps (consumed - 1) (settleOne how copyOn (consumed != 0) id version s)
    have hzero : (consumed != 0) = decide (0 < consumed) := by
      cases consumed <;> simp
    have hnot : id ∉ back := fun h => hid (hsub.subset h)
    -- The fates of the later entries do not depend on the first one.
    have hlater : ∀ (i : Nat) (j : EntryId) (v : Nat) (e : Entry K V), ps[i]? = some (j, v) →
        s.entries[j]? = some e → j ≠ id ∧
        (j ∈ back ↔ fate how copyOn (decide (i + 1 < consumed)) v e = .relink) := by
      intro i j v e hi he
      have hj : j ≠ id := by
        rintro rfl
        exact hid (List.mem_map.2 ⟨(j, v), List.mem_of_getElem? hi, rfl⟩)
      rw [← decide_succ_lt]
      exact ⟨hj, hiff i j v e hi (by rw [settleOne_getElem?_ne hj, he])⟩
    by_cases hfate : ∃ e, s.entries[id]? = some e ∧
        fate how copyOn (consumed != 0) version e = .relink
    · obtain ⟨e, he, hf⟩ := hfate
      refine ⟨id :: back, ?_, hsub.cons_cons id, ?_⟩
      · rw [settle, hback]
        simp [settleOne, he, hf]
      · intro i j v e' hi he'
        cases i with
        | zero =>
          obtain ⟨rfl, rfl⟩ : id = j ∧ version = v := by simpa using hi
          rw [he] at he'
          obtain rfl := Option.some.inj he'
          rw [← hzero]
          simp [hf]
        | succ i =>
          obtain ⟨hj, hmem⟩ := hlater i j v e' (by simpa using hi) he'
          rw [← hmem]
          simp [hj]
    · refine ⟨back, ?_, hsub.cons id, ?_⟩
      · rw [settle, hback]
        cases he : s.entries[id]? with
        | none => simp [settleOne, he]
        | some e =>
          have hf : fate how copyOn (consumed != 0) version e ≠ .relink :=
            fun h => hfate ⟨e, he, h⟩
          simp [settleOne, he, hf]
      · intro i j v e' hi he'
        cases i with
        | zero =>
          obtain ⟨rfl, rfl⟩ : id = j ∧ version = v := by simpa using hi
          rw [← hzero]
          simp only [hnot, false_iff]
          exact fun h => hfate ⟨e', he', h⟩
        | succ i => exact (hlater i j v e' (by simpa using hi) he').2

end Batch

/-! ## Draining -/

namespace Cache

open DirtyChain

/-- What draining makes of an entry: in copy-on mode the taken ones cease to be members. -/
def Drained (copyOn : Bool) (taken : List EntryId) (id : EntryId) (e e' : Entry K V) : Prop :=
  ∃ next?, e' = { e with
    inChain := if copyOn = true ∧ id ∈ taken then false else e.inChain
    nextDirty? := next? }

/-- What the first `limit` entries of a chain leave behind. -/
structure Taken (es : Entries K V) (ids : List EntryId) (copyOn : Bool) (limit : Nat)
    (r : List (EntryId × Nat) × Entries K V × DirtyChain) : Prop where
  first : r.1.map Prod.fst = ids.take limit
  links : Links r.2.1 r.2.2 (ids.drop limit)
  each : Entries.Each (Drained copyOn (ids.take limit)) es r.2.1
  versions : ∀ p ∈ r.1, ∃ e, es[p.1]? = some e ∧ p.2 = e.version

theorem drained_refl (copyOn : Bool) (id : EntryId) (e : Entry K V) :
    Drained copyOn [] id e e :=
  ⟨e.nextDirty?, by simp⟩

/-- The entries after the first one was taken out of the chain. -/
def withoutMember (copyOn : Bool) (id : EntryId) (es : Entries K V) : Entries K V :=
  if copyOn then (setNext es id none).modify id fun e => { e with inChain := false }
  else setNext es id none

theorem withoutMember_each (copyOn : Bool) (id : EntryId) (es : Entries K V) :
    Entries.Each (Drained copyOn [id]) es (withoutMember copyOn id es) := by
  have hset : Entries.Each (Drained false [id]) es (setNext es id none) :=
    (relinked_setNext es id none).imp fun _ _ _ ⟨n, h⟩ => ⟨n, by simp [h]⟩
  unfold withoutMember
  cases copyOn with
  | false => exact hset
  | true =>
    rw [if_pos rfl]
    refine hset.comp (Entries.each_modify (R := fun j e e' =>
      e' = { e with inChain := if j = id then false else e.inChain }) id _
      (fun e _ => by simp) fun j e hj => by simp [hj]) ?_
    rintro j a b c ⟨n, rfl⟩ rfl
    exact ⟨n, by simp⟩

theorem next?_withoutMember (copyOn : Bool) (id j : EntryId) (es : Entries K V) :
    next? (withoutMember copyOn id es) j = next? (setNext es id none) j := by
  unfold withoutMember
  cases copyOn with
  | false => rfl
  | true =>
    rw [if_pos rfl]
    simp only [next?, Array.getElem?_modify]
    by_cases hj : id = j
    · subst hj
      cases h : (setNext es id none)[id]? <;> simp
    · simp [hj]

theorem takeDirty_succ {es : Entries K V} {c : DirtyChain} {id : EntryId} {ids : List EntryId}
    (h : Links es c (id :: ids)) (copyOn : Bool) (limit : Nat) :
    takeDirty copyOn (limit + 1) es c =
      let r := takeDirty copyOn limit (withoutMember copyOn id es) (c.rest es id)
      ((id, ((setNext es id none)[id]?.map Entry.version).getD 0) :: r.1, r.2.1, r.2.2) := by
  simp only [takeDirty, popFront_cons h, withoutMember]

theorem takeDirty_taken (copyOn : Bool) (limit : Nat) {es : Entries K V} {c : DirtyChain}
    {ids : List EntryId} (h : Links es c ids) :
    Taken es ids copyOn limit (takeDirty copyOn limit es c) := by
  induction limit generalizing es c ids with
  | zero =>
    exact ⟨rfl, h, Entries.Each.refl (drained_refl copyOn) es, by simp [takeDirty]⟩
  | succ limit ih =>
    cases ids with
    | nil =>
      simp only [takeDirty, popFront_nil h]
      exact ⟨rfl, h, Entries.Each.refl (drained_refl copyOn) es, by simp⟩
    | cons id ids =>
      have hsize : (setNext es id none).size ≤ (withoutMember copyOn id es).size :=
        Nat.le_of_eq ((size_setNext es id none).trans (withoutMember_each copyOn id es).1.symm)
      have hrest : Links (withoutMember copyOn id es) (c.rest es id) ids :=
        (rest_links h).congr hsize fun j => next?_withoutMember copyOn id j es
      obtain ⟨hids, hlinks, heach, hversions⟩ := ih hrest
      have hid : id ∉ ids := (List.nodup_cons.1 h.nodup).1
      rw [takeDirty_succ h]
      refine ⟨by simp [hids], hlinks, ?_, ?_⟩
      · refine (withoutMember_each copyOn id es).comp heach ?_
        rintro j a b e ⟨n, rfl⟩ ⟨m, rfl⟩
        refine ⟨m, ?_⟩
        -- Both changes clear the mark in copy-on mode only, the first of them on the first entry.
        by_cases hcopy : copyOn = true <;> by_cases hj : j = id <;> simp [hcopy, hj]
      · intro p hp
        rcases List.mem_cons.1 hp with rfl | hp
        · have hlt : id < es.size := h.known id List.mem_cons_self
          refine ⟨es[id], by simp, ?_⟩
          simp [setNext, Array.getElem_modify, hlt]
        · -- Draining the first entry has changed no version.
          obtain ⟨e', he', hv⟩ := hversions p hp
          obtain ⟨e, he, n, rfl⟩ := (withoutMember_each copyOn id es).backward he'
          exact ⟨e, he, hv⟩

end Cache

end ReadThrough
