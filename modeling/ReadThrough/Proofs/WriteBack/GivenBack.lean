import ReadThrough.Proofs.WriteBack.Exactness
import ReadThrough.Proofs.Runs.Owners

/-! # Batches That Are Given Back

  A batch is drained, its consumer goes some way, and it is closed, while nothing else happens.

  - **Untouched**: an entry of a batch is as draining has left it; then its fate only depends on
    whether it counts as written.
  - **writtenCount**: how many entries of a batch count as written when it is finished. They are the
    first ones.
  - **drain_finish**: draining and finishing take the written entries out of the chain and leave
    everything else as it was, links included.
  - **GivenBack**, **WrittenBack**: the system is as before, but for the entries that were written.
  - **RoundTrip**: what becomes of a batch that is finished or forgotten, in either mode.
-/

namespace ReadThrough

open DirtyChain

variable {K V : Type}

/-! ## The chain by its list -/

namespace DirtyChain

variable {es es' : Entries K V} {c c' : DirtyChain} {ids : List EntryId}

/-- The list of the linked entries determines the chain. -/
theorem Links.chain_eq (h : Links es c ids) (h' : Links es' c' ids) : c' = c := by
  obtain ⟨first, last, length⟩ := c
  obtain ⟨first', last', length'⟩ := c'
  obtain rfl : first' = first := h'.first.trans h.first.symm
  obtain rfl : last' = last := h'.last.trans h.last.symm
  obtain rfl : length' = length := h'.length.trans h.length.symm
  rfl

/-- Entries that have left the chain have no successors, and the others keep theirs. -/
theorem Links.next?_drop (h : Links es c ids) {n : Nat} (h' : Links es' c' (ids.drop n))
    (id : EntryId) : next? es' id = if id ∈ ids.take n then none else next? es id := by
  have hsplit : ids.take n ++ ids.drop n = ids := List.take_append_drop n ids
  split
  · next hid =>
    have hnodup : (ids.take n ++ ids.drop n).Nodup := by rw [hsplit]; exact h.nodup
    exact h'.loose id ((List.nodup_append'.1 hnodup).2.2 hid)
  · next hid =>
    by_cases hleft : id ∈ ids.drop n
    · have hstrung : Strung (next? es) (ids.take n ++ ids.drop n) := hsplit.symm ▸ h.strung
      exact hstrung.suffix.unique h'.strung id hleft
    · have hnot : id ∉ ids := by
        rw [← hsplit, List.mem_append]
        exact fun h => h.elim hid hleft
      rw [h'.loose id hleft, h.loose id hnot]

end DirtyChain

/-! ## Entries that nobody has touched -/

theorem ValueState.clean_ne_dirty (state : ValueState V) (v : Value V) : state.clean ≠ .dirty v := by
  cases state <;> exact nofun

/-- The entry once its changes have been written back and it has left the chain. -/
def Entry.writtenBack (e : Entry K V) : Entry K V :=
  { e with value := e.value.clean, inChain := false, nextDirty? := none }

namespace Batch

variable {how : Finish} {copyOn consumed : Bool} {version : Nat} {e : Entry K V}

/-- The entry of a batch is as it was when the batch was drained, at the recorded version. -/
structure Untouched (copyOn : Bool) (version : Nat) (e : Entry K V) : Prop where
  version : e.version = version
  settled : e.value ≠ .pending
  member : e.inChain = !copyOn

theorem isWritten_eq (how : Finish) (copyOn consumed : Bool) :
    isWritten how copyOn consumed = (consumed && isWritten how copyOn true) := by
  simp [isWritten]

/-- An untouched entry becomes clean if it counts as written, and goes back otherwise. -/
theorem fate_untouched (h : Untouched copyOn version e) (how : Finish) (consumed : Bool) :
    fate how copyOn consumed version e =
      if isWritten how copyOn consumed then .clean else .relink := by
  have hsettled : e.value.isPending = false := by
    rw [Bool.eq_false_iff]
    exact fun hpending => h.settled ((ValueState.isPending_iff _).1 hpending)
  have hmember : (copyOn && e.inChain) = false := by
    rw [h.member]
    cases copyOn <;> rfl
  have hfree : (!copyOn || !e.inChain) = true := by
    rw [h.member]
    cases copyOn <;> rfl
  unfold fate
  cases hwritten : isWritten how copyOn consumed with
  | true => simp [h.version, hsettled, hfree]
  | false => simp [hmember]

/-- The number of entries that count as written when the batch is finished. -/
def writtenCount (how : Finish) (b : Batch) : Nat :=
  if isWritten how b.copyOn true then min b.consumed b.size else 0

theorem writtenCount_le (how : Finish) (b : Batch) : b.writtenCount how ≤ b.size := by
  unfold writtenCount
  split
  · exact Nat.min_le_right _ _
  · exact Nat.zero_le _

/-- Settling an untouched entry. -/
theorem settleOne_untouched {id : EntryId} {s : Settlement K V} (he : s.entries[id]? = some e)
    (h : Untouched copyOn version e) (how : Finish) (consumed : Bool) :
    (settleOne how copyOn consumed id version s).cleaned =
        (if isWritten how copyOn consumed then s.cleaned + 1 else s.cleaned) ∧
      (settleOne how copyOn consumed id version s).relink =
        if isWritten how copyOn consumed then s.relink else id :: s.relink := by
  have hfate := fate_untouched h how consumed
  unfold settleOne
  cases hwritten : isWritten how copyOn consumed with
  | true => simp [he, hfate, hwritten]
  | false => simp [he, hfate, hwritten]

/-- Untouched entries are settled in two parts: the first ones become clean and the others go
    back. -/
theorem settle_untouched (how : Finish) (copyOn : Bool) {ps : List (EntryId × Nat)}
    (hnodup : (ps.map Prod.fst).Nodup) (consumed : Nat) (s : Settlement K V)
    (h : ∀ id version, (id, version) ∈ ps →
      ∃ e, s.entries[id]? = some e ∧ Untouched copyOn version e) :
    let n := writtenCount how { entries := ps, consumed, copyOn }
    (settle how copyOn ps consumed s).cleaned = s.cleaned + n ∧
      (settle how copyOn ps consumed s).relink =
        ((ps.map Prod.fst).drop n).reverse ++ s.relink := by
  induction ps generalizing consumed s with
  | nil => simp [writtenCount, settle, size]
  | cons p ps ih =>
    obtain ⟨id, version⟩ := p
    obtain ⟨hid, hps⟩ := List.nodup_cons.1 hnodup
    obtain ⟨e, he, huntouched⟩ := h id version List.mem_cons_self
    obtain ⟨hfirst, hback⟩ := settleOne_untouched he huntouched how (consumed != 0)
    -- Settling the first entry does not touch the others.
    have hrest : ∀ j v, (j, v) ∈ ps → ∃ e,
        (settleOne how copyOn (consumed != 0) id version s).entries[j]? = some e ∧
          Untouched copyOn v e := by
      intro j v hj
      obtain ⟨e, he, huntouched⟩ := h j v (List.mem_cons_of_mem _ hj)
      have hne : j ≠ id := by
        rintro rfl
        exact hid (List.mem_map.2 ⟨(j, v), hj, rfl⟩)
      exact ⟨e, by rw [settleOne_getElem?_ne hne, he], huntouched⟩
    obtain ⟨hcleaned, hrelink⟩ := ih hps (consumed - 1) _ hrest
    rw [isWritten_eq] at hfirst hback
    rw [settle, hcleaned, hrelink, hfirst, hback]
    by_cases hwrites : isWritten how copyOn true = true
    · cases consumed with
      | zero => simp [writtenCount, hwrites, size]
      | succ n =>
        have hmin : min (n + 1) (ps.length + 1) = min n ps.length + 1 := by omega
        simp [writtenCount, hwrites, size, hmin]
        omega
    · simp [writtenCount, hwrites]

/-- All entries of a batch are as they were when it was drained. -/
def Fresh (b : Batch) (es : Entries K V) : Prop :=
  ∀ id version, (id, version) ∈ b.entries →
    ∃ e, es[id]? = some e ∧ Untouched b.copyOn version e

/-- The entries that count as written are the first ones. -/
theorem isWritten_iff {b : Batch} (hdistinct : b.ids.Nodup) {i : Nat} {id : EntryId}
    (hi : b.entries[i]? = some (id, version)) (how : Finish) :
    isWritten how b.copyOn (decide (i < b.consumed)) = true ↔
      id ∈ b.ids.take (b.writtenCount how) := by
  have hlt : i < b.size := (List.getElem?_eq_some_iff.1 hi).1
  have hid : b.ids[i]? = some id := by simp [ids, hi]
  -- The entries are distinct, so an entry is among the first ones exactly by its index.
  have hplace : id ∈ b.ids.take (b.writtenCount how) ↔ i < b.writtenCount how := by
    rw [List.mem_take_iff_getElem]
    constructor
    · rintro ⟨j, hj, hjd⟩
      have hsame : b.ids[j]? = b.ids[i]? := by
        rw [hid, List.getElem?_eq_some_iff]
        exact ⟨by omega, hjd⟩
      obtain rfl : j = i := (List.getElem?_inj (by omega) hdistinct).1 hsame
      omega
    · intro hlt'
      obtain ⟨hlen, hget⟩ := List.getElem?_eq_some_iff.1 hid
      exact ⟨i, by omega, hget⟩
  rw [hplace, isWritten_eq, writtenCount]
  cases isWritten how b.copyOn true with
  | true =>
    simp only [Bool.and_true, decide_eq_true_eq, if_true]
    omega
  | false => simp

/-- What finishing a batch makes of an untouched entry. -/
theorem Finished.of_untouched {b : Batch} (hdistinct : b.ids.Nodup) {id : EntryId}
    {e' : Entry K V} (h : Untouched b.copyOn version e) (hmem : (id, version) ∈ b.entries)
    (hf : b.Finished how id e e') :
    ∃ next?, e' = if id ∈ b.ids.take (b.writtenCount how)
      then { e with value := e.value.clean, inChain := false, nextDirty? := next? }
      else { e with inChain := true, nextDirty? := next? } := by
  obtain ⟨n, d, ⟨hnot, -⟩ | ⟨i, v, hi, rfl⟩, rfl⟩ := hf
  · exact absurd (mem_ids hmem) hnot
  · obtain rfl := version_unique hdistinct hmem (List.mem_of_getElem? hi)
    have hwritten := isWritten_iff hdistinct hi how
    refine ⟨n, ?_⟩
    rw [fate_untouched h]
    by_cases hw : id ∈ b.ids.take (b.writtenCount how)
    · rw [if_pos hw, if_pos (hwritten.2 hw)]
      rfl
    · rw [if_neg hw, if_neg (mt hwritten.1 hw)]
      have hin : (e.inChain || b.copyOn) = true := by
        rw [h.member]
        cases b.copyOn <;> rfl
      simp only [Fate.apply, hin]

/-- Finishing a fresh batch links the entries that were not written in front of the others. -/
theorem finish_links {b : Batch} {es : Entries K V} {c : DirtyChain} {ids : List EntryId}
    (hlinks : Links es c ids) (hnodup : (b.ids ++ ids).Nodup) (h : b.Fresh es) (how : Finish) :
    Links (b.finish how es c).1 (b.finish how es c).2
      (b.ids.drop (b.writtenCount how) ++ ids) := by
  have hdistinct : b.ids.Nodup := (List.nodup_append.1 hnodup).1
  obtain ⟨-, hrelink⟩ :=
    settle_untouched how b.copyOn hdistinct b.consumed { entries := es } h
  -- What is linked again is the rest of the batch, in the order in which it was drained.
  have hback : (settle how b.copyOn b.entries b.consumed { entries := es }).relink.reverse =
      b.ids.drop (b.writtenCount how) := by
    rw [hrelink, List.append_nil, List.reverse_reverse]
    rfl
  have heach := settle_each how b.copyOn hdistinct b.consumed { entries := es }
  have hkept : Links (settle how b.copyOn b.entries b.consumed { entries := es }).entries c ids := by
    refine hlinks.of_each heach ?_
    rintro id e e' (⟨-, rfl⟩ | ⟨i, version, -, rfl⟩)
    · rfl
    · exact (apply_fields _ _ e).2.2.2
  unfold Batch.finish
  dsimp only
  rw [hback]
  refine pushFrontAll_links hkept ?_ fun id hid => ?_
  · exact hnodup.sublist ((List.drop_sublist _ _).append_right ids)
  · obtain ⟨i, version, hi⟩ := exists_index_of_mem_ids (List.mem_of_mem_drop hid)
    obtain ⟨e, he, -⟩ := h id version (List.mem_of_getElem? hi)
    rw [heach.1]
    exact (Array.getElem?_eq_some_iff.1 he).1

end Batch

/-! ## Draining and finishing -/

section

open Ledger

variable {es : Entries K V} {c : DirtyChain} {bs : List Batch} {fs : List (Flight V)}
  {ids : List EntryId}

/-- The batch that is drained from a chain of which no entry is pending, consumed up to some
    point. -/
def drainedBatch (limit : Nat) (copyOn : Bool) (consumed : Nat) (es : Entries K V)
    (c : DirtyChain) : Batch :=
  { entries := (Cache.takeDirty copyOn limit es c).1, consumed, copyOn }

theorem drainedBatch_ids (h : Chained ⟨es, c, bs, fs⟩ ids) (limit : Nat) (copyOn : Bool)
    (consumed : Nat) : (drainedBatch limit copyOn consumed es c).ids = ids.take limit :=
  (Cache.takeDirty_taken copyOn limit h.links).first

/-- Draining leaves the entries of its batch as they are when it is finished at once. -/
theorem drainedBatch_fresh (h : Chained ⟨es, c, bs, fs⟩ ids)
    (hsettled : ∀ (id : EntryId) (e : Entry K V), es[id]? = some e → e.value ≠ .pending)
    (limit : Nat) (copyOn : Bool)
    (consumed : Nat) :
    (drainedBatch limit copyOn consumed es c).Fresh (Cache.takeDirty copyOn limit es c).2.1 := by
  obtain ⟨hfirst, -, heach, hversions⟩ := Cache.takeDirty_taken copyOn limit h.links
  intro id version hmem
  have hid : id ∈ ids.take limit := hfirst ▸ List.mem_map_of_mem hmem
  obtain ⟨e, he, hversion⟩ := hversions _ hmem
  obtain ⟨e', he', n, rfl⟩ := heach.2 id e he
  refine ⟨_, he', hversion.symm, hsettled id e he, ?_⟩
  have hmember : e.inChain = true :=
    (h.member id e he).2 (List.mem_append_left _ (List.mem_of_mem_take hid))
  show (if copyOn = true ∧ id ∈ ids.take limit then false else e.inChain) = !copyOn
  cases copyOn with
  | true => simp [hid]
  | false => simp [hmember]

/-- The written entries of a batch are the first ones of the chain that it was drained from. The
    others go back in front of those that were never drained. -/
theorem drainedBatch_parts (h : Chained ⟨es, c, bs, fs⟩ ids) (limit : Nat) (copyOn : Bool)
    (consumed : Nat) (how : Finish) :
    let b := drainedBatch limit copyOn consumed es c
    let n := b.writtenCount how
    b.ids.take n = ids.take n ∧ b.ids.drop n ++ ids.drop limit = ids.drop n := by
  intro b n
  have hids : b.ids = ids.take limit := drainedBatch_ids h limit copyOn consumed
  have hle : n ≤ b.ids.length := by
    rw [Batch.ids, List.length_map]
    exact b.writtenCount_le how
  rw [hids] at hle ⊢
  constructor
  · rw [List.take_take, Nat.min_eq_left]
    exact Nat.le_trans hle (List.length_take_le _ _)
  · rw [← List.drop_append_of_le_length hle, List.take_append_drop]

/-- Draining a batch and finishing it takes the written entries out of the chain, and leaves
    everything else as it was. -/
theorem drain_finish (h : Chained ⟨es, c, bs, fs⟩ ids)
    (hsettled : ∀ (id : EntryId) (e : Entry K V), es[id]? = some e → e.value ≠ .pending)
    (limit : Nat) (copyOn : Bool)
    (consumed : Nat) (how : Finish) :
    let r := Cache.takeDirty copyOn limit es c
    let b := drainedBatch limit copyOn consumed es c
    let n := b.writtenCount how
    Links (b.finish how r.2.1 r.2.2).1 (b.finish how r.2.1 r.2.2).2 (ids.drop n) ∧
      ∀ id : EntryId, (b.finish how r.2.1 r.2.2).1[id]? = es[id]?.map fun e =>
        if id ∈ ids.take n then e.writtenBack else e := by
  intro r b n
  obtain ⟨hfirst, hlinks, heach, -⟩ := Cache.takeDirty_taken copyOn limit h.links
  have hids : b.ids = ids.take limit := hfirst
  have hfresh : b.Fresh r.2.1 := drainedBatch_fresh h hsettled limit copyOn consumed
  have hnodup : (b.ids ++ ids.drop limit).Nodup := by
    rw [hids, List.take_append_drop]
    exact h.links.nodup
  have hdistinct : b.ids.Nodup := (List.nodup_append.1 hnodup).1
  obtain ⟨htake, hback⟩ := drainedBatch_parts h limit copyOn consumed how
  have hafter := Batch.finish_links hlinks hnodup hfresh how
  rw [show b.writtenCount how = n from rfl, hback] at hafter
  -- The links are done; what is left is said of each entry by itself.
  refine ⟨hafter, fun id => ?_⟩
  have hfinished := finish_each how b hdistinct r.2.1 r.2.2
  have hnext := h.links.next?_drop hafter id
  cases he : es[id]? with
  | none =>
    have hge : es.size ≤ id := Array.getElem?_eq_none_iff.1 he
    exact Array.getElem?_eq_none_iff.2 (by rw [hfinished.1, heach.1]; exact hge)
  | some e =>
    -- Draining has made `e₁` of the entry, and finishing `e₂` of that.
    obtain ⟨e₁, he₁, hdrained⟩ := heach.2 id e he
    obtain ⟨e₂, he₂, hf⟩ := hfinished.2 id e₁ he₁
    rw [next?_eq he₂, next?_eq he] at hnext
    rw [he₂, Option.map_some]
    congr 1
    obtain ⟨n₁, rfl⟩ := hdrained
    by_cases hid : id ∈ b.ids
    · -- In the batch, nobody has touched the entry, so it counts as written or goes back.
      obtain ⟨i, version, hi⟩ := Batch.exists_index_of_mem_ids hid
      obtain ⟨e', he', huntouched⟩ := hfresh id version (List.mem_of_getElem? hi)
      obtain rfl := Option.some.inj (he₁.symm.trans he')
      obtain ⟨n₂, rfl⟩ := hf.of_untouched hdistinct huntouched (List.mem_of_getElem? hi)
      have hmember : e.inChain = true := by
        refine (h.member id e he).2 (List.mem_append_left _ ?_)
        exact List.mem_of_mem_take (hids ▸ hid)
      rw [htake] at hnext ⊢
      by_cases hwritten : id ∈ ids.take n
      · -- Written: the entry is out of the chain and has no successor.
        rw [if_pos hwritten, if_pos hwritten] at hnext
        rw [if_pos hwritten, if_pos hwritten]
        obtain rfl : n₂ = none := hnext
        rfl
      · -- Not written: the entry is a member again, and has the successor that it had.
        rw [if_neg hwritten, if_neg hwritten] at hnext
        rw [if_neg hwritten, if_neg hwritten]
        obtain rfl : n₂ = e.nextDirty? := hnext
        exact congrArg (fun m => { e with inChain := m }) hmember.symm
    · -- Outside the batch, neither draining nor finishing has changed the entry.
      have hnot : id ∉ ids.take n := fun hmem => hid ((b.ids.take_sublist n).subset (htake ▸ hmem))
      rw [if_neg hnot] at hnext ⊢
      rw [hids] at hid
      obtain ⟨n₂, d, ⟨-, rfl⟩ | ⟨i, version, hi, -⟩, rfl⟩ := hf
      · obtain rfl : n₂ = e.nextDirty? := hnext
        simp only [hid, and_false, if_false]
      · exact absurd (hids ▸ Batch.mem_ids (List.mem_of_getElem? hi)) hid

/-- How many entries become clean, and how many go back. -/
theorem drain_finish_counts (h : Chained ⟨es, c, bs, fs⟩ ids)
    (hsettled : ∀ (id : EntryId) (e : Entry K V), es[id]? = some e → e.value ≠ .pending)
    (limit : Nat) (copyOn : Bool) (consumed : Nat) (how : Finish) :
    let b := drainedBatch limit copyOn consumed es c
    let r := Batch.settle how copyOn b.entries consumed
      { entries := (Cache.takeDirty copyOn limit es c).2.1 }
    r.cleaned = b.writtenCount how ∧ r.relink.length = b.size - b.writtenCount how := by
  intro b r
  have hdistinct : b.ids.Nodup := by
    rw [drainedBatch_ids h]
    exact h.links.nodup.sublist (List.take_sublist _ _)
  obtain ⟨hcleaned, hrelink⟩ := Batch.settle_untouched how copyOn hdistinct consumed
    { entries := (Cache.takeDirty copyOn limit es c).2.1 }
    (drainedBatch_fresh h hsettled limit copyOn consumed)
  refine ⟨hcleaned.trans (Nat.zero_add _), ?_⟩
  rw [hrelink]
  simp [b, drainedBatch, Batch.size]

end

/-! ## Going through a batch -/

theorem Batch.firstWithValue_le (peek : EntryId → Option (Value V)) (ps : List (EntryId × Nat)) :
    (firstWithValue peek ps).1 ≤ ps.length := by
  induction ps with
  | nil => exact Nat.le_refl 0
  | cons p ps ih =>
    obtain ⟨id, version⟩ := p
    unfold firstWithValue
    split
    · simp
    · simpa using ih

theorem Batch.next_consumed_le (held : Held) (c : Cache K V) {b : Batch}
    (h : b.consumed ≤ b.size) : (b.next held c).1.consumed ≤ b.size := by
  have hle := firstWithValue_le (c.peek held) (b.entries.drop b.consumed)
  rw [List.length_drop] at hle
  show b.consumed + (firstWithValue (c.peek held) (b.entries.drop b.consumed)).1 ≤ b.size
  unfold Batch.size at h ⊢
  omega

namespace System

/-- The consumer of a batch asks for the next entry once and again, and keeps some of those that it
    is given. -/
def nextAll (name : String) (keeps : List (Option String)) (s : System K V) : System K V :=
  keeps.foldl (fun s keepAs => (s.next name keepAs).1) s

variable {s : System K V} {name : String}

/-- That changes how much of the batch is consumed, and what the clients have kept. -/
theorem nextAll_eq {bs : Names Batch} {b : Batch} (hb : s.batches = bs.keep name b)
    (hle : b.consumed ≤ b.size) (keeps : List (Option String)) :
    ∃ j yields, j ≤ b.size ∧ s.nextAll name keeps =
      { s with batches := bs.keep name { b with consumed := j }, yields } := by
  induction keeps generalizing s b with
  | nil => exact ⟨b.consumed, s.yields, hle, by rw [← hb]; rfl⟩
  | cons keepAs keeps ih =>
    have hfind : s.batches.find? name = some b := by rw [hb, Names.find?_keep]
    have hnext : (s.next name keepAs).1.batches = bs.keep name (b.next s.held s.cache).1 := by
      unfold next
      rw [hfind, hb]
      exact Names.keep_keep bs name b _
    obtain ⟨j, yields, hj, hrest⟩ := ih hnext (Batch.next_consumed_le s.held s.cache hle)
    refine ⟨j, yields, hj, ?_⟩
    rw [nextAll, List.foldl_cons, ← nextAll, hrest]
    unfold next
    rw [hfind]
    rfl

/-! ## The batch is closed -/

/-- The system is as before, but for the events that were reported and the entries that clients have
    kept. -/
def GivenBack (s u : System K V) : Prop :=
  ∃ log yields, u = { s with cache := { s.cache with log }, yields }

/-- The first `n` entries of the chain have been written back and have left it. -/
structure WrittenBack (n : Nat) (s u : System K V) : Prop where
  linked : u.linked = s.linked.drop n
  length : u.cache.dirtyLength = s.cache.dirtyLength - n
  /-- Those entries are clean and no longer members. -/
  clean : ∀ id ∈ s.linked.take n, ∃ e, u.cache.entries[id]? = some e ∧ e.inChain = false ∧
    ∀ v, e.value ≠ .dirty v
  /-- Nothing else of them has changed, and nothing of the others. -/
  entries : ∀ id : EntryId, u.cache.entries[id]? = s.cache.entries[id]?.map fun e =>
    if id ∈ s.linked.take n then e.writtenBack else e
  /-- Nothing else has changed. -/
  rest : ∃ entries chain log yields,
    u = { s with cache := { s.cache with entries, chain, log }, yields }

/-- The system once its first entries have been drained, consumed up to some point, and the batch
    has been finished. -/
structure Finished (limit : Nat) (copyOn : Bool) (consumed : Nat) (how : Finish) (s u : System K V) :
    Prop where
  entries : u.cache.entries = ((drainedBatch limit copyOn consumed s.cache.entries
    s.cache.chain).finish how (Cache.takeDirty copyOn limit s.cache.entries s.cache.chain).2.1
      (Cache.takeDirty copyOn limit s.cache.entries s.cache.chain).2.2).1
  chain : u.cache.chain = ((drainedBatch limit copyOn consumed s.cache.entries
    s.cache.chain).finish how (Cache.takeDirty copyOn limit s.cache.entries s.cache.chain).2.1
      (Cache.takeDirty copyOn limit s.cache.entries s.cache.chain).2.2).2
  rest : ∃ entries chain log yields,
    u = { s with cache := { s.cache with entries, chain, log }, yields }

variable {limit consumed : Nat} {copyOn : Bool} {how : Finish} {u : System K V}

/-- The entries that counted as written have been written back. -/
theorem Finished.writtenBack (h : s.Finished limit copyOn consumed how u) (hs : s.Sound)
    (hsettled : ∀ (id : EntryId) (e : Entry K V),
      s.cache.entries[id]? = some e → e.value ≠ .pending) :
    s.WrittenBack ((drainedBatch limit copyOn consumed s.cache.entries
      s.cache.chain).writtenCount how) u := by
  obtain ⟨ids, hc⟩ := hs.ledger.chained
  have hlinked : s.linked = ids := hc.links.toList_eq
  obtain ⟨hlinks, hentries⟩ := drain_finish hc hsettled limit copyOn consumed how
  have hlinks' : Links u.cache.entries u.cache.chain (ids.drop ((drainedBatch limit copyOn consumed
      s.cache.entries s.cache.chain).writtenCount how)) := by
    rw [h.entries, h.chain]
    exact hlinks
  refine ⟨?_, ?_, fun id hid => ?_, fun id => ?_, h.rest⟩
  · rw [hlinked]
    exact hlinks'.toList_eq
  · have hlength : s.cache.chain.length = ids.length := hc.links.length
    rw [Cache.dirtyLength, Cache.dirtyLength, hlinks'.length, hlength, List.length_drop]
  · rw [hlinked] at hid
    have hlt : id < s.cache.entries.size := hc.links.known id (List.mem_of_mem_take hid)
    refine ⟨s.cache.entries[id].writtenBack, ?_, rfl, s.cache.entries[id].value.clean_ne_dirty⟩
    rw [h.entries, hentries id, Array.getElem?_eq_getElem hlt, Option.map_some, if_pos hid]
  · rw [h.entries, hlinked]
    exact hentries id

/-- If none counted as written, everything is as before. -/
theorem Finished.givenBack (h : s.Finished limit copyOn consumed how u) (hs : s.Sound)
    (hsettled : ∀ (id : EntryId) (e : Entry K V),
      s.cache.entries[id]? = some e → e.value ≠ .pending)
    (hnone : Batch.isWritten how copyOn true = false) : s.GivenBack u := by
  obtain ⟨ids, hc⟩ := hs.ledger.chained
  obtain ⟨hlinks, hentries⟩ := drain_finish hc hsettled limit copyOn consumed how
  have hzero : (drainedBatch limit copyOn consumed s.cache.entries
      s.cache.chain).writtenCount how = 0 := by
    rw [Batch.writtenCount, drainedBatch, hnone, if_neg Bool.false_ne_true]
  obtain ⟨entries, chain, log, yields, rfl⟩ := h.rest
  have hsame : entries = s.cache.entries := by
    apply Array.ext_getElem?
    intro id
    refine (congrArg (·[id]?) h.entries).trans ((hentries id).trans ?_)
    rw [hzero, List.take_zero]
    simp
  have hchain : chain = s.cache.chain := by
    rw [hzero, List.drop_zero] at hlinks
    exact Eq.trans h.chain (hc.links.chain_eq hlinks)
  exact ⟨log, yields, by rw [hsame, hchain]⟩

/-- A batch has been drained, its consumer has got past some of the entries, and nothing else has
    happened. -/
def midway (name : String) (limit : Nat) (copyOn : Bool) (consumed : Nat) (yields : Names (Yield V))
    (s : System K V) : System K V :=
  { s with
    cache := (s.cache.drain limit copyOn).1
    batches := s.batches.keep name { (s.cache.drain limit copyOn).2 with consumed }
    yields }

/-- Draining a batch under a new name, and going through it. -/
theorem drain_nextAll (hname : s.batches.find? name = none) (limit : Nat) (copyOn : Bool)
    (keeps : List (Option String)) :
    ∃ j yields, j ≤ (s.cache.drain limit copyOn).2.size ∧
      (s.drain name limit copyOn).nextAll name keeps = s.midway name limit copyOn j yields := by
  have hdrain : s.drain name limit copyOn = s.midway name limit copyOn 0 s.yields := by
    rw [drain_eq, hname]
    rfl
  rw [hdrain]
  exact nextAll_eq rfl (Nat.zero_le _) keeps

variable (limit consumed copyOn how) in
/-- Finishing the batch, and the count that it gives. -/
theorem midway_finish (hname : s.batches.find? name = none) (yields : Names (Yield V)) :
    let b := drainedBatch (min limit s.cache.entries.size) copyOn consumed s.cache.entries
      s.cache.chain
    let r := Batch.settle how copyOn b.entries consumed { entries :=
      (Cache.takeDirty copyOn (min limit s.cache.entries.size) s.cache.entries s.cache.chain).2.1 }
    let t := s.midway name limit copyOn consumed yields
    s.Finished (min limit s.cache.entries.size) copyOn consumed how (t.finish name how).1 ∧
      (t.finish name how).2 = some (if how = .commit then r.cleaned else r.relink.length) := by
  intro b r t
  have hfind : t.batches.find? name = some b := Names.find?_keep _ _ _
  have hforget : t.batches.forget name = s.batches := Names.forget_keep hname _
  have hfinish : t.finish name how = ({ t with
      cache := (t.cache.finish how b).1, batches := s.batches }, some (t.cache.finish how b).2) := by
    unfold finish
    rw [hfind, ← hforget]
    rfl
  rw [hfinish]
  exact ⟨⟨rfl, rfl, _, _, _, yields, rfl⟩, rfl⟩

/-- Forgetting the batch finishes it in the same way. -/
theorem midway_dropBatch (hname : s.batches.find? name = none) (yields : Names (Yield V)) :
    let t := s.midway name limit copyOn consumed yields
    s.Finished (min limit s.cache.entries.size) copyOn consumed
      (if copyOn then .rollback else .abort) (t.dropBatch name) := by
  intro t
  let b := drainedBatch (min limit s.cache.entries.size) copyOn consumed s.cache.entries
    s.cache.chain
  have hfind : t.batches.find? name = some b := Names.find?_keep _ _ _
  have hforget : t.batches.forget name = s.batches := Names.forget_keep hname _
  have hdrop : t.dropBatch name =
      { t with cache := t.cache.dropBatch b, batches := s.batches } := by
    unfold dropBatch
    rw [hfind, ← hforget]
    rfl
  have hcache : ∃ entries chain log,
      t.cache.dropBatch b = { s.cache with entries, chain, log } := by
    unfold Cache.dropBatch
    split
    · exact ⟨_, _, _, rfl⟩
    · exact ⟨_, _, _, rfl⟩
  obtain ⟨hentries, hchain⟩ := t.cache.dropBatch_entries b
  obtain ⟨entries, chain, log, hcache⟩ := hcache
  rw [hdrop]
  exact ⟨hentries, hchain, entries, chain, log, yields, by rw [hcache]; rfl⟩

/-- What closing a batch makes of it, by the way in which it is closed. The batch holds the first
    `m` entries of the chain, and its consumer has got past `j` of them. -/
structure RoundTrip (name : String) (copyOn : Bool) (m j : Nat) (s t : System K V) : Prop where
  rollback : (t.finish name .rollback).2 = some m ∧ s.GivenBack (t.finish name .rollback).1
  commit : (t.finish name .commit).2 = some j ∧ s.WrittenBack j (t.finish name .commit).1
  abort_direct : copyOn = false →
    (t.finish name .abort).2 = some m ∧ s.GivenBack (t.finish name .abort).1
  abort_copyOn : copyOn = true →
    (t.finish name .abort).2 = some (m - j) ∧ s.WrittenBack j (t.finish name .abort).1
  forgotten : s.GivenBack (t.dropBatch name)

/-- Draining takes the first entries of the chain. -/
theorem drain_taken (hs : s.Sound) (hname : s.batches.find? name = none) (limit : Nat)
    (copyOn : Bool) :
    (s.cache.drain limit copyOn).2.ids = s.linked.take (min limit s.linked.length) ∧
      (s.drain name limit copyOn).linked = s.linked.drop (min limit s.linked.length) := by
  obtain ⟨ids, hc⟩ := hs.ledger.chained
  have hlinked : s.linked = ids := hc.links.toList_eq
  have hlength : ids.length ≤ s.cache.entries.size := hc.links.length_le
  obtain ⟨hfirst, hlinks, -, -⟩ :=
    Cache.takeDirty_taken copyOn (min limit s.cache.entries.size) hc.links
  have hcache : (s.drain name limit copyOn).cache = (s.cache.drain limit copyOn).1 := by
    rw [drain_eq, hname]
  -- The bound by the number of all entries never matters.
  have hbound : min (min limit s.cache.entries.size) ids.length = min limit ids.length := by omega
  constructor
  · rw [hlinked, ← hbound, ← List.take_eq_take_min]
    exact hfirst
  · rw [linked, hcache, hlinked, ← hbound, ← List.drop_eq_drop_min]
    exact hlinks.toList_eq

section

variable {m : Nat} (hs : s.Sound) (hname : s.batches.find? name = none)
  (hsettled : ∀ (id : EntryId) (e : Entry K V), s.cache.entries[id]? = some e → e.value ≠ .pending)
  (hm : (s.cache.drain limit copyOn).2.size = m) (yields : Names (Yield V))
include hs hname hsettled hm

/-- A batch of which nothing counts as written is given back, and all of it is counted. -/
theorem midway_givenBack (hnone : Batch.isWritten how copyOn true = false) :
    let t := s.midway name limit copyOn consumed yields
    (t.finish name how).2 = some m ∧ s.GivenBack (t.finish name how).1 := by
  intro t
  obtain ⟨ids, hc⟩ := hs.ledger.chained
  obtain ⟨hfinished, hcount⟩ := midway_finish limit consumed copyOn how hname yields
  obtain ⟨-, hback⟩ := drain_finish_counts hc hsettled
    (min limit s.cache.entries.size) copyOn consumed how
  have hcommit : how ≠ .commit := by
    rintro rfl
    cases hnone
  refine ⟨?_, hfinished.givenBack hs hsettled hnone⟩
  rw [if_neg hcommit, hback, Batch.writtenCount, drainedBatch, hnone,
    if_neg Bool.false_ne_true, Nat.sub_zero] at hcount
  exact hm ▸ hcount

/-- A batch that counts as written leaves the chain as far as it was consumed. -/
theorem midway_writtenBack (hwrites : Batch.isWritten how copyOn true = true)
    (hj : consumed ≤ m) :
    let t := s.midway name limit copyOn consumed yields
    (t.finish name how).2 = some (if how = .commit then consumed else m - consumed) ∧
      s.WrittenBack consumed (t.finish name how).1 := by
  intro t
  obtain ⟨ids, hc⟩ := hs.ledger.chained
  obtain ⟨hfinished, hcount⟩ := midway_finish limit consumed copyOn how hname yields
  obtain ⟨hcleaned, hback⟩ := drain_finish_counts hc hsettled
    (min limit s.cache.entries.size) copyOn consumed how
  have hsize : (drainedBatch (min limit s.cache.entries.size) copyOn consumed s.cache.entries
      s.cache.chain).size = m := hm
  have hwritten : (drainedBatch (min limit s.cache.entries.size) copyOn consumed s.cache.entries
      s.cache.chain).writtenCount how = consumed := by
    rw [Batch.writtenCount, hsize]
    exact (if_pos hwrites).trans (Nat.min_eq_left hj)
  rw [hcleaned, hback, hwritten, hsize] at hcount
  exact ⟨hcount, hwritten ▸ hfinished.writtenBack hs hsettled⟩

/-- The ways to close a batch. -/
theorem midway_roundTrip (hj : consumed ≤ m) :
    s.RoundTrip name copyOn m consumed (s.midway name limit copyOn consumed yields) where
  rollback := midway_givenBack hs hname hsettled hm yields (by simp [Batch.isWritten])
  commit := midway_writtenBack hs hname hsettled hm yields (by simp [Batch.isWritten]) hj
  abort_direct := by
    rintro rfl
    exact midway_givenBack hs hname hsettled hm yields rfl
  abort_copyOn := by
    rintro rfl
    exact midway_writtenBack hs hname hsettled hm yields rfl hj
  forgotten := by
    refine (midway_dropBatch hname yields).givenBack hs hsettled ?_
    cases copyOn <;> rfl

end

end System

/-- Draining a batch and giving it back, however far its consumer has come, leaves everything as it
    was; writing it back takes the entries that were consumed out of the chain, and nothing else. -/
theorem drained_given_back [DecidableEq K] {s : System K V} (hs : s.Reachable)
    (hidle : ∀ call ∈ s.calls, call.isRunning = false) {name : String}
    (hname : s.batches.find? name = none) (limit : Nat) (copyOn : Bool)
    (keeps : List (Option String)) :
    let m := min limit s.linked.length
    let drained := s.drain name limit copyOn
    let t := drained.nextAll name keeps
    ∃ b j, drained.batches.find? name = some b ∧ b.copyOn = copyOn ∧
      b.ids = s.linked.take m ∧ drained.linked = s.linked.drop m ∧
      t.batches.find? name = some { b with consumed := j } ∧ j ≤ m ∧
      s.RoundTrip name copyOn m j t := by
  intro m drained t
  -- No callback runs, so the consumer passes over no entry.
  have hsettled : ∀ (id : EntryId) (e : Entry K V),
      s.cache.entries[id]? = some e → e.value ≠ .pending := by
    intro id e he hpending
    exact (pending_owned hs).idle hidle id ((Cache.valueOf_eq he).trans hpending)
  obtain ⟨hids, hrest⟩ := System.drain_taken hs.sound hname limit copyOn
  have hsize : (s.cache.drain limit copyOn).2.size = m := by
    rw [Batch.size, ← List.length_map, ← Batch.ids, hids, List.length_take]
    omega
  obtain ⟨j, yields, hj, ht⟩ := System.drain_nextAll hname limit copyOn keeps
  have hfind : t.batches.find? name = some { (s.cache.drain limit copyOn).2 with consumed := j } := by
    rw [show t = _ from ht]
    exact Names.find?_keep _ _ _
  refine ⟨_, j, System.drain_find? name limit copyOn s, rfl, hids, hrest, hfind,
    hsize ▸ hj, ?_⟩
  rw [show t = _ from ht]
  exact System.midway_roundTrip hs.sound hname hsettled hsize yields (hsize ▸ hj)

/-- Of three changed entries one is in an open batch; the other two are drained in copy-on mode, and
    one of them is consumed. -/
theorem drained_given_back_consumed :
    let s : System Nat Nat := (System.new {} (.manual 0) fun _ => 0).actAll
      [.spawn (.update 1), .advance 0, .advance 0, .resume (.value 5) 0, .advance 0,
       .spawn (.update 2), .advance 1, .advance 1, .resume (.value 6) 1, .advance 1,
       .spawn (.update 3), .advance 2, .advance 2, .resume (.value 7) 2, .advance 2,
       .upkeep (.drain "b" 1 false)]
    let t := (s.drain "c" 9 true).nextAll "c" [none]
    s.linked = [1, 2] ∧ (t.batches.find? "c").map Batch.consumed = some 1 ∧
      s.RoundTrip "c" true 2 1 t := by
  intro s t
  have hs : s.Reachable := ⟨_, _, _, _, rfl⟩
  have hlinked : s.linked = [1, 2] := by decide +kernel
  have hname : s.batches.find? "c" = none := by decide +kernel
  have hconsumed : (t.batches.find? "c").map Batch.consumed = some 1 := by decide +kernel
  obtain ⟨b, j, -, -, -, -, hfind, -, htrip⟩ :=
    drained_given_back hs (by decide +kernel) hname 9 true [none]
  obtain rfl : j = 1 := by
    rw [show t.batches.find? "c" = _ from hfind] at hconsumed
    exact Option.some.inj hconsumed
  rw [hlinked] at htrip
  exact ⟨hlinked, hconsumed, htrip⟩

end ReadThrough
