import ReadThrough.Proofs.WriteBack.Ledger

/-! # Membership of the Dirty Chain

  Where the members of the dirty chain are.

  - **Chained**: the links fit a list of entries; every member is in that list or in an open batch
    in direct mode, and there only once; batches know versions that their entries had.
  - **Chained.step**: every change of a ledger keeps this.
-/

namespace ReadThrough.Ledger

open DirtyChain

variable {K V : Type}

/-- The chain links `ids`, and its members are where they belong. -/
structure Chained (L : Ledger K V) (ids : List EntryId) : Prop where
  links : Links L.entries L.chain ids
  once : (ids ++ L.members).Nodup
  member : ∀ id e, L.entries[id]? = some e → (e.inChain = true ↔ id ∈ ids ++ L.members)
  recorded : ∀ b ∈ L.batches, ∀ id version, (id, version) ∈ b.entries →
    ∃ e, L.entries[id]? = some e ∧ version ≤ e.version
  distinct : ∀ b ∈ L.batches, b.ids.Nodup

section

variable {es es' : Entries K V} {c c' : DirtyChain} {b : Batch} {bs bs' : List Batch}
  {fs fs' : List (Flight V)} {ids : List EntryId} {id : EntryId}

theorem chained_empty : Chained (⟨#[], {}, [], []⟩ : Ledger K V) [] where
  links := links_empty _ fun _ => rfl
  once := List.nodup_nil
  member := by simp
  recorded := by simp
  distinct := by simp

@[simp] theorem members_cons : members (⟨es, c, b :: bs, fs⟩ : Ledger K V) =
    b.members ++ members (⟨es, c, bs, fs⟩ : Ledger K V) :=
  List.flatMap_cons

/-- A member in an open batch is an entry. -/
theorem Chained.lt_size (h : Chained ⟨es, c, bs, fs⟩ ids)
    (hid : id ∈ ids ++ members (⟨es, c, bs, fs⟩ : Ledger K V)) : id < es.size := by
  rcases List.mem_append.1 hid with hid | hid
  · exact h.links.known id hid
  · obtain ⟨b, hb, hid⟩ := List.mem_flatMap.1 hid
    unfold Batch.members at hid
    split at hid
    · cases hid
    · obtain ⟨i, version, hi⟩ := Batch.exists_index_of_mem_ids hid
      obtain ⟨e, he, -⟩ := h.recorded b hb id version (List.mem_of_getElem? hi)
      exact (Array.getElem?_eq_some_iff.1 he).1

theorem Chained.perm (h : Chained ⟨es, c, bs, fs⟩ ids) (hb : bs.Perm bs') :
    Chained ⟨es, c, bs', fs'⟩ ids where
  links := h.links
  once := ((hb.flatMap_right Batch.members).append_left ids).nodup_iff.1 h.once
  member := fun id e he =>
    (h.member id e he).trans ((hb.flatMap_right Batch.members).append_left ids).mem_iff
  recorded := fun b hmem => h.recorded b (hb.mem_iff.2 hmem)
  distinct := fun b hmem => h.distinct b (hb.mem_iff.2 hmem)

/-- Entries that keep membership, version and successor leave everything in its place. -/
theorem Chained.of_each (h : Chained ⟨es, c, bs, fs⟩ ids)
    {R : EntryId → Entry K V → Entry K V → Prop} (hes : Entries.Each R es es')
    (hR : ∀ id e e', R id e e' → e'.inChain = e.inChain ∧ e'.version = e.version ∧
      e'.nextDirty? = e.nextDirty?) : Chained ⟨es', c, bs, fs'⟩ ids where
  links := h.links.of_each hes fun id e e' hr => (hR id e e' hr).2.2
  once := h.once
  member := fun id e' he' => by
    obtain ⟨e, he, hr⟩ := hes.backward he'
    rw [(hR id e e' hr).1]
    exact h.member id e he
  recorded := fun b hb id version hmem => by
    obtain ⟨e, he, hle⟩ := h.recorded b hb id version hmem
    obtain ⟨e', he', hr⟩ := hes.2 id e he
    exact ⟨e', he', (hR id e e' hr).2.1 ▸ hle⟩
  distinct := h.distinct

/-- A new entry is no member. -/
theorem Chained.push (h : Chained ⟨es, c, bs, fs⟩ ids) {x : Entry K V} (hin : x.inChain = false)
    (hnext : x.nextDirty? = none) : Chained ⟨es.push x, c, bs, fs'⟩ ids where
  links := h.links.push hnext
  once := h.once
  member := fun id e he => by
    dsimp only at he
    rw [Array.getElem?_push] at he
    split at he
    · next hid =>
      obtain rfl := Option.some.inj he
      subst hid
      rw [hin]
      exact ⟨fun hfalse => by simp at hfalse, fun hmem => absurd (h.lt_size hmem) (by simp)⟩
    · exact h.member id e he
  recorded := fun b hb id version hmem => by
    obtain ⟨e, he, hle⟩ := h.recorded b hb id version hmem
    exact ⟨e, Entries.getElem?_push_of_some he, hle⟩
  distinct := h.distinct

/-! ## Marking an entry -/

/-- An entry that is marked dirty is a member afterwards; it is linked behind the others unless it
    was one before. -/
theorem Chained.enlist (h : Chained ⟨es, c, bs, fs⟩ ids) (hlt : id < es.size) (v : Value V) :
    ∃ ids', Chained ⟨(c.enlist id v es).1, (c.enlist id v es).2, bs, fs'⟩ ids' := by
  obtain ⟨e, he⟩ : ∃ e, es[id]? = some e := ⟨es[id], Array.getElem?_eq_getElem hlt⟩
  have heach := enlist_each id v es c
  -- Batches and versions are the same matter in both cases.
  have hrecorded : ∀ b ∈ bs, ∀ j version, (j, version) ∈ b.entries →
      ∃ e', (c.enlist id v es).1[j]? = some e' ∧ version ≤ e'.version := by
    intro b hb j version hmem
    obtain ⟨e', he', hle⟩ := h.recorded b hb j version hmem
    obtain ⟨e'', he'', n, rfl⟩ := heach.2 j e' he'
    refine ⟨_, he'', ?_⟩
    by_cases hj : j = id
    · simpa [hj, Entry.enlist] using Nat.le_succ_of_le hle
    · simpa [hj] using hle
  have hmarked : ∀ j e', (c.enlist id v es).1[j]? = some e' →
      (e'.inChain = true ↔ j = id ∨ j ∈ ids ++ members (⟨es, c, bs, fs⟩ : Ledger K V)) := by
    intro j e' he'
    obtain ⟨a, ha, n, rfl⟩ := heach.backward he'
    by_cases hj : j = id
    · simp [hj, Entry.enlist]
    · simpa [hj] using h.member j a ha
  by_cases hin : e.inChain = true
  · have hmem : id ∈ ids ++ members (⟨es, c, bs, fs⟩ : Ledger K V) := (h.member id e he).1 hin
    have hlist : c.enlist id v es = (es.modify id (Entry.enlist v), c) := by
      simp [DirtyChain.enlist, he, hin]
    exact ⟨ids, {
      links := by
        rw [hlist]
        exact h.links.of_each (R := fun _ e e' => e'.nextDirty? = e.nextDirty?)
          (Entries.each_modify id _ (fun _ _ => rfl) fun _ _ _ => rfl) fun _ _ _ hr => hr
      once := h.once
      member := fun j e' he' => by
        rw [hmarked j e' he']
        exact ⟨fun hor => hor.elim (fun hj => hj ▸ hmem) fun hm => hm, Or.inr⟩
      recorded := hrecorded
      distinct := h.distinct }⟩
  · have hnot : id ∉ ids ++ members (⟨es, c, bs, fs⟩ : Ledger K V) :=
      fun hmem => hin ((h.member id e he).2 hmem)
    have hlist : c.enlist id v es = c.pushBack id (es.modify id (Entry.enlist v)) := by
      simp [DirtyChain.enlist, he, hin]
    have hlinks : Links (es.modify id (Entry.enlist v)) c ids :=
      h.links.of_each (R := fun _ e e' => e'.nextDirty? = e.nextDirty?)
        (Entries.each_modify id _ (fun _ _ => rfl) fun _ _ _ => rfl) fun _ _ _ hr => hr
    simp only [List.mem_append, not_or] at hnot
    exact ⟨ids ++ [id], {
      links := by
        rw [hlist]
        exact pushBack_links hlinks hnot.1 (by simpa using hlt)
      once := by
        have hperm : (ids ++ [id] ++ members (⟨es, c, bs, fs⟩ : Ledger K V)).Perm
            (id :: (ids ++ members (⟨es, c, bs, fs⟩ : Ledger K V))) := by
          simp [List.perm_middle]
        refine hperm.nodup_iff.2 (List.nodup_cons.2 ⟨?_, h.once⟩)
        simpa using hnot
      member := fun j e' he' => by
        rw [hmarked j e' he']
        simp only [List.mem_append, List.mem_singleton, members]
        tauto
      recorded := hrecorded
      distinct := h.distinct }⟩

/-! ## Draining a batch -/

/-- In direct mode the taken entries are members in their batch now; in copy-on mode they are
    members no more. -/
theorem Chained.drain (h : Chained ⟨es, c, bs, fs⟩ ids) (limit : Nat) (copyOn : Bool) :
    Chained ⟨(Cache.takeDirty copyOn limit es c).2.1, (Cache.takeDirty copyOn limit es c).2.2,
      { entries := (Cache.takeDirty copyOn limit es c).1, copyOn } :: bs, fs'⟩
      (ids.drop limit) := by
  obtain ⟨hfirst, hlinks, heach, hversions⟩ := Cache.takeDirty_taken copyOn limit h.links
  have hids : Batch.ids { entries := (Cache.takeDirty copyOn limit es c).1, copyOn } =
      ids.take limit := hfirst
  have honce := h.once
  rw [← List.take_append_drop limit ids, List.append_assoc] at honce
  have hmember : ∀ j e, es[j]? = some e → (e.inChain = true ↔
      j ∈ ids.take limit ++ (ids.drop limit ++ members (⟨es, c, bs, fs⟩ : Ledger K V))) := by
    intro j e he
    rw [← List.append_assoc, List.take_append_drop]
    exact h.member j e he
  exact {
    links := hlinks
    once := by
      cases copyOn with
      | true => exact (List.nodup_append.1 honce).2.1
      | false =>
        have hperm (xs ys zs : List EntryId) : (xs ++ (ys ++ zs)).Perm (ys ++ (xs ++ zs)) := by
          rw [← List.append_assoc, ← List.append_assoc]
          exact List.perm_append_comm.append_right zs
        rw [members_cons, Batch.members, hids]
        exact (hperm _ _ _).nodup_iff.1 honce
    member := fun j e' he' => by
      obtain ⟨e, he, n, rfl⟩ := heach.backward he'
      have hmem := hmember j e he
      cases copyOn with
      -- The taken entries have moved from the front of the list to the new batch.
      | false =>
        simp only [members_cons, Batch.members, hids, Bool.false_eq_true, if_false, false_and]
        rw [hmem]
        simp only [List.mem_append, members]
        tauto
      -- The taken entries are members nowhere now.
      | true =>
        have hdisj : j ∈ ids.take limit →
            j ∉ ids.drop limit ++ members (⟨es, c, bs, fs⟩ : Ledger K V) := fun htake hrest =>
          (List.nodup_append.1 honce).2.2 j htake j hrest rfl
        by_cases htake : j ∈ ids.take limit
        · simpa [Batch.members, htake, members] using hdisj htake
        · simpa [Batch.members, htake, members] using hmem
    recorded := fun b hb j version hmem => by
      rcases List.mem_cons.1 hb with rfl | hb
      · obtain ⟨e, he, hv⟩ := hversions _ hmem
        obtain ⟨e', he', n, rfl⟩ := heach.2 j e he
        exact ⟨_, he', Nat.le_of_eq hv⟩
      · obtain ⟨e, he, hle⟩ := h.recorded b hb j version hmem
        obtain ⟨e', he', n, rfl⟩ := heach.2 j e he
        exact ⟨_, he', hle⟩
    distinct := fun b hb => by
      rcases List.mem_cons.1 hb with rfl | hb
      · rw [hids]
        exact h.links.nodup.sublist (List.take_sublist limit ids)
      · exact h.distinct b hb }

/-! ## Finishing a batch -/

/-- What a batch in direct mode holds is a member nowhere else. -/
theorem Chained.not_mem_of_direct (h : Chained ⟨es, c, b :: bs, fs⟩ ids) (hid : id ∈ b.ids)
    (hdirect : b.copyOn = false) : id ∉ ids ++ members (⟨es, c, bs, fs⟩ : Ledger K V) := by
  have hmem : id ∈ b.members := by simpa [Batch.members, hdirect] using hid
  have honce := h.once
  rw [members_cons, List.nodup_append, List.nodup_append] at honce
  obtain ⟨-, ⟨-, -, hrest⟩, hlinked⟩ := honce
  rw [List.mem_append]
  rintro (hin | hin)
  · exact hlinked id hin id (List.mem_append_left _ hmem) rfl
  · exact hrest id hmem id hin rfl

/-- Membership as the batches see it that stay open. -/
theorem Chained.member_of_copyOn (h : Chained ⟨es, c, b :: bs, fs⟩ ids) {e : Entry K V}
    (he : es[id]? = some e) (hb : b.copyOn = true ∨ id ∉ b.ids) :
    e.inChain = true ↔ id ∈ ids ++ members (⟨es, c, bs, fs⟩ : Ledger K V) := by
  have hmem : id ∉ b.members := by
    unfold Batch.members
    split
    · exact List.not_mem_nil
    · next hcopy => exact hb.resolve_left hcopy
  rw [h.member id e he, members_cons]
  simp only [List.mem_append, hmem, false_or]

/-- After its fate, an entry of a batch is a member if it goes back or if it is one elsewhere. -/
theorem Chained.fate_member (h : Chained ⟨es, c, b :: bs, fs⟩ ids) (how : Finish) {i version : Nat}
    {e : Entry K V} {back : List EntryId} (he : es[id]? = some e)
    (hi : b.entries[i]? = some (id, version))
    (hback : id ∈ back ↔
      Batch.fate how b.copyOn (decide (i < b.consumed)) version e = .relink) :
    ((Batch.fate how b.copyOn (decide (i < b.consumed)) version e).apply b.copyOn e).inChain =
      true ↔ id ∈ back ∨ id ∈ ids ++ members (⟨es, c, bs, fs⟩ : Ledger K V) := by
  have hin : id ∈ b.ids := Batch.mem_ids (List.mem_of_getElem? hi)
  cases hfate : Batch.fate how b.copyOn (decide (i < b.consumed)) version e with
  -- What becomes clean was a member in this batch at most.
  | clean =>
    have hnot : id ∉ back := by simp [hback, hfate]
    have hrest : id ∉ ids ++ members (⟨es, c, bs, fs⟩ : Ledger K V) := by
      cases hcopy : b.copyOn with
      | false => exact h.not_mem_of_direct hin hcopy
      | true =>
        rw [← h.member_of_copyOn he (.inl hcopy), (Batch.fate_eq_clean hfate).2.2.2 hcopy]
        simp
    simp only [Batch.Fate.apply, hnot, hrest, or_self, Bool.false_eq_true]
  -- What is left alone is a member where it was.
  | leave =>
    have hnot : id ∉ back := by simp [hback, hfate]
    simp only [Batch.Fate.apply, hnot, false_or]
    exact h.member_of_copyOn he (.inl (Batch.fate_eq_leave hfate).1)
  -- What goes back is a member again, or it has never ceased to be one.
  | relink =>
    simp only [Batch.Fate.apply, hback.2 hfate, true_or, iff_true, Bool.or_eq_true]
    cases hcopy : b.copyOn with
    | true => exact .inr rfl
    | false =>
      refine .inl ((h.member id e he).2 ?_)
      rw [members_cons]
      simp [Batch.members, hcopy, hin]

/-- The entries that go back are linked in front of the others, which stay where they were. -/
theorem Chained.finish (h : Chained ⟨es, c, b :: bs, fs⟩ ids) (how : Finish) :
    ∃ back, Chained ⟨(b.finish how es c).1, (b.finish how es c).2, bs, fs'⟩ (back ++ ids) := by
  have hdistinct : (b.entries.map Prod.fst).Nodup := h.distinct b List.mem_cons_self
  obtain ⟨back, hback, hsub, hrelink⟩ :=
    Batch.settle_relink how b.copyOn hdistinct b.consumed { entries := es }
  have heach := finish_each how b (h.distinct b List.mem_cons_self) es c
  have hreverse : (Batch.settle how b.copyOn b.entries b.consumed
      { entries := es }).relink.reverse = back := by simp [hback]
  -- No entry goes back that is a member elsewhere.
  have hfree : ∀ id ∈ back, id ∉ ids ++ members (⟨es, c, bs, fs⟩ : Ledger K V) := by
    intro id hid
    have hin : id ∈ b.ids := hsub.subset hid
    obtain ⟨i, version, hi⟩ := Batch.exists_index_of_mem_ids hin
    obtain ⟨e, he, -⟩ :=
      h.recorded b List.mem_cons_self id version (List.mem_of_getElem? hi)
    cases hcopy : b.copyOn with
    | false => exact h.not_mem_of_direct hin hcopy
    | true =>
      have hfate := Batch.fate_eq_relink ((hrelink i id version e hi he).1 hid) hcopy
      rw [← h.member_of_copyOn he (.inl hcopy)]
      simp [hfate]
  have hnodup : (back ++ (ids ++ members (⟨es, c, bs, fs⟩ : Ledger K V))).Nodup := by
    rw [List.nodup_append]
    refine ⟨hdistinct.sublist hsub, ?_, fun x hx y hy => ?_⟩
    · have honce := h.once
      rw [members_cons] at honce
      exact honce.sublist ((List.sublist_append_right _ _).append_left ids)
    · rintro rfl
      exact hfree x hx hy
  exact ⟨back, {
    links := by
      have hlinks : Links (Batch.settle how b.copyOn b.entries b.consumed
          { entries := es }).entries c ids := by
        refine h.links.of_each (Batch.settle_each how b.copyOn hdistinct _ _) ?_
        rintro id e e' (⟨-, rfl⟩ | ⟨i, version, -, rfl⟩)
        · rfl
        · exact (Batch.apply_fields _ _ e).2.2.2
      unfold Batch.finish
      dsimp only
      rw [hreverse]
      refine pushFrontAll_links hlinks ?_ fun id hid => ?_
      · exact hnodup.sublist ((List.sublist_append_left _ _).append_left back)
      · obtain ⟨i, version, hi⟩ := Batch.exists_index_of_mem_ids (b := b) (hsub.subset hid)
        obtain ⟨e, he, -⟩ :=
          h.recorded b List.mem_cons_self id version (List.mem_of_getElem? hi)
        rw [(Batch.settle_each how b.copyOn hdistinct b.consumed { entries := es }).1]
        exact (Array.getElem?_eq_some_iff.1 he).1
    once := by
      rw [List.append_assoc]
      exact hnodup
    member := fun id e' he' => by
      obtain ⟨e, he, n, d, hd, rfl⟩ := heach.backward he'
      rw [List.append_assoc, List.mem_append]
      show d.inChain = true ↔ id ∈ back ∨ id ∈ ids ++ members (⟨es, c, bs, fs⟩ : Ledger K V)
      rcases hd with ⟨hnot, rfl⟩ | ⟨i, version, hi, rfl⟩
      · -- The entry is not in the batch.
        have hback' : id ∉ back := fun hmem => hnot (hsub.subset hmem)
        rw [h.member_of_copyOn he (.inr hnot)]
        simp [hback']
      · exact h.fate_member how he hi (hrelink i id version e hi he)
    recorded := fun b' hb' id version hmem => by
      obtain ⟨e, he, hle⟩ := h.recorded b' (List.mem_cons_of_mem _ hb') id version hmem
      obtain ⟨e', he', hr⟩ := heach.2 id e he
      exact ⟨e', he', hr.fields.2.2.1 ▸ hle⟩
    distinct := fun b' hb' => h.distinct b' (List.mem_cons_of_mem _ hb') }⟩

end

/-- Every change of a ledger keeps the members where they belong. -/
theorem Chained.step {L L' : Ledger K V} {ids : List EntryId} (h : Chained L ids)
    (hs : Step L L') : ∃ ids', Chained L' ids' := by
  cases hs with
  | reorder hb hf => exact ⟨ids, h.perm hb⟩
  | quiet hq => exact ⟨ids, h.of_each hq fun _ _ _ hr => ⟨hr.inChain, hr.version, hr.next⟩⟩
  | insertReady key v now => exact ⟨ids, h.push rfl rfl⟩
  | insertPending key now => exact ⟨ids, h.push rfl rfl⟩
  | @start es c bs fs id e prior he =>
    exact ⟨ids, h.of_each (Entries.each_begin id es)
      fun _ _ _ ⟨hversion, hin, hnext⟩ => ⟨hin, hversion, hnext⟩⟩
  | @settle es c bs fs f g hg =>
    exact ⟨ids, h.of_each (Entries.each_sameMarks f.entry hg es)
      fun _ _ _ hr => ⟨hr.inChain, hr.version, hr.next⟩⟩
  | @enlist es c bs old fs id v g hlt hg =>
    have hmod : Chained ⟨es.modify id g, c, bs, old ++ fs⟩ ids :=
      h.of_each (Entries.each_sameMarks id hg es) fun _ _ _ hr => ⟨hr.inChain, hr.version, hr.next⟩
    exact hmod.enlist (by simpa using hlt) v
  | drain limit copyOn => exact ⟨_, h.drain limit copyOn⟩
  | @consume es c bs fs b n =>
    -- The batch lists what it has listed before.
    exact ⟨ids, {
      links := h.links
      once := h.once
      member := h.member
      recorded := fun b' hb' => by
        rcases List.mem_cons.1 hb' with rfl | hb'
        · exact h.recorded b List.mem_cons_self
        · exact h.recorded b' (List.mem_cons_of_mem _ hb')
      distinct := fun b' hb' => by
        rcases List.mem_cons.1 hb' with rfl | hb'
        · exact h.distinct b List.mem_cons_self
        · exact h.distinct b' (List.mem_cons_of_mem _ hb') }⟩
  | finish how b =>
    obtain ⟨back, hback⟩ := h.finish how
    exact ⟨_, hback⟩

end ReadThrough.Ledger
