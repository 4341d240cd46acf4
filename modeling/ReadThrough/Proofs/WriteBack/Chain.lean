import ReadThrough.Proofs.Entries
import ReadThrough.Proofs.Strung

/-! # The Dirty Chain as a List

  The operations on the links, told as operations on the list of the linked entries.

  - **Links**: first, last, length and successors of a chain fit a list of entries; no entry
    outside the list has a successor.
  - **pushBack**, **popFront**, **pushFront**, **pushFrontAll**: one law each.
  - **toList_eq**: the list that fits a chain is the one that a walk along the links finds.
-/

namespace ReadThrough.DirtyChain

variable {K V : Type} {es es' : Entries K V} {c : DirtyChain} {ids : List EntryId}

/-! ## Successors -/

theorem next?_eq {id : EntryId} {e : Entry K V} (he : es[id]? = some e) :
    next? es id = e.nextDirty? := by
  simp [next?, he]

theorem next?_setNext_self {id : EntryId} {n : Option EntryId} (h : id < es.size) :
    next? (setNext es id n) id = n := by
  simp [next?, setNext, h, Array.getElem_modify]

theorem next?_setNext_ne {i j : EntryId} {n : Option EntryId} (h : j ≠ i) :
    next? (setNext es i n) j = next? es j := by
  simp [next?, setNext, Array.getElem?_modify, h.symm]

@[simp] theorem size_setNext (es : Entries K V) (id : EntryId) (n : Option EntryId) :
    (setNext es id n).size = es.size :=
  Array.size_modify

theorem relinked_setNext (es : Entries K V) (id : EntryId) (n : Option EntryId) :
    Entries.Each (fun _ => Entry.Relinked) es (setNext es id n) :=
  Entries.each_modify id _ (fun _ _ => ⟨n, rfl⟩) fun _ e _ => Entry.Relinked.refl e

/-! ## Links along a list -/

/-- The chain links the entries of a list, in that order. -/
structure Links (es : Entries K V) (c : DirtyChain) (ids : List EntryId) : Prop where
  first : c.first? = ids.head?
  last : c.last? = ids.getLast?
  length : c.length = ids.length
  strung : Strung (next? es) ids
  known : ∀ id ∈ ids, id < es.size
  nodup : ids.Nodup
  loose : ∀ id, id ∉ ids → next? es id = none

/-- The links only depend on the successors. -/
theorem Links.congr (h : Links es c ids) (hsize : es.size ≤ es'.size)
    (hnext : ∀ id, next? es' id = next? es id) : Links es' c ids where
  first := h.first
  last := h.last
  length := h.length
  strung := h.strung.congr fun id _ => hnext id
  known := fun id hid => Nat.lt_of_lt_of_le (h.known id hid) hsize
  nodup := h.nodup
  loose := fun id hid => (hnext id).trans (h.loose id hid)

/-- Entries that keep their successors leave a chain as it is. -/
theorem Links.of_each (h : Links es c ids) {R : EntryId → Entry K V → Entry K V → Prop}
    (hes : Entries.Each R es es') (hR : ∀ id e e', R id e e' → e'.nextDirty? = e.nextDirty?) :
    Links es' c ids := by
  refine h.congr (Nat.le_of_eq hes.1.symm) fun id => ?_
  cases he : es[id]? with
  | some e =>
    obtain ⟨e', he', hr⟩ := hes.2 id e he
    rw [next?_eq he, next?_eq he', hR id e e' hr]
  | none =>
    have hge : es.size ≤ id := Array.getElem?_eq_none_iff.1 he
    have he' : es'[id]? = none := Array.getElem?_eq_none_iff.2 (hes.1 ▸ hge)
    simp [next?, he, he']

/-- A new entry is linked nowhere. -/
theorem Links.push (h : Links es c ids) {x : Entry K V} (hx : x.nextDirty? = none) :
    Links (es.push x) c ids := by
  refine h.congr (by simp) fun id => ?_
  by_cases hid : id = es.size
  · subst hid
    simp [next?, hx]
  · simp [next?, Array.getElem?_push, hid]

theorem links_empty (es : Entries K V) (h : ∀ id, next? es id = none) : Links es {} [] where
  first := rfl
  last := rfl
  length := rfl
  strung := trivial
  known := by simp
  nodup := List.nodup_nil
  loose := fun id _ => h id

/-! ## Operations -/

theorem pushBack_relinked (id : EntryId) (es : Entries K V) (c : DirtyChain) :
    Entries.Each (fun _ => Entry.Relinked) es (c.pushBack id es).1 := by
  unfold pushBack
  cases c.last? with
  | none => exact Entries.Each.refl (fun _ e => Entry.Relinked.refl e) es
  | some last => exact relinked_setNext es last _

theorem pushBack_links (h : Links es c ids) {id : EntryId} (hid : id ∉ ids)
    (hlt : id < es.size) :
    Links (c.pushBack id es).1 (c.pushBack id es).2 (ids ++ [id]) := by
  have hnew : (ids ++ [id]).Nodup := by
    rw [List.nodup_append]
    exact ⟨h.nodup, List.nodup_singleton id, fun a ha b hb => by
      rintro rfl
      exact hid (List.mem_singleton.1 hb ▸ ha)⟩
  rcases List.eq_nil_or_concat' ids with rfl | ⟨init, last, rfl⟩
  · have hlast : c.last? = none := h.last
    simp only [pushBack, hlast]
    exact {
      first := rfl
      last := rfl
      length := by simp [h.length]
      strung := ⟨h.loose id (by simp), trivial⟩
      known := by simpa using hlt
      nodup := hnew
      loose := fun j _ => h.loose j (by simp) }
  -- The last entry of the chain is pointed at the new one.
  · have hlast : c.last? = some last := by simp [h.last]
    have hne : id ≠ last := by
      rintro rfl
      exact hid (by simp)
    have hlt' : last < es.size := h.known last (by simp)
    simp only [pushBack, hlast]
    exact {
      first := by simp [h.first, List.head?_append]
      last := by simp
      length := by simp [h.length]
      strung := by
        have hinit : last ∉ init := fun hmem => (List.nodup_append.1 h.nodup).2.2 last hmem last
          (List.mem_singleton_self last) rfl
        have hid' : Strung (next? es) [id] := ⟨h.loose id hid, trivial⟩
        rw [List.append_assoc]
        refine h.strung.graft hid' (next?_setNext_self hlt') fun j hj => next?_setNext_ne ?_
        rintro rfl
        simp [hinit, hne.symm] at hj
      known := by
        intro j hj
        rw [size_setNext]
        rcases List.mem_append.1 hj with hj | hj
        · exact h.known j hj
        · exact List.mem_singleton.1 hj ▸ hlt
      nodup := hnew
      loose := by
        intro j hj
        simp only [List.mem_append, List.mem_singleton, not_or] at hj
        rw [next?_setNext_ne hj.1.2]
        exact h.loose j (by simp [hj.1]) }

theorem popFront_nil (h : Links es c []) : c.popFront es = (none, es, c) := by
  have hfirst : c.first? = none := h.first
  simp [popFront, hfirst]

/-- The chain without its first entry. -/
def rest (es : Entries K V) (c : DirtyChain) (id : EntryId) : DirtyChain :=
  { first? := next? es id
    last? := if (next? es id).isNone then none else c.last?
    length := c.length - 1 }

theorem popFront_cons {id : EntryId} (h : Links es c (id :: ids)) :
    c.popFront es = (some id, setNext es id none, c.rest es id) := by
  have hfirst : c.first? = some id := h.first
  simp [popFront, hfirst, rest]

theorem rest_links {id : EntryId} (h : Links es c (id :: ids)) :
    Links (setNext es id none) (c.rest es id) ids := by
  have hnext : next? es id = ids.head? := h.strung.1
  have hid : id ∉ ids := (List.nodup_cons.1 h.nodup).1
  have hlt : id < es.size := h.known id List.mem_cons_self
  exact {
    first := hnext
    last := by
      rw [rest, hnext, h.last]
      cases ids <;> simp [List.getLast?_cons_cons]
    length := by simp [rest, h.length]
    strung := h.strung.2.congr fun j hj => next?_setNext_ne fun hji => hid (hji ▸ hj)
    known := fun j hj => by
      rw [size_setNext]
      exact h.known j (List.mem_cons_of_mem _ hj)
    nodup := (List.nodup_cons.1 h.nodup).2
    -- The entry that leaves the chain is the only one whose link was changed.
    loose := fun j hj => by
      by_cases hji : j = id
      · subst hji
        exact next?_setNext_self hlt
      · rw [next?_setNext_ne hji]
        exact h.loose j (by simp [hji, hj]) }

theorem pushFront_links (h : Links es c ids) {id : EntryId} (hid : id ∉ ids)
    (hlt : id < es.size) :
    Links (c.pushFront id es).1 (c.pushFront id es).2 (id :: ids) := by
  have hne : ∀ j ∈ ids, j ≠ id := fun j hj hji => hid (hji ▸ hj)
  exact {
    first := rfl
    last := by
      simp only [pushFront, h.first, h.last]
      cases ids <;> simp [List.getLast?_cons_cons]
    length := by simp [pushFront, h.length]
    strung := ⟨(next?_setNext_self hlt).trans h.first,
      h.strung.congr fun j hj => next?_setNext_ne (hne j hj)⟩
    known := by
      intro j hj
      simp only [pushFront, size_setNext]
      rcases List.mem_cons.1 hj with rfl | hj
      · exact hlt
      · exact h.known j hj
    nodup := List.nodup_cons.2 ⟨hid, h.nodup⟩
    loose := fun j hj => by
      simp only [List.mem_cons, not_or] at hj
      exact (next?_setNext_ne hj.1).trans (h.loose j hj.2) }

theorem pushFrontAll_relinked (news : List EntryId) (es : Entries K V) (c : DirtyChain) :
    Entries.Each (fun _ => Entry.Relinked) es (pushFrontAll news es c).1 := by
  induction news with
  | nil => exact Entries.Each.refl (fun _ e => Entry.Relinked.refl e) es
  | cons id news ih =>
    exact ih.comp (relinked_setNext _ id _) fun _ _ _ _ => Entry.Relinked.trans

theorem pushFrontAll_links {news : List EntryId} (h : Links es c ids)
    (hnodup : (news ++ ids).Nodup) (hlt : ∀ id ∈ news, id < es.size) :
    Links (pushFrontAll news es c).1 (pushFrontAll news es c).2 (news ++ ids) := by
  induction news with
  | nil => exact h
  | cons id news ih =>
    have hrest := ih (List.nodup_cons.1 hnodup).2 fun j hj => hlt j (List.mem_cons_of_mem _ hj)
    have hsize := (pushFrontAll_relinked news es c).1
    refine pushFront_links hrest (List.nodup_cons.1 hnodup).1 ?_
    rw [hsize]
    exact hlt id List.mem_cons_self

/-! ## The walk along the links -/

theorem walk_eq (hs : Strung (next? es) ids) {fuel : Nat} (hfuel : ids.length ≤ fuel) :
    walk es fuel ids.head? = ids := by
  induction ids generalizing fuel with
  | nil => cases fuel <;> rfl
  | cons id ids ih =>
    obtain ⟨n, rfl, hn⟩ := exists_fuel hfuel
    have hrest := ih hs.2 hn
    simp [walk, hs.1, hrest]

theorem Links.length_le (h : Links es c ids) : ids.length ≤ es.size :=
  length_le_of_nodup h.nodup h.known

theorem Links.toList_eq (h : Links es c ids) : c.toList es = ids := by
  rw [toList, h.first]
  exact walk_eq h.strung h.length_le

end ReadThrough.DirtyChain
