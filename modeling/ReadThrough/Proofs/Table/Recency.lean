import ReadThrough.Proofs.Strung
import ReadThrough.Table.RecencyList

/-! # The Links of the Recency List

  The recency list, told as a plain list of slots from the most to the least recently used one.

  - **Linked**: the links lead from the front sentinel along the slots to the back sentinel, and
    the same way back; exactly these slots are linked for a generation.
  - **detach**, **pushFront**, **touch**, **unlink**, **truncate**: what the operations do to that
    list and to the generations.
  - **toList_eq**, **toListReverse_eq**: what is read off the links from either end.
-/

namespace ReadThrough.Table.RecencyList

variable {l : RecencyList} {slots : List Nat} {s t g count : Nat}

/-! ## Single links -/

theorem next_eq (hs : s < l.links.size) : l.next s = l.links[s].next? := by
  simp [next, Array.getElem?_eq_getElem hs]

theorem prev_eq (hs : s < l.links.size) : l.prev s = l.links[s].prev? := by
  simp [prev, Array.getElem?_eq_getElem hs]

theorem getElem?_modifyAt (links : Array Link) (slot? : Option Nat) (f : Link → Link) (t : Nat) :
    (modifyAt links slot? f)[t]? = if slot? = some t then links[t]?.map f else links[t]? := by
  cases slot? with
  | none => rfl
  | some s => simp [modifyAt, Array.getElem?_modify]

/-! ### Taking a slot out -/

/-- The links after a slot has been taken out. -/
theorem getElem?_detach (hs : s < l.links.size) (hne : t ≠ s) :
    (l.detach s).links[t]? =
      (l.links[t]?.map fun p => if l.prev s = some t then { p with next? := l.next s } else p).map
        fun n => if l.next s = some t then { n with prev? := l.prev s } else n := by
  have hout : (l.detach s).links = (modifyAt (modifyAt l.links l.links[s].prev? fun p =>
      { p with next? := l.links[s].next? }) l.links[s].next? fun n =>
      { n with prev? := l.links[s].prev? }).setIfInBounds s {} := by
    simp only [detach, Array.getElem?_eq_getElem hs]
  rw [hout, Array.getElem?_setIfInBounds_ne hne.symm, getElem?_modifyAt, getElem?_modifyAt,
    prev_eq hs, next_eq hs]
  split <;> split <;> cases l.links[t]? <;> rfl

theorem detach_of_le (hs : l.links.size ≤ s) : l.detach s = l := by
  simp only [detach, Array.getElem?_eq_none hs]

theorem next_detach (hs : s < l.links.size) (ht : t < l.links.size) (hne : t ≠ s) :
    (l.detach s).next t = if l.prev s = some t then l.next s else l.next t := by
  rw [next, getElem?_detach hs hne, Array.getElem?_eq_getElem ht]
  simp only [Option.map_some, Option.bind_some]
  rw [next_eq ht]
  split <;> split <;> rfl

theorem prev_detach (hs : s < l.links.size) (ht : t < l.links.size) (hne : t ≠ s) :
    (l.detach s).prev t = if l.next s = some t then l.prev s else l.prev t := by
  rw [prev, getElem?_detach hs hne, Array.getElem?_eq_getElem ht]
  simp only [Option.map_some, Option.bind_some]
  rw [prev_eq ht]
  split <;> split <;> rfl

theorem generation?_detach (l : RecencyList) (s t : Nat) :
    (l.detach s).generation? t = if t = s then none else l.generation? t := by
  by_cases hs : s < l.links.size
  · by_cases hne : t = s
    · subst hne
      rw [if_pos rfl, generation?, detach, Array.getElem?_eq_getElem hs]
      dsimp only
      rw [Array.getElem?_setIfInBounds_self]
      split <;> rfl
    · rw [if_neg hne, generation?, getElem?_detach hs hne, generation?]
      cases l.links[t]? with
      | none => rfl
      | some link =>
        simp only [Option.map_some, Option.bind_some]
        split <;> split <;> rfl
  · have hout : l.links.size ≤ s := Nat.le_of_not_lt hs
    rw [detach_of_le hout]
    split
    · next heq =>
      subst heq
      simp [generation?, Array.getElem?_eq_none hout]
    · rfl

theorem size_detach (hs : s < l.links.size) : (l.detach s).size = l.size - 1 := by
  simp only [detach, Array.getElem?_eq_getElem hs]

/-! ### Putting a slot in front -/

/-- New links lead nowhere, and belong to no generation. -/
theorem bind_reserve {α : Type} (f : Link → Option α) (hf : f {} = none) (l : RecencyList)
    (s t : Nat) : (l.reserve s).links[t]?.bind f = l.links[t]?.bind f := by
  simp only [reserve, Array.getElem?_append, Array.getElem?_replicate]
  split
  · rfl
  · next hge =>
    rw [Array.getElem?_eq_none (Nat.le_of_not_lt hge)]
    split
    · exact hf
    · rfl

@[simp] theorem next_reserve (l : RecencyList) (s t : Nat) : (l.reserve s).next t = l.next t :=
  bind_reserve Link.next? rfl l s t

@[simp] theorem prev_reserve (l : RecencyList) (s t : Nat) : (l.reserve s).prev t = l.prev t :=
  bind_reserve Link.prev? rfl l s t

@[simp] theorem generation?_reserve (l : RecencyList) (s t : Nat) :
    (l.reserve s).generation? t = l.generation? t :=
  bind_reserve Link.generation? rfl l s t

theorem lt_size_reserve (l : RecencyList) (s : Nat) : s < (l.reserve s).links.size := by
  simp only [reserve, Array.size_append, Array.size_replicate]
  omega

/-- The links after a slot has been put in front. -/
theorem getElem?_attach (hs : s < l.links.size) :
    (l.attach s g).links[t]? =
      ((if s = t then some { prev? := some front, next? := l.next front, generation? := some g }
        else l.links[t]?).map fun f =>
          if l.next front = some t then { f with prev? := some s } else f).map
        fun f => if front = t then { f with next? := some s } else f := by
  have hfirst : l.links[front]?.bind Link.next? = l.next front := rfl
  simp only [attach, hfirst, Array.getElem?_modify, getElem?_modifyAt,
    Array.getElem?_setIfInBounds]
  by_cases hst : s = t
  · subst hst
    simp only [if_true, hs]
    split <;> split <;> rfl
  · rw [if_neg hst, if_neg hst]
    split <;> split <;> cases l.links[t]? <;> rfl

theorem next_attach (hs : s < l.links.size) (hsf : s ≠ front) (ht : t < l.links.size) :
    (l.attach s g).next t =
      if t = s then l.next front else if t = front then some s else l.next t := by
  rw [next, getElem?_attach hs]
  by_cases hts : t = s
  · subst hts
    rw [if_pos rfl, if_pos rfl]
    simp only [Option.map_some, Option.bind_some, if_neg (Ne.symm hsf)]
    split <;> rfl
  · rw [if_neg (Ne.symm hts), if_neg hts, next_eq ht, Array.getElem?_eq_getElem ht]
    simp only [Option.map_some, Option.bind_some]
    by_cases htf : t = front
    · rw [if_pos htf.symm, if_pos htf]
    · rw [if_neg (Ne.symm htf), if_neg htf]
      split <;> rfl

theorem prev_attach (hs : s < l.links.size) (hfirst : l.next front ≠ some s)
    (ht : t < l.links.size) :
    (l.attach s g).prev t =
      if t = s then some front else if l.next front = some t then some s else l.prev t := by
  rw [prev, getElem?_attach hs]
  by_cases hts : t = s
  · subst hts
    rw [if_pos rfl, if_pos rfl]
    simp only [Option.map_some, Option.bind_some, if_neg hfirst]
    split <;> rfl
  · rw [if_neg (Ne.symm hts), if_neg hts, prev_eq ht, Array.getElem?_eq_getElem ht]
    simp only [Option.map_some, Option.bind_some]
    split <;> split <;> rfl

theorem generation?_attach (hs : s < l.links.size) :
    (l.attach s g).generation? t = if t = s then some g else l.generation? t := by
  rw [generation?, getElem?_attach hs]
  by_cases hts : t = s
  · subst hts
    rw [if_pos rfl, if_pos rfl]
    simp only [Option.map_some, Option.bind_some]
    split <;> split <;> rfl
  · rw [if_neg (Ne.symm hts), if_neg hts, generation?]
    cases l.links[t]? with
    | none => rfl
    | some link =>
      simp only [Option.map_some, Option.bind_some]
      split <;> split <;> rfl

/-! ### The generations -/

@[simp] theorem size_links_detach (l : RecencyList) (s : Nat) :
    (l.detach s).links.size = l.links.size := by
  have hmodify (links : Array Link) (slot? : Option Nat) (f : Link → Link) :
      (modifyAt links slot? f).size = links.size := by
    cases slot? with
    | none => rfl
    | some t => exact Array.size_modify
  unfold detach
  dsimp only
  split
  · rfl
  · rw [Array.size_setIfInBounds, hmodify, hmodify]

theorem generation?_pushFront (l : RecencyList) (s g t : Nat) :
    (l.pushFront s g).generation? t = if t = s then some g else l.generation? t := by
  have hs := lt_size_reserve l s
  unfold pushFront
  dsimp only
  split
  · rw [generation?_attach (by simpa using hs), generation?_detach, generation?_reserve]
    by_cases hts : t = s
    · rw [if_pos hts, if_pos hts]
    · rw [if_neg hts, if_neg hts, if_neg hts]
  · rw [generation?_attach hs, generation?_reserve]

theorem generation?_unlink (l : RecencyList) (s g t : Nat) :
    (l.unlink s g).generation? t =
      if t = s ∧ l.generation? s = some g then none else l.generation? t := by
  simp only [unlink, isLinked, beq_iff_eq]
  by_cases hlinked : l.generation? s = some g
  · simp only [hlinked, if_true, and_true, generation?_detach]
  · simp only [hlinked, if_false, and_false]

/-- Moving a slot to the front leaves the generations as they are. -/
theorem generation?_touch (l : RecencyList) (s g t : Nat) :
    (l.touch s g).generation? t = l.generation? t := by
  unfold touch isLinked
  split
  · next hlinked =>
    split
    · rfl
    · rw [generation?_pushFront, generation?_detach]
      by_cases hts : t = s
      · rw [if_pos hts, hts, eq_of_beq hlinked]
      · rw [if_neg hts, if_neg hts]
  · rfl

theorem getElem?_truncate (l : RecencyList) (count t : Nat) :
    (l.truncate count).links[t]? = if t < max count 2 then l.links[t]? else none := by
  simp only [truncate, Array.take_eq_extract, Array.getElem?_extract, Nat.zero_add, Nat.sub_zero]
  by_cases ht : t < max count 2
  · rw [if_pos ht]
    split
    · rfl
    · next hge =>
      rw [Array.getElem?_eq_none]
      omega
  · rw [if_neg ht, if_neg]
    omega

theorem generation?_truncate (l : RecencyList) (count t : Nat) :
    (l.truncate count).generation? t =
      if t < max count 2 then l.generation? t else none := by
  rw [generation?, getElem?_truncate]
  split <;> rfl

/-! ## The list that the links spell -/

/-- The slots together with the sentinels around them. -/
def ring (slots : List Nat) : List Nat :=
  front :: (slots ++ [back])

/-- The links lead from the front sentinel along the slots to the back sentinel and the same way
    back, and exactly these slots are linked for a generation. -/
structure Linked (l : RecencyList) (slots : List Nat) : Prop where
  forward : Strung l.next (ring slots)
  backward : Strung l.prev (ring slots).reverse
  nodup : (ring slots).Nodup
  linked : ∀ s, (l.generation? s).isSome ↔ s ∈ ring slots
  size : l.size = slots.length

theorem lt_size_of_linked (h : (l.generation? s).isSome) : s < l.links.size := by
  by_contra hge
  rw [generation?, Array.getElem?_eq_none (Nat.le_of_not_lt hge)] at h
  cases h

namespace Linked

theorem lt_size (h : l.Linked slots) (hs : s ∈ ring slots) : s < l.links.size :=
  lt_size_of_linked ((h.linked s).2 hs)

theorem slots_nodup (h : l.Linked slots) : slots.Nodup :=
  (List.nodup_append.1 (List.nodup_cons.1 h.nodup).2).1

/-- The sentinels are not among the slots. -/
theorem reserved_le (h : l.Linked slots) (hs : s ∈ slots) : 2 ≤ s := by
  obtain ⟨hfront, hrest⟩ := List.nodup_cons.1 h.nodup
  have hback := (List.nodup_append.1 hrest).2.2 s hs back (List.mem_singleton_self back)
  have hne : s ≠ front := by
    intro heq
    subst heq
    exact hfront (List.mem_append_left _ hs)
  unfold front at hne
  unfold back at hback
  omega

theorem mem_iff (h : l.Linked slots) (hs : 2 ≤ s) : s ∈ slots ↔ (l.generation? s).isSome := by
  rw [h.linked, ring, List.mem_cons, List.mem_append, List.mem_singleton]
  unfold front back
  constructor
  · intro hmem
    exact .inr (.inl hmem)
  · intro hmem
    rcases hmem with heq | hmem | heq
    · omega
    · exact hmem
    · omega

/-! ### Reading the list -/

/-- Following the links leads along the list up to the slot that ends it. -/
theorem walk_eq {step : Nat → Option Nat} {stop fuel : Nat} {xs ys : List Nat}
    (hs : Strung step (xs ++ stop :: ys)) (hnot : stop ∉ xs) (hfuel : xs.length ≤ fuel) :
    walk step stop fuel (xs ++ stop :: ys).head? = xs := by
  induction xs generalizing fuel with
  | nil => cases fuel <;> simp [walk]
  | cons x xs ih =>
    obtain ⟨fuel, rfl, hle⟩ := exists_fuel hfuel
    have hne : x ≠ stop := fun heq => hnot (heq ▸ List.mem_cons_self)
    have hx : step x = (xs ++ stop :: ys).head? := hs.1
    have hrest : walk step stop fuel (xs ++ stop :: ys).head? = xs := by
      apply ih hs.2
      · exact fun hmem => hnot (List.mem_cons_of_mem x hmem)
      · exact hle
    show walk step stop (fuel + 1) (some x) = x :: xs
    rw [walk, if_neg hne, hx, hrest]

theorem ring_reverse (slots : List Nat) :
    (ring slots).reverse = back :: (slots.reverse ++ [front]) := by
  simp [ring]

/-- There are links for the slots and the sentinels. -/
theorem length_add_two_le (h : l.Linked slots) : slots.length + 2 ≤ l.links.size := by
  have hring : (ring slots).length = slots.length + 2 := by simp [ring]
  rw [← hring]
  exact length_le_of_nodup h.nodup fun _ hs => h.lt_size hs

theorem length_le (h : l.Linked slots) : slots.length ≤ l.links.size :=
  Nat.le_of_add_right_le h.length_add_two_le

/-- A walk from the front ends at the back, however many steps it may take. -/
theorem walk_next (h : l.Linked slots) {fuel : Nat} (hfuel : slots.length ≤ fuel) :
    walk l.next back fuel (l.next front) = slots := by
  have hnot : back ∉ slots := fun hmem => absurd (h.reserved_le hmem) (by decide)
  have hfirst : l.next front = (slots ++ [back]).head? := h.forward.1
  rw [hfirst]
  exact walk_eq h.forward.2 hnot hfuel

theorem walk_prev (h : l.Linked slots) {fuel : Nat} (hfuel : slots.length ≤ fuel) :
    walk l.prev front fuel (l.prev back) = slots.reverse := by
  have hnot : front ∉ slots := fun hmem => absurd (h.reserved_le hmem) (by decide)
  have hback : Strung l.prev (back :: (slots.reverse ++ [front])) := ring_reverse slots ▸ h.backward
  have hlast : l.prev back = (slots.reverse ++ [front]).head? := hback.1
  rw [hlast]
  apply walk_eq hback.2
  · rwa [List.mem_reverse]
  · rwa [List.length_reverse]

theorem toList_eq (h : l.Linked slots) : l.toList = slots :=
  h.walk_next h.length_le

theorem toListReverse_eq (h : l.Linked slots) : l.toListReverse = slots.reverse :=
  h.walk_prev h.length_le

/-! ### The operations -/

theorem empty : RecencyList.empty.Linked [] where
  forward := ⟨rfl, rfl, trivial⟩
  backward := ⟨rfl, rfl, trivial⟩
  nodup := by decide
  linked := by
    intro s
    match s with
    | 0 => simp [generation?, RecencyList.empty, ring, front]
    | 1 => simp [generation?, RecencyList.empty, ring, back]
    | s + 2 => simp [generation?, RecencyList.empty, ring, front, back]
  size := rfl

/-- Only the linked slots and their links matter. -/
theorem congr {l' : RecencyList} (h : l.Linked slots)
    (hnext : ∀ t ∈ ring slots, l'.next t = l.next t)
    (hprev : ∀ t ∈ ring slots, l'.prev t = l.prev t)
    (hgeneration : ∀ t, l'.generation? t = l.generation? t) (hsize : l'.size = l.size) :
    l'.Linked slots where
  forward := h.forward.congr hnext
  backward := h.backward.congr fun t ht => hprev t (List.mem_reverse.1 ht)
  nodup := h.nodup
  linked := by
    intro t
    rw [hgeneration]
    exact h.linked t
  size := hsize.trans h.size

theorem reserve (h : l.Linked slots) (s : Nat) : (l.reserve s).Linked slots :=
  h.congr (fun t _ => next_reserve l s t) (fun t _ => prev_reserve l s t)
    (generation?_reserve l s) rfl

/-- Cutting unlinked slots off leaves the list as it is. -/
theorem truncate (h : l.Linked slots) (hlt : ∀ t ∈ slots, t < count) :
    (l.truncate count).Linked slots := by
  have hkeep {t : Nat} (ht : t ∈ ring slots) : t < max count 2 := by
    simp only [ring, List.mem_cons, List.mem_append, List.mem_nil_iff, or_false] at ht
    rcases ht with heq | hmem | heq
    · unfold front at heq
      omega
    · have := hlt t hmem
      omega
    · unfold back at heq
      omega
  refine h.congr (fun t ht => ?_) (fun t ht => ?_) (fun t => ?_) rfl
  · rw [next, getElem?_truncate, if_pos (hkeep ht), next]
  · rw [prev, getElem?_truncate, if_pos (hkeep ht), prev]
  · rw [generation?_truncate]
    split
    · rfl
    · next hcut =>
      -- A slot that is cut off was not linked.
      symm
      rw [← Option.not_isSome_iff_eq_none, h.linked]
      exact fun ht => hcut (hkeep ht)

theorem detach (h : l.Linked slots) (hs : s ∈ slots) :
    (l.detach s).Linked (slots.erase s) := by
  obtain ⟨xs, ys, rfl⟩ := List.append_of_mem hs
  have hring : ring (xs ++ s :: ys) = (front :: xs) ++ s :: (ys ++ [back]) := by simp [ring]
  have hback : (ring (xs ++ s :: ys)).reverse =
      (ys ++ [back]).reverse ++ s :: (front :: xs).reverse := by simp [ring]
  have herase : (xs ++ s :: ys).erase s = xs ++ ys := by
    have hnot : s ∉ xs := fun hmem =>
      (List.nodup_append.1 h.slots_nodup).2.2 s hmem s List.mem_cons_self rfl
    rw [List.erase_append_right _ hnot, List.erase_cons_head]
  have hkeep : ring (xs ++ ys) = (front :: xs) ++ (ys ++ [back]) := by simp [ring]
  have hmem {t : Nat} : t ∈ ring (xs ++ ys) ↔ t ∈ ring (xs ++ s :: ys) ∧ t ≠ s := by
    have hnd := h.nodup
    rw [hring, List.nodup_middle, List.nodup_cons] at hnd
    rw [hkeep, hring]
    simp only [List.mem_append, List.mem_cons] at hnd ⊢
    constructor
    · intro ht
      refine ⟨by tauto, ?_⟩
      intro heq
      subst heq
      exact hnd.1 ht
    · tauto
  have hnd : ((front :: xs) ++ (ys ++ [back])).Nodup := by
    have hnd := h.nodup
    rw [hring, List.nodup_middle] at hnd
    exact (List.nodup_cons.1 hnd).2
  -- The neighbours of the slot.
  have hforward : Strung l.next ((front :: xs) ++ s :: (ys ++ [back])) := hring ▸ h.forward
  have hbackward : Strung l.prev ((ys ++ [back]).reverse ++ s :: (front :: xs).reverse) :=
    hback ▸ h.backward
  have hnext : l.next s = (ys ++ [back]).head? := hforward.next_eq
  have hprev : l.prev s = (front :: xs).getLast? := by
    rw [hbackward.next_eq, List.head?_reverse]
  have hlt {t : Nat} (ht : t ∈ ring (xs ++ ys)) : t < l.links.size := h.lt_size (hmem.1 ht).1
  have hsize : s < l.links.size := h.lt_size (by simp [ring])
  rw [herase]
  exact {
    forward := by
      rw [hkeep]
      refine hforward.erase hnd fun t ht => ?_
      rw [← hkeep] at ht
      rw [next_detach hsize (hlt ht) (hmem.1 ht).2, hprev, hnext]
    backward := by
      rw [hkeep, List.reverse_append]
      have hndr : ((ys ++ [back]).reverse ++ (front :: xs).reverse).Nodup := by
        rw [← List.reverse_append, List.nodup_reverse]
        exact hnd
      refine hbackward.erase hndr fun t ht => ?_
      rw [← List.reverse_append, ← hkeep, List.mem_reverse] at ht
      rw [prev_detach hsize (hlt ht) (hmem.1 ht).2, hprev, hnext, List.getLast?_reverse,
        List.head?_reverse]
    nodup := by
      rw [hkeep]
      exact hnd
    linked := by
      intro t
      rw [generation?_detach, hmem, ← h.linked]
      split
      · next heq => simp [heq]
      · next hne => simp [hne]
    size := by
      rw [size_detach hsize, h.size]
      simp }

theorem attach (h : l.Linked slots) (hs : s < l.links.size) (hnot : s ∉ ring slots) (g : Nat) :
    (l.attach s g).Linked (s :: slots) := by
  have hring : ring (s :: slots) = [front] ++ s :: (slots ++ [back]) := rfl
  have hback : (ring (s :: slots)).reverse = (slots ++ [back]).reverse ++ s :: [front] := by
    simp [ring]
  have hold : (ring slots).reverse = (slots ++ [back]).reverse ++ [front] := by simp [ring]
  have hfirst : l.next front = (slots ++ [back]).head? := h.forward.1
  have hne {t : Nat} (ht : t ∈ ring slots) : t ≠ s := ne_of_mem_of_not_mem ht hnot
  -- The slot is in no link yet, so writing its links does not cut the old ring.
  have hsf : s ≠ front := (hne (List.mem_cons_self)).symm
  have hfree : l.next front ≠ some s := by
    rw [hfirst]
    intro heq
    exact hnot (List.mem_cons_of_mem _ (List.mem_of_head? heq))
  exact {
    forward := by
      have hforward : Strung l.next ([front] ++ (slots ++ [back])) := h.forward
      rw [hring]
      refine hforward.insert h.nodup ?_ fun t ht => ?_
      · rw [next_attach hs hsf hs, if_pos rfl, hfirst]
      · -- Of the old slots only the front gets another successor.
        rw [next_attach hs hsf (h.lt_size ht), if_neg (hne ht), List.getLast?_singleton]
        simp only [Option.some.injEq, eq_comm]
    backward := by
      rw [hback]
      refine Strung.insert (hold ▸ h.backward) ?_ ?_ fun t ht => ?_
      · rw [← hold, List.nodup_reverse]
        exact h.nodup
      · rw [prev_attach hs hfree hs, if_pos rfl]
        rfl
      · rw [← hold, List.mem_reverse] at ht
        rw [prev_attach hs hfree (h.lt_size ht), if_neg (hne ht), hfirst, List.getLast?_reverse]
    nodup := by
      rw [hring, List.nodup_middle, List.nodup_cons]
      exact ⟨hnot, h.nodup⟩
    linked := by
      intro t
      rw [generation?_attach hs]
      split
      · next heq => simp [heq, ring]
      · next hts =>
        rw [h.linked]
        simp [ring, hts]
    size := by
      show l.size + 1 = slots.length + 1
      rw [h.size] }

/-- A slot that is put in front leaves the place that it had. -/
theorem pushFront (h : l.Linked slots) (hs : 2 ≤ s) (g : Nat) :
    (l.pushFront s g).Linked (s :: slots.erase s) := by
  have hroom := lt_size_reserve l s
  have hreserved := h.reserve s
  unfold RecencyList.pushFront
  dsimp only
  split
  · -- A linked slot is taken out of its place first.
    next hlinked =>
    have hmem : s ∈ slots := by
      rw [generation?_reserve] at hlinked
      exact (h.mem_iff hs).2 hlinked
    have hdetached := hreserved.detach hmem
    apply hdetached.attach
    · rwa [size_links_detach]
    · rw [← hdetached.linked, generation?_detach, if_pos rfl]
      simp
  · -- One that is not linked has no place to leave.
    next hfree =>
    rw [generation?_reserve, h.linked] at hfree
    have hnot : s ∉ slots := fun hmem =>
      hfree (List.mem_cons_of_mem _ (List.mem_append_left _ hmem))
    rw [List.erase_of_not_mem hnot]
    exact hreserved.attach hroom hfree g

/-- A slot that is linked for the generation is taken out; nothing else changes. -/
theorem unlink (h : l.Linked slots) (hs : 2 ≤ s) (g : Nat) :
    (l.unlink s g).Linked (if l.isLinked s g then slots.erase s else slots) := by
  unfold RecencyList.unlink
  split
  · next hlinked =>
    apply h.detach
    rw [h.mem_iff hs, eq_of_beq hlinked]
    rfl
  · exact h

/-- A slot that is linked for the generation comes to the front; nothing else changes. -/
theorem touch (h : l.Linked slots) (hs : 2 ≤ s) (g : Nat) :
    (l.touch s g).Linked (if l.isLinked s g then s :: slots.erase s else slots) := by
  unfold RecencyList.touch
  split
  · next hlinked =>
    have hmem : s ∈ slots := by
      rw [h.mem_iff hs, eq_of_beq hlinked]
      rfl
    split
    · next hfirst =>
      -- The first slot of the list is moved by leaving it where it is.
      have hhead : l.next front = (slots ++ [back]).head? := h.forward.1
      obtain ⟨t, rest, rfl⟩ := List.exists_cons_of_ne_nil (List.ne_nil_of_mem hmem)
      have hts : t = s := Option.some.inj (hhead.symm.trans hfirst)
      rw [hts, List.erase_cons_head, ← hts]
      exact h
    · have hnot : s ∉ slots.erase s := h.slots_nodup.not_mem_erase
      have hpushed := (h.detach hmem).pushFront hs g
      rwa [List.erase_of_not_mem hnot] at hpushed
  · exact h

end Linked

end ReadThrough.Table.RecencyList
