import Mathlib.Data.List.Basic
import Mathlib.Logic.Function.Basic
import ReadThrough.Proofs.Table.Chains

/-! # Inserting and Removing Nodes

  What the operations on single nodes do to the chains, and that they leave the buckets in order.

  - **insert**: the new node comes in front of its chain; no other node changes.
  - **removeNode**: the slot is taken out of its chain and becomes vacant; no other node changes.
  - **clear**: no node is left.
-/

namespace ReadThrough.Table.Buckets

variable {K P : Type} {b : Buckets K P} {hashOf : K → UInt64} {home : UInt64 → Nat}
  {chains : Nat → List Nat} {s t i : Nat} {node : Node K P}

/-! ## Insertion -/

section insert

variable {hash : UInt64} {key : K} {payload : P}

@[simp] theorem size_heads_insert :
    (b.insert hash key payload).heads.size = b.heads.size := by
  simp [insert]

@[simp] theorem index_insert : (b.insert hash key payload).index = b.index := by
  funext h
  simp [index]

/-- The slot for the next node is empty, and within the slab or at its end. -/
theorem Stocked.nextSlot_spec (h : b.Stocked hashOf) :
    b.nextSlot ≤ b.cells.size ∧ b.node? b.nextSlot = none ∧ reserved ≤ b.nextSlot := by
  unfold nextSlot
  cases hv : b.vacant with
  | nil =>
    refine ⟨Nat.le_refl _, ?_, h.slab⟩
    simp [node?]
  | cons s rest =>
    obtain ⟨hlt, hnone, hres⟩ := h.vacant s (hv ▸ List.mem_cons_self)
    exact ⟨Nat.le_of_lt hlt, hnone, hres⟩

theorem getElem?_insert (h : b.nextSlot ≤ b.cells.size) (s : Nat) :
    (b.insert hash key payload).cells[s]? =
      if s = b.nextSlot then
        some { node? := some (b.nextNode hash key payload), next? := b.head? (b.index hash) }
      else b.cells[s]? := by
  have hslot : (b.nextNode hash key payload).slot = b.nextSlot := rfl
  simp only [insert, head?]
  split
  · next hlt =>
    rw [Array.getElem?_setIfInBounds, hslot]
    by_cases hs : b.nextSlot = s
    · rw [hslot] at hlt
      simp [← hs, hlt]
    · simp [hs, Ne.symm hs]
  · next hlt =>
    have hend : b.nextSlot = b.cells.size := by omega
    rw [Array.getElem?_push, hend]

theorem node?_insert (h : b.nextSlot ≤ b.cells.size) (s : Nat) :
    (b.insert hash key payload).node? s =
      if s = b.nextSlot then some (b.nextNode hash key payload) else b.node? s := by
  unfold node?
  rw [getElem?_insert h]
  split <;> rfl

theorem head?_insert (hpos : 0 < b.heads.size) (i : Nat) :
    (b.insert hash key payload).head? i =
      if i = b.index hash then some b.nextSlot else b.head? i := by
  have hlt : b.index hash < b.heads.size := Nat.mod_lt _ hpos
  have hslot : (b.nextNode hash key payload).slot = b.nextSlot := rfl
  simp only [head?, insert, hslot, Array.getElem?_setIfInBounds]
  by_cases hi : b.index hash = i
  · subst hi
    simp [hlt]
  · simp [hi, Ne.symm hi]

theorem Stocked.insert (h : b.Stocked hashOf) (hhash : hash = hashOf key)
    (habsent : ∀ s n, b.node? s = some n → n.key ≠ key) :
    (b.insert hash key payload).Stocked hashOf := by
  obtain ⟨hle, hfree, hres⟩ := h.nextSlot_spec
  -- A stored node is the new one in its slot, or one of those before.
  have hcases {s : Nat} {n : Node K P} (hn : (b.insert hash key payload).node? s = some n) :
      (s = b.nextSlot ∧ n = b.nextNode hash key payload) ∨ b.node? s = some n := by
    rw [node?_insert hle] at hn
    split at hn
    · next hs => exact .inl ⟨hs, (Option.some.inj hn).symm⟩
    · exact .inr hn
  have hvacant : ∀ s ∈ b.vacant.tail, s ≠ b.nextSlot ∧ s ∈ b.vacant := by
    intro s hs
    cases hv : b.vacant with
    | nil => simp [hv] at hs
    | cons first rest =>
      rw [hv] at hs
      refine ⟨?_, List.mem_cons_of_mem _ hs⟩
      rintro rfl
      have hnd := h.spare
      rw [hv] at hnd
      rw [nextSlot, hv] at hs
      exact (List.nodup_cons.1 hnd).1 hs
  exact {
    slot := by
      intro s n hn
      rcases hcases hn with ⟨rfl, rfl⟩ | hold
      · exact ⟨rfl, hres⟩
      · exact h.slot s n hold
    hashed := by
      intro s n hn
      rcases hcases hn with ⟨-, rfl⟩ | hold
      · exact hhash
      · exact h.hashed s n hold
    key := by
      intro s t m n hm hn hkey
      rcases hcases hm with ⟨rfl, rfl⟩ | hm' <;> rcases hcases hn with ⟨rfl, rfl⟩ | hn'
      · rfl
      · exact absurd hkey.symm (habsent t n hn')
      · exact absurd hkey (habsent s m hm')
      · exact h.key s t m n hm' hn' hkey
    generation := by
      intro s n hn
      rcases hcases hn with ⟨-, rfl⟩ | hold
      · exact Nat.lt_succ_self _
      · exact Nat.lt_succ_of_lt (h.generation s n hold)
    different := by
      intro s t m n hm hn hgen
      rcases hcases hm with ⟨rfl, rfl⟩ | hm' <;> rcases hcases hn with ⟨rfl, rfl⟩ | hn'
      · rfl
      · exact absurd hgen (Nat.ne_of_gt (h.generation t n hn'))
      · exact absurd hgen (Nat.ne_of_lt (h.generation s m hm'))
      · exact h.different s t m n hm' hn' hgen
    vacant := by
      intro s hs
      obtain ⟨hne, hmem⟩ := hvacant s hs
      obtain ⟨hlt, hnone, hres'⟩ := h.vacant s hmem
      refine ⟨?_, by rw [node?_insert hle, if_neg hne, hnone], hres'⟩
      simp only [Buckets.insert]
      split
      · simpa using hlt
      · simpa using Nat.lt_succ_of_lt hlt
    spare := h.spare.tail
    slab := by
      have := h.slab
      simp only [Buckets.insert]
      split
      · simpa using this
      · simpa using Nat.le_succ_of_le this }

theorem Threads.insert (h : b.Threads b.index chains) (hle : b.nextSlot ≤ b.cells.size)
    (hfree : b.node? b.nextSlot = none) (hh : b.Headed chains) (hpos : 0 < b.heads.size) :
    ∃ chains', (b.insert hash key payload).Threads b.index chains' ∧
      (b.insert hash key payload).Headed chains' := by
  -- The slot is empty, so no chain goes through it.
  have hloose {i : Nat} : b.nextSlot ∉ chains i := by
    intro hmem
    obtain ⟨n, hn, -⟩ := h.placed i _ hmem
    simp [hfree] at hn
  have hnext {s : Nat} (hs : s ≠ b.nextSlot) :
      next? (b.insert hash key payload).cells s = next? b.cells s := by
    unfold next?
    rw [getElem?_insert hle, if_neg hs]
  have hstrung (i : Nat) : Strung (next? (b.insert hash key payload).cells) (chains i) := by
    refine (h.strung i).congr fun s hs => hnext ?_
    rintro rfl
    exact hloose hs
  refine ⟨Function.update chains (b.index hash) (b.nextSlot :: chains (b.index hash)), ?_, ?_⟩
  · exact {
      strung := by
        refine (Function.forall_update_iff chains fun _ l =>
          Strung (next? (b.insert hash key payload).cells) l).2 ⟨⟨?_, hstrung _⟩, ?_⟩
        · rw [← hh]
          simp [next?, getElem?_insert hle]
        · exact fun i _ => hstrung i
      nodup := by
        refine (Function.forall_update_iff chains fun _ l => l.Nodup).2 ⟨?_, ?_⟩
        · exact List.nodup_cons.2 ⟨hloose, h.nodup _⟩
        · exact fun i _ => h.nodup i
      placed := by
        intro i s hs
        rw [node?_insert hle]
        have hmem : (i = b.index hash ∧ s = b.nextSlot) ∨ s ∈ chains i := by
          by_cases hi : i = b.index hash
          · subst hi
            rw [Function.update_self] at hs
            rcases List.mem_cons.1 hs with hs | hs
            · exact .inl ⟨rfl, hs⟩
            · exact .inr hs
          · rw [Function.update_of_ne hi] at hs
            exact .inr hs
        rcases hmem with ⟨rfl, rfl⟩ | hmem
        · exact ⟨_, if_pos rfl, rfl⟩
        · have hne : s ≠ b.nextSlot := by
            rintro rfl
            exact hloose hmem
          rw [if_neg hne]
          exact h.placed i s hmem
      covered := by
        intro s n hn
        rw [node?_insert hle] at hn
        split at hn
        · next hs =>
          obtain rfl := Option.some.inj hn
          show s ∈ Function.update chains _ _ (b.index hash)
          rw [Function.update_self, hs]
          exact List.mem_cons_self
        · have hmem := h.covered s n hn
          by_cases hi : b.index n.hash = b.index hash
          · rw [hi, Function.update_self]
            exact List.mem_cons_of_mem _ (hi ▸ hmem)
          · rwa [Function.update_of_ne hi] }
  · refine (Function.forall_update_iff chains fun i l =>
      (b.insert hash key payload).head? i = l.head?).2 ⟨?_, ?_⟩
    · rw [head?_insert hpos, if_pos rfl]
      rfl
    · intro i hi
      rw [head?_insert hpos, if_neg hi]
      exact hh i

theorem Sound.insert (h : b.Sound hashOf) (hhash : hash = hashOf key)
    (habsent : ∀ s n, b.node? s = some n → n.key ≠ key) :
    (b.insert hash key payload).Sound hashOf where
  toStocked := h.toStocked.insert hhash habsent
  threads := by
    obtain ⟨hle, hfree, -⟩ := h.nextSlot_spec
    obtain ⟨chains, hc, hh⟩ := h.threads
    rw [index_insert]
    exact hc.insert hle hfree hh h.heads_pos
  sized := by
    rw [size_heads_insert]
    exact h.sized

end insert

/-! ## Removal -/

section remove

variable {cells : Array (Cell K P)} {xs ys : List Nat} {p : Nat}

theorem predecessor?_eq (hs : Strung (next? cells) (xs ++ p :: s :: ys))
    (hnd : (xs ++ p :: s :: ys).Nodup) {fuel : Nat}
    (hfuel : (xs ++ p :: s :: ys).length ≤ fuel) :
    predecessor? cells s fuel (xs ++ p :: s :: ys).head? = some p := by
  induction xs generalizing fuel with
  | nil =>
    obtain ⟨fuel, rfl, -⟩ := exists_fuel hfuel
    have hp : next? cells p = some s := hs.1
    simp [predecessor?, hp]
  | cons x xs ih =>
    obtain ⟨fuel, rfl, hle⟩ := exists_fuel hfuel
    have hx : next? cells x = (xs ++ p :: s :: ys).head? := hs.1
    -- The slot that follows comes before the one that is looked for.
    have hne : next? cells x ≠ some s := by
      rw [hx]
      intro heq
      have hnd' := (List.nodup_cons.1 hnd).2
      cases xs with
      | nil =>
        have hps : p = s := Option.some.inj heq
        simp [hps] at hnd'
      | cons y ys' =>
        have hys : y = s := Option.some.inj heq
        simp [hys] at hnd'
    show predecessor? cells s (fuel + 1) (some x) = some p
    rw [predecessor?, if_neg hne, hx]
    exact ih hs.2 (List.nodup_cons.1 hnd).2 hle

theorem predecessor?_eq_none {l : List Nat} (hs : Strung (next? cells) l) (hnot : s ∉ l)
    (fuel : Nat) : predecessor? cells s fuel l.head? = none := by
  induction l generalizing fuel with
  | nil => cases fuel <;> rfl
  | cons x l ih =>
    cases fuel with
    | zero => rfl
    | succ fuel =>
      have hne : next? cells x ≠ some s := by
        rw [hs.1]
        intro heq
        exact hnot (List.mem_cons_of_mem x (List.mem_of_head? heq))
      show predecessor? cells s (fuel + 1) (some x) = none
      rw [predecessor?, if_neg hne, hs.1]
      exact ih hs.2 (fun hmem => hnot (List.mem_cons_of_mem x hmem)) fuel

/-- A slot that is not in the chain of a bucket cannot be taken out of it. -/
theorem unchain_of_not_mem (h : b.Threads home chains) (hh : b.Headed chains)
    (hnot : s ∉ chains i) : b.unchain i s = (b, false) := by
  have hhead : b.heads[i]?.join = (chains i).head? := hh i
  have hne : b.heads[i]?.join ≠ some s := by
    rw [hhead]
    intro heq
    exact hnot (List.mem_of_head? heq)
  have hpred : predecessor? b.cells s b.cells.size b.heads[i]?.join = none := by
    rw [hhead]
    exact predecessor?_eq_none (h.strung i) hnot _
  simp only [unchain, if_neg hne, hpred]

/-- What taking a slot out of the chain of a bucket does: the other chains stay. -/
structure Unchained (b b' : Buckets K P) (chains : Nat → List Nat) (i s : Nat) : Prop where
  rewired : Rewired b b'
  size : b'.heads.size = b.heads.size
  headed : b'.Headed (Function.update chains i ((chains i).erase s))
  strung : ∀ j, Strung (next? b'.cells) (Function.update chains i ((chains i).erase s) j)

/-- The first slot of a chain is taken out of it by pointing the bucket at the next one. -/
theorem unchain_first (h : b.Threads home chains) (hh : b.Headed chains)
    (hl : chains i = s :: ys) :
    ∃ b', b.unchain i s = (b', true) ∧ Unchained b b' chains i s := by
  have hfirst : b.heads[i]?.join = some s := by
    rw [show b.heads[i]?.join = (chains i).head? from hh i, hl]
    rfl
  have hi : i < b.heads.size := by
    by_contra hge
    rw [Array.getElem?_eq_none (Nat.le_of_not_lt hge)] at hfirst
    cases hfirst
  have hstrung : Strung (next? b.cells) (s :: ys) := hl ▸ h.strung i
  have herase : (chains i).erase s = ys := by rw [hl, List.erase_cons_head]
  refine ⟨{ b with heads := b.heads.setIfInBounds i ys.head? }, ?_, ?_⟩
  · simp only [unchain, if_pos hfirst, show next? b.cells s = ys.head? from hstrung.1]
  · exact {
      rewired := ⟨fun _ => rfl, rfl, rfl, rfl, rfl⟩
      size := Array.size_setIfInBounds
      headed := by
        refine (Function.forall_update_iff chains fun j l => head? _ j = l.head?).2 ⟨?_, ?_⟩
        · simp [head?, herase, hi]
        · intro j hj
          have := hh j
          simpa [head?, Array.getElem?_setIfInBounds, Ne.symm hj] using this
      strung := by
        rw [herase]
        refine (Function.forall_update_iff chains fun _ l => Strung (next? b.cells) l).2 ⟨?_, ?_⟩
        · exact hstrung.2
        · exact fun j _ => h.strung j }

/-- Any other slot of a chain is taken out of it by pointing its predecessor at its successor. -/
theorem unchain_after (h : b.Threads home chains) (hh : b.Headed chains)
    (hl : chains i = xs ++ p :: s :: ys) :
    ∃ b', b.unchain i s = (b', true) ∧ Unchained b b' chains i s := by
  have hhead : b.heads[i]?.join = (chains i).head? := hh i
  have hnd : (xs ++ p :: s :: ys).Nodup := hl ▸ h.nodup i
  have hstrung : Strung (next? b.cells) (xs ++ p :: s :: ys) := hl ▸ h.strung i
  have hafter : next? b.cells s = ys.head? := by
    have hsplit : Strung (next? b.cells) ((xs ++ [p]) ++ s :: ys) := by simpa using hstrung
    exact hsplit.next_eq
  have hparts := List.nodup_append.1 hnd
  have hsp : s ≠ p := by
    rintro rfl
    simpa using hparts.2.1
  have hsxs : s ∉ xs := fun hs => hparts.2.2 s hs s (by simp) rfl
  have hpxs : p ∉ xs := fun hp => hparts.2.2 p hp p (by simp) rfl
  have hpys : p ∉ ys := by
    intro hp
    have := (List.nodup_cons.1 hparts.2.1).1
    exact this (List.mem_cons_of_mem _ hp)
  -- The slot is not the head, so the search for its predecessor runs, and finds it.
  have hne : b.heads[i]?.join ≠ some s := by
    rw [hhead, hl]
    intro heq
    cases xs with
    | nil => exact hsp (Option.some.inj heq).symm
    | cons x xs => exact hsxs (Option.some.inj heq ▸ List.mem_cons_self)
  have hpred : predecessor? b.cells s b.cells.size b.heads[i]?.join = some p := by
    rw [hhead, hl]
    exact predecessor?_eq hstrung hnd (hl ▸ h.length_le i)
  have herase : (chains i).erase s = xs ++ p :: ys := by
    rw [hl, List.erase_append_right _ hsxs, List.erase_cons_tail (by simpa using hsp.symm),
      List.erase_cons_head]
  have hp : p < b.cells.size := h.lt_size (i := i) (by simp [hl])
  refine ⟨{ b with cells := setNext b.cells p ys.head? }, ?_, ?_⟩
  · simp only [unchain, if_neg hne, hpred, hafter]
  · exact {
      rewired := ⟨fun t => node?_setNext b.cells p t _, size_setNext _ _ _, rfl, rfl, rfl⟩
      size := rfl
      headed := by
        refine (Function.forall_update_iff chains fun j l => b.head? j = l.head?).2 ⟨?_, ?_⟩
        · rw [herase, show b.head? i = (chains i).head? from hhead, hl]
          cases xs <;> rfl
        · exact fun j _ => hh j
      strung := by
        rw [herase]
        refine (Function.forall_update_iff chains fun _ l =>
          Strung (next? (setNext b.cells p ys.head?)) l).2 ⟨?_, fun j hj => ?_⟩
        · have hys : Strung (next? b.cells) ys := by
            have hsplit : Strung (next? b.cells) ((xs ++ [p, s]) ++ ys) := by simpa using hstrung
            exact hsplit.suffix
          refine hstrung.graft hys (next?_setNext_self hp) fun x hx => next?_setNext_ne ?_
          rintro rfl
          rcases List.mem_append.1 hx with hx | hx
          · exact hpxs hx
          · exact hpys hx
        · -- No other chain goes through the predecessor.
          refine (h.strung j).congr fun x hx => next?_setNext_ne ?_
          rintro rfl
          exact hj (h.bucket_unique hx (by simp [hl])) }

/-- A slot that is in the chain of a bucket is taken out of it. -/
theorem unchain_of_mem (h : b.Threads home chains) (hh : b.Headed chains)
    (hmem : s ∈ chains i) : ∃ b', b.unchain i s = (b', true) ∧ Unchained b b' chains i s := by
  obtain ⟨xs, ys, hl⟩ := List.append_of_mem hmem
  rcases List.eq_nil_or_concat' xs with rfl | ⟨xs, p, rfl⟩
  · exact unchain_first h hh hl
  · rw [List.append_assoc, List.singleton_append] at hl
    exact unchain_after h hh hl

theorem vacate_cells (b : Buckets K P) (s t : Nat) :
    (b.vacate s).cells[t]? =
      if s = t then (if s < b.cells.size then some {} else none) else b.cells[t]? := by
  simp [vacate, Array.getElem?_setIfInBounds]

theorem node?_vacate (b : Buckets K P) (s t : Nat) :
    (b.vacate s).node? t = if t = s then none else b.node? t := by
  unfold node?
  rw [vacate_cells]
  by_cases hts : t = s
  · subst hts
    rw [if_pos rfl, if_pos rfl]
    split <;> rfl
  · rw [if_neg (Ne.symm hts), if_neg hts]

theorem next?_vacate {b : Buckets K P} (hts : t ≠ s) :
    next? (b.vacate s).cells t = next? b.cells t := by
  unfold next?
  rw [vacate_cells, if_neg (Ne.symm hts)]

/-- Emptying the slot of a node leaves the other nodes and the vacant slots as they should be. -/
theorem Stocked.vacate (h : b.Stocked hashOf) (hs : b.node? s = some node) :
    (b.vacate s).Stocked hashOf := by
  have hsub {t : Nat} {n : Node K P} (hn : (b.vacate s).node? t = some n) :
      b.node? t = some n := by
    rw [node?_vacate] at hn
    split at hn
    · cases hn
    · exact hn
  have hsize : (b.vacate s).cells.size = b.cells.size := by simp [Buckets.vacate]
  have hnew : s ∉ b.vacant := fun hmem => by
    have hnone := (h.vacant s hmem).2.1
    rw [hs] at hnone
    cases hnone
  refine h.of_sub (fun _ _ => hsub) rfl (fun t ht => ?_) (List.nodup_cons.2 ⟨hnew, h.spare⟩)
    (hsize ▸ h.slab)
  rw [hsize, node?_vacate]
  rcases List.mem_cons.1 ht with rfl | ht
  · exact ⟨lt_size_of_node? hs, if_pos rfl, (h.slot t node hs).2⟩
  · obtain ⟨hlt, hnone, hres⟩ := h.vacant t ht
    exact ⟨hlt, by simp [hnone], hres⟩

/-- Removing a slot that is in the chain of a hash. -/
theorem removeSlot_of_mem {hash : UInt64} (h : b.Threads b.index chains) (hh : b.Headed chains)
    (hmem : s ∈ chains (b.index hash)) : ∃ b', Rewired b b' ∧ b'.heads.size = b.heads.size ∧
      b.removeSlot hash s = (b'.vacate s, true) ∧ ∃ chains',
        (b'.vacate s).Threads b.index chains' ∧ (b'.vacate s).Headed chains' := by
  obtain ⟨b', hout, hr, hsize, hh', hs'⟩ := unchain_of_mem h hh hmem
  refine ⟨b', hr, hsize, by simp only [removeSlot, hout], _, ?_, hh'⟩
  -- The slot that is emptied is in no chain any more.
  have hsub (j : Nat) : ∀ t ∈ Function.update chains (b.index hash)
      ((chains (b.index hash)).erase s) j, t ≠ s ∧ t ∈ chains j := by
    intro t ht
    by_cases hj : j = b.index hash
    · subst hj
      rw [Function.update_self] at ht
      exact (h.nodup _).mem_erase_iff.1 ht
    · rw [Function.update_of_ne hj] at ht
      refine ⟨?_, ht⟩
      rintro rfl
      exact hj (h.bucket_unique ht hmem)
  exact {
    strung := fun j => (hs' j).congr fun t ht => next?_vacate (hsub j t ht).1
    nodup := by
      refine (Function.forall_update_iff chains fun _ l => l.Nodup).2 ⟨?_, ?_⟩
      · exact (h.nodup _).erase s
      · exact fun j _ => h.nodup j
    placed := by
      intro j t ht
      obtain ⟨hne, hold⟩ := hsub j t ht
      rw [node?_vacate, if_neg hne, hr.node?]
      exact h.placed j t hold
    covered := by
      intro t n hn
      rw [node?_vacate, hr.node?] at hn
      split at hn
      · cases hn
      next hne =>
      have hold := h.covered t n hn
      by_cases hj : b.index n.hash = b.index hash
      · rw [hj, Function.update_self]
        exact (h.nodup _).mem_erase_iff.2 ⟨hne, hj ▸ hold⟩
      · rwa [Function.update_of_ne hj] }

end remove

/-- Removing a node either finds it and empties its slot, or changes nothing. -/
theorem Sound.removeNode (h : b.Sound hashOf) (node : Node K P) :
    ((b.removeNode node).2 = true ∧ (b.removeNode node).1.Sound hashOf ∧
      ∀ t, (b.removeNode node).1.node? t = if t = node.slot then none else b.node? t) ∨
    (b.removeNode node = (b, false) ∧ node ∉ b.nodes) := by
  obtain ⟨chains, hc, hh⟩ := h.threads
  by_cases hmem : b.holds node = true ∧ node.slot ∈ chains (b.index node.hash)
  · -- The node is stored: its slot is taken out of the chain and emptied.
    obtain ⟨hholds, hmem⟩ := hmem
    obtain ⟨b', hr, hsize, hout, chains', hc', hh'⟩ := removeSlot_of_mem hc hh hmem
    obtain ⟨current, hcurrent, -⟩ := hc.placed _ _ hmem
    have hremove : b.removeNode node = (b'.vacate node.slot, true) := by
      rw [Buckets.removeNode, if_pos hholds, hout]
    have hindex : (b'.vacate node.slot).index = b.index := by
      funext hash
      simp [index, vacate, hsize]
    rw [hremove]
    refine .inl ⟨rfl, ?_, fun t => by rw [node?_vacate, hr.node?]⟩
    exact {
      toStocked := (h.toStocked.rewire hr).vacate ((hr.node? _).trans hcurrent)
      threads := ⟨chains', hindex ▸ hc', hh'⟩
      sized := by
        show ∃ j, b'.heads.size = _
        rw [hsize]
        exact h.sized }
  · -- Otherwise the look-up along the chain fails, and nothing is written.
    refine .inr ⟨?_, ?_⟩
    · by_cases hholds : b.holds node = true
      · have hnot : node.slot ∉ chains (b.index node.hash) := fun hs => hmem ⟨hholds, hs⟩
        rw [Buckets.removeNode, if_pos hholds, removeSlot, unchain_of_not_mem hc hh hnot]
      · rw [Buckets.removeNode, if_neg hholds]
    · intro hnode
      obtain ⟨s, hs⟩ := mem_nodes.1 hnode
      obtain ⟨rfl, -⟩ := h.slot s node hs
      exact hmem ⟨by simp [holds, hs], hc.covered _ node hs⟩

theorem Sound.removeNode_sound (h : b.Sound hashOf) (node : Node K P) :
    (b.removeNode node).1.Sound hashOf := by
  rcases h.removeNode node with ⟨-, hs, -⟩ | ⟨heq, -⟩
  · exact hs
  · rw [heq]
    exact h

/-- What is left after a node has been removed are the other nodes. -/
theorem Sound.mem_removeNode (h : b.Sound hashOf) (hnode : node ∈ b.nodes) {n : Node K P} :
    n ∈ (b.removeNode node).1.nodes ↔ n ∈ b.nodes ∧ n ≠ node := by
  rcases h.removeNode node with ⟨-, -, hnodes⟩ | ⟨-, hnot⟩
  · obtain ⟨s, hs⟩ := mem_nodes.1 hnode
    obtain ⟨rfl, -⟩ := h.slot s node hs
    simp only [mem_nodes, hnodes]
    constructor
    · rintro ⟨t, ht⟩
      split at ht
      · cases ht
      next hne =>
      refine ⟨⟨t, ht⟩, ?_⟩
      rintro rfl
      exact hne (h.slot t n ht).1.symm
    · rintro ⟨⟨t, ht⟩, hne⟩
      refine ⟨t, ?_⟩
      rw [if_neg, ht]
      rintro rfl
      rw [hs] at ht
      exact hne (Option.some.inj ht).symm
  · exact absurd hnode hnot

/-- No removal brings a node about. -/
theorem Sound.of_mem_removeNode (h : b.Sound hashOf) (node : Node K P) {n : Node K P}
    (hn : n ∈ (b.removeNode node).1.nodes) : n ∈ b.nodes := by
  rcases h.removeNode node with ⟨-, -, hnodes⟩ | ⟨heq, -⟩
  · simp only [mem_nodes, hnodes] at hn ⊢
    obtain ⟨t, ht⟩ := hn
    split at ht
    · cases ht
    · exact ⟨t, ht⟩
  · rwa [heq] at hn

/-! ## Clearing -/

theorem node?_clear (h : b.Sound hashOf) (s : Nat) : b.clear.node? s = none := by
  by_contra hsome
  obtain ⟨n, hn⟩ := Option.ne_none_iff_exists'.1 hsome
  have hlt : s < reserved := by
    have := lt_size_of_node? hn
    simp only [clear, Array.take_eq_extract, Array.size_extract] at this
    omega
  have hold : b.node? s = some n := by
    rw [← hn]
    simp only [node?, clear, Array.take_eq_extract, Array.getElem?_extract]
    rw [if_pos (by have := h.slab; omega)]
    simp
  exact absurd (h.slot s n hold).2 (Nat.not_le_of_lt hlt)

theorem Sound.clear (h : b.Sound hashOf) : b.clear.Sound hashOf := by
  refine sound_of_none (node?_clear h) (fun i => ?_) rfl ?_ ?_
  · simp only [head?, Buckets.clear, Array.getElem?_replicate]
    split <;> rfl
  · have := h.slab
    simp only [Buckets.clear, Array.take_eq_extract, Array.size_extract]
    omega
  · obtain ⟨j, hj⟩ := h.sized
    exact ⟨j, by simp [Buckets.clear, hj]⟩

end ReadThrough.Table.Buckets
