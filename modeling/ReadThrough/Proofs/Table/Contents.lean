import Mathlib.Data.List.ReduceOption
import ReadThrough.Proofs.Table.Growth

/-! # What the Slab Holds

  The slab as a plain list, which has a node or nothing for each slot.

  - **contents**: that list, and what becomes of it when a node is inserted or removed and when the
    slab is cleared or cut.
  - **Accounted**: the nodes have been counted, and every empty slot is known as a vacant one.
-/

namespace ReadThrough.Table.Buckets

variable {K P : Type} {b b' : Buckets K P} {hashOf : K → UInt64} {node : Node K P} {s : Nat}

/-- The node of each slot, if it has one. -/
def contents (b : Buckets K P) : List (Option (Node K P)) :=
  b.cells.toList.map Cell.node?

@[simp] theorem length_contents (b : Buckets K P) : b.contents.length = b.cells.size := by
  simp [contents]

theorem getElem?_contents (b : Buckets K P) (s : Nat) :
    b.contents[s]? = b.cells[s]?.map Cell.node? := by
  simp [contents]

theorem node?_eq (b : Buckets K P) (s : Nat) : b.node? s = b.contents[s]?.join := by
  rw [getElem?_contents, node?]
  cases b.cells[s]? <;> rfl

theorem nodes_eq (b : Buckets K P) : b.nodes = b.contents.reduceOption := by
  rw [nodes, contents, List.reduceOption, List.filterMap_map]
  rfl

/-- The slab is told by its nodes and its size. -/
theorem contents_ext {l : List (Option (Node K P))} (hsize : b.cells.size = l.length)
    (hnode : ∀ s, b.node? s = l[s]?.join) : b.contents = l := by
  apply List.ext_getElem?
  intro s
  have hs := hnode s
  rw [node?_eq] at hs
  by_cases hlt : s < l.length
  · have hlt' : s < b.contents.length := by rwa [length_contents, hsize]
    rw [List.getElem?_eq_getElem hlt, List.getElem?_eq_getElem hlt'] at hs ⊢
    simpa using hs
  · have hle : l.length ≤ s := Nat.le_of_not_lt hlt
    rw [List.getElem?_eq_none hle, List.getElem?_eq_none]
    rwa [length_contents, hsize]

theorem Rewired.contents (h : Rewired b b') : b'.contents = b.contents := by
  apply contents_ext
  · rw [h.cells, length_contents]
  · intro s
    rw [h.node?, node?_eq]

theorem Rewired.nodes (h : Rewired b b') : b'.nodes = b.nodes := by
  rw [nodes_eq, nodes_eq, h.contents]

/-! ## The operations -/

/-- The new node takes the place of the first vacancy, or extends the slab. -/
theorem contents_insert (b : Buckets K P) (hash : UInt64) (key : K) (payload : P) :
    (b.insert hash key payload).contents =
      if b.nextSlot < b.cells.size then
        b.contents.set b.nextSlot (some (b.nextNode hash key payload))
      else b.contents ++ [some (b.nextNode hash key payload)] := by
  have hslot : (b.nextNode hash key payload).slot = b.nextSlot := rfl
  simp only [contents, insert, hslot]
  split
  · simp [List.map_set]
  · simp

/-- Taking a slot out of a chain changes no node. -/
theorem unchain_rewired (b : Buckets K P) (bucket slot : Nat) :
    Rewired b (b.unchain bucket slot).1 := by
  unfold unchain
  dsimp only
  split
  · exact ⟨fun _ => rfl, rfl, rfl, rfl, rfl⟩
  split
  · exact .refl b
  · exact ⟨fun t => node?_setNext _ _ t _, size_setNext _ _ _, rfl, rfl, rfl⟩

/-- What removing a node from its slot does to the slab. -/
structure Emptied (b b' : Buckets K P) (slot : Nat) : Prop where
  contents : b'.contents = b.contents.set slot none
  vacant : b'.vacant = slot :: b.vacant
  size : b'.size = b.size - 1
  generation : b'.nextGeneration = b.nextGeneration

theorem Emptied.cells (h : Emptied b b' s) : b'.cells.size = b.cells.size := by
  rw [← length_contents b', h.contents, List.length_set, length_contents]

theorem Emptied.node? (h : Emptied b b' s) (t : Nat) :
    b'.node? t = if t = s then none else b.node? t := by
  rw [node?_eq, h.contents, List.getElem?_set, node?_eq]
  by_cases hts : t = s
  · rw [if_pos hts.symm, if_pos hts]
    split <;> rfl
  · rw [if_neg (Ne.symm hts), if_neg hts]

theorem vacate_emptied (b : Buckets K P) (s : Nat) : Emptied b (b.vacate s) s where
  contents := by simp [contents, vacate, List.map_set]
  vacant := rfl
  size := rfl
  generation := rfl

/-- A node is removed if its slot still holds its generation and the chain of its hash has the
    slot; otherwise nothing changes. -/
theorem removeNode_cases (b : Buckets K P) (node : Node K P) :
    (b.removeNode node = (b, false)) ∨
      ((b.removeNode node).2 = true ∧ b.holds node = true ∧
        Emptied b (b.removeNode node).1 node.slot) := by
  have hr := unchain_rewired b (b.index node.hash) node.slot
  unfold removeNode
  split
  · next hholds =>
    unfold removeSlot
    dsimp only
    split
    · next b' hout =>
      rw [hout] at hr
      refine .inr ⟨rfl, hholds, ?_⟩
      have he := vacate_emptied b' node.slot
      exact ⟨hr.contents ▸ he.contents, hr.vacant ▸ he.vacant, hr.size ▸ he.size,
        hr.generation ▸ he.generation⟩
    · next b' hout =>
      -- Nothing was taken out, so the links are those from before.
      have hsame : b' = b := by
        unfold unchain at hout
        dsimp only at hout
        split at hout
        · cases hout
        split at hout
        · exact (Prod.mk.inj hout).1.symm
        · cases hout
      exact .inl (by rw [hsame])
  · exact .inl rfl

theorem contents_clear (h : b.Sound hashOf) : b.clear.contents = [none, none] := by
  apply contents_ext
  · have hslab := h.slab
    unfold reserved at hslab
    simp only [clear, Array.take_eq_extract, Array.size_extract, reserved, List.length_cons,
      List.length_nil]
    omega
  · intro s
    rw [node?_clear h]
    cases s with
    | zero => rfl
    | succ s => cases s <;> rfl

theorem contents_empty (capacity : Nat) (f : LoadFactor) :
    (Buckets.empty capacity f : Buckets K P).contents = [none, none] :=
  rfl

theorem Rewired.occupiedEnd (h : Rewired b b') (n : Nat) :
    b'.occupiedEnd n = b.occupiedEnd n := by
  induction n with
  | zero => rfl
  | succ n ih => rw [Buckets.occupiedEnd, Buckets.occupiedEnd, h.node?, ih]

theorem contents_cutSlab (b : Buckets K P) :
    b.cutSlab.contents = b.contents.take (b.occupiedEnd b.cells.size) := by
  simp [contents, cutSlab]

/-- Pinching cuts the slab behind its last node and forgets the vacant slots from there on. -/
theorem Sound.pinch_contents (h : b.Sound hashOf) :
    b.pinch.contents = b.contents.take (b.occupiedEnd b.cells.size) ∧
      b.pinch.vacant = b.vacant.filter (· < b.occupiedEnd b.cells.size) ∧
      b.pinch.size = b.size ∧ b.pinch.nextGeneration = b.nextGeneration := by
  obtain ⟨hr, -⟩ := h.shrinkFor b.heads.size.log2
  refine ⟨?_, ?_, hr.size, hr.generation⟩
  · rw [Buckets.pinch, contents_cutSlab, hr.contents, hr.cells, hr.occupiedEnd]
  · show (Buckets.shrinkFor b.heads.size.log2 b).vacant.filter _ = _
    rw [hr.vacant, hr.cells, hr.occupiedEnd]

/-- No slot is occupied from the end of the occupied ones on. -/
theorem Stocked.node?_of_le (h : b.Stocked hashOf) (hle : b.occupiedEnd b.cells.size ≤ s) :
    b.node? s = none := by
  by_contra hsome
  obtain ⟨node, hnode⟩ := Option.ne_none_iff_exists'.1 hsome
  have hlt := (h.occupiedEnd_spec b.cells.size).2.2 s (lt_size_of_node? hnode) (by simp [hnode])
  omega

theorem Sound.pinch_nodes (h : b.Sound hashOf) : b.pinch.nodes = b.nodes := by
  have hsplit := List.take_append_drop (b.occupiedEnd b.cells.size) b.contents
  have hrest : (b.contents.drop (b.occupiedEnd b.cells.size)).reduceOption = [] := by
    rw [List.reduceOption, List.filterMap_eq_nil_iff]
    intro a ha
    obtain ⟨i, hi⟩ := List.mem_iff_getElem?.1 ha
    rw [List.getElem?_drop] at hi
    have hnone := h.toStocked.node?_of_le (Nat.le_add_right (b.occupiedEnd b.cells.size) i)
    rw [node?_eq, hi] at hnone
    exact hnone
  rw [nodes_eq, h.pinch_contents.1, nodes_eq]
  conv_rhs => rw [← hsplit, List.reduceOption_append, hrest, List.append_nil]

/-! ## Accounting for every slot -/

/-- The nodes have been counted, and every empty slot is known as a vacant one. -/
structure Accounted (b : Buckets K P) : Prop where
  size : b.size = b.nodes.length
  vacant : ∀ s, reserved ≤ s → s < b.cells.size → b.node? s = none → s ∈ b.vacant

theorem length_nodes (b : Buckets K P) : b.nodes.length = b.contents.countP Option.isSome := by
  rw [nodes_eq, List.reduceOption_length_eq, List.countP_eq_length_filter]

theorem Accounted.rewire (h : b.Accounted) (hr : Rewired b b') : b'.Accounted where
  size := by rw [hr.size, hr.nodes, h.size]
  vacant := by
    intro s hres hlt hnone
    rw [hr.cells] at hlt
    rw [hr.node?] at hnone
    rw [hr.vacant]
    exact h.vacant s hres hlt hnone

theorem accounted_of_none (hcontents : b.contents = [none, none]) (hsize : b.size = 0) :
    b.Accounted where
  size := by rw [length_nodes, hcontents, hsize]; rfl
  vacant := by
    intro s hres hlt
    rw [← length_contents, hcontents] at hlt
    simp only [List.length_cons, List.length_nil] at hlt
    unfold reserved at hres
    omega

theorem Accounted.insert (h : b.Accounted) (hs : b.Stocked hashOf) (hash : UInt64) (key : K)
    (payload : P) : (b.insert hash key payload).Accounted where
  size := by
    obtain ⟨hle, hfree, -⟩ := hs.nextSlot_spec
    have hcount := h.size
    rw [length_nodes] at hcount
    show b.size + 1 = _
    rw [length_nodes, contents_insert, hcount]
    split
    · next hlt =>
      have hlt' : b.nextSlot < b.contents.length := by rwa [length_contents]
      rw [node?_eq, List.getElem?_eq_getElem hlt', Option.join_some] at hfree
      rw [List.countP_set hlt', hfree]
      rfl
    · rw [List.countP_append]
      rfl
  vacant := by
    obtain ⟨hle, -, -⟩ := hs.nextSlot_spec
    intro s hres hlt hnone
    rw [node?_insert hle] at hnone
    split at hnone
    · cases hnone
    next hne =>
    show s ∈ b.vacant.tail
    have hold : s < b.cells.size := by
      rw [← length_contents, contents_insert] at hlt
      split at hlt
      · simpa using hlt
      · simp only [List.length_append, length_contents, List.length_cons, List.length_nil] at hlt
        omega
    -- An empty slot that is not used now is vacant beyond the first vacancy.
    have hmem := h.vacant s hres hold hnone
    cases hv : b.vacant with
    | nil =>
      rw [hv] at hmem
      exact hmem
    | cons first rest =>
      rw [hv] at hmem
      refine (List.mem_cons.1 hmem).resolve_left fun heq => hne ?_
      rw [nextSlot, hv, heq]
      rfl

theorem Accounted.emptied (h : b.Accounted) (he : Emptied b b' s)
    (hs : (b.node? s).isSome) : b'.Accounted where
  size := by
    have hcount := h.size
    rw [length_nodes] at hcount
    obtain ⟨node, hnode⟩ := Option.isSome_iff_exists.1 hs
    have hlt : s < b.contents.length := by
      rw [length_contents]
      exact lt_size_of_node? hnode
    rw [node?_eq, List.getElem?_eq_getElem hlt, Option.join_some] at hnode
    rw [he.size, length_nodes, he.contents, List.countP_set hlt, hnode, hcount]
    rfl
  vacant := by
    intro t hres hlt hnone
    rw [he.cells] at hlt
    rw [he.node?] at hnone
    rw [he.vacant]
    -- The slot that has become empty is the latest vacancy.
    by_cases hts : t = s
    · rw [hts]
      exact List.mem_cons_self
    · rw [if_neg hts] at hnone
      exact List.mem_cons_of_mem s (h.vacant t hres hlt hnone)

/-- The slot of a handle that the buckets hold is occupied. -/
theorem isSome_of_holds (h : b.holds node = true) : (b.node? node.slot).isSome := by
  unfold holds at h
  cases hnode : b.node? node.slot with
  | none => simp [hnode] at h
  | some current => rfl

theorem Accounted.removeNode (h : b.Accounted) (node : Node K P) :
    (b.removeNode node).1.Accounted := by
  rcases b.removeNode_cases node with heq | ⟨-, hholds, he⟩
  · rw [heq]
    exact h
  · exact h.emptied he (isSome_of_holds hholds)

/-- Taking a node out makes one less. -/
theorem Accounted.size_removeNode (h : b.Accounted) (hs : b.Sound hashOf) (hnode : node ∈ b.nodes) :
    (b.removeNode node).1.size + 1 = b.size := by
  have hpos : 0 < b.size := by
    rw [h.size]
    exact List.length_pos_of_mem hnode
  rcases b.removeNode_cases node with hsame | ⟨-, -, he⟩
  · rcases hs.removeNode node with ⟨hout, -⟩ | ⟨-, habsent⟩
    · rw [hsame] at hout
      cases hout
    · exact absurd hnode habsent
  · rw [he.size]
    omega

theorem Accounted.clear (hs : b.Sound hashOf) : b.clear.Accounted :=
  accounted_of_none (contents_clear hs) rfl

theorem accounted_empty (capacity : Nat) (f : LoadFactor) :
    (Buckets.empty capacity f : Buckets K P).Accounted :=
  accounted_of_none (contents_empty capacity f) rfl

theorem Accounted.pinch (h : b.Accounted) (hs : b.Sound hashOf) : b.pinch.Accounted where
  size := by
    rw [hs.pinch_contents.2.2.1, hs.pinch_nodes, h.size]
  vacant := by
    obtain ⟨hcontents, hvacant, -, -⟩ := hs.pinch_contents
    intro s hres hlt hnone
    rw [hs.pinch.2] at hnone
    rw [← length_contents, hcontents, List.length_take, length_contents] at hlt
    rw [hvacant, List.mem_filter]
    refine ⟨h.vacant s hres (by omega) hnone, ?_⟩
    simp only [decide_eq_true_eq]
    omega

end ReadThrough.Table.Buckets
