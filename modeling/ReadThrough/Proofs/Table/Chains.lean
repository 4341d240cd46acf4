import Mathlib.Algebra.Group.Nat.Defs
import ReadThrough.Proofs.Strung
import ReadThrough.Table.Buckets

/-! # The Chains of the Buckets

  The buckets, told as a list of slots for each of them.

  - **Threads**: the links fit a list of slots for each bucket; every stored node is in the list of
    its hash, and nothing else is. Which bucket a hash is at home in is left open, since it changes
    one bucket after the other while the bucket array grows or shrinks.
  - **Rewired**: what an operation leaves alone that only changes links.
  - **Sound**: beyond that, no key is stored twice, and the vacant slots are empty.
  - **find?_eq_some_iff**: looking a key up finds the node that has it.
-/

namespace ReadThrough.Table.Buckets

variable {K P : Type}

/-! ## Cells -/

section cells

variable {cells : Array (Cell K P)} {s t : Nat} {n : Option Nat}

theorem next?_setNext_self (h : s < cells.size) : next? (setNext cells s n) s = n := by
  simp [next?, setNext, h, Array.getElem_modify]

theorem next?_setNext_ne (h : t ≠ s) : next? (setNext cells s n) t = next? cells t := by
  simp [next?, setNext, Array.getElem?_modify, h.symm]

/-- Links between slots have nothing to do with what is in them. -/
@[simp] theorem node?_setNext (cells : Array (Cell K P)) (s t : Nat) (n : Option Nat) :
    (setNext cells s n)[t]?.bind Cell.node? = cells[t]?.bind Cell.node? := by
  unfold setNext
  rw [Array.getElem?_modify]
  split
  · cases cells[t]? <;> rfl
  · rfl

@[simp] theorem size_setNext (cells : Array (Cell K P)) (s : Nat) (n : Option Nat) :
    (setNext cells s n).size = cells.size :=
  Array.size_modify

end cells

variable {b b' b'' : Buckets K P} {home : UInt64 → Nat} {chains : Nat → List Nat} {s t i : Nat}
  {node : Node K P}

theorem lt_size_of_node? (h : b.node? s = some node) : s < b.cells.size := by
  obtain ⟨cell, hcell, -⟩ := Option.bind_eq_some_iff.1 h
  exact (Array.getElem?_eq_some_iff.1 hcell).1

theorem mem_nodes : node ∈ b.nodes ↔ ∃ s, b.node? s = some node := by
  unfold nodes node?
  rw [List.mem_filterMap]
  constructor
  · rintro ⟨cell, hmem, hnode⟩
    obtain ⟨s, hs⟩ := List.mem_iff_getElem?.1 hmem
    exact ⟨s, Option.bind_eq_some_iff.2 ⟨cell, by simpa using hs, hnode⟩⟩
  · rintro ⟨s, hs⟩
    obtain ⟨cell, hcell, hnode⟩ := Option.bind_eq_some_iff.1 hs
    exact ⟨cell, by simpa using Array.mem_of_getElem? hcell, hnode⟩

/-! ## Threads -/

/-- The links fit a list of slots for each bucket, and the slots of a list are those of the nodes
    whose hashes are at home in that bucket. -/
structure Threads (b : Buckets K P) (home : UInt64 → Nat) (chains : Nat → List Nat) : Prop where
  strung : ∀ i, Strung (next? b.cells) (chains i)
  nodup : ∀ i, (chains i).Nodup
  placed : ∀ i, ∀ s ∈ chains i, ∃ node, b.node? s = some node ∧ home node.hash = i
  covered : ∀ s node, b.node? s = some node → s ∈ chains (home node.hash)

/-- The bucket array has the first slot of each list. -/
def Headed (b : Buckets K P) (chains : Nat → List Nat) : Prop :=
  ∀ i, b.head? i = (chains i).head?

theorem Threads.lt_size (h : b.Threads home chains) (hs : s ∈ chains i) : s < b.cells.size := by
  obtain ⟨node, hnode, -⟩ := h.placed i s hs
  exact lt_size_of_node? hnode

theorem Threads.length_le (h : b.Threads home chains) (i : Nat) :
    (chains i).length ≤ b.cells.size :=
  length_le_of_nodup (h.nodup i) fun _ hs => h.lt_size hs

/-- No slot is in two lists. -/
theorem Threads.bucket_unique {j : Nat} (h : b.Threads home chains) (hsi : s ∈ chains i)
    (hsj : s ∈ chains j) : i = j := by
  obtain ⟨node, hnode, hindex⟩ := h.placed i s hsi
  obtain ⟨node', hnode', hindex'⟩ := h.placed j s hsj
  rw [hnode] at hnode'
  obtain rfl := Option.some.inj hnode'
  exact hindex.symm.trans hindex'

/-- A bucket where no hash is at home has no slots. -/
theorem Threads.eq_nil (h : b.Threads home chains) (hi : ∀ hash, home hash ≠ i) :
    chains i = [] := by
  refine List.eq_nil_iff_forall_not_mem.2 fun s hs => ?_
  obtain ⟨node, -, hhome⟩ := h.placed i s hs
  exact hi _ hhome

/-! ## Changes of nothing but links -/

/-- Two buckets whose slots hold the same. -/
structure Rewired (b b' : Buckets K P) : Prop where
  node? : ∀ s, b'.node? s = b.node? s
  cells : b'.cells.size = b.cells.size
  vacant : b'.vacant = b.vacant
  generation : b'.nextGeneration = b.nextGeneration
  size : b'.size = b.size

theorem Rewired.refl (b : Buckets K P) : Rewired b b :=
  ⟨fun _ => rfl, rfl, rfl, rfl, rfl⟩

theorem Rewired.trans (h : Rewired b b') (h' : Rewired b' b'') : Rewired b b'' where
  node? := fun s => (h'.node? s).trans (h.node? s)
  cells := h'.cells.trans h.cells
  vacant := h'.vacant.trans h.vacant
  generation := h'.generation.trans h.generation
  size := h'.size.trans h.size

/-- Other links that fit the same lists do as well. -/
theorem Threads.rewire (h : b.Threads home chains) (hr : Rewired b b')
    (hs : ∀ i, Strung (next? b'.cells) (chains i)) : b'.Threads home chains where
  strung := hs
  nodup := h.nodup
  placed := fun i s hmem => by
    rw [hr.node?]
    exact h.placed i s hmem
  covered := fun s n hn => h.covered s n ((hr.node? s).symm.trans hn)

/-! ## Looking a key up -/

section find

variable [DecidableEq K] {hash : UInt64} {key : K}

/-- Following the links of a chain is looking through its list. -/
theorem findFrom_eq {cells : Array (Cell K P)} {l : List Nat} {fuel : Nat}
    (hs : Strung (next? cells) l) (hfuel : l.length ≤ fuel)
    (hnodes : ∀ s ∈ l, ∃ node, cells[s]?.bind Cell.node? = some node) :
    findFrom cells hash key fuel l.head? = (l.filterMap fun s => cells[s]?.bind Cell.node?).find?
      fun node => decide (node.hash = hash ∧ node.key = key) := by
  induction l generalizing fuel with
  | nil => cases fuel <;> rfl
  | cons s l ih =>
    obtain ⟨fuel, rfl, hle⟩ := exists_fuel hfuel
    obtain ⟨node, hnode⟩ := hnodes s List.mem_cons_self
    obtain ⟨cell, hcell, hstored⟩ := Option.bind_eq_some_iff.1 hnode
    have hnext : cell.next? = l.head? := by
      have h := hs.1
      simpa [next?, hcell] using h
    have hrest := ih hs.2 hle
      fun t ht => hnodes t (List.mem_cons_of_mem s ht)
    have hcons : (s :: l).filterMap (fun s => cells[s]?.bind Cell.node?) =
        node :: l.filterMap (fun s => cells[s]?.bind Cell.node?) :=
      List.filterMap_cons_some hnode
    rw [hcons, List.find?_cons]
    simp only [List.head?_cons, findFrom, hcell, hstored, hnext, hrest]
    by_cases hfound : node.hash = hash ∧ node.key = key
    · simp [hfound]
    · simp [hfound]

theorem find?_eq (h : b.Threads b.index chains) (hh : b.Headed chains) :
    b.find? hash key = ((chains (b.index hash)).filterMap b.node?).find?
      fun node => decide (node.hash = hash ∧ node.key = key) := by
  unfold find?
  rw [hh]
  refine findFrom_eq (h.strung _) (h.length_le _) fun s hs => ?_
  obtain ⟨node, hnode, -⟩ := h.placed _ s hs
  exact ⟨node, hnode⟩

end find

/-! ## Soundness -/

/-- The nodes and the vacant slots are as they should be, whatever the chains. -/
structure Stocked (b : Buckets K P) (hashOf : K → UInt64) : Prop where
  slot : ∀ s node, b.node? s = some node → node.slot = s ∧ reserved ≤ s
  hashed : ∀ s node, b.node? s = some node → node.hash = hashOf node.key
  key : ∀ s t m n, b.node? s = some m → b.node? t = some n → m.key = n.key → s = t
  generation : ∀ s node, b.node? s = some node → node.generation < b.nextGeneration
  different : ∀ s t m n, b.node? s = some m → b.node? t = some n →
    m.generation = n.generation → s = t
  vacant : ∀ s ∈ b.vacant, s < b.cells.size ∧ b.node? s = none ∧ reserved ≤ s
  spare : b.vacant.Nodup
  slab : reserved ≤ b.cells.size

/-- Buckets that hold no other nodes than before are as they should be if their vacant slots are. -/
theorem Stocked.of_sub {hashOf : K → UInt64} (h : b.Stocked hashOf)
    (hsub : ∀ s node, b'.node? s = some node → b.node? s = some node)
    (hgeneration : b'.nextGeneration = b.nextGeneration)
    (hvacant : ∀ s ∈ b'.vacant, s < b'.cells.size ∧ b'.node? s = none ∧ reserved ≤ s)
    (hspare : b'.vacant.Nodup) (hslab : reserved ≤ b'.cells.size) : b'.Stocked hashOf where
  slot := fun s n hn => h.slot s n (hsub s n hn)
  hashed := fun s n hn => h.hashed s n (hsub s n hn)
  key := fun s t m n hm hn => h.key s t m n (hsub s m hm) (hsub t n hn)
  generation := fun s n hn => hgeneration ▸ h.generation s n (hsub s n hn)
  different := fun s t m n hm hn => h.different s t m n (hsub s m hm) (hsub t n hn)
  vacant := hvacant
  spare := hspare
  slab := hslab

theorem Stocked.rewire {hashOf : K → UInt64} (h : b.Stocked hashOf) (hr : Rewired b b') :
    b'.Stocked hashOf := by
  refine h.of_sub (fun s n hn => (hr.node? s).symm.trans hn) hr.generation (fun s hs => ?_)
    (hr.vacant ▸ h.spare) (hr.cells ▸ h.slab)
  rw [hr.cells, hr.node?]
  exact h.vacant s (hr.vacant ▸ hs)

/-- The buckets, whose keys are hashed by `hashOf`, are in order. -/
structure Sound (b : Buckets K P) (hashOf : K → UInt64) : Prop extends Stocked b hashOf where
  threads : ∃ chains, b.Threads b.index chains ∧ b.Headed chains
  sized : ∃ j, b.heads.size = LoadFactor.leastBuckets * 2 ^ j

/-- Buckets without nodes are in order. -/
theorem sound_of_none {hashOf : K → UInt64} (hnone : ∀ s, b.node? s = none)
    (hheads : ∀ i, b.head? i = none) (hvacant : b.vacant = []) (hslab : reserved ≤ b.cells.size)
    (hsized : ∃ j, b.heads.size = LoadFactor.leastBuckets * 2 ^ j) : b.Sound hashOf where
  slot := fun s n hn => by simp [hnone] at hn
  hashed := fun s n hn => by simp [hnone] at hn
  key := fun s t m n hm => by simp [hnone] at hm
  generation := fun s n hn => by simp [hnone] at hn
  different := fun s t m n hm => by simp [hnone] at hm
  vacant := fun s hs => by simp [hvacant] at hs
  spare := hvacant ▸ List.nodup_nil
  slab := hslab
  threads := by
    refine ⟨fun _ => [], ⟨fun _ => trivial, fun _ => List.nodup_nil, nofun, ?_⟩, hheads⟩
    intro s n hn
    simp [hnone] at hn
  sized := hsized

theorem Sound.heads_pos {hashOf : K → UInt64} (h : b.Sound hashOf) : 0 < b.heads.size := by
  obtain ⟨j, hj⟩ := h.sized
  rw [hj]
  exact Nat.mul_pos (by decide) (Nat.two_pow_pos j)

/-- Looking a key up finds the node that has it. -/
theorem Sound.find?_eq_some_iff [DecidableEq K] {hashOf : K → UInt64} (h : b.Sound hashOf)
    {key : K} : b.find? (hashOf key) key = some node ↔ node ∈ b.nodes ∧ node.key = key := by
  obtain ⟨chains, hc, hh⟩ := h.threads
  rw [find?_eq hc hh, mem_nodes]
  have hfound {m : Node K P} (hm : ((chains (b.index (hashOf key))).filterMap b.node?).find?
      (fun node => decide (node.hash = hashOf key ∧ node.key = key)) = some m) :
      (∃ s, b.node? s = some m) ∧ m.key = key := by
    obtain ⟨s, -, hs⟩ := List.mem_filterMap.1 (List.mem_of_find?_eq_some hm)
    have hkey := List.find?_some hm
    simp only [decide_eq_true_eq] at hkey
    exact ⟨⟨s, hs⟩, hkey.2⟩
  constructor
  · exact hfound
  · rintro ⟨⟨s, hs⟩, rfl⟩
    have hhash := h.hashed s node hs
    have hmem : node ∈ (chains (b.index (hashOf node.key))).filterMap b.node? :=
      List.mem_filterMap.2 ⟨s, hhash ▸ hc.covered s node hs, hs⟩
    obtain ⟨m, hm⟩ : ∃ m, ((chains (b.index (hashOf node.key))).filterMap b.node?).find?
        (fun n => decide (n.hash = hashOf node.key ∧ n.key = node.key)) = some m := by
      rw [← Option.isSome_iff_exists, List.find?_isSome]
      exact ⟨node, hmem, by simp [hhash]⟩
    -- Two nodes with one key are one node.
    obtain ⟨⟨t, ht⟩, hkey⟩ := hfound hm
    obtain rfl := h.key t s m node ht hs hkey
    rw [ht] at hs
    rw [hm, hs]

end ReadThrough.Table.Buckets
