import ReadThrough.Proofs.Table.Growth
import ReadThrough.Proofs.Table.Walks

/-! # Tables in Order

  What the operations of the table do to its nodes.

  - **Sound**: the buckets of the table are in order for its hash function.
  - **get?_eq_some_iff**: looking a key up finds the node that has it.
  - **Within**: nothing is added. All operations but insertion are of this kind.
  - **insertNew_nodes**: insertion adds the node of its key.
-/

namespace ReadThrough.Table

variable {K P σ : Type} {t t' t'' : Table K P} {node n : Node K P} {key : K}

/-- The buckets of the table are in order. -/
def Sound (t : Table K P) : Prop :=
  t.buckets.Sound t.hashOf

theorem sound_empty (initial maxCapacity : Nat) (loadFactor : LoadFactor) (hashOf : K → UInt64) :
    (Table.empty initial maxCapacity loadFactor hashOf : Table K P).Sound :=
  Buckets.sound_empty initial loadFactor

theorem nodes_empty (initial maxCapacity : Nat) (loadFactor : LoadFactor) (hashOf : K → UInt64) :
    (Table.empty initial maxCapacity loadFactor hashOf : Table K P).nodes = [] := by
  simp [Table.empty, nodes, Buckets.nodes, Buckets.empty]

/-! ## Looking a key up -/

theorem Sound.get?_eq_some_iff [DecidableEq K] (h : t.Sound) :
    t.get? key = some node ↔ node ∈ t.nodes ∧ node.key = key :=
  Buckets.Sound.find?_eq_some_iff h

theorem Sound.get?_eq_none_iff [DecidableEq K] (h : t.Sound) :
    t.get? key = none ↔ ∀ node ∈ t.nodes, node.key ≠ key := by
  constructor
  · intro hnone node hmem hkey
    rw [h.get?_eq_some_iff.2 ⟨hmem, hkey⟩] at hnone
    cases hnone
  · intro hall
    by_contra hsome
    obtain ⟨node, hget⟩ := Option.ne_none_iff_exists'.1 hsome
    obtain ⟨hmem, hkey⟩ := h.get?_eq_some_iff.1 hget
    exact hall node hmem hkey

/-- No two nodes have the same key. -/
theorem Sound.node_unique [DecidableEq K] (h : t.Sound) (hnode : node ∈ t.nodes) (hn : n ∈ t.nodes)
    (hkey : node.key = n.key) : node = n := by
  have hget : t.get? n.key = some node := h.get?_eq_some_iff.2 ⟨hnode, hkey⟩
  rw [h.get?_eq_some_iff.2 ⟨hn, rfl⟩] at hget
  exact (Option.some.inj hget).symm

/-! ## Operations that add nothing -/

/-- The table stays in order, and no node is added. -/
structure Within (t t' : Table K P) : Prop where
  hashOf : t'.hashOf = t.hashOf
  sound : t.Sound → t'.Sound
  sub : t.Sound → ∀ n ∈ t'.nodes, n ∈ t.nodes

theorem Within.refl (t : Table K P) : t.Within t :=
  ⟨rfl, id, fun _ _ => id⟩

theorem Within.trans (h : t.Within t') (h' : t'.Within t'') : t.Within t'' :=
  ⟨h'.hashOf.trans h.hashOf, fun hs => h'.sound (h.sound hs),
    fun hs n hn => h.sub hs n (h'.sub (h.sound hs) n hn)⟩

/-- An operation on the list alone. -/
theorem within_of_buckets (hhash : t'.hashOf = t.hashOf) (hbuckets : t'.buckets = t.buckets) :
    t.Within t' := by
  refine ⟨hhash, fun hs => ?_, fun _ n hn => ?_⟩
  · unfold Sound
    rw [hhash, hbuckets]
    exact hs
  · unfold nodes at *
    rwa [hbuckets] at hn

theorem touch_within (node : Node K P) (t : Table K P) : t.Within (t.touch node) :=
  within_of_buckets rfl rfl

theorem setMaxCapacity_within (n : Nat) (t : Table K P) : t.Within (t.setMaxCapacity n) :=
  within_of_buckets rfl rfl

theorem removeNode_buckets (node : Node K P) (t : Table K P) :
    (t.removeNode node).1.buckets = (t.buckets.removeNode node).1 ∧
      (t.removeNode node).1.hashOf = t.hashOf := by
  unfold removeNode
  dsimp only
  split <;> next heq => rw [heq]; exact ⟨rfl, rfl⟩

theorem removeNode_within (node : Node K P) (t : Table K P) :
    t.Within (t.removeNode node).1 := by
  obtain ⟨hbuckets, hhash⟩ := removeNode_buckets node t
  refine ⟨hhash, fun hs => ?_, fun hs n hn => ?_⟩
  · unfold Sound
    rw [hbuckets, hhash]
    exact Buckets.Sound.removeNode_sound hs node
  · unfold nodes at *
    rw [hbuckets] at hn
    exact Buckets.Sound.of_mem_removeNode hs node hn

theorem remove_within [DecidableEq K] (key : K) (t : Table K P) : t.Within (t.remove key).1 := by
  unfold remove
  split
  · exact .refl t
  · exact removeNode_within _ t

theorem clear_within (t : Table K P) : t.Within t.clear.1 := by
  refine ⟨rfl, Buckets.Sound.clear, fun hs n hn => ?_⟩
  obtain ⟨s, hs'⟩ := Buckets.mem_nodes.1 hn
  rw [show t.clear.1.buckets.node? s = none from Buckets.node?_clear hs s] at hs'
  cases hs'

theorem Sound.clear_nodes (h : t.Sound) : t.clear.1.nodes = [] := by
  refine List.eq_nil_iff_forall_not_mem.2 fun n hn => ?_
  obtain ⟨s, hs⟩ := Buckets.mem_nodes.1 hn
  rw [show t.clear.1.buckets.node? s = none from Buckets.node?_clear h s] at hs
  cases hs

theorem pinch_within (t : Table K P) : t.Within t.pinch.table := by
  unfold pinch
  split
  · refine ⟨rfl, fun hs => (Buckets.Sound.pinch hs).1, fun hs n hn => ?_⟩
    obtain ⟨s, hs'⟩ := Buckets.mem_nodes.1 hn
    exact Buckets.mem_nodes.2 ⟨s, ((Buckets.Sound.pinch hs).2 s).symm.trans hs'⟩
  · exact .refl t

/-- Every walk keeps the buckets in order and adds nothing, whatever the judge says. -/
theorem keeps_within (judge : Judge K P σ) (t : Table K P) :
    judge.Keeps fun b _ => b.Sound t.hashOf ∧ ∀ n ∈ b.nodes, n ∈ t.nodes where
  spare := fun _ _ _ _ _ _ _ h => h
  evict := fun _ _ _ _ node _ _ h =>
    ⟨h.1.removeNode_sound node, fun n hn => h.2 n (h.1.of_mem_removeNode node hn)⟩

theorem sweep_within (lastUse : σ → P → Nat) (judge : Judge K P σ) (m : σ) (t : Table K P) :
    t.Within (t.sweep lastUse judge m).table := by
  have hkeep (hs : t.Sound) := sweep_keeps (m := m) lastUse (keeps_within judge t)
    ⟨hs, fun _ => id⟩
  refine ⟨sweep_hashOf lastUse, fun hs => ?_, fun hs => (hkeep hs).2⟩
  unfold Sound
  rw [sweep_hashOf]
  exact (hkeep hs).1

theorem trim_within (lastUse : σ → P → Nat) (judge : Judge K P σ) (count : Nat) (m : σ)
    (t : Table K P) : t.Within (t.trim lastUse judge count m).table := by
  have hkeep (hs : t.Sound) := trim_keeps (m := m) lastUse (keeps_within judge t) count
    ⟨hs, fun _ => id⟩
  refine ⟨trim_hashOf lastUse count, fun hs => ?_, fun hs => (hkeep hs).2⟩
  unfold Sound
  rw [trim_hashOf]
  exact (hkeep hs).1

/-- A relation between a table before and after that allows for everything that takes nodes out. -/
structure Shrinking (R : Table K P → Table K P → Prop) : Prop where
  refl : ∀ t, R t t
  trans : ∀ {t t' t''}, R t t' → R t' t'' → R t t''
  setMaxCapacity : ∀ n t, R t (t.setMaxCapacity n)
  clear : ∀ t, R t t.clear.1
  pinch : ∀ t, R t t.pinch.table
  sweep : ∀ {σ : Type} (lastUse : σ → P → Nat) (judge : Judge K P σ) (m : σ) (t),
    R t (t.sweep lastUse judge m).table
  trim : ∀ {σ : Type} (lastUse : σ → P → Nat) (judge : Judge K P σ) (count : Nat) (m : σ) (t),
    R t (t.trim lastUse judge count m).table

theorem shrinking_within : Shrinking (Within : Table K P → Table K P → Prop) where
  refl := .refl
  trans := .trans
  setMaxCapacity := setMaxCapacity_within
  clear := clear_within
  pinch := pinch_within
  sweep := sweep_within
  trim := trim_within

/-! ## Insertion -/

/-- The buckets after an insertion, before they grow. -/
theorem insertNew_buckets (key : K) (payload : P) (t : Table K P) :
    ((t.insertNew key payload).table.buckets = t.buckets.insert (t.hashOf key) key payload ∨
      (t.insertNew key payload).table.buckets =
        (t.buckets.insert (t.hashOf key) key payload).grow) ∧
      (t.insertNew key payload).table.hashOf = t.hashOf ∧
      (t.insertNew key payload).value = t.buckets.nextNode (t.hashOf key) key payload := by
  unfold insertNew
  dsimp only
  split
  · exact ⟨.inr rfl, rfl, rfl⟩
  · exact ⟨.inl rfl, rfl, rfl⟩

@[simp] theorem insertNew_key (key : K) (payload : P) (t : Table K P) :
    (t.insertNew key payload).value.key = key := by
  rw [(insertNew_buckets key payload t).2.2]
  rfl

theorem Sound.insertNew (h : t.Sound) (habsent : ∀ n ∈ t.nodes, n.key ≠ key) (payload : P) :
    (t.insertNew key payload).table.Sound ∧
      ∀ n, n ∈ (t.insertNew key payload).table.nodes ↔
        n = (t.insertNew key payload).value ∨ n ∈ t.nodes := by
  obtain ⟨hbuckets, hhash, hvalue⟩ := insertNew_buckets key payload t
  have hsound : (t.buckets.insert (t.hashOf key) key payload).Sound t.hashOf :=
    Buckets.Sound.insert h rfl fun s n hn => habsent n (Buckets.mem_nodes.2 ⟨s, hn⟩)
  obtain ⟨hr, hgrown⟩ := hsound.grow
  obtain ⟨hle, hfree, -⟩ := h.toStocked.nextSlot_spec
  -- The growth after the insertion, if there is one, keeps every slot.
  have hboth : (t.insertNew key payload).table.buckets.Sound t.hashOf ∧
      ∀ s, (t.insertNew key payload).table.buckets.node? s =
        (t.buckets.insert (t.hashOf key) key payload).node? s := by
    rcases hbuckets with heq | heq <;> rw [heq]
    · exact ⟨hsound, fun _ => rfl⟩
    · exact ⟨hgrown, hr.node?⟩
  refine ⟨?_, fun n => ?_⟩
  · unfold Sound
    rw [hhash]
    exact hboth.1
  · unfold nodes
    simp only [Buckets.mem_nodes, hboth.2, Buckets.node?_insert hle, hvalue]
    constructor
    · rintro ⟨s, hs⟩
      split at hs
      · exact .inl (Option.some.inj hs).symm
      · exact .inr ⟨s, hs⟩
    · rintro (rfl | ⟨s, hs⟩)
      · exact ⟨_, if_pos rfl⟩
      · refine ⟨s, ?_⟩
        rw [if_neg, hs]
        rintro rfl
        rw [hfree] at hs
        cases hs

theorem Sound.size_insertNew (h : t.Sound) (habsent : ∀ n ∈ t.nodes, n.key ≠ key) (payload : P) :
    (t.insertNew key payload).table.size = t.size + 1 := by
  have hsound : (t.buckets.insert (t.hashOf key) key payload).Sound t.hashOf :=
    Buckets.Sound.insert h rfl fun s n hn => habsent n (Buckets.mem_nodes.2 ⟨s, hn⟩)
  have hinserted : (t.buckets.insert (t.hashOf key) key payload).size = t.size + 1 := rfl
  unfold size at hinserted ⊢
  rcases (insertNew_buckets key payload t).1 with heq | heq
  · rw [heq, hinserted]
  · rw [heq, hsound.grow.1.size, hinserted]

end ReadThrough.Table
