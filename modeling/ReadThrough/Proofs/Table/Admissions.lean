import ReadThrough.Proofs.Table.Questions

/-! # Insertion at Capacity

  A full table makes room for a new key before it inserts it, and refuses it if that fails.

  - **Lodged**: what becomes of an absent key once room has been made, whatever the judge says.
  - **Admitted**: exactly as many nodes as are in excess have made room for a new one.
  - **Unlowered**: tables whose greatest number of nodes was never lowered.
  - **getOrInsert_admits**: an absent key is refused exactly if too few nodes can be evicted.
-/

namespace ReadThrough.Table

open Buckets RecencyList

variable {K P σ : Type} {t t' : Table K P} {node : Node K P} {key : K}

/-! ## Making room -/

section

variable (lastUse : σ → P → Nat) (judge : Judge K P σ) (m : σ)

@[simp] theorem trim_maxCapacity (count : Nat) (t : Table K P) :
    (t.trim lastUse judge count m).table.maxCapacity = t.maxCapacity := by
  unfold trim
  split
  · rfl
  unfold trimNodes
  dsimp only
  split <;> rfl

@[simp] theorem insertNew_maxCapacity (key : K) (payload : P) (t : Table K P) :
    (t.insertNew key payload).table.maxCapacity = t.maxCapacity := by
  unfold insertNew
  dsimp only
  split <;> rfl

theorem Orderly.trim (h : t.Orderly) (count : Nat) :
    (t.trim lastUse judge count m).table.Orderly := by
  unfold Orderly
  rw [trim_hashOf]
  exact trim_ordered lastUse judge count h

end

theorem Orderly.length_nodes (h : t.Orderly) : t.nodes.length = t.size :=
  h.accounted.size.symm

/-- Nodes that are taken out of a table take room with them. -/
theorem Trimmed.size {evict : Node K P → Bool} {count : Nat} {r : Answer K P (Removal K P Unit)}
    (h : Trimmed evict count t r) (ht : t.Orderly) (hr : r.table.Orderly) :
    r.table.size + r.value.removed.length = t.size := by
  have hperm : (r.value.removed ++ r.table.nodes).Perm t.nodes := by
    apply (List.perm_ext_iff_of_nodup ?_ ht.nodup).2
    · intro n
      rw [List.mem_append, h.nodes]
      constructor
      · intro hn
        exact hn.elim (fun hremoved => (h.evictable n hremoved).1) And.left
      · intro hn
        by_cases hremoved : n ∈ r.value.removed
        · exact Or.inl hremoved
        · exact Or.inr ⟨hn, hremoved⟩
    · apply List.nodup_append.2
      refine ⟨h.nodup, hr.nodup, ?_⟩
      intro a ha b hb heq
      exact ((h.nodes b).1 hb).2 (heq ▸ ha)
  rw [← hr.length_nodes, ← ht.length_nodes, ← hperm.length_eq, List.length_append, Nat.add_comm]

/-! ## Looking up and inserting -/

section

variable [DecidableEq K] {lastUse : σ → P → Nat} {judge : Judge K P σ} {m : σ}

/-- A key that is there is handed back with its node. Nobody is asked, no payload is made. -/
theorem getOrInsert_present (hget : t.get? key = some node) (payload : Except String P) :
    t.getOrInsert lastUse judge key payload m =
      { table := t, value := (.occupied node key, m) } := by
  unfold getOrInsert
  rw [hget]

/-- What becomes of an absent key for which an attempt to make room has led to `room`. -/
inductive Lodged (key : K) (payload : Except String P) (room : Answer K P (Removal K P σ)) :
    Answer K P (Entrance K P × σ) → Prop where
  /-- The judge panicked. -/
  | unjudged (reason : String) (hpanic : room.value.panic? = some reason) :
      Lodged key payload room
        { table := room.table
          value := (.panicked reason, room.value.memory)
          events := room.events }
  /-- There is no room. -/
  | full (hpanic : room.value.panic? = none) (hfull : room.table.maxCapacity ≤ room.table.size) :
      Lodged key payload room
        { table := room.table
          value := (.full room.table.maxCapacity, room.value.memory)
          events := room.events ++ [.noRoom room.table.maxCapacity] }
  /-- There is room, and the payload panicked. -/
  | unmade (reason : String) (hpanic : room.value.panic? = none)
      (hroom : room.table.size < room.table.maxCapacity) (hpayload : payload = .error reason) :
      Lodged key payload room
        { table := room.table
          value := (.panicked reason, room.value.memory)
          events := room.events }
  | inserted (p : P) (hpanic : room.value.panic? = none)
      (hroom : room.table.size < room.table.maxCapacity) (hpayload : payload = .ok p) :
      Lodged key payload room
        { table := (room.table.insertNew key p).table
          value := (.vacant (room.table.insertNew key p).value, room.value.memory)
          events := room.events ++ (room.table.insertNew key p).events }

theorem getOrInsert_lodged (hget : t.get? key = none) (payload : Except String P) :
    Lodged key payload (t.makeRoom lastUse judge m) (t.getOrInsert lastUse judge key payload m) := by
  unfold getOrInsert
  rw [hget]
  generalize t.makeRoom lastUse judge m = room
  dsimp only
  cases hpanic : room.value.panic? with
  | some reason => exact .unjudged reason hpanic
  | none =>
    dsimp only
    by_cases hfull : room.table.maxCapacity ≤ room.table.size
    · rw [if_pos hfull]
      exact .full hpanic hfull
    rw [if_neg hfull]
    cases payload with
    | error reason => exact .unmade reason hpanic (Nat.lt_of_not_le hfull) rfl
    | ok p => exact .inserted p hpanic (Nat.lt_of_not_le hfull) rfl

omit [DecidableEq K] in
theorem makeRoom_sound (h : t.Sound) : (t.makeRoom lastUse judge m).table.Sound :=
  (trim_within lastUse judge _ m t).sound h

/-- Making room brings no key in. -/
theorem makeRoom_absent (h : t.Sound) (hget : t.get? key = none) :
    ∀ n ∈ (t.makeRoom lastUse judge m).table.nodes, n.key ≠ key := by
  intro n hn
  have hwithin : t.Within (t.makeRoom lastUse judge m).table := trim_within lastUse judge _ m t
  exact h.get?_eq_none_iff.1 hget n (hwithin.sub h n hn)

theorem makeRoom_get? (h : t.Sound) (hget : t.get? key = none) :
    (t.makeRoom lastUse judge m).table.get? key = none :=
  (makeRoom_sound h).get?_eq_none_iff.2 (makeRoom_absent h hget)

end

/-- The new node comes to stand in front of the linked ones. -/
theorem Orderly.insertNew_byRecency (h : t.Orderly) (habsent : ∀ n ∈ t.nodes, n.key ≠ key)
    (payload : P) : (t.insertNew key payload).table.byRecency =
      (t.insertNew key payload).value :: t.byRecency := by
  have hinsert := h.linking.insert payload fun s n hn => habsent n (mem_nodes.2 ⟨s, hn⟩)
  unfold Table.insertNew
  dsimp only
  split
  · obtain ⟨hr, hs⟩ := hinsert.ordered.sound.grow
    exact (hinsert.rebucket hr hs).byRecency_eq
  · exact hinsert.byRecency_eq

/-! ## Admission -/

/-- A new node for the key has been admitted to the table `t`, which is `t'` now, and the nodes in
    `removed` have made room for it. -/
structure Admitted [DecidableEq K] (evict : Node K P → Bool) (key : K) (payload : P)
    (t t' : Table K P) (node : Node K P) (removed : List (Node K P)) : Prop where
  key : node.key = key
  payload : node.payload = payload
  /-- Exactly the nodes in excess of what may be there with one more were evicted. -/
  count : removed.length = t.size + 1 - t.maxCapacity
  distinct : removed.Nodup
  evictable : ∀ n ∈ removed, n ∈ t.nodes ∧ evict n = true
  /-- If all nodes are linked, the least recently used ones that could be evicted were. -/
  leastRecent : t.AllLinked →
    removed = (t.byRecency.reverse.filter evict).take (t.size + 1 - t.maxCapacity)
  new : node ∉ t.nodes
  front : t'.byRecency.head? = some node
  nodes : ∀ n, n ∈ t'.nodes ↔ n = node ∨ n ∈ t.nodes ∧ n ∉ removed
  found : ∀ n ∈ t'.nodes, t'.get? n.key = some n
  size : t'.size + removed.length = t.size + 1
  within : t'.size ≤ t'.maxCapacity

section

variable (lastUse : Unit → P → Nat) (evict : Node K P → Bool)

/-- What making room by a predicate does. -/
theorem Orderly.makeRoom (h : t.Orderly) :
    let r := t.makeRoom lastUse (Judge.evicting evict) ()
    Trimmed evict (t.size + 1 - t.maxCapacity) t r ∧ r.table.Orderly ∧
      r.table.maxCapacity = t.maxCapacity ∧
      (t.AllLinked → r.value.removed =
        (t.byRecency.reverse.filter evict).take (t.size + 1 - t.maxCapacity)) := by
  refine ⟨h.trimmed lastUse evict _, h.trim _ _ _ _, trim_maxCapacity _ _ _ _ _, ?_⟩
  intro hall
  have hcomplete : t.Complete := h.allLinked_iff_complete.1 hall
  have hpicked := (Judge.evicting_follows evict).picked t.byRecency.reverse
    (t.size + 1 - t.maxCapacity) () trivial
  unfold Table.makeRoom
  rw [hcomplete.trim_eq]
  exact (hcomplete.walk (Judge.evicting evict) _ ()).removed.trans hpicked.removed

/-- There is room exactly if enough nodes can be evicted. -/
theorem Orderly.room_iff (h : t.Orderly) :
    let r := t.makeRoom lastUse (Judge.evicting evict) ()
    r.table.size < r.table.maxCapacity ↔ t.size + 1 - t.maxCapacity ≤ t.nodes.countP evict := by
  intro r
  obtain ⟨htrimmed, hroom, hmax, -⟩ := h.makeRoom lastUse evict
  have hlength : r.value.removed.length = _ := htrimmed.length
  have hsize : r.table.size + r.value.removed.length = t.size := htrimmed.size h hroom
  have hcount : t.nodes.countP evict ≤ t.size := h.length_nodes ▸ List.countP_le_length
  rw [hmax]
  omega

theorem Orderly.admitted [DecidableEq K] (h : t.Orderly) (hget : t.get? key = none) (payload : P)
    (hexcess : t.size + 1 - t.maxCapacity ≤ t.nodes.countP evict) :
    let room := t.makeRoom lastUse (Judge.evicting evict) ()
    let i := room.table.insertNew key payload
    Admitted evict key payload t i.table i.value room.value.removed := by
  obtain ⟨htrimmed, hroom, hmax, hleast⟩ := h.makeRoom lastUse evict
  have hlt := (h.room_iff lastUse evict).2 hexcess
  -- Room is made by evictions, so the key is still absent.
  have habsent : ∀ n ∈ (t.makeRoom lastUse (Judge.evicting evict) ()).table.nodes, n.key ≠ key :=
    makeRoom_absent h.sound hget
  obtain ⟨hsound, hnodes⟩ := Sound.insertNew hroom.sound habsent payload
  have hgrown := Sound.size_insertNew hroom.sound habsent payload
  intro room i
  have hsize : room.table.size + room.value.removed.length = t.size := htrimmed.size h hroom
  have hkey : i.value.key = key := insertNew_key key payload room.table
  exact {
    key := hkey
    payload := insertNew_payload key payload
    count := htrimmed.length.trans (Nat.min_eq_left hexcess)
    distinct := htrimmed.nodup
    evictable := htrimmed.evictable
    leastRecent := hleast
    new := by
      intro hmem
      have hne : ∀ n ∈ t.nodes, n.key ≠ key := (Sound.get?_eq_none_iff h.sound).1 hget
      exact hne i.value hmem hkey
    front := by
      rw [hroom.insertNew_byRecency habsent payload]
      rfl
    nodes := by
      intro n
      rw [hnodes, htrimmed.nodes]
    found := by
      intro n hn
      exact hsound.get?_eq_some_iff.2 ⟨hn, rfl⟩
    size := by
      have hinserted : i.table.size = room.table.size + 1 := hgrown
      omega
    within := by
      show i.table.size ≤ i.table.maxCapacity
      rw [hgrown, insertNew_maxCapacity]
      exact hlt }

end

/-! ## Capacity -/

/-- The tables that operations lead to none of which lowers the greatest number of nodes. A handle
    is a node that was in some table at some time. -/
inductive Unlowered [DecidableEq K] : Table K P → Prop
  | empty (initial maxCapacity : Nat) (loadFactor : LoadFactor) (hashOf : K → UInt64) :
    Unlowered (Table.empty initial maxCapacity loadFactor hashOf)
  | perform {t : Table K P} (o : Operation (Node K P) K P) (ht : Unlowered t)
    (hhandle : ∀ node, o.handle? = some node → ∃ t' : Table K P, t'.Reachable ∧ node ∈ t'.nodes)
    (hmax : t.maxCapacity ≤ (t.perform o).1.maxCapacity) : Unlowered (t.perform o).1

theorem Unlowered.reachable [DecidableEq K] (h : t.Unlowered) : t.Reachable := by
  induction h with
  | empty initial maxCapacity loadFactor hashOf => exact .empty initial maxCapacity loadFactor hashOf
  | perform o ht hhandle hmax ih =>
    cases hnode : o.handle? with
    | none => exact .perform o ih hnode
    | some node =>
      obtain ⟨t', ht', hmem⟩ := hhandle node hnode
      exact .performOn o ih ht' hmem hnode

/-- A table without new nodes is no larger. -/
theorem Orderly.size_le (h : t.Orderly) (h' : t'.Orderly) (hwithin : t.Within t') :
    t'.size ≤ t.size := by
  rw [← h.length_nodes, ← h'.length_nodes]
  exact (h'.nodup.subperm fun n hn => hwithin.sub h.sound n hn).length_le

section

variable [DecidableEq K]

/-- Insertion leaves a table either no larger or within its capacity. -/
theorem Orderly.getOrInsert_size (h : t.Orderly) (lastUse : σ → P → Nat) (judge : Judge K P σ)
    (key : K) (payload : Except String P) (m : σ) :
    let r := t.getOrInsert lastUse judge key payload m
    r.table.size ≤ t.size ∨ r.table.size ≤ r.table.maxCapacity := by
  intro r
  have hroom : (t.makeRoom lastUse judge m).table.size ≤ t.size :=
    h.size_le (h.trim lastUse judge m _) (trim_within lastUse judge _ m t)
  cases hget : t.get? key with
  | some node =>
    have hr : r = { table := t, value := (.occupied node key, m) } := getOrInsert_present hget payload
    rw [hr]
    exact Or.inl (Nat.le_refl _)
  | none =>
    have hlodged : Lodged key payload (t.makeRoom lastUse judge m) r :=
      getOrInsert_lodged hget payload
    clear_value r
    cases hlodged with
    | unjudged => exact Or.inl hroom
    | full => exact Or.inl hroom
    | unmade => exact Or.inl hroom
    -- A node is added only below the maximum.
    | inserted p hpanic hlt hpayload =>
      right
      have hsound : (t.makeRoom lastUse judge m).table.Sound := makeRoom_sound h.sound
      dsimp only
      rw [hsound.size_insertNew (makeRoom_absent h.sound hget), insertNew_maxCapacity]
      exact hlt

/-- An operation leaves a table no larger than before or than it may be. -/
theorem Orderly.perform_size (h : t.Orderly) (o : Operation (Node K P) K P)
    (h' : (t.perform o).1.Orderly) :
    (t.perform o).1.size ≤ t.size ∨ (t.perform o).1.size ≤ (t.perform o).1.maxCapacity := by
  have hwithin : t.Within (t.perform o).1 → (t.perform o).1.size ≤ t.size := h.size_le h'
  cases o with
  | getOrInsert key payload lastUse p => exact h.getOrInsert_size lastUse p.judge key payload []
  | resize =>
    left
    show t.resize.table.size ≤ t.size
    unfold Table.resize
    split
    · exact Nat.le_of_eq h.sound.grow.1.size
    · exact Nat.le_refl _
  | remove key => exact Or.inl (hwithin (remove_within key t))
  | removeNode handle => exact Or.inl (hwithin (removeNode_within handle t))
  | trim count lastUse p => exact Or.inl (hwithin (trim_within _ _ _ _ t))
  | sweep lastUse p => exact Or.inl (hwithin (sweep_within _ _ _ t))
  | pinch => exact Or.inl (hwithin (pinch_within t))
  | clear => exact Or.inl (hwithin (clear_within t))
  | touch | unlink | relink | setMaxCapacity | get? | byRecency | nodes | size | isEmpty | repairs =>
    exact Or.inl (Nat.le_refl _)

theorem Unlowered.size_le (h : t.Unlowered) : t.size ≤ t.maxCapacity := by
  induction h with
  | empty => exact Nat.zero_le _
  | perform o ht hhandle hmax ih =>
    have hafter := (Unlowered.perform o ht hhandle hmax).reachable.orderly
    rcases ht.reachable.orderly.perform_size o hafter with hsize | hsize
    · exact hsize.trans (ih.trans hmax)
    · exact hsize

/-- A key that is there is handed back with its node, and nothing else happens, whatever the
    predicate and the payload are. For an absent key there is a new node exactly if enough others
    satisfy the predicate; as many of them as are in excess make room for it, from the least
    recently used end if all nodes are linked, and the rest stays. Otherwise the key stays absent. So
    a table never grows beyond its capacity, unless that is lowered. -/
theorem getOrInsert_admits (h : t.Reachable) (lastUse : Unit → P → Nat) (evict : Node K P → Bool)
    (key : K) (payload : P) :
    let r := t.getOrInsert lastUse (Judge.evicting evict) key (.ok payload) ()
    (∀ node, t.get? key = some node → ∀ {σ : Type} (lastUse : σ → P → Nat) (judge : Judge K P σ)
        (payload : Except String P) (m : σ), t.getOrInsert lastUse judge key payload m =
          { table := t, value := (.occupied node key, m) }) ∧
      (t.get? key = none →
        if t.size + 1 - t.maxCapacity ≤ t.nodes.countP evict then
          ∃ node removed, r.value = (.vacant node, ()) ∧
            Admitted evict key payload t r.table node removed
        else r.value = (.full t.maxCapacity, ()) ∧ r.table.get? key = none) ∧
      (t.Unlowered → t.size ≤ t.maxCapacity) := by
  intro r
  refine ⟨fun node hget _ _ _ payload _ => getOrInsert_present hget payload, fun hget => ?_,
    Unlowered.size_le⟩
  obtain ⟨htrimmed, -, hmax, -⟩ := h.orderly.makeRoom lastUse evict
  have hiff := h.orderly.room_iff lastUse evict
  have hlodged : Lodged key (.ok payload) (t.makeRoom lastUse (Judge.evicting evict) ()) r :=
    getOrInsert_lodged hget (.ok payload)
  clear_value r
  cases hlodged with
  -- This predicate does not panic, and the payload is there.
  | unjudged reason hpanic =>
    rw [htrimmed.panic] at hpanic
    cases hpanic
  | unmade reason hpanic hlt hpayload => cases hpayload
  -- The table is full after the trim exactly if too few nodes satisfy the predicate.
  | full hpanic hfull =>
    rw [if_neg fun hexcess => Nat.not_lt.2 hfull (hiff.2 hexcess), hmax]
    exact ⟨rfl, makeRoom_get? h.orderly.sound hget⟩
  | inserted p hpanic hlt hpayload =>
    cases hpayload
    rw [if_pos (hiff.1 hlt)]
    exact ⟨_, _, rfl, h.orderly.admitted lastUse evict hget payload (hiff.1 hlt)⟩

/-- The capacity of a full table of four nodes is lowered to three, so that a fifth key has to evict
    two of them. There are two even keys; but where only one key can be evicted, the new one is
    refused. -/
theorem getOrInsert_admits_lowered :
    let insert (key : Nat) : Operation (Node Nat Nat) Nat Nat :=
      .getOrInsert key (.ok key) (fun _ used => used) fun _ _ => .keep
    let full : Table Nat Nat :=
      ((((Table.empty 0 4 .standard Nat.toUInt64).perform (insert 1)).1.perform (insert 2)).1.perform
        (insert 3)).1.perform (insert 4) |>.1
    let t := (full.perform (.setMaxCapacity 3)).1
    let even (n : Node Nat Nat) : Bool := n.key % 2 == 0
    let last (n : Node Nat Nat) : Bool := n.key == 4
    let r := t.getOrInsert (fun _ used => used) (Judge.evicting even) 5 (.ok 5) ()
    let s := t.getOrInsert (fun _ used => used) (Judge.evicting last) 5 (.ok 5) ()
    full.Unlowered ∧ full.size ≤ full.maxCapacity ∧ t.Reachable ∧
      (∃ node removed, r.value = (.vacant node, ()) ∧ Admitted even 5 5 t r.table node removed) ∧
      s.value = (.full 3, ()) ∧ s.table.get? 5 = none := by
  intro insert full t even last r s
  have hfull : full.Unlowered :=
    .perform _ (.perform _ (.perform _ (.perform _ (.empty 0 4 .standard _) nofun (by decide +kernel))
      nofun (by decide +kernel)) nofun (by decide +kernel)) nofun (by decide +kernel)
  have ht : t.Reachable := .perform _ hfull.reachable rfl
  have hget : t.get? 5 = none := by decide +kernel
  have hadmitted := (getOrInsert_admits ht (fun _ used => used) even 5 5).2.1 hget
  have hrefused := (getOrInsert_admits ht (fun _ used => used) last 5 5).2.1 hget
  rw [if_pos (by decide +kernel)] at hadmitted
  rw [if_neg (by decide +kernel)] at hrefused
  have hsize := (getOrInsert_admits hfull.reachable (fun _ used => used) even 5 5).2.2 hfull
  exact ⟨hfull, hsize, ht, hadmitted, hrefused.1, hrefused.2⟩

end

end ReadThrough.Table
