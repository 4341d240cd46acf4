import ReadThrough.Proofs.Table.StaleHandles

/-! # Lists Rebuilt in Another Order

  A list is rebuilt by the ticks at which the nodes were last used. Of nodes that were used at the
  same tick the one in the lower slot comes first; any other order of them would do as well.

  - **MayLink**: an order of all nodes by their ticks, whatever their slots.
  - **rebuilt?**: the table whose list an operation rebuilds, if it does.
  - **performAs**: an operation with a given order in which the list is rebuilt, should it be.
  - **performAs_ownOrder**: with the order of the slots it is the operation itself.
  - **Guards**: in whatever order lists are rebuilt, a table tells the nodes apart that it has given
    away.
-/

namespace ReadThrough.Table

open Buckets RecencyList

variable {K P σ : Type} {t t' t'' : Table K P} {node n : Node K P} {ticks : P → Nat}
  {order : List (Nat × Node K P)} {removed removed' given : List (Node K P)}

/-! ## Orders -/

/-- The nodes of a table with the ticks at which they were last used. -/
def timed (ticks : P → Nat) (t : Table K P) : List (Nat × Node K P) :=
  t.nodes.map fun node => (ticks node.payload, node)

/-- The same in the order in which the table itself links them. -/
def byUse (ticks : P → Nat) (t : Table K P) : List (Nat × Node K P) :=
  (timed ticks t).mergeSort linkedBefore

/-- All nodes of the table, the one that was used last at the end. -/
structure MayLink (ticks : P → Nat) (t : Table K P) (order : List (Nat × Node K P)) : Prop where
  perm : order.Perm (timed ticks t)
  sorted : order.Pairwise fun a b => a.1 ≤ b.1

/-- Rebuilds the list in the given order. -/
def relinkAs (order : List (Nat × Node K P)) (t : Table K P) : Table K P :=
  { t with
    recency := order.foldl (fun l (_, node) => l.pushFront node.slot node.generation) .empty
    repairs := t.repairs + 1 }

theorem linkedBefore_iff {a b : Nat × Node K P} :
    linkedBefore a b = true ↔ a.1 < b.1 ∨ a.1 = b.1 ∧ a.2.slot ≤ b.2.slot := by
  simp [linkedBefore]

theorem byUse_sorted (ticks : P → Nat) (t : Table K P) :
    (byUse ticks t).Pairwise fun a b => linkedBefore a b = true := by
  apply List.pairwise_mergeSort
  · intro a b c hab hbc
    rw [linkedBefore_iff] at *
    omega
  · intro a b
    rw [Bool.or_eq_true, linkedBefore_iff, linkedBefore_iff]
    omega

theorem byUse_mayLink (ticks : P → Nat) (t : Table K P) : MayLink ticks t (byUse ticks t) where
  perm := List.mergeSort_perm _ _
  sorted := (byUse_sorted ticks t).imp fun hab => by
    rw [linkedBefore_iff] at hab
    omega

namespace MayLink

theorem mem (h : MayLink ticks t order) {q : Nat × Node K P} (hq : q ∈ order) :
    q.2 ∈ t.nodes ∧ q.1 = ticks q.2.payload := by
  obtain ⟨n, hn, rfl⟩ := List.mem_map.1 (h.perm.mem_iff.1 hq)
  exact ⟨hn, rfl⟩

theorem nodes (h : MayLink ticks t order) : (order.map Prod.snd).Perm t.nodes := by
  have hperm := h.perm.map Prod.snd
  have hsnd : (Prod.snd ∘ fun node : Node K P => (ticks node.payload, node)) = id := rfl
  rwa [timed, List.map_map, hsnd, List.map_id] at hperm

theorem orderly (h : MayLink ticks t order) (ht : t.Orderly) : (t.relinkAs order).Orderly :=
  (Ordered.empty ht.sound ht.accounted).pushAll order fun _ hq => (h.mem hq).1

/-- No two nodes are in the same slot. -/
theorem slots_nodup (h : MayLink ticks t order) (ht : t.Orderly) :
    (order.map fun q => q.2.slot).Nodup := by
  have hperm := h.nodes.map Node.slot
  rw [List.map_map] at hperm
  refine hperm.nodup_iff.2 (nodup_map_nodes Node.slot fun s s' n n' hn hn' heq => ?_)
  rw [← (ht.sound.slot s n hn).1, ← (ht.sound.slot s' n' hn').1, heq]

/-- A rebuilt list has the node in front that was used last. -/
theorem byRecency (h : MayLink ticks t order) (ht : t.Orderly) :
    (t.relinkAs order).byRecency = (order.map Prod.snd).reverse := by
  have hstored : ∀ q ∈ order, t.buckets.node? q.2.slot = some q.2 :=
    fun q hq => ht.node? (h.mem hq).1
  have hlinked := Simulates.linked_pushAll order Linked.empty
    (fun q hq => (ht.sound.slot _ q.2 (hstored q hq)).2) (h.slots_nodup ht)
    fun _ _ => List.not_mem_nil
  have hlist : (t.relinkAs order).recency.toList = (order.map fun q => q.2.slot).reverse := by
    have htoList := hlinked.toList_eq
    rwa [List.append_nil] at htoList
  have hfound : order.filterMap (t.buckets.node? ∘ fun q => q.2.slot) = order.map Prod.snd := by
    rw [← List.filterMap_eq_map]
    exact List.filterMap_congr hstored
  unfold Table.byRecency
  rw [hlist, List.filterMap_reverse, List.filterMap_map]
  exact congrArg List.reverse hfound

end MayLink

/-! ## What is rebuilt -/

section

variable (lastUse : σ → P → Nat) (judge : Judge K P σ) (m : σ)

/-- The table whose list a sweep rebuilds, if it does, with the ticks that it goes by. -/
def sweepRebuilt? (t : Table K P) : Option (Table K P × (P → Nat)) :=
  let s := t.walk judge none m
  if s.panic?.isSome || s.consistent then none else some (s.table, lastUse s.memory)

/-- The table whose list a trim rebuilds, if it does, with the ticks that it goes by. -/
def trimRebuilt? (count : Nat) (t : Table K P) : Option (Table K P × (P → Nat)) :=
  if count = 0 then none
  else
    let s := t.walk judge (some count) m
    if s.panic?.isSome || s.consistent || count ≤ s.removed.length then none
    else some (s.table, lastUse s.memory)

/-- The table whose list an insertion rebuilds to make room, if it does, with the ticks that it goes
    by. -/
def insertRebuilt? [DecidableEq K] (key : K) (t : Table K P) :
    Option (Table K P × (P → Nat)) :=
  if (t.get? key).isSome then none
  else t.trimRebuilt? lastUse judge m (t.size + 1 - t.maxCapacity)

end

/-- The table whose list an operation rebuilds, if it does, with the ticks that it goes by. -/
def rebuilt? [DecidableEq K] (t : Table K P) :
    Operation (Node K P) K P → Option (Table K P × (P → Nat))
  | .getOrInsert key _ lastUse p => t.insertRebuilt? lastUse p.judge [] key
  | .trim count lastUse p => t.trimRebuilt? lastUse p.judge [] count
  | .sweep lastUse p => t.sweepRebuilt? lastUse p.judge []
  | .relink lastUse => some (t, lastUse)
  | _ => none

/-- The order in which the list of a table is rebuilt, if it is. -/
def ownOrder : Option (Table K P × (P → Nat)) → List (Nat × Node K P)
  | some (t, ticks) => byUse ticks t
  | none => []

/-- The list of a table may be rebuilt in the given order, if it is rebuilt. -/
def Fits (r : Option (Table K P × (P → Nat))) (order : List (Nat × Node K P)) : Prop :=
  ∀ t ticks, r = some (t, ticks) → MayLink ticks t order

theorem fits_ownOrder (r : Option (Table K P × (P → Nat))) : Fits r (ownOrder r) := by
  rintro t ticks rfl
  exact byUse_mayLink ticks t

/-! ## Operations in a given order -/

section

variable (order : List (Nat × Node K P)) (judge : Judge K P σ) (m : σ)

/-- A sweep that rebuilds the list in the given order. -/
def sweepAs (t : Table K P) : Answer K P (Removal K P σ) :=
  let s := t.walk judge none m
  { table := if s.panic?.isSome || s.consistent then s.table else s.table.relinkAs order
    value := { memory := s.memory, removed := s.removed, panic? := s.panic? } }

/-- A trim that goes on along a list in the given order. -/
def trimAs (count : Nat) (t : Table K P) : Answer K P (Removal K P σ) :=
  if count = 0 then { table := t, value := { memory := m, removed := [] } }
  else
    let s := t.walk judge (some count) m
    if s.panic?.isSome || s.consistent || count ≤ s.removed.length then
      { table := s.table
        value := { memory := s.memory, removed := s.removed, panic? := s.panic? } }
    else
      let s' := (s.table.relinkAs order).walk judge (some (count - s.removed.length)) s.memory
      { table := s'.table
        value := { memory := s'.memory, removed := s.removed ++ s'.removed, panic? := s'.panic? } }

end

/-- Inserts an absent key for which an attempt to make room has led to `room`, if there is any. -/
def lodge (key : K) (payload : Except String P) (room : Answer K P (Removal K P σ)) :
    Answer K P (Entrance K P × σ) :=
  match room.value.panic?, payload with
  | some reason, _ => { table := room.table, value := (.panicked reason, room.value.memory) }
  | none, payload =>
    if room.table.maxCapacity ≤ room.table.size then
      { table := room.table, value := (.full room.table.maxCapacity, room.value.memory) }
    else
      match payload with
      | .error reason => { table := room.table, value := (.panicked reason, room.value.memory) }
      | .ok payload =>
        let i := room.table.insertNew key payload
        { table := i.table, value := (.vacant i.value, room.value.memory) }

section

variable [DecidableEq K]

/-- An insertion that makes room along a list in the given order. -/
def getOrInsertAs (order : List (Nat × Node K P)) (judge : Judge K P σ) (key : K)
    (payload : Except String P) (m : σ) (t : Table K P) : Answer K P (Entrance K P × σ) :=
  match t.get? key with
  | some node => { table := t, value := (.occupied node key, m) }
  | none => lodge key payload (t.trimAs order judge m (t.size + 1 - t.maxCapacity))

/-- An operation that rebuilds the list in the given order, should it rebuild it. -/
def performAs (order : List (Nat × Node K P)) (t : Table K P) :
    Operation (Node K P) K P → Table K P × Reply (Node K P)
  | .getOrInsert key payload _ p =>
    let r := t.getOrInsertAs order p.judge key payload []
    (r.table, r.value.1.reply r.value.2)
  | .trim count _ p =>
    let r := t.trimAs order p.judge [] count
    (r.table, r.value.reply)
  | .sweep _ p =>
    let r := t.sweepAs order p.judge []
    (r.table, r.value.reply)
  | .relink _ => (t.relinkAs order, .count t.nodes.length)
  | o => t.perform o

end

/-! ### The order of the slots -/

/-- What an operation gives back, without the events. -/
def Answer.outcome {α : Type} (r : Answer K P α) : Table K P × α :=
  (r.table, r.value)

section

variable (lastUse : σ → P → Nat) (judge : Judge K P σ) (m : σ)

theorem sweepAs_ownOrder (t : Table K P) :
    (t.sweepAs (ownOrder (t.sweepRebuilt? lastUse judge m)) judge m).outcome =
      (t.sweep lastUse judge m).outcome := by
  unfold sweepAs sweepRebuilt? sweep
  dsimp only
  split <;> rfl

theorem trimAs_ownOrder (count : Nat) (t : Table K P) :
    (t.trimAs (ownOrder (t.trimRebuilt? lastUse judge m count)) judge m count).outcome =
      (t.trim lastUse judge count m).outcome := by
  unfold trimAs trimRebuilt? trim
  split
  · rfl
  unfold trimNodes
  dsimp only
  split <;> rfl

/-- What becomes of an absent key depends on the room that was made for it. -/
theorem lodge_congr {room room' : Answer K P (Removal K P σ)} (h : room.outcome = room'.outcome)
    (key : K) (payload : Except String P) : lodge key payload room = lodge key payload room' := by
  obtain ⟨htable, hvalue⟩ := Prod.mk.inj h
  unfold lodge
  rw [htable, hvalue]

variable [DecidableEq K]

theorem getOrInsert_lodge {key : K} (hget : t.get? key = none) (payload : Except String P) :
    (t.getOrInsert lastUse judge key payload m).outcome =
      (lodge key payload (t.makeRoom lastUse judge m)).outcome := by
  unfold getOrInsert lodge
  rw [hget]
  generalize t.makeRoom lastUse judge m = room
  dsimp only
  cases room.value.panic? with
  | some reason => rfl
  | none =>
    by_cases hfull : room.table.maxCapacity ≤ room.table.size
    · simp only [if_pos hfull]
      rfl
    simp only [if_neg hfull]
    cases payload <;> rfl

theorem getOrInsertAs_ownOrder (key : K) (payload : Except String P) (t : Table K P) :
    (t.getOrInsertAs (ownOrder (t.insertRebuilt? lastUse judge m key)) judge key payload m).outcome =
      (t.getOrInsert lastUse judge key payload m).outcome := by
  unfold getOrInsertAs insertRebuilt?
  cases hget : t.get? key with
  | some node =>
    rw [getOrInsert_present hget]
  | none =>
    rw [getOrInsert_lodge lastUse judge m hget, if_neg (by simp)]
    exact congrArg Answer.outcome
      (lodge_congr (trimAs_ownOrder lastUse judge m _ t) key payload)

end

section

variable [DecidableEq K]

/-- A table rebuilds its list in the order of the slots where ticks are the same. -/
theorem performAs_ownOrder (t : Table K P) (o : Operation (Node K P) K P) :
    t.performAs (ownOrder (t.rebuilt? o)) o = t.perform o := by
  cases o with
  | getOrInsert key payload lastUse p =>
    obtain ⟨htable, hvalue⟩ := Prod.mk.inj (getOrInsertAs_ownOrder lastUse p.judge [] key payload t)
    simp only [performAs, perform, rebuilt?, htable, hvalue]
  | trim count lastUse p =>
    obtain ⟨htable, hvalue⟩ := Prod.mk.inj (trimAs_ownOrder lastUse p.judge [] count t)
    simp only [performAs, perform, rebuilt?, htable, hvalue]
  | sweep lastUse p =>
    obtain ⟨htable, hvalue⟩ := Prod.mk.inj (sweepAs_ownOrder lastUse p.judge [] t)
    simp only [performAs, perform, rebuilt?, htable, hvalue]
  | relink lastUse => rfl
  | _ => rfl

end

/-! ### Repairs -/

section

variable (lastUse : σ → P → Nat) (judge : Judge K P σ) (m : σ)

theorem sweepAs_repairs (order : List (Nat × Node K P)) (t : Table K P) :
    (t.sweepAs order judge m).table.repairs =
      t.repairs + if (t.sweepRebuilt? lastUse judge m).isSome then 1 else 0 := by
  unfold sweepAs sweepRebuilt?
  dsimp only
  split <;> rfl

theorem trimAs_repairs (order : List (Nat × Node K P)) (count : Nat) (t : Table K P) :
    (t.trimAs order judge m count).table.repairs =
      t.repairs + if (t.trimRebuilt? lastUse judge m count).isSome then 1 else 0 := by
  unfold trimAs trimRebuilt?
  split
  · rfl
  dsimp only
  split <;> rfl

@[simp] theorem insertNew_repairs (key : K) (payload : P) (t : Table K P) :
    (t.insertNew key payload).table.repairs = t.repairs := by
  unfold Table.insertNew
  dsimp only
  split <;> rfl

end

/-- An absent key is inserted into the room that was made, or nothing more happens. -/
theorem lodge_cases (key : K) (payload : Except String P) (room : Answer K P (Removal K P σ)) :
    ((lodge key payload room).table = room.table ∧
      ∀ asked, ((lodge key payload room).value.1.reply asked).handles = []) ∨
    ∃ p, (lodge key payload room).table = (room.table.insertNew key p).table ∧
      ∀ asked, ((lodge key payload room).value.1.reply asked).handles =
        [(room.table.insertNew key p).value] := by
  unfold lodge
  cases room.value.panic? with
  | some reason => exact .inl ⟨rfl, fun _ => rfl⟩
  | none =>
    dsimp only
    by_cases hfull : room.table.maxCapacity ≤ room.table.size
    · rw [if_pos hfull]
      exact .inl ⟨rfl, fun _ => rfl⟩
    rw [if_neg hfull]
    cases payload with
    | error reason => exact .inl ⟨rfl, fun _ => rfl⟩
    | ok p => exact .inr ⟨p, rfl, fun _ => rfl⟩

/-- In whatever order, the list is rebuilt when `rebuilt?` says so. -/
theorem performAs_repairs [DecidableEq K] (order : List (Nat × Node K P)) (t : Table K P)
    (o : Operation (Node K P) K P) : (t.performAs order o).1.repairs =
      t.repairs + if (t.rebuilt? o).isSome then 1 else 0 := by
  have hremoved (node : Node K P) : (t.removeNode node).1.repairs = t.repairs := by
    unfold removeNode
    dsimp only
    split <;> rfl
  cases o with
  | getOrInsert key payload lastUse p =>
    show (t.getOrInsertAs order p.judge key payload []).table.repairs =
      t.repairs + if (t.insertRebuilt? lastUse p.judge [] key).isSome then 1 else 0
    unfold getOrInsertAs insertRebuilt?
    cases hget : t.get? key with
    | some node => rfl
    | none =>
      have hroom := trimAs_repairs lastUse p.judge [] order (t.size + 1 - t.maxCapacity) t
      -- Only making room can rebuild the list; lodging the key does not.
      rcases lodge_cases key payload (t.trimAs order p.judge [] (t.size + 1 - t.maxCapacity)) with
        ⟨htable, -⟩ | ⟨p', htable, -⟩
      · exact (congrArg repairs htable).trans hroom
      · exact (congrArg repairs htable).trans ((insertNew_repairs key p' _).trans hroom)
  | trim count lastUse p => exact trimAs_repairs lastUse p.judge [] order count t
  | sweep lastUse p => exact sweepAs_repairs lastUse p.judge [] order t
  | relink lastUse => rfl
  -- What does not walk along the list does not rebuild it.
  | remove key =>
    show (t.remove key).1.repairs = t.repairs
    unfold remove
    split
    · rfl
    · exact hremoved _
  | removeNode handle => exact hremoved handle
  | resize =>
    show t.resize.table.repairs = t.repairs
    unfold resize
    split <;> rfl
  | pinch =>
    show t.pinch.table.repairs = t.repairs
    unfold pinch
    split <;> rfl
  | touch | unlink | clear | setMaxCapacity | get? | byRecency | nodes | size | isEmpty | repairs =>
    rfl

/-! ## What stays in any order -/

/-- Nodes were taken out of the table `t`, which is `t'` now. -/
structure Thinned (t : Table K P) (removed : List (Node K P)) (t' : Table K P) : Prop where
  orderly : t'.Orderly
  hashOf : t'.hashOf = t.hashOf
  maxCapacity : t'.maxCapacity = t.maxCapacity
  generation : t'.buckets.nextGeneration = t.buckets.nextGeneration
  perm : (removed ++ t'.nodes).Perm t.nodes

namespace Thinned

theorem refl (h : t.Orderly) : Thinned t [] t :=
  ⟨h, rfl, rfl, rfl, .refl _⟩

theorem trans (h : Thinned t removed t') (h' : Thinned t' removed' t'') :
    Thinned t (removed ++ removed') t'' where
  orderly := h'.orderly
  hashOf := h'.hashOf.trans h.hashOf
  maxCapacity := h'.maxCapacity.trans h.maxCapacity
  generation := h'.generation.trans h.generation
  perm := by
    rw [List.append_assoc]
    exact (h'.perm.append_left removed).trans h.perm

theorem mem (h : Thinned t removed t') (hn : n ∈ t'.nodes) : n ∈ t.nodes :=
  h.perm.mem_iff.1 (List.mem_append_right _ hn)

theorem mem_removed (h : Thinned t removed t') (hn : n ∈ removed) : n ∈ t.nodes :=
  h.perm.mem_iff.1 (List.mem_append_left _ hn)

theorem advances (h : Thinned t removed t') : t.Advances t' :=
  ⟨Nat.le_of_eq h.generation.symm, fun _ hn => .inl (h.mem hn)⟩

end Thinned

theorem MayLink.thinned (h : MayLink ticks t order) (ht : t.Orderly) :
    Thinned t [] (t.relinkAs order) :=
  ⟨h.orderly ht, rfl, rfl, rfl, .refl _⟩

namespace Orderly

theorem walk_thinned (h : t.Orderly) (judge : Judge K P σ) (quota : Option Nat) (m : σ) :
    Thinned t (t.walk judge quota m).removed (t.walk judge quota m).table where
  orderly := h.walk_orderly judge quota m
  hashOf := rfl
  maxCapacity := rfl
  generation := walk_keeps (keeps_generation judge _) quota rfl
  perm := h.walk_perm judge quota m

theorem sweepAs_thinned (h : t.Orderly) {lastUse : σ → P → Nat} (judge : Judge K P σ) (m : σ)
    (hfits : Fits (t.sweepRebuilt? lastUse judge m) order) :
    Thinned t (t.sweepAs order judge m).value.removed (t.sweepAs order judge m).table := by
  have hwalk := h.walk_thinned judge none m
  unfold sweepRebuilt? at hfits
  unfold sweepAs
  dsimp only at hfits ⊢
  split
  · exact hwalk
  · next hmismatch =>
    have hmay := hfits _ _ (if_neg hmismatch)
    have hrelinked := hwalk.trans (hmay.thinned hwalk.orderly)
    rwa [List.append_nil] at hrelinked

theorem trimAs_thinned (h : t.Orderly) {lastUse : σ → P → Nat} (judge : Judge K P σ) (m : σ)
    (count : Nat) (hfits : Fits (t.trimRebuilt? lastUse judge m count) order) :
    Thinned t (t.trimAs order judge m count).value.removed (t.trimAs order judge m count).table := by
  have hwalk := h.walk_thinned judge (some count) m
  unfold trimRebuilt? at hfits
  unfold trimAs
  by_cases hcount : count = 0
  · rw [if_pos hcount]
    exact .refl h
  rw [if_neg hcount] at hfits ⊢
  dsimp only at hfits ⊢
  split
  · exact hwalk
  · next hmismatch =>
    have hmay := hfits _ _ (if_neg hmismatch)
    have hrelinked := hwalk.trans (hmay.thinned hwalk.orderly)
    rw [List.append_nil] at hrelinked
    exact hrelinked.trans (hrelinked.orderly.walk_thinned judge _ _)

end Orderly

/-! ## Handles -/

/-- An operation has led from the table `t` to `t'` and has given these nodes away. -/
structure Proceeds (t t' : Table K P) (handles : List (Node K P)) : Prop where
  orderly : t'.Orderly
  advances : t.Advances t'
  handles : ∀ n ∈ handles, n ∈ t.nodes ∨ n ∈ t'.nodes

theorem Thinned.proceeds (h : Thinned t removed t') : Proceeds t t' removed :=
  ⟨h.orderly, h.advances, fun _ hn => .inl (h.mem_removed hn)⟩

theorem Orderly.insertNew (h : t.Orderly) {key : K} (habsent : ∀ n ∈ t.nodes, n.key ≠ key)
    (payload : P) : (t.insertNew key payload).table.Orderly := by
  unfold Orderly
  rw [(insertNew_buckets key payload t).2.1]
  exact insertNew_ordered payload h habsent

section

variable [DecidableEq K]

theorem Orderly.getOrInsertAs_proceeds (h : t.Orderly) {lastUse : List (Node K P) → P → Nat}
    (judge : Judge K P (List (Node K P))) (key : K) (payload : Except String P)
    (m : List (Node K P)) (hfits : Fits (t.insertRebuilt? lastUse judge m key) order) :
    let r := t.getOrInsertAs order judge key payload m
    Proceeds t r.table (r.value.1.reply r.value.2).handles := by
  intro r
  cases hget : t.get? key with
  | some node =>
    have hr : r = { table := t, value := (.occupied node key, m) } := by
      simp only [r, getOrInsertAs, hget]
    rw [hr]
    refine ⟨h, ⟨Nat.le_refl _, fun n hn => .inl hn⟩, fun n hn => .inl ?_⟩
    obtain rfl := List.mem_singleton.1 hn
    exact ((Sound.get?_eq_some_iff h.sound).1 hget).1
  | none =>
    have hr : r = lodge key payload (t.trimAs order judge m (t.size + 1 - t.maxCapacity)) := by
      simp only [r, getOrInsertAs, hget]
    unfold insertRebuilt? at hfits
    rw [hget, if_neg (by simp)] at hfits
    have hroom := h.trimAs_thinned judge m _ hfits
    rw [hr]
    generalize t.trimAs order judge m (t.size + 1 - t.maxCapacity) = room at hroom ⊢
    -- Either the key is turned away after that, or it gets a new node.
    rcases lodge_cases key payload room with ⟨htable, hhandles⟩ | ⟨p, htable, hhandles⟩
    · rw [htable, hhandles]
      exact ⟨hroom.orderly, hroom.advances, nofun⟩
    · have habsent : ∀ n ∈ room.table.nodes, n.key ≠ key := fun n hn =>
        (Sound.get?_eq_none_iff h.sound).1 hget n (hroom.mem hn)
      have hnew := hroom.orderly.sound
      rw [htable, hhandles]
      refine ⟨hroom.orderly.insertNew habsent p,
        hroom.advances.trans (Sound.advances_insertNew hnew p habsent), fun n hn => .inr ?_⟩
      obtain rfl := List.mem_singleton.1 hn
      exact ((Sound.insertNew hnew habsent p).2 _).2 (.inl rfl)

theorem Orderly.performAs_proceeds (h : t.Orderly) (o : Operation (Node K P) K P)
    (hfits : Fits (t.rebuilt? o) order)
    (hslot : ∀ node, o.handle? = some node → reserved ≤ node.slot) :
    Proceeds t (t.performAs order o).1 (t.performAs order o).2.handles := by
  have hplain : Proceeds t (t.perform o).1 (t.perform o).2.handles :=
    ⟨h.perform o hslot, perform_advances h.sound o, fun _ => h.mem_of_handles o⟩
  cases o with
  | getOrInsert key payload lastUse p => exact h.getOrInsertAs_proceeds p.judge key payload [] hfits
  | trim count lastUse p => exact (h.trimAs_thinned p.judge [] count hfits).proceeds
  | sweep lastUse p => exact (h.sweepAs_thinned p.judge [] hfits).proceeds
  | relink lastUse => exact ((hfits t lastUse rfl).thinned h).proceeds
  | _ => exact hplain

end

/-- The table is in order and tells the nodes apart that it has given away. -/
structure Guards (given : List (Node K P)) (t : Table K P) : Prop where
  orderly : t.Orderly
  knows : ∀ n ∈ given, t.Knows n
  unique : ∀ a ∈ given, ∀ b ∈ given, a.generation = b.generation → a = b

theorem Guards.proceed {handles : List (Node K P)} (h : Guards given t)
    (hp : Proceeds t t' handles) : Guards (given ++ handles) t' := by
  have hknows : ∀ n ∈ given ++ handles, t'.Knows n := by
    intro n hn
    rcases List.mem_append.1 hn with hold | hnew
    · exact (h.knows n hold).advances hp.advances
    · rcases hp.handles n hnew with hbefore | hafter
      · exact (Sound.knows h.orderly.sound hbefore).advances hp.advances
      · exact Sound.knows hp.orderly.sound hafter
  -- A new handle is that of a node of one of the two tables; these tell generations apart.
  have hnew : ∀ a ∈ given ++ handles, ∀ b ∈ handles, a.generation = b.generation → a = b := by
    intro a ha b hb heq
    rcases hp.handles b hb with hbefore | hafter
    · rcases List.mem_append.1 ha with hold | hnewer
      · exact ((h.knows a hold).unique b hbefore heq.symm).symm
      · rcases hp.handles a hnewer with hbefore' | hafter'
        · exact Buckets.Sound.eq_of_generation h.orderly.sound hbefore' hbefore heq
        · exact (hknows b (List.mem_append_right _ hb)).unique a hafter' heq
    · exact ((hknows a ha).unique b hafter heq.symm).symm
  refine ⟨hp.orderly, hknows, fun a ha b hb heq => ?_⟩
  rcases List.mem_append.1 hb with hold' | hnewer
  · rcases List.mem_append.1 ha with hold | hnewer'
    · exact h.unique a hold b hold' heq
    · exact (hnew b hb a hnewer' heq.symm).symm
  · exact hnew a ha b hnewer heq

/-- A table tells the nodes apart that it has given away, whatever was done to it. -/
theorem ReachableGiving.guards [DecidableEq K] (h : ReachableGiving given t) : Guards given t := by
  induction h with
  | empty initial maxCapacity loadFactor hashOf =>
    exact ⟨(Reachable.empty initial maxCapacity loadFactor hashOf).orderly, nofun, nofun⟩
  | @perform given t o h hhandle ih =>
    rw [← performAs_ownOrder]
    apply ih.proceed
    refine ih.orderly.performAs_proceeds o (fits_ownOrder _) fun node hnode => ?_
    rcases hhandle node hnode with hown | ⟨t', ht', hmem⟩
    · exact (ih.knows node hown).slot
    · exact (Sound.knows ht'.orderly.sound hmem).slot

end ReadThrough.Table
