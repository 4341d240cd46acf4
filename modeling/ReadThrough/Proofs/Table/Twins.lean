import ReadThrough.Proofs.Table.Orders

/-! # Tables That Differ in Slots

  Two tables hold the same nodes in the same order by recency, but each in slots and buckets of its
  own. Nothing that operations tell is different, apart from the order of the slots.

  - **Face**: what there is to a node besides its slot.
  - **Twins**: tables that show the same faces.
  - **RebuiltTwins**: twins rebuild their lists at the same time, and by the same ticks.
  - **Coupled**: both do so in the same order. There is such an order for every one that the other
    may take; and where nodes with equal ticks come in the same order of slots, both take the same.
  - **Twins.trimAs**, **Twins.getOrInsertAs** and so on: what is done to twins leads to twins.
-/

namespace ReadThrough.Table

open Buckets RecencyList

variable {K P : Type}

/-! ## Faces -/

/-- A node without its slot. -/
structure Face (K P : Type) where
  hash : UInt64
  generation : Nat
  key : K
  payload : P
  deriving DecidableEq, Repr

/-- What there is to a node besides its slot. -/
def Node.face (node : Node K P) : Face K P :=
  { hash := node.hash, generation := node.generation, key := node.key, payload := node.payload }

/-- What depends on faces, put to nodes. -/
def facing {α : Type} (f : List (Face K P) → α) (asked : List (Node K P)) : α :=
  f (asked.map Node.face)

/-- A predicate on faces, put to nodes. -/
def Predicate.facing (p : Predicate (Face K P)) : Predicate (Node K P) :=
  fun asked node => p (asked.map Node.face) node.face

variable {t u u' : Table K P} {n n' : Node K P} {m m' : List (Node K P)} {ticks : P → Nat}
  {order order' : List (Nat × Node K P)}

theorem facing_eq {α : Type} (f : List (Face K P) → α) (hm : m'.map Node.face = m.map Node.face) :
    facing f m' = facing f m :=
  congrArg f hm

/-! ## Twins -/

/-- Two tables in order that differ in nothing but slots and buckets. -/
structure Twins (t u : Table K P) : Prop where
  left : t.Orderly
  right : u.Orderly
  hashOf : u.hashOf = t.hashOf
  maxCapacity : u.maxCapacity = t.maxCapacity
  repairs : u.repairs = t.repairs
  generation : u.buckets.nextGeneration = t.buckets.nextGeneration
  nodes : (u.nodes.map Node.face).Perm (t.nodes.map Node.face)
  byRecency : u.byRecency.map Node.face = t.byRecency.map Node.face

namespace Twins

theorem refl (h : t.Orderly) : t.Twins t :=
  ⟨h, h, rfl, rfl, rfl, rfl, .refl _, rfl⟩

theorem symm (h : t.Twins u) : u.Twins t :=
  ⟨h.right, h.left, h.hashOf.symm, h.maxCapacity.symm, h.repairs.symm, h.generation.symm,
    h.nodes.symm, h.byRecency.symm⟩

theorem trans (h : t.Twins u) (h' : u.Twins u') : t.Twins u' :=
  ⟨h.left, h'.right, h'.hashOf.trans h.hashOf, h'.maxCapacity.trans h.maxCapacity,
    h'.repairs.trans h.repairs, h'.generation.trans h.generation, h'.nodes.trans h.nodes,
    h'.byRecency.trans h.byRecency⟩

theorem size (h : t.Twins u) : u.size = t.size := by
  have hlength := h.nodes.length_eq
  rwa [List.length_map, List.length_map, h.left.length_nodes, h.right.length_nodes] at hlength

theorem length_byRecency (h : t.Twins u) : u.byRecency.length = t.byRecency.length := by
  have hlength := congrArg List.length h.byRecency
  rwa [List.length_map, List.length_map] at hlength

theorem allLinked_iff (h : t.Twins u) : u.AllLinked ↔ t.AllLinked := by
  rw [h.left.allLinked_iff_length, h.right.allLinked_iff_length, h.length_byRecency, h.size]

/-- Every node has its counterpart. -/
theorem exists_face (h : t.Twins u) (hn : n ∈ t.nodes) : ∃ n' ∈ u.nodes, n'.face = n.face :=
  List.mem_map.1 (h.nodes.mem_iff.2 (List.mem_map_of_mem hn))

theorem get?_some [DecidableEq K] (h : t.Twins u) {key : K} (hget : t.get? key = some n) :
    ∃ n', u.get? key = some n' ∧ n'.face = n.face := by
  obtain ⟨hn, hkey⟩ := (Sound.get?_eq_some_iff h.left.sound).1 hget
  obtain ⟨n', hn', hface⟩ := h.exists_face hn
  have hsame : n'.key = n.key := congrArg Face.key hface
  exact ⟨n', (Sound.get?_eq_some_iff h.right.sound).2 ⟨hn', hsame.trans hkey⟩, hface⟩

theorem get?_none [DecidableEq K] (h : t.Twins u) {key : K} (hget : t.get? key = none) :
    u.get? key = none := by
  by_contra hsome
  obtain ⟨n', hget'⟩ := Option.ne_none_iff_exists'.1 hsome
  obtain ⟨n, hfound, -⟩ := h.symm.get?_some hget'
  rw [hget] at hfound
  cases hfound

theorem get?_eq [DecidableEq K] (h : t.Twins u) (key : K) :
    (u.get? key).map Node.face = (t.get? key).map Node.face := by
  cases hget : t.get? key with
  | none => rw [h.get?_none hget]
  | some n =>
    obtain ⟨n', hget', hface⟩ := h.get?_some hget
    rw [hget']
    exact congrArg some hface

/-! ### Handles -/

/-- The handles of both tables that show the same face are good for the same. -/
theorem mem_nodes (h : t.Twins u) (hk : u.Knows n') (hface : n'.face = n.face)
    (hn : n ∈ t.nodes) : n' ∈ u.nodes := by
  obtain ⟨m, hm, hsame⟩ := h.exists_face hn
  have hgeneration : m.generation = n'.generation := congrArg Face.generation (hsame.trans hface.symm)
  exact hk.unique m hm hgeneration ▸ hm

theorem mem_byRecency (h : t.Twins u) (hk : u.Knows n') (hface : n'.face = n.face)
    (hn : n ∈ t.byRecency) : n' ∈ u.byRecency := by
  have hmem : n.face ∈ u.byRecency.map Node.face := h.byRecency ▸ List.mem_map_of_mem hn
  obtain ⟨m, hm, hsame⟩ := List.mem_map.1 hmem
  have hgeneration : m.generation = n'.generation := congrArg Face.generation (hsame.trans hface.symm)
  exact hk.unique m (h.right.linking.mem_nodes hm) hgeneration ▸ hm

end Twins

/-- The faces of the other nodes by recency. A slot stands for a generation. -/
theorem Orderly.map_others (h : t.Orderly) (hn : n ∈ t.nodes) :
    (others n.slot t.byRecency).map Node.face =
      (t.byRecency.map Node.face).filter fun f => f.generation != n.generation := by
  rw [others, List.filter_map]
  congr 1
  apply List.filter_congr
  intro a ha
  have hmem : a ∈ t.nodes := h.linking.mem_nodes ha
  rw [Bool.eq_iff_iff, bne_iff_ne, Function.comp_apply, bne_iff_ne]
  apply not_congr
  constructor
  · intro hslot
    have hsame := h.node? hmem
    rw [hslot, h.node? hn] at hsame
    exact congrArg Node.generation (Option.some.inj hsame).symm
  · intro hgeneration
    exact congrArg Node.slot (Buckets.Sound.eq_of_generation h.sound hmem hn hgeneration)

/-! ## Walks -/

/-- Two tours have led to the same, as far as faces go. -/
structure Tour.Alike (o o' : Tour K P (List (Node K P))) : Prop where
  left : o'.left.map Node.face = o.left.map Node.face
  removed : o'.removed.map Node.face = o.removed.map Node.face
  memory : o'.memory.map Node.face = o.memory.map Node.face
  ending : o'.ending = o.ending

theorem tour_alike (p : Predicate (Face K P)) {ahead ahead' : List (Node K P)}
    (quota : Option Nat) (hahead : ahead'.map Node.face = ahead.map Node.face)
    (hm : m'.map Node.face = m.map Node.face) :
    (p.facing.judge.tour ahead quota m).Alike (p.facing.judge.tour ahead' quota m') := by
  induction ahead generalizing ahead' quota m m' with
  | nil =>
    obtain rfl := List.map_eq_nil_iff.1 hahead
    exact ⟨rfl, rfl, hm, rfl⟩
  | cons a ahead ih =>
    obtain ⟨a', ahead', rfl, hface, hrest⟩ := List.map_eq_cons_iff.1 hahead
    rw [Judge.tour, Judge.tour]
    by_cases hquota : quota = some 0
    · rw [if_pos hquota, if_pos hquota]
      exact ⟨hahead, rfl, hm, rfl⟩
    rw [if_neg hquota, if_neg hquota]
    have hasked : (a' :: m').map Node.face = (a :: m).map Node.face := by
      rw [List.map_cons, List.map_cons, hface, hm]
    -- The verdict depends on faces only, so both tours go the same way.
    have hverdict : p.facing m' a' = p.facing m a := by
      rw [Predicate.facing, Predicate.facing, hface, hm]
    simp only [Predicate.judge, hverdict]
    cases p.facing m a with
    | keep =>
      have hkept := ih quota hrest hasked
      refine ⟨?_, hkept.removed, hkept.memory, hkept.ending⟩
      simp only [Tour.passing, List.map_cons, hface, hkept.left]
    | evict =>
      have hleft := ih (quota.map (· - 1)) hrest hasked
      refine ⟨hleft.left, ?_, hleft.memory, hleft.ending⟩
      simp only [Tour.removing, List.map_cons, hface, hleft.removed]
    | stop => exact ⟨hahead, rfl, hasked, rfl⟩
    | panic reason => exact ⟨hahead, rfl, hasked, rfl⟩

/-- Two walks have led to the same, as far as faces go. -/
structure Swept.Alike (o o' : Swept K P (List (Node K P))) : Prop where
  twins : o.table.Twins o'.table
  removed : o'.removed.map Node.face = o.removed.map Node.face
  memory : o'.memory.map Node.face = o.memory.map Node.face
  panic : o'.panic? = o.panic?
  consistent : o'.consistent = o.consistent

theorem Swept.Alike.length_removed {o o' : Swept K P (List (Node K P))} (h : o.Alike o') :
    o'.removed.length = o.removed.length := by
  have hlength := congrArg List.length h.removed
  rwa [List.length_map, List.length_map] at hlength

theorem Twins.walk (h : t.Twins u) (p : Predicate (Face K P)) (quota : Option Nat)
    (hm : m'.map Node.face = m.map Node.face) :
    (t.walk p.facing.judge quota m).Alike (u.walk p.facing.judge quota m') := by
  have hwalk := h.left.walk p.facing.judge quota m
  have hwalk' := h.right.walk p.facing.judge quota m'
  have hahead : u.byRecency.reverse.map Node.face = t.byRecency.reverse.map Node.face := by
    rw [List.map_reverse, List.map_reverse, h.byRecency]
  have htour := tour_alike p quota hahead hm
  have hremoved : (u.walk p.facing.judge quota m').removed.map Node.face =
      (t.walk p.facing.judge quota m).removed.map Node.face := by
    rw [hwalk.removed, hwalk'.removed, htour.removed]
  exact {
    twins := {
      left := h.left.walk_orderly _ _ _
      right := h.right.walk_orderly _ _ _
      hashOf := h.hashOf
      maxCapacity := h.maxCapacity
      repairs := h.repairs
      generation := by
        have hkeep := walk_keeps (t := t) (m := m) (keeps_generation p.facing.judge _) quota rfl
        have hkeep' := walk_keeps (t := u) (m := m') (keeps_generation p.facing.judge _) quota rfl
        exact hkeep'.trans (h.generation.trans hkeep.symm)
      nodes := by
        -- The nodes are those from before without the removed ones.
        have hperm := (h.left.walk_perm p.facing.judge quota m).map Node.face
        have hperm' := (h.right.walk_perm p.facing.judge quota m').map Node.face
        rw [List.map_append] at hperm hperm'
        rw [hremoved] at hperm'
        exact (List.perm_append_left_iff _).1 (hperm'.trans (h.nodes.trans hperm.symm))
      byRecency := by
        rw [hwalk.byRecency_eq, hwalk'.byRecency_eq, List.map_reverse, List.map_reverse, htour.left] }
    removed := hremoved
    memory := by rw [hwalk.memory, hwalk'.memory, htour.memory]
    panic := by rw [hwalk.panic, hwalk'.panic, htour.ending]
    consistent := by
      rw [Bool.eq_iff_iff, h.left.walk_consistent, h.right.walk_consistent, htour.ending,
        h.allLinked_iff] }

/-- No node has been asked about yet. -/
theorem Twins.walk_fresh (h : t.Twins u) (p : Predicate (Face K P)) (quota : Option Nat) :
    (t.walk p.facing.judge quota []).Alike (u.walk p.facing.judge quota []) :=
  h.walk p quota rfl

/-! ## Rebuilt lists -/

/-- Twins whose lists are rebuilt in the same order are twins again. -/
theorem Twins.relinkAs (h : t.Twins u) (hleft : MayLink ticks t order)
    (hright : MayLink ticks u order')
    (hfaces : order'.map (fun q => q.2.face) = order.map fun q => q.2.face) :
    (t.relinkAs order).Twins (u.relinkAs order') where
  left := hleft.orderly h.left
  right := hright.orderly h.right
  hashOf := h.hashOf
  maxCapacity := h.maxCapacity
  repairs := congrArg (· + 1) h.repairs
  generation := h.generation
  nodes := h.nodes
  byRecency := by
    rw [hleft.byRecency h.left, hright.byRecency h.right, List.map_reverse, List.map_reverse,
      List.map_map, List.map_map]
    exact congrArg List.reverse hfaces

/-- The list of a table can be rebuilt in every order in which that of its twin can be. -/
theorem Twins.exists_mayLink (h : t.Twins u) (hright : MayLink ticks u order') :
    ∃ order, MayLink ticks t order ∧
      order'.map (fun q => q.2.face) = order.map fun q => q.2.face := by
  -- What there is to a node and its tick besides its slot.
  let view (q : Nat × Node K P) : Nat × Face K P := (q.1, q.2.face)
  have htimed (t : Table K P) : (timed ticks t).map view =
      (t.nodes.map Node.face).map fun f => (ticks f.payload, f) := by
    rw [timed, List.map_map, List.map_map]
    rfl
  have hperm : (order'.map view).Perm ((timed ticks t).map view) := by
    rw [htimed t]
    exact (hright.perm.map view).trans (htimed u ▸ h.nodes.map _)
  obtain ⟨order, hview, horder⟩ : Relation.Comp (List.Forall₂ fun v q => v = view q) List.Perm
      (order'.map view) (timed ticks t) := by
    apply List.perm_comp_forall₂ hperm
    rw [List.forall₂_map_left_iff]
    exact List.forall₂_same.2 fun _ _ => rfl
  have hsame : order'.map view = order.map view := by
    rw [← List.forall₂_map_right_iff, List.forall₂_eq_eq_eq] at hview
    exact hview
  refine ⟨order, ⟨horder, ?_⟩, ?_⟩
  · have hsorted : (order'.map view).Pairwise fun a b => a.1 ≤ b.1 :=
      List.pairwise_map.2 hright.sorted
    rwa [hsame, List.pairwise_map] at hsorted
  · have hfaces := congrArg (List.map Prod.snd) hsame
    rwa [List.map_map, List.map_map] at hfaces

/-- Of two nodes that were used at the same tick, the same one has the lower slot in both
    tables. -/
def TiesAlike (ticks : P → Nat) (t u : Table K P) : Prop :=
  ∀ a ∈ t.nodes, ∀ b ∈ t.nodes, ∀ a' ∈ u.nodes, ∀ b' ∈ u.nodes, a'.face = a.face →
    b'.face = b.face → ticks a.payload = ticks b.payload → a.slot < b.slot → a'.slot < b'.slot

theorem Orderly.eq_of_face (h : t.Orderly) (hn : n ∈ t.nodes) (hn' : n' ∈ t.nodes)
    (hface : n.face = n'.face) : n = n' :=
  Buckets.Sound.eq_of_generation h.sound hn hn' (congrArg Face.generation hface)

theorem Orderly.tiesAlike (h : t.Orderly) (ticks : P → Nat) : TiesAlike ticks t t := by
  intro a ha b hb a' ha' b' hb' haface hbface _ hlt
  rwa [h.eq_of_face ha' ha haface, h.eq_of_face hb' hb hbface]

/-- The order in which the nodes of a table are linked, as one of faces. -/
def usedBefore (ticks : P → Nat) (t : Table K P) (f g : Face K P) : Prop :=
  ∀ a ∈ t.nodes, ∀ b ∈ t.nodes, a.face = f → b.face = g →
    linkedBefore (ticks a.payload, a) (ticks b.payload, b) = true

/-- The nodes of a twin are linked in the order of this table. -/
theorem TiesAlike.sorted (h : TiesAlike ticks t u) :
    ((byUse ticks u).map fun q => q.2.face).Pairwise (usedBefore ticks t) := by
  rw [List.pairwise_map]
  refine (byUse_sorted ticks u).imp_of_mem fun {q r} hq hr hqr a ha b hb haface hbface => ?_
  obtain ⟨hqmem, hqtick⟩ := (byUse_mayLink ticks u).mem hq
  obtain ⟨hrmem, hrtick⟩ := (byUse_mayLink ticks u).mem hr
  have hapayload : a.payload = q.2.payload := congrArg Face.payload haface
  have hbpayload : b.payload = r.2.payload := congrArg Face.payload hbface
  rw [linkedBefore_iff] at hqr ⊢
  dsimp only
  rw [hapayload, hbpayload, ← hqtick, ← hrtick]
  refine hqr.imp_right fun ⟨htick, hslot⟩ => ⟨htick, Nat.le_of_not_lt fun hlt => ?_⟩
  have hties : ticks b.payload = ticks a.payload := by
    rw [hapayload, hbpayload, ← hqtick, ← hrtick, htick]
  have hcross := h b hb a ha r.2 hrmem q.2 hqmem hbface.symm haface.symm hties hlt
  omega

/-- Where ties are alike, the lists of twins are rebuilt in the same order. -/
theorem Twins.byUse_eq (h : t.Twins u) (hties : TiesAlike ticks t u) :
    (byUse ticks u).map (fun q => q.2.face) = (byUse ticks t).map fun q => q.2.face := by
  have hfaces (t : Table K P) :
      ((byUse ticks t).map fun q => q.2.face).Perm (t.nodes.map Node.face) := by
    have hperm := (byUse_mayLink ticks t).nodes.map Node.face
    rwa [List.map_map] at hperm
  refine List.Perm.eq_of_pairwise ?_ hties.sorted (h.left.tiesAlike ticks).sorted
    ((hfaces u).trans (h.nodes.trans (hfaces t).symm))
  intro f g hf hg hfg hgf
  obtain ⟨a, ha, rfl⟩ := List.mem_map.1 (h.nodes.mem_iff.1 ((hfaces u).mem_iff.1 hf))
  obtain ⟨b, hb, rfl⟩ := List.mem_map.1 ((hfaces t).mem_iff.1 hg)
  have hab := linkedBefore_iff.1 (hfg a ha b hb rfl rfl)
  have hba := linkedBefore_iff.1 (hgf b hb a ha rfl rfl)
  dsimp only at hab hba
  -- Neither is used before the other, so both are in the same slot.
  have hslot : a.slot = b.slot := by omega
  have hsame := h.left.node? ha
  rw [hslot, h.left.node? hb] at hsame
  rw [Option.some.inj hsame]

/-! ### At the same time -/

/-- Two operations rebuild the lists of twins by the same ticks, or neither rebuilds any. -/
inductive RebuiltTwins : Option (Table K P × (P → Nat)) → Option (Table K P × (P → Nat)) → Prop
  | none : RebuiltTwins none none
  | some {t u : Table K P} (ticks : P → Nat) (h : t.Twins u) :
    RebuiltTwins (some (t, ticks)) (some (u, ticks))

/-- If two operations rebuild lists, ties are alike in them. -/
def RebuiltAlike : Option (Table K P × (P → Nat)) → Option (Table K P × (P → Nat)) → Prop
  | some (t, ticks), some (u, _) => TiesAlike ticks t u
  | _, _ => True

/-- Orders for the lists that two operations rebuild, if they do: the same but for the slots. -/
structure Coupled (r r' : Option (Table K P × (P → Nat))) (order order' : List (Nat × Node K P)) :
    Prop where
  left : Fits r order
  right : Fits r' order'
  faces : r.isSome = true → order'.map (fun q => q.2.face) = order.map fun q => q.2.face

variable {r r' : Option (Table K P × (P → Nat))}

theorem RebuiltTwins.exists_coupled (h : RebuiltTwins r r') (hright : Fits r' order') :
    ∃ order, Coupled r r' order order' := by
  cases h with
  | none => exact ⟨[], nofun, nofun, nofun⟩
  | some ticks h =>
    obtain ⟨order, hleft, hfaces⟩ := h.exists_mayLink (hright _ ticks rfl)
    refine ⟨order, ?_, hright, fun _ => hfaces⟩
    rintro _ _ heq
    obtain ⟨rfl, rfl⟩ := Prod.mk.inj (Option.some.inj heq)
    exact hleft

theorem RebuiltTwins.coupled (h : RebuiltTwins r r') (hties : RebuiltAlike r r') :
    Coupled r r' (ownOrder r) (ownOrder r') := by
  refine ⟨fits_ownOrder r, fits_ownOrder r', fun _ => ?_⟩
  cases h with
  | none => rfl
  | some ticks h => exact h.byUse_eq hties

/-! ## Sweeps and trims -/

/-- Two removals have led to the same, as far as faces go. -/
structure Removal.Alike (r r' : Removal K P (List (Node K P))) : Prop where
  removed : r'.removed.map Node.face = r.removed.map Node.face
  memory : r'.memory.map Node.face = r.memory.map Node.face
  panic : r'.panic? = r.panic?

theorem Removal.Alike.reply {r r' : Removal K P (List (Node K P))} (h : r.Alike r') :
    r'.reply.map Node.face = r.reply.map Node.face := by
  simp only [Removal.reply, Reply.map, h.removed, h.memory, h.panic]

namespace Twins

variable (lastUse : List (Face K P) → P → Nat) (p : Predicate (Face K P))

theorem sweepRebuilt (h : t.Twins u) :
    RebuiltTwins (t.sweepRebuilt? (facing lastUse) p.facing.judge [])
      (u.sweepRebuilt? (facing lastUse) p.facing.judge []) := by
  have hwalk := h.walk_fresh p none
  unfold sweepRebuilt?
  dsimp only
  rw [hwalk.panic, hwalk.consistent, facing_eq lastUse hwalk.memory]
  split
  · exact .none
  · exact .some _ hwalk.twins

/-- What a sweep removes does not depend on the list that is rebuilt after it. -/
theorem sweepAs_alike (h : t.Twins u) (order order' : List (Nat × Node K P)) :
    (t.sweepAs order p.facing.judge []).value.Alike (u.sweepAs order' p.facing.judge []).value := by
  have hwalk := h.walk_fresh p none
  exact ⟨hwalk.removed, hwalk.memory, hwalk.panic⟩

theorem sweepAs (h : t.Twins u)
    (hc : Coupled (t.sweepRebuilt? (facing lastUse) p.facing.judge [])
      (u.sweepRebuilt? (facing lastUse) p.facing.judge []) order order') :
    (t.sweepAs order p.facing.judge []).table.Twins
      (u.sweepAs order' p.facing.judge []).table := by
  have hwalk := h.walk_fresh p none
  obtain ⟨hleft, hright, hfaces⟩ := hc
  unfold sweepRebuilt? at hleft hright hfaces
  unfold Table.sweepAs
  dsimp only at hleft hright hfaces ⊢
  rw [hwalk.panic, hwalk.consistent] at hright ⊢
  split
  · exact hwalk.twins
  · next hmismatch =>
    rw [if_neg hmismatch] at hleft hright hfaces
    have hmay := hright _ _ rfl
    rw [facing_eq lastUse hwalk.memory] at hmay
    exact hwalk.twins.relinkAs (hleft _ _ rfl) hmay (hfaces rfl)

theorem trimRebuilt (h : t.Twins u) (count : Nat) :
    RebuiltTwins (t.trimRebuilt? (facing lastUse) p.facing.judge [] count)
      (u.trimRebuilt? (facing lastUse) p.facing.judge [] count) := by
  have hwalk := h.walk_fresh p (some count)
  unfold trimRebuilt?
  dsimp only
  rw [hwalk.panic, hwalk.consistent, hwalk.length_removed, facing_eq lastUse hwalk.memory]
  split
  · exact .none
  split
  · exact .none
  · exact .some _ hwalk.twins

theorem trimAs (h : t.Twins u) (count : Nat)
    (hc : Coupled (t.trimRebuilt? (facing lastUse) p.facing.judge [] count)
      (u.trimRebuilt? (facing lastUse) p.facing.judge [] count) order order') :
    (t.trimAs order p.facing.judge [] count).table.Twins
        (u.trimAs order' p.facing.judge [] count).table ∧
      (t.trimAs order p.facing.judge [] count).value.Alike
        (u.trimAs order' p.facing.judge [] count).value := by
  have hwalk := h.walk_fresh p (some count)
  obtain ⟨hleft, hright, hfaces⟩ := hc
  unfold trimRebuilt? at hleft hright hfaces
  unfold Table.trimAs
  by_cases hcount : count = 0
  · rw [if_pos hcount, if_pos hcount]
    exact ⟨h, rfl, rfl, rfl⟩
  rw [if_neg hcount] at hleft hright hfaces
  rw [if_neg hcount, if_neg hcount]
  dsimp only at hleft hright hfaces ⊢
  rw [hwalk.panic, hwalk.consistent, hwalk.length_removed] at hright ⊢
  split
  · exact ⟨hwalk.twins, hwalk.removed, hwalk.memory, rfl⟩
  · next hmismatch =>
    rw [if_neg hmismatch] at hleft hright hfaces
    have hmay := hright _ _ rfl
    rw [facing_eq lastUse hwalk.memory] at hmay
    -- The walk is resumed along lists in the same order.
    have hrelinked := hwalk.twins.relinkAs (hleft _ _ rfl) hmay (hfaces rfl)
    have hresumed := hrelinked.walk p
      (some (count - (t.walk p.facing.judge (some count) []).removed.length)) hwalk.memory
    refine ⟨hresumed.twins, ?_, hresumed.memory, hresumed.panic⟩
    dsimp only
    rw [List.map_append, List.map_append, hwalk.removed, hresumed.removed]

end Twins

/-! ## Single nodes -/

/-- A table whose list alone has changed. -/
theorem Twins.relist (h : t.Twins u) {l l' : RecencyList}
    (hleft : Orderly { t with recency := l }) (hright : Orderly { u with recency := l' })
    (hby : (Table.byRecency { u with recency := l' }).map Node.face =
      (Table.byRecency { t with recency := l }).map Node.face) :
    Twins { t with recency := l } { u with recency := l' } :=
  ⟨hleft, hright, h.hashOf, h.maxCapacity, h.repairs, h.generation, h.nodes, hby⟩

/-- A node of the table leaves it and its list. -/
theorem Orderly.removeNode_eq (h : t.Orderly) (hn : n ∈ t.nodes) :
    t.removeNode n = ({ t with
      buckets := (t.buckets.removeNode n).1
      recency := t.recency.unlink n.slot n.generation }, true) := by
  have hremoved := h.sound.removeNode_stored (h.node? hn)
  unfold Table.removeNode
  dsimp only
  split
  · next heq =>
    rw [heq] at hremoved
    cases hremoved
  · next heq => rw [heq]

theorem Orderly.removeNode_perm (h : t.Orderly) (hn : n ∈ t.nodes) :
    (n :: (t.removeNode n).1.nodes).Perm t.nodes := by
  have hafter := (h.removeNode n).nodup
  have hmem : ∀ m, m ∈ (t.removeNode n).1.nodes ↔ m ∈ t.nodes ∧ m ≠ n := by
    rw [h.removeNode_eq hn]
    exact fun m => h.sound.mem_removeNode hn
  apply (List.perm_ext_iff_of_nodup ?_ h.nodup).2
  · intro m
    rw [List.mem_cons, hmem]
    constructor
    · rintro (rfl | ⟨hm, -⟩)
      · exact hn
      · exact hm
    · intro hm
      exact (eq_or_ne m n).imp_right fun hne => ⟨hm, hne⟩
  · exact List.nodup_cons.2 ⟨fun hself => ((hmem n).1 hself).2 rfl, hafter⟩

namespace Twins

/-- Handles that show the same face remove the same node, or none. -/
theorem removeNode (h : t.Twins u) (hk : t.Knows n) (hk' : u.Knows n') (hface : n'.face = n.face) :
    (t.removeNode n).1.Twins (u.removeNode n').1 ∧ (u.removeNode n').2 = (t.removeNode n).2 := by
  by_cases hn : n ∈ t.nodes
  · -- Handles that are known and show the same face are stored in both tables or in none.
    have hn' : n' ∈ u.nodes := h.mem_nodes hk' hface hn
    have hgeneration : n'.generation = n.generation := congrArg Face.generation hface
    have hperm := (h.left.removeNode_perm hn).map Node.face
    have hperm' := (h.right.removeNode_perm hn').map Node.face
    have hby := (h.left.linking.remove (h.left.node? hn)).byRecency_eq
    have hby' := (h.right.linking.remove (h.right.node? hn')).byRecency_eq
    have hleft := h.left.removeNode n
    have hright := h.right.removeNode n'
    rw [List.map_cons] at hperm hperm'
    rw [hface] at hperm'
    rw [h.left.removeNode_eq hn] at hperm hleft ⊢
    rw [h.right.removeNode_eq hn'] at hperm' hright ⊢
    refine ⟨?_, rfl⟩
    exact {
      left := hleft
      right := hright
      hashOf := h.hashOf
      maxCapacity := h.maxCapacity
      repairs := h.repairs
      generation :=
        (removeNode_generation _ _).trans (h.generation.trans (removeNode_generation _ _).symm)
      nodes := (List.perm_cons _).1 (hperm'.trans (h.nodes.trans hperm.symm))
      byRecency := by
        show List.map Node.face (List.filterMap _ _) = List.map Node.face (List.filterMap _ _)
        rw [hby, hby', h.left.map_others hn, h.right.map_others hn', h.byRecency, hgeneration] }
  · have hn' : n' ∉ u.nodes := fun hmem => hn (h.symm.mem_nodes hk hface.symm hmem)
    rw [hk.removeNode_eq hn, hk'.removeNode_eq hn']
    exact ⟨h, rfl⟩

/-- Handles that show the same face are linked in both tables or in none. -/
theorem isLinked_eq (h : t.Twins u) (hk : t.Knows n) (hk' : u.Knows n')
    (hface : n'.face = n.face) : u.isLinked n' = t.isLinked n := by
  by_cases hn : n ∈ t.byRecency
  · have hn' := h.mem_byRecency hk' hface hn
    rw [(h.left.isLinked_iff (h.left.linking.mem_nodes hn)).2 hn,
      (h.right.isLinked_iff (h.right.linking.mem_nodes hn')).2 hn']
  · have hn' : n' ∉ u.byRecency := fun hmem => hn (h.symm.mem_byRecency hk hface.symm hmem)
    rw [hk.isLinked_eq_false h.left hn, hk'.isLinked_eq_false h.right hn']

theorem touch (h : t.Twins u) (hk : t.Knows n) (hk' : u.Knows n') (hface : n'.face = n.face) :
    (t.touch n).Twins (u.touch n') := by
  by_cases hn : n ∈ t.byRecency
  · have hn' := h.mem_byRecency hk' hface hn
    have hgeneration : n'.generation = n.generation := congrArg Face.generation hface
    refine h.relist (Ordered.touch h.left hk.slot _) (Ordered.touch h.right hk'.slot _) ?_
    have hby := (h.left.linking.touch hn).byRecency_eq
    have hby' := (h.right.linking.touch hn').byRecency_eq
    show List.map Node.face (List.filterMap _ _) = List.map Node.face (List.filterMap _ _)
    rw [hby, hby', List.map_cons, List.map_cons, h.left.map_others (h.left.linking.mem_nodes hn),
      h.right.map_others (h.right.linking.mem_nodes hn'), h.byRecency, hgeneration, hface]
  · have hn' : n' ∉ u.byRecency := fun hmem => hn (h.symm.mem_byRecency hk hface.symm hmem)
    rw [touch_eq_self (hk.isLinked_eq_false h.left hn),
      touch_eq_self (hk'.isLinked_eq_false h.right hn')]
    exact h

theorem unlink (h : t.Twins u) (hk : t.Knows n) (hk' : u.Knows n') (hface : n'.face = n.face) :
    (t.unlink n).Twins (u.unlink n') := by
  by_cases hn : n ∈ t.byRecency
  · have hn' := h.mem_byRecency hk' hface hn
    have hgeneration : n'.generation = n.generation := congrArg Face.generation hface
    have hmem := h.left.linking.mem_nodes hn
    have hmem' := h.right.linking.mem_nodes hn'
    refine h.relist (Ordered.unlink h.left hk.slot _) (Ordered.unlink h.right hk'.slot _) ?_
    have hby := (h.left.linking.unlink (h.left.node? hmem)).byRecency_eq
    have hby' := (h.right.linking.unlink (h.right.node? hmem')).byRecency_eq
    show List.map Node.face (List.filterMap _ _) = List.map Node.face (List.filterMap _ _)
    rw [hby, hby', h.left.map_others hmem, h.right.map_others hmem', h.byRecency, hgeneration]
  · have hn' : n' ∉ u.byRecency := fun hmem => hn (h.symm.mem_byRecency hk hface.symm hmem)
    rw [unlink_eq_self (hk.isLinked_eq_false h.left hn),
      unlink_eq_self (hk'.isLinked_eq_false h.right hn')]
    exact h

/-! ## Tables as a whole -/

theorem clear (h : t.Twins u) : t.clear.1.Twins u.clear.1 where
  left := Ordered.clear h.left
  right := Ordered.clear h.right
  hashOf := h.hashOf
  maxCapacity := h.maxCapacity
  repairs := h.repairs
  generation := h.generation
  nodes := by
    rw [Sound.clear_nodes h.left.sound, Sound.clear_nodes h.right.sound]
  byRecency := rfl

theorem setMaxCapacity (h : t.Twins u) (count : Nat) :
    (t.setMaxCapacity count).Twins (u.setMaxCapacity count) :=
  ⟨h.left, h.right, h.hashOf, rfl, h.repairs, h.generation, h.nodes, h.byRecency⟩

end Twins

/-- Growing changes nothing but buckets. -/
theorem Orderly.twins_resize (h : t.Orderly) : t.Twins t.resize.table := by
  unfold Table.resize
  split
  · obtain ⟨hr, hs⟩ := h.sound.grow
    have hnode : t.buckets.grow.node? = t.buckets.node? := funext hr.node?
    exact {
      left := h
      right := Ordered.rebucket h hr hs
      hashOf := rfl
      maxCapacity := rfl
      repairs := rfl
      generation := hr.generation
      nodes := by
        show (t.buckets.grow.nodes.map Node.face).Perm _
        rw [hr.nodes]
        exact .refl _
      byRecency := by
        show List.map Node.face (List.filterMap t.buckets.grow.node? _) = _
        rw [hnode]
        rfl }
  · exact .refl h

theorem Sound.pinch_nodes (h : t.Sound) : t.pinch.table.nodes = t.nodes := by
  unfold Table.pinch
  split
  · exact Buckets.Sound.pinch_nodes h
  · rfl

theorem Orderly.pinch_byRecency (h : t.Orderly) : t.pinch.table.byRecency = t.byRecency := by
  unfold Table.pinch
  split
  · have hnode : t.buckets.pinch.node? = t.buckets.node? := funext h.sound.pinch.2
    have hlist := (Ordered.linked_pinch h).toList_eq
    show List.filterMap t.buckets.pinch.node?
      (t.recency.truncate t.buckets.pinch.cells.size).toList = _
    rw [hnode, hlist]
    rfl
  · rfl

theorem Orderly.pinch (h : t.Orderly) : t.pinch.table.Orderly := by
  unfold Table.pinch
  split
  · exact Ordered.pinch h
  · exact h

/-- Pinching changes nothing but buckets and the room for slots. -/
theorem Orderly.twins_pinch (h : t.Orderly) : t.Twins t.pinch.table where
  left := h
  right := h.pinch
  hashOf := (pinch_within t).hashOf
  maxCapacity := by
    unfold Table.pinch
    split <;> rfl
  repairs := by
    unfold Table.pinch
    split <;> rfl
  generation := by
    unfold Table.pinch
    split
    · exact h.sound.pinch_contents.2.2.2
    · rfl
  nodes := by
    rw [Sound.pinch_nodes h.sound]
  byRecency := by rw [h.pinch_byRecency]

theorem Twins.resize (h : t.Twins u) : t.resize.table.Twins u.resize.table :=
  h.left.twins_resize.symm.trans (h.trans h.right.twins_resize)

theorem Twins.pinch (h : t.Twins u) : t.pinch.table.Twins u.pinch.table :=
  h.left.twins_pinch.symm.trans (h.trans h.right.twins_pinch)

/-! ## Insertion -/

section

variable {key : K}

theorem Orderly.insertNew_perm (h : t.Orderly) (habsent : ∀ n ∈ t.nodes, n.key ≠ key)
    (payload : P) : (t.insertNew key payload).table.nodes.Perm
      ((t.insertNew key payload).value :: t.nodes) := by
  obtain ⟨-, hmem⟩ := Sound.insertNew h.sound habsent payload
  apply (List.perm_ext_iff_of_nodup (h.insertNew habsent payload).nodup ?_).2
  · intro n
    rw [hmem, List.mem_cons]
  · exact List.nodup_cons.2 ⟨fun hn => habsent _ hn (insertNew_key key payload t), h.nodup⟩

theorem Sound.insertNew_generation (h : t.Sound) (habsent : ∀ n ∈ t.nodes, n.key ≠ key)
    (payload : P) : (t.insertNew key payload).table.buckets.nextGeneration =
      t.buckets.nextGeneration + 1 := by
  have hsound : (t.buckets.insert (t.hashOf key) key payload).Sound t.hashOf :=
    Buckets.Sound.insert h rfl fun s n hn => habsent n (Buckets.mem_nodes.2 ⟨s, hn⟩)
  rcases (insertNew_buckets key payload t).1 with heq | heq
  · rw [heq]
    rfl
  · rw [heq, hsound.grow.1.generation]
    rfl

/-- Twins give a new node the same face, if not the same slot. -/
theorem Twins.insertNew (h : t.Twins u) (habsent : ∀ n ∈ t.nodes, n.key ≠ key)
    (habsent' : ∀ n ∈ u.nodes, n.key ≠ key) (payload : P) :
    (t.insertNew key payload).table.Twins (u.insertNew key payload).table ∧
      (u.insertNew key payload).value.face = (t.insertNew key payload).value.face := by
  -- The face has the generation and not the slot, and generations count alike.
  have hface : (u.insertNew key payload).value.face = (t.insertNew key payload).value.face := by
    rw [(insertNew_buckets key payload t).2.2, (insertNew_buckets key payload u).2.2]
    simp only [Node.face, nextNode, h.hashOf, h.generation]
  refine ⟨?_, hface⟩
  exact {
    left := h.left.insertNew habsent payload
    right := h.right.insertNew habsent' payload
    hashOf := by
      rw [(insertNew_buckets key payload t).2.1, (insertNew_buckets key payload u).2.1, h.hashOf]
    maxCapacity := by rw [insertNew_maxCapacity, insertNew_maxCapacity, h.maxCapacity]
    repairs := by rw [insertNew_repairs, insertNew_repairs, h.repairs]
    generation := by
      rw [Sound.insertNew_generation h.left.sound habsent,
        Sound.insertNew_generation h.right.sound habsent', h.generation]
    nodes := by
      have hperm := (h.left.insertNew_perm habsent payload).map Node.face
      have hperm' := (h.right.insertNew_perm habsent' payload).map Node.face
      rw [List.map_cons] at hperm hperm'
      rw [hface] at hperm'
      exact hperm'.trans ((h.nodes.cons _).trans hperm.symm)
    byRecency := by
      rw [h.left.insertNew_byRecency habsent payload, h.right.insertNew_byRecency habsent' payload,
        List.map_cons, List.map_cons, hface, h.byRecency] }

/-- Into room that was made alike, twins insert the same. -/
theorem Twins.lodge {room room' : Answer K P (Removal K P (List (Node K P)))}
    (h : room.table.Twins room'.table) (halike : room.value.Alike room'.value)
    (habsent : ∀ n ∈ room.table.nodes, n.key ≠ key)
    (habsent' : ∀ n ∈ room'.table.nodes, n.key ≠ key) (payload : Except String P) :
    let r := Table.lodge key payload room
    let r' := Table.lodge key payload room'
    r.table.Twins r'.table ∧
      (r'.value.1.reply r'.value.2).map Node.face = (r.value.1.reply r.value.2).map Node.face := by
  have hasked (reply : List (Face K P) → Reply (Face K P)) :
      reply (room'.value.memory.map Node.face) = reply (room.value.memory.map Node.face) := by
    rw [halike.memory]
  unfold Table.lodge
  -- What decides between the cases of the lodging is the same on both sides.
  rw [halike.panic, h.maxCapacity, h.size]
  cases room.value.panic? with
  | some reason => exact ⟨h, hasked (.panicked reason)⟩
  | none =>
    dsimp only
    by_cases hfull : room.table.maxCapacity ≤ room.table.size
    · rw [if_pos hfull, if_pos hfull]
      exact ⟨h, hasked (.full _)⟩
    rw [if_neg hfull, if_neg hfull]
    cases payload with
    | error reason => exact ⟨h, hasked (.panicked reason)⟩
    | ok payload =>
      obtain ⟨hinserted, hface⟩ := h.insertNew habsent habsent' payload
      refine ⟨hinserted, ?_⟩
      show Reply.vacant (Node.face _) (List.map Node.face _) = _
      rw [hface, halike.memory]
      rfl

end

section

variable [DecidableEq K] (lastUse : List (Face K P) → P → Nat) (p : Predicate (Face K P)) (key : K)

theorem Twins.insertRebuilt (h : t.Twins u) :
    RebuiltTwins (t.insertRebuilt? (facing lastUse) p.facing.judge [] key)
      (u.insertRebuilt? (facing lastUse) p.facing.judge [] key) := by
  unfold insertRebuilt?
  cases hget : t.get? key with
  | some n =>
    obtain ⟨n', hget', -⟩ := h.get?_some hget
    rw [hget']
    exact .none
  | none =>
    rw [h.get?_none hget, h.size, h.maxCapacity]
    exact h.trimRebuilt lastUse p _

theorem Twins.getOrInsertAs (h : t.Twins u) (payload : Except String P)
    (hc : Coupled (t.insertRebuilt? (facing lastUse) p.facing.judge [] key)
      (u.insertRebuilt? (facing lastUse) p.facing.judge [] key) order order') :
    let r := t.getOrInsertAs order p.facing.judge key payload []
    let r' := u.getOrInsertAs order' p.facing.judge key payload []
    r.table.Twins r'.table ∧
      (r'.value.1.reply r'.value.2).map Node.face = (r.value.1.reply r.value.2).map Node.face := by
  unfold Table.getOrInsertAs
  unfold insertRebuilt? at hc
  cases hget : t.get? key with
  | some n =>
    obtain ⟨n', hget', hface⟩ := h.get?_some hget
    rw [hget']
    exact ⟨h, congrArg Reply.occupied hface⟩
  -- Neither has the key, so both make room; the trims are alike if the lists are.
  | none =>
    have hget' := h.get?_none hget
    rw [hget, hget', if_neg (by simp), if_neg (by simp), h.size, h.maxCapacity] at hc
    have hroom := h.left.trimAs_thinned p.facing.judge [] _ hc.left
    have hroom' := h.right.trimAs_thinned p.facing.judge [] _ hc.right
    obtain ⟨htwins, halike⟩ := h.trimAs lastUse p _ hc
    rw [hget', h.size, h.maxCapacity]
    exact htwins.lodge halike
      (fun n hn => (Sound.get?_eq_none_iff h.left.sound).1 hget n (hroom.mem hn))
      (fun n hn => (Sound.get?_eq_none_iff h.right.sound).1 hget' n (hroom'.mem hn)) payload

end

end ReadThrough.Table
