import ReadThrough.Proofs.Table.Twins

/-! # Sequences of Operations on Twins

  Whoever asks tables that differ in slots for the same operations, with handles that each of them
  has given away itself, gets the same answers.

  - **Custody**: a table with the nodes that it has given away. A handle is named by its face.
  - **ask**: one operation. Its answer shows faces in place of nodes.
  - **Answers**: what a table may answer to a sequence of operations, in whatever order it links
    nodes with equal ticks when its list is rebuilt. **answers** are those that it gives.
  - **Agree**: answers that are the same, but for the order in which nodes are listed by slot.
  - **Paired.agree**: as long as ties are alike, twins give answers that agree.
  - **Paired.exists_answers**: in any case a twin answers as the table itself may.
-/

namespace ReadThrough.Table

variable {K P : Type}

/-! ## Asking -/

/-- A table with the nodes that it has given away so far. -/
structure Custody (K P : Type) where
  table : Table K P
  given : List (Node K P)

/-- Whether an operation goes on along the list that it has rebuilt. A sweep has asked about its
    nodes before. -/
def Operation.resumes {N : Type} : Operation N K P → Bool
  | .getOrInsert .. | .trim .. => true
  | _ => false

namespace Custody

/-- The handle of the node that is named. Its generation tells it from all others. -/
def own? (c : Custody K P) (face : Face K P) : Option (Node K P) :=
  c.given.find? fun n => n.generation == face.generation

theorem mem_of_own? {c : Custody K P} {face : Face K P} {n : Node K P}
    (h : c.own? face = some n) : n ∈ c.given ∧ n.generation = face.generation := by
  unfold own? at h
  have hgeneration := List.find?_some h
  exact ⟨List.mem_of_find?_eq_some h, beq_iff_eq.1 hgeneration⟩

/-- The operation as the table is asked for it. It cannot be without a handle of its own. -/
def aim (c : Custody K P) : Operation (Face K P) K P → Option (Operation (Node K P) K P)
  | .getOrInsert key payload lastUse p => some (.getOrInsert key payload (facing lastUse) p.facing)
  | .get? key => some (.get? key)
  | .remove key => some (.remove key)
  | .removeNode face => (c.own? face).map .removeNode
  | .touch face => (c.own? face).map .touch
  | .unlink face => (c.own? face).map .unlink
  | .trim count lastUse p => some (.trim count (facing lastUse) p.facing)
  | .sweep lastUse p => some (.sweep (facing lastUse) p.facing)
  | .relink lastUse => some (.relink lastUse)
  | .resize => some .resize
  | .pinch => some .pinch
  | .clear => some .clear
  | .setMaxCapacity count => some (.setMaxCapacity count)
  | .byRecency => some .byRecency
  | .nodes => some .nodes
  | .size => some .size
  | .isEmpty => some .isEmpty
  | .repairs => some .repairs

theorem handle_of_aim {c : Custody K P} {o : Operation (Face K P) K P}
    {o' : Operation (Node K P) K P} (h : c.aim o = some o') {node : Node K P}
    (hnode : o'.handle? = some node) : node ∈ c.given := by
  have hown {face : Face K P} {f : Node K P → Operation (Node K P) K P}
      (hf : ∀ n, (f n).handle? = some n) (ho : (c.own? face).map f = some o') : node ∈ c.given := by
    obtain ⟨n, hn, rfl⟩ := Option.map_eq_some_iff.1 ho
    rw [hf] at hnode
    obtain rfl := Option.some.inj hnode
    exact (mem_of_own? hn).1
  cases o with
  | removeNode face => exact hown (f := .removeNode) (fun _ => rfl) h
  | touch face => exact hown (f := .touch) (fun _ => rfl) h
  | unlink face => exact hown (f := .unlink) (fun _ => rfl) h
  | _ =>
    cases h
    cases hnode

variable [DecidableEq K]

/-- The table after an operation, and the answer. -/
def ask (c : Custody K P) (o : Operation (Face K P) K P) :
    Custody K P × Option (Reply (Face K P)) :=
  match c.aim o with
  | none => (c, none)
  | some o =>
    let r := c.table.perform o
    ({ table := r.1, given := c.given ++ r.2.handles }, some (r.2.map Node.face))

/-- The same, if the list is rebuilt in the given order, should it be rebuilt. -/
def askAs (order : List (Nat × Node K P)) (c : Custody K P) (o : Operation (Face K P) K P) :
    Custody K P × Option (Reply (Face K P)) :=
  match c.aim o with
  | none => (c, none)
  | some o =>
    let r := c.table.performAs order o
    ({ table := r.1, given := c.given ++ r.2.handles }, some (r.2.map Node.face))

/-- The table whose list an operation rebuilds, if it does, with the ticks that it goes by. -/
def rebuilt? (c : Custody K P) (o : Operation (Face K P) K P) :
    Option (Table K P × (P → Nat)) :=
  (c.aim o).bind c.table.rebuilt?

theorem askAs_ownOrder (c : Custody K P) (o : Operation (Face K P) K P) :
    c.askAs (ownOrder (c.rebuilt? o)) o = c.ask o := by
  unfold askAs ask rebuilt?
  cases c.aim o with
  | none => rfl
  | some o =>
    dsimp only [Option.bind_some]
    rw [performAs_ownOrder]

/-- The table after operations that were asked for in turn. -/
def after (c : Custody K P) (os : List (Operation (Face K P) K P)) : Custody K P :=
  os.foldl (fun c o => (c.ask o).1) c

/-- What the table answers to operations that are asked for in turn. -/
def answers : Custody K P → List (Operation (Face K P) K P) → List (Option (Reply (Face K P)))
  | _, [] => []
  | c, o :: os => (c.ask o).2 :: answers (c.ask o).1 os

/-- What the table may answer to them, if nodes with equal ticks are linked in any order whenever
    its list is rebuilt. -/
inductive Answers : Custody K P → List (Operation (Face K P) K P) →
    List (Option (Reply (Face K P))) → Prop
  | nil (c : Custody K P) : Answers c [] []
  | cons {c : Custody K P} {o : Operation (Face K P) K P} {os : List (Operation (Face K P) K P)}
    {rs : List (Option (Reply (Face K P)))} (order : List (Nat × Node K P))
    (hfits : Fits (c.rebuilt? o) order) (h : Answers (c.askAs order o).1 os rs) :
    Answers c (o :: os) ((c.askAs order o).2 :: rs)

/-- What the table answers is what it may answer. -/
theorem answers_answers (c : Custody K P) (os : List (Operation (Face K P) K P)) :
    c.Answers os (c.answers os) := by
  induction os generalizing c with
  | nil => exact .nil c
  | cons o os ih =>
    have hcons := Answers.cons (ownOrder (c.rebuilt? o)) (fits_ownOrder _)
      (ih (c.askAs (ownOrder (c.rebuilt? o)) o).1)
    rwa [askAs_ownOrder] at hcons

/-- Wherever an operation rebuilds the lists of both tables, ties are alike. -/
def RunsAlike : Custody K P → Custody K P → List (Operation (Face K P) K P) → Prop
  | _, _, [] => True
  | c, c', o :: os =>
    RebuiltAlike (c.rebuilt? o) (c'.rebuilt? o) ∧ RunsAlike (c.ask o).1 (c'.ask o).1 os

end Custody

/-! ### Agreement -/

/-- The answers to an operation are the same, but for the order in which nodes are listed by slot. -/
def Operation.Agree {N : Type} (o : Operation N K P) (r r' : Option (Reply N)) : Prop :=
  match o with
  | .nodes | .clear => ∃ ns ns', r = some (.list ns) ∧ r' = some (.list ns') ∧ ns'.Perm ns
  | _ => r' = r

/-- The answers to operations agree, one by one. -/
def AgreeAll {N : Type} :
    List (Operation N K P) → List (Option (Reply N)) → List (Option (Reply N)) → Prop
  | [], [], [] => True
  | o :: os, r :: rs, r' :: rs' => o.Agree r r' ∧ AgreeAll os rs rs'
  | _, _, _ => False

theorem Reply.handles_map {N M : Type} (f : N → M) (r : Reply N) :
    (r.map f).handles = r.handles.map f := by
  cases r with
  | found node? => cases node? <;> rfl
  | _ => rfl

/-- The nodes that an answer gives away, as they are seen. -/
def faces (r : Option (Reply (Face K P))) : List (Face K P) :=
  r.elim [] Reply.handles

theorem Operation.Agree.faces {o : Operation (Face K P) K P} {r r' : Option (Reply (Face K P))}
    (h : o.Agree r r') (f : Face K P) : f ∈ Table.faces r' ↔ f ∈ Table.faces r := by
  cases o with
  | nodes | clear =>
    obtain ⟨ns, ns', rfl, rfl, hperm⟩ := h
    exact hperm.mem_iff
  | _ =>
    obtain rfl : r' = r := h
    exact Iff.rfl

/-! ### Deciding -/

section

variable [DecidableEq K] [DecidableEq P]

instance decidableTiesAlike (ticks : P → Nat) (t u : Table K P) :
    Decidable (TiesAlike ticks t u) :=
  inferInstanceAs (Decidable (∀ a ∈ t.nodes, ∀ b ∈ t.nodes, ∀ a' ∈ u.nodes, ∀ b' ∈ u.nodes,
    a'.face = a.face → b'.face = b.face → ticks a.payload = ticks b.payload → a.slot < b.slot →
      a'.slot < b'.slot))

instance decidableRebuiltAlike :
    (r r' : Option (Table K P × (P → Nat))) → Decidable (RebuiltAlike r r')
  | some (t, ticks), some (u, _) => decidableTiesAlike ticks t u
  | none, _ => isTrue trivial
  | some _, none => isTrue trivial

instance Custody.decidableRunsAlike :
    (c c' : Custody K P) → (os : List (Operation (Face K P) K P)) → Decidable (c.RunsAlike c' os)
  | _, _, [] => isTrue trivial
  | c, c', o :: os =>
    have := decidableRunsAlike (c.ask o).1 (c'.ask o).1 os
    inferInstanceAs (Decidable (_ ∧ _))

end

/-! ## Twins in custody -/

section

variable [DecidableEq K] {c c' : Custody K P} {order order' : List (Nat × Node K P)}
  {o : Operation (Face K P) K P}

theorem Guards.askAs (h : Guards c.given c.table) (hfits : Fits (c.rebuilt? o) order) :
    Guards (c.askAs order o).1.given (c.askAs order o).1.table := by
  unfold Custody.rebuilt? at hfits
  unfold Custody.askAs
  cases haim : c.aim o with
  | none => exact h
  | some o' =>
    rw [haim] at hfits
    exact h.proceed (h.orderly.performAs_proceeds o' hfits fun node hnode =>
      (h.knows node (Custody.handle_of_aim haim hnode)).slot)

theorem Custody.given_askAs (c : Custody K P) (order : List (Nat × Node K P))
    (o : Operation (Face K P) K P) :
    (c.askAs order o).1.given.map Node.face = c.given.map Node.face ++ faces (c.askAs order o).2 := by
  unfold Custody.askAs
  split
  · exact (List.append_nil _).symm
  · show (c.given ++ _).map Node.face = _
    rw [List.map_append]
    exact congrArg _ (Reply.handles_map _ _).symm

/-- Two tables that are twins and have given away nodes with the same faces. -/
structure Paired (c c' : Custody K P) : Prop where
  twins : c.table.Twins c'.table
  left : Guards c.given c.table
  right : Guards c'.given c'.table
  faces : ∀ f, f ∈ c'.given.map Node.face ↔ f ∈ c.given.map Node.face

/-- Two handles that show the same face, each known to its table. -/
structure Counterparts (c c' : Custody K P) (n n' : Node K P) : Prop where
  face : n'.face = n.face
  left : c.table.Knows n
  right : c'.table.Knows n'

namespace Paired

omit [DecidableEq K]

theorem symm (h : Paired c c') : Paired c' c :=
  ⟨h.twins.symm, h.right, h.left, fun f => (h.faces f).symm⟩

theorem own?_some (h : Paired c c') {face : Face K P} {n : Node K P} (hn : c.own? face = some n) :
    ∃ n', c'.own? face = some n' ∧ Counterparts c c' n n' := by
  obtain ⟨hmem, hgeneration⟩ := Custody.mem_of_own? hn
  obtain ⟨n', hn', hface⟩ := List.mem_map.1 ((h.faces n.face).2 (List.mem_map_of_mem hmem))
  have hsame : n'.generation = n.generation := congrArg Face.generation hface
  refine ⟨n', ?_, hface, h.left.knows n hmem, h.right.knows n' hn'⟩
  cases hfound : c'.own? face with
  | none =>
    have hnot := List.find?_eq_none.1 hfound n' hn'
    rw [beq_iff_eq, hsame] at hnot
    exact absurd hgeneration hnot
  | some m =>
    obtain ⟨hm, hmgeneration⟩ := Custody.mem_of_own? hfound
    have heq : m.generation = n'.generation := hmgeneration.trans (hsame.trans hgeneration).symm
    rw [h.right.unique m hm n' hn' heq]

/-- A node can be named to both tables or to none. -/
theorem own?_cases (h : Paired c c') (face : Face K P) :
    (c.own? face = none ∧ c'.own? face = none) ∨
      ∃ n n', c.own? face = some n ∧ c'.own? face = some n' ∧ Counterparts c c' n n' := by
  cases hn : c.own? face with
  | some n =>
    obtain ⟨n', hn', hboth⟩ := h.own?_some hn
    exact .inr ⟨n, n', rfl, hn', hboth⟩
  | none =>
    cases hn' : c'.own? face with
    | none => exact .inl ⟨rfl, rfl⟩
    | some n' =>
      obtain ⟨n, hfound, -⟩ := h.symm.own?_some hn'
      rw [hn] at hfound
      cases hfound

variable [DecidableEq K]

/-- Both tables rebuild their lists at the same time. -/
theorem rebuilt (h : Paired c c') (o : Operation (Face K P) K P) :
    RebuiltTwins (c.rebuilt? o) (c'.rebuilt? o) := by
  have hhandle {face : Face K P} {f : Node K P → Operation (Node K P) K P}
      (hf : ∀ (t : Table K P) n, t.rebuilt? (f n) = none) :
      RebuiltTwins (((c.own? face).map f).bind c.table.rebuilt?)
        (((c'.own? face).map f).bind c'.table.rebuilt?) := by
    have hnone (c : Custody K P) : ((c.own? face).map f).bind c.table.rebuilt? = none := by
      cases c.own? face with
      | none => rfl
      | some n => exact hf _ n
    rw [hnone, hnone]
    exact .none
  cases o with
  | getOrInsert key payload lastUse p => exact h.twins.insertRebuilt lastUse p key
  | trim count lastUse p => exact h.twins.trimRebuilt lastUse p count
  | sweep lastUse p => exact h.twins.sweepRebuilt lastUse p
  | relink lastUse => exact .some lastUse h.twins
  | removeNode face => exact hhandle (f := .removeNode) fun _ _ => rfl
  | touch face => exact hhandle (f := .touch) fun _ _ => rfl
  | unlink face => exact hhandle (f := .unlink) fun _ _ => rfl
  | _ => exact .none

/-- An operation on handles of the same face. -/
theorem step_handle (h : Paired c c') (order order' : List (Nat × Node K P))
    {face : Face K P} {f : Node K P → Operation (Node K P) K P}
    (haim : ∀ c : Custody K P, c.aim o = (c.own? face).map f)
    (hstep : ∀ n n', Counterparts c c' n n' →
      (c.table.performAs order (f n)).1.Twins (c'.table.performAs order' (f n')).1 ∧
        (c'.table.performAs order' (f n')).2.map Node.face =
          (c.table.performAs order (f n)).2.map Node.face) :
    (c.askAs order o).1.table.Twins (c'.askAs order' o).1.table ∧
      (c'.askAs order' o).2 = (c.askAs order o).2 := by
  unfold Custody.askAs
  rw [haim, haim]
  rcases h.own?_cases face with ⟨hnone, hnone'⟩ | ⟨n, n', hn, hn', hboth⟩
  · rw [hnone, hnone']
    exact ⟨h.twins, rfl⟩
  · rw [hn, hn']
    exact ⟨(hstep n n' hboth).1, congrArg some (hstep n n' hboth).2⟩

/-- One operation leads from twins to twins, and gets answers that agree, if the lists are rebuilt
    in the same order; the answer of an operation that does not go on along its list does not
    depend on that. -/
theorem step (h : Paired c c') (o : Operation (Face K P) K P) :
    (Coupled (c.rebuilt? o) (c'.rebuilt? o) order order' →
        (c.askAs order o).1.table.Twins (c'.askAs order' o).1.table) ∧
      ((o.resumes = true → Coupled (c.rebuilt? o) (c'.rebuilt? o) order order') →
        o.Agree (c.askAs order o).2 (c'.askAs order' o).2) := by
  have ht := h.twins
  have hfound {r r' : Option (Node K P)} (heq : r'.map Node.face = r.map Node.face) :
      some ((Reply.found r').map Node.face) = some ((Reply.found r).map Node.face) :=
    congrArg (some ∘ Reply.found) heq
  cases o with
  | getOrInsert key payload lastUse p =>
    exact ⟨fun hc => (ht.getOrInsertAs lastUse p key payload hc).1,
      fun hc => congrArg some (ht.getOrInsertAs lastUse p key payload (hc rfl)).2⟩
  | get? key => exact ⟨fun _ => ht, fun _ => hfound (ht.get?_eq key)⟩
  -- Both tables store the key or neither does, and what they store shows the same face.
  | remove key =>
    show (_ → (c.table.remove key).1.Twins (c'.table.remove key).1) ∧
      (_ → some ((Reply.found (c'.table.remove key).2).map Node.face) =
        some ((Reply.found (c.table.remove key).2).map Node.face))
    unfold Table.remove
    cases hn : c.table.get? key with
    | none =>
      rw [ht.get?_none hn]
      exact ⟨fun _ => ht, fun _ => rfl⟩
    | some n =>
      obtain ⟨n', hn', hface⟩ := ht.get?_some hn
      have hk : c.table.Knows n :=
        Sound.knows ht.left.sound ((Sound.get?_eq_some_iff ht.left.sound).1 hn).1
      have hk' : c'.table.Knows n' :=
        Sound.knows ht.right.sound ((Sound.get?_eq_some_iff ht.right.sound).1 hn').1
      rw [hn']
      exact ⟨fun _ => (ht.removeNode hk hk' hface).1, fun _ => hfound (congrArg some hface)⟩
  | removeNode face =>
    obtain ⟨htwins, hreply⟩ := h.step_handle order order'
      (o := .removeNode face) (f := .removeNode) (fun _ => rfl) fun n n' hboth => by
        obtain ⟨htwins, hsame⟩ := ht.removeNode hboth.left hboth.right hboth.face
        exact ⟨htwins, congrArg Reply.truth hsame⟩
    exact ⟨fun _ => htwins, fun _ => hreply⟩
  | touch face =>
    obtain ⟨htwins, hreply⟩ := h.step_handle order order'
      (o := .touch face) (f := .touch) (fun _ => rfl) fun n n' hboth =>
        ⟨ht.touch hboth.left hboth.right hboth.face,
          congrArg Reply.truth (ht.isLinked_eq hboth.left hboth.right hboth.face)⟩
    exact ⟨fun _ => htwins, fun _ => hreply⟩
  | unlink face =>
    obtain ⟨htwins, hreply⟩ := h.step_handle order order'
      (o := .unlink face) (f := .unlink) (fun _ => rfl) fun n n' hboth =>
        ⟨ht.unlink hboth.left hboth.right hboth.face,
          congrArg Reply.truth (ht.isLinked_eq hboth.left hboth.right hboth.face)⟩
    exact ⟨fun _ => htwins, fun _ => hreply⟩
  -- These go on along lists that may have been rebuilt, so the answers need the same order.
  | trim count lastUse p =>
    exact ⟨fun hc => (ht.trimAs lastUse p count hc).1,
      fun hc => congrArg some (ht.trimAs lastUse p count (hc rfl)).2.reply⟩
  | sweep lastUse p =>
    exact ⟨ht.sweepAs lastUse p, fun _ => congrArg some (ht.sweepAs_alike p order order').reply⟩
  -- A rebuild asks nothing, so only the tables need the same order.
  | relink lastUse =>
    have hcount : c'.table.nodes.length = c.table.nodes.length := by
      rw [ht.left.length_nodes, ht.right.length_nodes, ht.size]
    refine ⟨fun hc => ?_, fun _ => congrArg (some ∘ Reply.count) hcount⟩
    exact ht.relinkAs (hc.left _ lastUse rfl) (hc.right _ lastUse rfl) (hc.faces rfl)
  | resize => exact ⟨fun _ => ht.resize, fun _ => rfl⟩
  | pinch => exact ⟨fun _ => ht.pinch, fun _ => rfl⟩
  | clear => exact ⟨fun _ => ht.clear, fun _ => ⟨_, _, rfl, rfl, ht.nodes⟩⟩
  | setMaxCapacity count => exact ⟨fun _ => ht.setMaxCapacity count, fun _ => rfl⟩
  | byRecency => exact ⟨fun _ => ht, fun _ => congrArg (some ∘ Reply.list) ht.byRecency⟩
  | nodes => exact ⟨fun _ => ht, fun _ => ⟨_, _, rfl, rfl, ht.nodes⟩⟩
  | size => exact ⟨fun _ => ht, fun _ => congrArg (some ∘ Reply.count) ht.size⟩
  | isEmpty =>
    exact ⟨fun _ => ht, fun _ => congrArg (fun n => some (Reply.truth (n == 0))) ht.size⟩
  | repairs => exact ⟨fun _ => ht, fun _ => congrArg (some ∘ Reply.count) ht.repairs⟩

/-- In the same order, one operation leads from a pair to a pair. -/
theorem askAs (h : Paired c c') (hc : Coupled (c.rebuilt? o) (c'.rebuilt? o) order order') :
    Paired (c.askAs order o).1 (c'.askAs order' o).1 where
  twins := (h.step o).1 hc
  left := h.left.askAs hc.left
  right := h.right.askAs hc.right
  faces := by
    intro f
    have hagree := (h.step o).2 fun _ => hc
    rw [c.given_askAs, c'.given_askAs, List.mem_append, List.mem_append]
    exact or_congr (h.faces f) (hagree.faces f)

/-! ## Answers -/

/-- Where ties are alike, or do not matter, the answers to an operation agree. -/
theorem agree (h : Paired c c') (o : Operation (Face K P) K P)
    (hties : o.resumes = true → RebuiltAlike (c.rebuilt? o) (c'.rebuilt? o)) :
    o.Agree (c.ask o).2 (c'.ask o).2 := by
  rw [← c.askAs_ownOrder, ← c'.askAs_ownOrder]
  exact (h.step o).2 fun hresumes => (h.rebuilt o).coupled (hties hresumes)

theorem ask (h : Paired c c') (hties : RebuiltAlike (c.rebuilt? o) (c'.rebuilt? o)) :
    Paired (c.ask o).1 (c'.ask o).1 := by
  rw [← c.askAs_ownOrder, ← c'.askAs_ownOrder]
  exact h.askAs ((h.rebuilt o).coupled hties)

theorem after (h : Paired c c') {os : List (Operation (Face K P) K P)}
    (hruns : c.RunsAlike c' os) : Paired (c.after os) (c'.after os) := by
  induction os generalizing c c' with
  | nil => exact h
  | cons o os ih => exact ih (h.ask hruns.1) hruns.2

/-- What a twin answers is, but for the order of slots, what the table itself may answer. -/
theorem exists_answers (h : Paired c c') (os : List (Operation (Face K P) K P)) :
    ∃ rs, c.Answers os rs ∧ AgreeAll os rs (c'.answers os) := by
  induction os generalizing c c' with
  | nil => exact ⟨[], .nil c, trivial⟩
  | cons o os ih =>
    -- The table is taken to rebuild its list in the order in which the twin does.
    obtain ⟨order, hc⟩ := (h.rebuilt o).exists_coupled (fits_ownOrder (c'.rebuilt? o))
    have hagree := (h.step o).2 fun _ => hc
    have hnext := h.askAs hc
    rw [c'.askAs_ownOrder] at hagree hnext
    obtain ⟨rs, hrs, hall⟩ := ih hnext
    exact ⟨_, .cons order hc.left hrs, hagree, hall⟩

end Paired

end

end ReadThrough.Table
