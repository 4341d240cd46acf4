import ReadThrough.Proofs.Table.Trims

/-! # What a Predicate Is Asked

  A sweep asks about one node after the other. As long as all nodes are linked, it is no more than a
  fold over the recency list from its least recently used end on.

  - **Predicate.poll**: one step of the fold, which asks about a node unless the walk is over.
  - **Predicate.evictions**, **panic?**: what the answers to a list of questions amount to.
  - **tour_polls**: a tour asks what the fold asks, and removes what it was told to.
  - **Predicate.stopping**: the predicate that stops where another one panics.
  - **sweep_folds**: sweeps and trims of tables all of whose nodes are linked.
-/

namespace ReadThrough.Table

open Buckets RecencyList

variable {K P : Type} {t : Table K P} {node : Node K P} {p : Predicate (Node K P)}
  {quota : Option Nat} {asked ahead : List (Node K P)}

/-! ## Questions and answers

  The nodes that a predicate was asked about are listed as it remembers them, the latest one
  first. -/

namespace Predicate

variable (p : Predicate (Node K P)) (quota : Option Nat)

/-- The nodes that were to be evicted, in the order of the questions. -/
def evictions : List (Node K P) → List (Node K P)
  | [] => []
  | node :: before =>
    match p before node with
    | .evict => evictions before ++ [node]
    | _ => evictions before

/-- The reason of a panic at the last question. -/
def panic? : List (Node K P) → Option String
  | [] => none
  | node :: before =>
    match p before node with
    | .panic reason => some reason
    | _ => none

/-- No further question comes after these: the predicate has stopped or panicked, or as many nodes
    were to be evicted as may be. -/
def IsOver (asked : List (Node K P)) : Prop :=
  ¬ p.Continues asked ∨ quota = some (p.evictions asked).length

instance (asked : List (Node K P)) : Decidable (p.IsOver quota asked) :=
  inferInstanceAs (Decidable (_ ∨ _))

/-- Asks about one more node, unless that is over. -/
def poll (asked : List (Node K P)) (node : Node K P) : List (Node K P) :=
  if p.IsOver quota asked then asked else node :: asked

/-- The predicate that stops where this one panics. -/
def stopping : Predicate (Node K P) :=
  fun asked node =>
    match p asked node with
    | .panic _ => .stop
    | verdict => verdict

end Predicate

theorem Predicate.Continues.panic_eq (h : p.Continues asked) : p.panic? asked = none := by
  cases h with
  | nil => rfl
  | cons hgoes hbefore =>
    rcases hgoes with hkeep | hevict
    · simp [panic?, hkeep]
    · simp [panic?, hevict]

/-! ## The fold -/

theorem foldl_poll_of_over (hover : p.IsOver quota asked) :
    ahead.foldl (p.poll quota) asked = asked := by
  induction ahead with
  | nil => rfl
  | cons node ahead ih =>
    rw [List.foldl_cons, Predicate.poll, if_pos hover]
    exact ih

theorem foldl_poll_of_open {node : Node K P} (hopen : ¬ p.IsOver quota asked) :
    (node :: ahead).foldl (p.poll quota) asked = ahead.foldl (p.poll quota) (node :: asked) := by
  rw [List.foldl_cons, Predicate.poll, if_neg hopen]

/-- The nodes are asked about in a row, and only the last one ends that early. -/
theorem exists_take_of_foldl_poll (p : Predicate (Node K P)) (quota : Option Nat)
    (ahead asked : List (Node K P)) :
    ∃ count, ahead.foldl (p.poll quota) asked = (ahead.take count).reverse ++ asked ∧
      (count < ahead.length → p.IsOver quota (ahead.foldl (p.poll quota) asked)) := by
  induction ahead generalizing asked with
  | nil => exact ⟨0, rfl, fun hlt => absurd hlt (Nat.lt_irrefl 0)⟩
  | cons node ahead ih =>
    by_cases hover : p.IsOver quota asked
    · rw [foldl_poll_of_over hover]
      exact ⟨0, rfl, fun _ => hover⟩
    · obtain ⟨count, heq, hearly⟩ := ih (node :: asked)
      rw [foldl_poll_of_open hover]
      refine ⟨count + 1, ?_, ?_⟩
      · rw [heq]
        simp
      · intro hlt
        exact hearly (Nat.lt_of_succ_lt_succ hlt)

/-- No node is asked about once that is over. -/
theorem not_isOver_of_suffix {before : List (Node K P)}
    (hasked : node :: before <:+ ahead.foldl (p.poll quota) asked) :
    node :: before <:+ asked ∨ ¬ p.IsOver quota before := by
  induction ahead generalizing asked with
  | nil => exact Or.inl hasked
  | cons next ahead ih =>
    by_cases hover : p.IsOver quota asked
    · rw [foldl_poll_of_over hover] at hasked
      exact Or.inl hasked
    · rw [foldl_poll_of_open hover] at hasked
      rcases ih hasked with hsuffix | hopen
      · rcases List.suffix_cons_iff.1 hsuffix with heq | hsuffix
        · have hbefore : before = asked := (List.cons.inj heq).2
          exact Or.inr (hbefore ▸ hover)
        · exact Or.inl hsuffix
      · exact Or.inr hopen

/-! ## Tours -/

/-- A tour has asked what the fold asks, with the questions in `asked` before. It has removed what
    was to be evicted. -/
structure Polled (p : Predicate (Node K P)) (quota : Option Nat) (ahead asked : List (Node K P))
    (o : Tour K P (List (Node K P))) : Prop where
  memory : o.memory = ahead.foldl (p.poll quota) asked
  evictions : p.evictions o.memory = p.evictions asked ++ o.removed
  /-- The predicate has not ended a tour that has come to the end of the list. -/
  goes : o.ending = .atFront → p.Continues o.memory
  panic : o.ending.panic? = p.panic? o.memory

/-- A tour that is over asks no more. -/
theorem polled_of_over {ending : Ending} (hover : p.IsOver quota asked)
    (hearly : ending ≠ .atFront) (hpanic : ending.panic? = p.panic? asked) :
    Polled p quota ahead asked
      { left := ahead, removed := [], memory := asked, ending } where
  memory := (foldl_poll_of_over hover).symm
  evictions := (List.append_nil _).symm
  goes := fun hfront => absurd hfront hearly
  panic := hpanic

/-- A question that ends a tour is its last one: the node stays, and nobody else is polled. -/
theorem polled_of_last {node : Node K P} {ending : Ending} (hopen : ¬ p.IsOver quota asked)
    (hends : ¬ p.Continues (node :: asked))
    (hsame : p.evictions (node :: asked) = p.evictions asked) (hearly : ending ≠ .atFront)
    (hpanic : ending.panic? = p.panic? (node :: asked)) :
    Polled p quota (node :: ahead) asked
      { left := node :: ahead, removed := [], memory := node :: asked, ending } where
  memory := by
    rw [foldl_poll_of_open hopen]
    exact (foldl_poll_of_over (.inl hends)).symm
  evictions := hsame.trans (List.append_nil _).symm
  goes := fun hfront => absurd hfront hearly
  panic := hpanic

/-- What may still be evicted after some questions is what may be evicted in all, without what was
    evicted before. -/
theorem tour_polls (ahead : List (Node K P)) (hgoes : p.Continues asked)
    (hroom : ∀ count ∈ quota, (p.evictions asked).length ≤ count) :
    Polled p quota ahead asked
      (p.judge.tour ahead (quota.map (· - (p.evictions asked).length)) asked) := by
  induction ahead generalizing asked with
  | nil => exact ⟨rfl, (List.append_nil _).symm, fun _ => hgoes, hgoes.panic_eq.symm⟩
  | cons node ahead ih =>
    rw [Judge.tour]
    -- The walk is over before the question if nothing more may be evicted.
    by_cases hquota : quota = some (p.evictions asked).length
    · have hnone : quota.map (· - (p.evictions asked).length) = some 0 := by simp [hquota]
      rw [if_pos hnone]
      exact polled_of_over (.inr hquota) (by simp) hgoes.panic_eq.symm
    have hleft : quota.map (· - (p.evictions asked).length) ≠ some 0 := by
      intro hnone
      obtain ⟨count, hcount, hzero⟩ := Option.map_eq_some_iff.1 hnone
      have hle := hroom count hcount
      exact hquota (by rw [hcount]; congr 1; omega)
    -- Otherwise the node is asked about, and the predicate is polled about it as well.
    have hopen : ¬ p.IsOver quota asked := fun hover =>
      hover.elim (fun hends => hends hgoes) hquota
    have hpoll : (node :: ahead).foldl (p.poll quota) asked =
        ahead.foldl (p.poll quota) (node :: asked) := foldl_poll_of_open hopen
    have hjudge : p.judge node asked = (p asked node, node :: asked) := rfl
    rw [if_neg hleft, hjudge]
    cases hverdict : p asked node with
    -- The node stays, and the walk goes on with as many evictions to go.
    | keep =>
      have hsame : p.evictions (node :: asked) = p.evictions asked := by
        simp [Predicate.evictions, hverdict]
      have hrest := ih (.cons (.inl hverdict) hgoes) (hsame ▸ hroom)
      rw [hsame] at hrest
      refine ⟨hrest.memory.trans hpoll.symm, hrest.evictions.trans ?_, hrest.goes, hrest.panic⟩
      rw [hsame]
      rfl
    -- The node goes; it is one of the evictions now, which leaves one less to go.
    | evict =>
      have hmore : p.evictions (node :: asked) = p.evictions asked ++ [node] := by
        simp [Predicate.evictions, hverdict]
      have hquotas : (quota.map (· - (p.evictions asked).length)).map (· - 1) =
          quota.map (· - (p.evictions (node :: asked)).length) := by
        rw [Option.map_map, hmore, List.length_append, List.length_singleton]
        rfl
      have hroom' : ∀ count ∈ quota, (p.evictions (node :: asked)).length ≤ count := by
        intro count hcount
        have hle := hroom count hcount
        have hne : count ≠ (p.evictions asked).length := fun heq => hquota (heq ▸ hcount)
        rw [hmore, List.length_append, List.length_singleton]
        omega
      have hrest := ih (.cons (.inr hverdict) hgoes) hroom'
      dsimp only
      rw [hquotas]
      refine ⟨hrest.memory.trans hpoll.symm, hrest.evictions.trans ?_, hrest.goes, hrest.panic⟩
      rw [hmore, List.append_assoc]
      rfl
    -- The walk ends with this question; a panic is the one of the last question.
    | stop =>
      exact polled_of_last hopen (by simp [p.continues_cons, hverdict])
        (by simp [Predicate.evictions, hverdict]) (by simp)
        (by simp [Predicate.panic?, hverdict, Ending.panic?])
    | panic reason =>
      exact polled_of_last hopen (by simp [p.continues_cons, hverdict])
        (by simp [Predicate.evictions, hverdict]) (by simp)
        (by simp [Predicate.panic?, hverdict, Ending.panic?])

/-! ## Panics -/

theorem Predicate.judge_stopping (p : Predicate (Node K P)) (node : Node K P)
    (asked : List (Node K P)) :
    p.stopping.judge node asked =
      match p.judge node asked with
      | (.panic _, asked) => (.stop, asked)
      | answer => answer := by
  unfold judge stopping
  cases p asked node <;> rfl

/-- A panic leaves everything as if the walk had been stopped. -/
theorem Walk.run_stopping (p : Predicate (Node K P)) (fuel : Nat) (current? : Option Nat)
    (asked : List (Node K P)) (w : Walk K P) :
    let o := Walk.run p.judge fuel current? asked w
    let o' := Walk.run p.stopping.judge fuel current? asked w
    o'.1.buckets = o.1.buckets ∧ o'.1.recency = o.1.recency := by
  induction fuel generalizing current? asked w with
  | zero =>
    -- Without fuel, nobody is asked.
    intro o o'
    have hsame : o' = o := by
      show Walk.run _ 0 _ _ _ = Walk.run _ 0 _ _ _
      unfold Walk.run
      rfl
    rw [hsame]
    exact ⟨rfl, rfl⟩
  | succ fuel ih =>
    dsimp only
    unfold Walk.run
    by_cases hfront : current? = some front
    · rw [if_pos hfront, if_pos hfront]
      exact ⟨rfl, rfl⟩
    rw [if_neg hfront, if_neg hfront]
    by_cases hquota : w.quota = some 0
    · rw [if_pos hquota, if_pos hquota]
      exact ⟨rfl, rfl⟩
    rw [if_neg hquota, if_neg hquota]
    cases current? with
    | none => exact ⟨rfl, rfl⟩
    | some slot =>
      dsimp only
      cases w.buckets.node? slot with
      | none => exact ih _ asked w.dangle
      | some node =>
        dsimp only
        by_cases hlinked : w.recency.isLinked slot node.generation = true
        · rw [if_pos hlinked, if_pos hlinked, p.judge_stopping]
          obtain ⟨verdict, asked'⟩ := p.judge node asked
          cases verdict with
          | keep => exact ih _ asked' w.pass
          | evict => exact ih _ asked' (w.evict node)
          | stop => exact ⟨rfl, rfl⟩
          | panic reason => exact ⟨rfl, rfl⟩
        · rw [if_neg hlinked, if_neg hlinked]
          exact ih _ asked w.dangle

theorem walk_stopping (p : Predicate (Node K P)) (quota : Option Nat) (asked : List (Node K P))
    (t : Table K P) :
    (t.walk p.stopping.judge quota asked).table = (t.walk p.judge quota asked).table := by
  obtain ⟨hbuckets, hrecency⟩ := Walk.run_stopping p t.recency.links.size
    (t.recency.prev back) asked { buckets := t.buckets, recency := t.recency, quota }
  unfold walk
  dsimp only
  rw [hbuckets, hrecency]

/-! ## What is left -/

/-- The nodes of a list but for those that have gone. No two nodes of a table share a
    generation. -/
def without (gone ns : List (Node K P)) : List (Node K P) :=
  ns.filter fun n => n.generation ∉ gone.map Node.generation

theorem without_nil (ns : List (Node K P)) : without [] ns = ns := by
  simp [without]

/-- The nodes that a tour leaves are those that it does not remove, in the same order. -/
theorem Judge.tour_left_eq {σ : Type} (judge : Judge K P σ) (quota : Option Nat) (m : σ)
    (hnodup : (ahead.map Node.generation).Nodup) :
    (judge.tour ahead quota m).left = without (judge.tour ahead quota m).removed ahead := by
  let o := judge.tour ahead quota m
  let stays (n : Node K P) : Bool := n.generation ∉ o.removed.map Node.generation
  have hperm : (o.removed ++ o.left).Perm ahead := judge.tour_perm ahead quota m
  have hgenerations : (o.removed.map Node.generation ++ o.left.map Node.generation).Nodup := by
    rw [← List.map_append]
    exact (hperm.map Node.generation).nodup_iff.2 hnodup
  -- Generations tell the nodes apart, so what is left is the part that filtering keeps.
  have hdisjoint := List.disjoint_of_nodup_append hgenerations
  have hleft : o.left.filter stays = o.left := by
    apply List.filter_eq_self.2
    intro n hn
    simp only [stays, decide_eq_true_eq]
    intro hgone
    exact hdisjoint hgone (List.mem_map_of_mem hn)
  have hremoved : o.removed.filter stays = [] := by
    apply List.filter_eq_nil_iff.2
    intro n hn
    simp only [stays, decide_eq_true_eq, not_not]
    exact List.mem_map_of_mem hn
  have hsub : o.left.Sublist (ahead.filter stays) := by
    rw [← hleft]
    exact (judge.tour_left ahead quota m).filter stays
  apply hsub.eq_of_length
  rw [← (hperm.filter stays).length_eq, List.filter_append, hremoved, hleft, List.nil_append]

theorem Orderly.generations_nodup (h : t.Orderly) : (t.byRecency.map Node.generation).Nodup := by
  apply h.linking.nodup.map_on
  intro n hn n' hn' heq
  exact h.sound.eq_of_generation (h.linking.mem_nodes hn) (h.linking.mem_nodes hn') heq

/-- A walk leaves the linked nodes that it does not remove in their order. -/
theorem Orderly.walk_byRecency {σ : Type} (h : t.Orderly) (judge : Judge K P σ)
    (quota : Option Nat) (m : σ) : (t.walk judge quota m).table.byRecency =
      without (t.walk judge quota m).removed t.byRecency := by
  have hwalk := h.walk judge quota m
  have hnodup : (t.byRecency.reverse.map Node.generation).Nodup := by
    rw [List.map_reverse, List.nodup_reverse]
    exact h.generations_nodup
  have hleft := judge.tour_left_eq quota m hnodup
  rw [hwalk.byRecency_eq, hleft, hwalk.removed]
  unfold without
  rw [← List.filter_reverse, List.reverse_reverse]

/-! ## Sweeps and trims -/

/-- A sweep or a trim of the table `t`, all of whose nodes are linked, is a fold over its nodes from
    the least recently used one on. -/
structure Folded (p : Predicate (Node K P)) (quota : Option Nat) (t : Table K P)
    (r : Answer K P (Removal K P (List (Node K P)))) : Prop where
  asked : r.value.memory = t.byRecency.reverse.foldl (p.poll quota) []
  /-- No node is left out, and none is asked about twice. -/
  inARow : r.value.memory.reverse <+: t.byRecency.reverse
  once : r.value.memory.Nodup
  /-- The predicate is asked until it is over, or until the most recently used end. -/
  ended : r.value.memory.length < t.size → p.IsOver quota r.value.memory
  noFurther : ∀ node before, node :: before <:+ r.value.memory → ¬ p.IsOver quota before
  removed : r.value.removed = p.evictions r.value.memory
  byRecency : r.table.byRecency = without r.value.removed t.byRecency
  nodes : ∀ n, n ∈ r.table.nodes ↔ n ∈ t.nodes ∧ n ∉ r.value.removed
  linked : r.table.AllLinked
  repairs : r.table.repairs = t.repairs
  events : r.events = []
  panic : r.value.panic? = p.panic? r.value.memory

/-- A walk that may remove any number of nodes, or so many, is the fold. -/
theorem Orderly.folded (h : t.Orderly) (hall : t.AllLinked) (p : Predicate (Node K P))
    (quota : Option Nat) :
    let s := t.walk p.judge quota []
    Folded p quota t
      { table := s.table
        value := { memory := s.memory, removed := s.removed, panic? := s.panic? } } := by
  have hcomplete : t.Complete := h.allLinked_iff_complete.1 hall
  -- The list is complete, so the walk is the tour over its nodes; the tour is the fold.
  have hwalk := hcomplete.walk p.judge quota []
  have hpolled : Polled p quota t.byRecency.reverse []
      (p.judge.tour t.byRecency.reverse quota []) := by
    have hwhole : quota.map (· - (p.evictions []).length) = quota := by cases quota <;> rfl
    have htour := tour_polls t.byRecency.reverse (.nil : p.Continues [])
      (fun count (_ : count ∈ quota) => Nat.zero_le count)
    rwa [hwhole] at htour
  -- The fold asks about an initial part of the nodes, all of them unless it is over before.
  obtain ⟨count, htake, hearly⟩ := exists_take_of_foldl_poll p quota t.byRecency.reverse []
  have hasked := hwalk.memory.trans hpolled.memory
  rw [← hasked, List.append_nil] at htake
  rw [← hasked] at hearly
  have hreverse : (t.walk p.judge quota []).memory.reverse = t.byRecency.reverse.take count := by
    rw [htake, List.reverse_reverse]
  have hlength : t.byRecency.reverse.length = t.size := by
    rw [List.length_reverse]
    exact h.allLinked_iff_length.1 hall
  exact {
    asked := hasked
    inARow := hreverse ▸ List.take_prefix _ _
    once := by
      have hnodup := (List.nodup_reverse.2 h.linking.nodup).sublist (List.take_sublist count _)
      rw [← hreverse] at hnodup
      exact List.nodup_reverse.1 hnodup
    ended := by
      intro hshort
      apply hearly
      dsimp only at hshort
      rw [← List.length_reverse, hreverse, List.length_take] at hshort
      omega
    noFurther := by
      intro node before hsuffix
      dsimp only at hsuffix
      rw [hasked] at hsuffix
      rcases not_isOver_of_suffix hsuffix with hnil | hopen
      · exact absurd (List.suffix_nil.1 hnil) (List.cons_ne_nil _ _)
      · exact hopen
    removed := by
      have hevictions := hpolled.evictions
      rw [← hwalk.memory, ← hwalk.removed] at hevictions
      exact hevictions.symm
    byRecency := h.walk_byRecency p.judge quota []
    nodes := by
      intro n
      rw [hwalk.removed]
      exact (h.walk p.judge quota []).nodes n
    linked := (h.walk_allLinked_iff p.judge quota []).2 hall
    repairs := rfl
    events := rfl
    panic := by
      have hpanic := hpolled.panic
      rw [← hwalk.memory, ← hwalk.panic] at hpanic
      exact hpanic }

/-- A sweep of a table all of whose nodes are linked asks about one node after the other, from the
    least recently used one on, until the predicate stops or panics or the nodes are used up; a trim
    also ends when as many nodes have been evicted as may be. What was to be evicted is removed, in
    the order of the questions, the rest stays in its order, and the list is not rebuilt. A panic
    leaves the table as if the predicate had stopped instead. -/
theorem sweep_folds [DecidableEq K] (h : t.Reachable) (hall : t.AllLinked)
    (lastUse : List (Node K P) → P → Nat) (p : Predicate (Node K P)) :
    let sweep (p : Predicate (Node K P)) := t.sweep lastUse p.judge []
    let trim (p : Predicate (Node K P)) (count : Nat) := t.trim lastUse p.judge count []
    (Folded p none t (sweep p) ∧ (sweep p).table = (sweep p.stopping).table) ∧
      ∀ count, Folded p (some count) t (trim p count) ∧
        (trim p count).table = (trim p.stopping count).table := by
  intro sweep trim
  have hcomplete : t.Complete := h.orderly.allLinked_iff_complete.1 hall
  -- With all nodes linked, sweep and trim come to one walk and no rebuilding.
  have hsweep (p : Predicate (Node K P)) := hcomplete.sweep_eq lastUse p.judge []
  have htrim (p : Predicate (Node K P)) (count : Nat) := hcomplete.trim_eq lastUse p.judge count []
  refine ⟨⟨?_, ?_⟩, fun count => ⟨?_, ?_⟩⟩
  · show Folded p none t (t.sweep lastUse p.judge [])
    rw [hsweep]
    exact h.orderly.folded hall p none
  · show (t.sweep lastUse p.judge []).table = (t.sweep lastUse p.stopping.judge []).table
    rw [hsweep, hsweep]
    exact (walk_stopping p none [] t).symm
  · show Folded p (some count) t (t.trim lastUse p.judge count [])
    rw [htrim]
    exact h.orderly.folded hall p (some count)
  · show (t.trim lastUse p.judge count []).table = (t.trim lastUse p.stopping.judge count []).table
    rw [htrim, htrim]
    exact (walk_stopping p (some count) [] t).symm

/-- A predicate that evicts odd keys and panics at the fourth question. A sweep of five nodes has
    removed two of them by then; a trim that may remove no more than two never gets there. -/
theorem sweep_folds_panicked :
    let insert (key : Nat) : Operation (Node Nat Nat) Nat Nat :=
      .getOrInsert key (.ok key) (fun _ used => used) fun _ _ => .keep
    let node (key : Nat) : Node Nat Nat :=
      { hash := key.toUInt64, slot := key + 1, generation := key, key, payload := key }
    let t : Table Nat Nat :=
      (((((Table.empty 0 9 .standard Nat.toUInt64).perform (insert 1)).1.perform (insert 2)).1.perform
        (insert 3)).1.perform (insert 4)).1.perform (insert 5) |>.1
    let p : Predicate (Node Nat Nat) := fun asked n =>
      if asked.length = 3 then .panic "tired" else if n.key % 2 = 1 then .evict else .keep
    let r := t.sweep (fun _ used => used) p.judge []
    let s := t.trim (fun _ used => used) p.judge 2 []
    t.Reachable ∧ t.AllLinked ∧ Folded p none t r ∧ Folded p (some 2) t s ∧
      r.value.removed = [node 1, node 3] ∧ r.value.panic? = some "tired" ∧
      r.table.byRecency = [node 5, node 4, node 2] ∧
      s.value.memory = [node 3, node 2, node 1] ∧ s.value.panic? = none := by
  intro insert node t p r s
  have ht : t.Reachable :=
    .perform _ (.perform _ (.perform _ (.perform _ (.perform _ (.empty 0 9 .standard _) rfl) rfl)
      rfl) rfl) rfl
  have hall : t.AllLinked := by
    show ∀ n ∈ t.nodes, t.isLinked n = true
    decide +kernel
  obtain ⟨⟨hsweep, -⟩, htrim⟩ := sweep_folds ht hall (fun _ used => used) p
  exact ⟨ht, hall, hsweep, (htrim 2).1, by decide +kernel, by decide +kernel, by decide +kernel,
    by decide +kernel, by decide +kernel⟩

end ReadThrough.Table
