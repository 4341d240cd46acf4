import ReadThrough.Table.Sweep

/-! # What Walks Keep

  Whatever the judge keeps from one node to the next, a walk keeps as a whole, and so does every
  operation that walks.

  - **Judge.Keeps**: a property of the nodes of a table and the memory of a judge that every
    verdict preserves.
  - **Judge.Steady**: a judge that never panics, and neither does what it is asked for.
  - **sweep_keeps**, **trim_keeps**: the operations that remove nodes.
  - **Entered**: what becomes of a table and of the memory when a key is looked up or inserted.
-/

namespace ReadThrough.Table

variable {K P σ : Type}

/-- Every verdict of the judge preserves a property of the buckets and the memory. -/
structure Judge.Keeps (judge : Judge K P σ) (I : Buckets K P → σ → Prop) : Prop where
  spare : ∀ (b : Buckets K P) (m m' : σ) (node : Node K P) (verdict : Verdict),
    judge node m = (verdict, m') → verdict ≠ .evict → I b m → I b m'
  evict : ∀ (b : Buckets K P) (m m' : σ) (slot : Nat) (node : Node K P),
    b.node? slot = some node → judge node m = (.evict, m') → I b m → I (b.removeNode node).1 m'

variable {judge : Judge K P σ} {I J : Buckets K P → σ → Prop}

theorem Judge.Keeps.and (hI : judge.Keeps I) (hJ : judge.Keeps J) :
    judge.Keeps fun b m => I b m ∧ J b m where
  spare := fun b m m' node verdict hjudge hne h =>
    ⟨hI.spare b m m' node verdict hjudge hne h.1, hJ.spare b m m' node verdict hjudge hne h.2⟩
  evict := fun b m m' slot node hnode hjudge h =>
    ⟨hI.evict b m m' slot node hnode hjudge h.1, hJ.evict b m m' slot node hnode hjudge h.2⟩

theorem Walk.run_keeps (hj : judge.Keeps I) (fuel : Nat) (current? : Option Nat) (m : σ)
    (w : Walk K P) (h : I w.buckets m) :
    I (Walk.run judge fuel current? m w).1.buckets (Walk.run judge fuel current? m w).2.1 := by
  -- The cases are those of the walk: it is over, or it meets a slot and asks the judge.
  fun_induction Walk.run judge fuel current? m w with
  | case1 => exact h
  | case2 => exact h
  | case3 => exact h
  | case4 => exact h
  | case5 m w hquota fuel slot before? hnone hfront ih => exact ih h
  | case6 m w hquota fuel slot before? node hnode hlinked m' hkeep hfront ih =>
    exact ih (hj.spare _ m m' node _ hkeep (by simp) h)
  | case7 m w hquota fuel slot before? node hnode hlinked m' hevict hfront ih =>
    exact ih (hj.evict _ m m' slot node hnode hevict h)
  | case8 m w hquota fuel slot node hnode hlinked m' hstop hfront =>
    exact hj.spare _ m m' node _ hstop (by simp) h
  | case9 m w hquota fuel slot node hnode hlinked reason m' hpanic hfront =>
    exact hj.spare _ m m' node _ hpanic (by simp) h
  | case10 m w hquota fuel slot before? node hnode hlinked hfront ih => exact ih h

/-- The judge never panics. -/
def Judge.Steady (judge : Judge K P σ) : Prop :=
  ∀ (node : Node K P) (m m' : σ) (reason : String), judge node m ≠ (.panic reason, m')

theorem Walk.run_steady (hj : judge.Steady) (fuel : Nat) (current? : Option Nat) (m : σ)
    (w : Walk K P) : (Walk.run judge fuel current? m w).2.2.panic? = none := by
  fun_induction Walk.run judge fuel current? m w with
  | case9 m w hquota fuel slot node hnode hlinked reason m' hpanic hfront =>
    exact absurd hpanic (hj node m m' reason)
  | _ => first | rfl | assumption

section

variable {t : Table K P} {m : σ} (lastUse : σ → P → Nat)

theorem walk_keeps (hj : judge.Keeps I) (quota : Option Nat) (h : I t.buckets m) :
    I (t.walk judge quota m).table.buckets (t.walk judge quota m).memory :=
  Walk.run_keeps hj _ _ m _ h

theorem sweep_keeps (hj : judge.Keeps I) (h : I t.buckets m) :
    I (t.sweep lastUse judge m).table.buckets (t.sweep lastUse judge m).value.memory := by
  have hwalk := walk_keeps hj none h
  unfold sweep
  dsimp only
  split
  · exact hwalk
  · exact hwalk

@[simp] theorem sweep_hashOf : (t.sweep lastUse judge m).table.hashOf = t.hashOf := by
  unfold sweep
  dsimp only
  split <;> rfl

theorem trim_keeps (hj : judge.Keeps I) (count : Nat) (h : I t.buckets m) :
    I (t.trim lastUse judge count m).table.buckets
      (t.trim lastUse judge count m).value.memory := by
  unfold trim
  split
  · exact h
  unfold trimNodes
  dsimp only
  split
  · exact walk_keeps hj _ h
  · -- The walk is resumed with what the first one has left.
    have hfirst := walk_keeps hj (some count) h
    exact walk_keeps (t := ((t.walk judge (some count) m).table.relink _).table) hj _ hfirst

@[simp] theorem trim_hashOf (count : Nat) :
    (t.trim lastUse judge count m).table.hashOf = t.hashOf := by
  unfold trim
  split
  · rfl
  unfold trimNodes
  dsimp only
  split <;> rfl

theorem trim_steady (hj : judge.Steady) (count : Nat) :
    (t.trim lastUse judge count m).value.panic? = none := by
  unfold trim
  split
  · rfl
  unfold trimNodes
  dsimp only
  split
  · exact Walk.run_steady hj _ _ m _
  · exact Walk.run_steady hj _ _ _ _

/-- What becomes of the table `t` and the memory `m` when a key is looked up or inserted. -/
inductive Entered [DecidableEq K] (I : Buckets K P → σ → Prop) (key : K) (payload : P)
    (t : Table K P) (m : σ) : Answer K P (Entrance K P × σ) → Prop where
  /-- The key was there. -/
  | occupied (node : Node K P) (hget : t.get? key = some node) :
      Entered I key payload t m { table := t, value := (.occupied node key, m) }
  /-- The key was inserted when there was room for it. -/
  | vacant (room : Table K P) (m' : σ) (events : List Event) (hget : t.get? key = none)
      (hash : room.hashOf = t.hashOf) (hkeep : I room.buckets m') :
      Entered I key payload t m
        { table := (room.insertNew key payload).table
          value := (.vacant (room.insertNew key payload).value, m')
          events }
  /-- There was no room. -/
  | refused (room : Table K P) (m' : σ) (events : List Event) (capacity : Nat)
      (hget : t.get? key = none) (hash : room.hashOf = t.hashOf) (hkeep : I room.buckets m') :
      Entered I key payload t m { table := room, value := (.full capacity, m'), events }

theorem getOrInsert_entered [DecidableEq K] (hj : judge.Keeps I) (hsteady : judge.Steady)
    (key : K) (payload : P) (h : I t.buckets m) :
    Entered I key payload t m (t.getOrInsert lastUse judge key (.ok payload) m) := by
  have hroom : I (t.makeRoom lastUse judge m).table.buckets
      (t.makeRoom lastUse judge m).value.memory := trim_keeps lastUse hj _ h
  have hhash : (t.makeRoom lastUse judge m).table.hashOf = t.hashOf := trim_hashOf lastUse _
  unfold getOrInsert
  dsimp only
  split
  · next node hget => exact .occupied node hget
  next hget =>
  have hpanic : (t.makeRoom lastUse judge m).value.panic? = none := trim_steady lastUse hsteady _
  split
  · next reason hreason =>
    rw [hpanic] at hreason
    cases hreason
  split
  · exact .refused _ _ _ _ hget hhash hroom
  · exact .vacant _ _ _ hget hhash hroom

/-- The new node has the payload that came with the key. -/
@[simp] theorem insertNew_payload (key : K) (payload : P) :
    (t.insertNew key payload).value.payload = payload := by
  unfold insertNew
  dsimp only
  split <;> rfl

end

end ReadThrough.Table
