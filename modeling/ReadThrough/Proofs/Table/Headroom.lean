import Mathlib.Tactic.Ring
import ReadThrough.Proofs.Table.Admissions

/-! # Room in the Buckets

  A table holds no more nodes than its buckets are meant for, as long as they can be doubled.

  - **FirstFit**: doubling a number of buckets again and again, up to the first one that is enough.
  - **gauge**: the size of the bucket array with its threshold. Operations on single nodes keep it.
  - **Metered**: the threshold is the one that the load factor gives for the buckets there are.
  - **Roomy**: moreover, no more nodes than that are there, unless there can be no more buckets.
  - **Metered.grow**: growing ends with roomy buckets, at the first number of them that fits.
  - **Roomy.pinch**: buckets that were halved have room for four times as many nodes.
  - **nodes_fit**: every table is roomy, so there is never anything to do but for an insertion.
-/

namespace ReadThrough.Table

variable {K P σ : Type}

/-! ## Numbers of buckets -/

namespace LoadFactor

variable {f : LoadFactor} {size n n' : Nat}

/-- Buckets that would hold the nodes eight times over hold them four times over when there are half
    as many. This holds of one node more as well. -/
theorem room_of_sparse (h : size < f.threshold (n * 2) / 8) : 4 * (size + 1) ≤ f.threshold n := by
  have hsize := (Nat.le_div_iff_mul_le (by decide)).1 (Nat.succ_le_of_lt h)
  have hwide := (Nat.le_div_iff_mul_le f.den_pos).1 hsize
  refine (Nat.le_div_iff_mul_le f.den_pos).2 ?_
  -- Both sides of what is left are halves of what is known.
  apply Nat.le_of_mul_le_mul_right (c := 2) ?_ (by decide)
  calc 4 * (size + 1) * f.den * 2 = (size + 1) * 8 * f.den := by ring
    _ ≤ n * 2 * f.num := hwide
    _ = n * f.num * 2 := by ring

/-- The number `n'` is the first one that is enough for the nodes when `n` buckets are doubled again
    and again, or the first one that is not doubled any more. -/
structure FirstFit (f : LoadFactor) (size n n' : Nat) : Prop where
  /-- No number before was enough, and each of them could be doubled. -/
  doubled : ∃ i, n' = n * 2 ^ i ∧
    ∀ k < i, f.threshold (n * 2 ^ k) < size ∧ n * 2 ^ k < mostBuckets
  fits : n' < mostBuckets → size ≤ f.threshold n'

theorem FirstFit.here (h : n < mostBuckets → size ≤ f.threshold n) : f.FirstFit size n n where
  doubled := ⟨0, by rw [Nat.pow_zero, Nat.mul_one], fun k hk => absurd hk (Nat.not_lt_zero k)⟩
  fits := h

theorem FirstFit.double (h : f.FirstFit size (n * 2) n') (hfew : f.threshold n < size)
    (hmore : n < mostBuckets) : f.FirstFit size n n' := by
  obtain ⟨i, hi, hbefore⟩ := h.doubled
  have hshift (k : Nat) : n * 2 ^ (k + 1) = n * 2 * 2 ^ k := by
    rw [Nat.pow_succ, Nat.mul_comm (2 ^ k), Nat.mul_assoc]
  refine ⟨⟨i + 1, by rw [hshift, hi], fun k hk => ?_⟩, h.fits⟩
  cases k with
  | zero =>
    rw [Nat.pow_zero, Nat.mul_one]
    exact ⟨hfew, hmore⟩
  | succ k =>
    rw [hshift]
    exact hbefore k (Nat.lt_of_succ_lt_succ hk)

end LoadFactor

namespace Buckets

variable {hashOf : K → UInt64} {b b' : Buckets K P} {f : LoadFactor}

/-! ## Thresholds -/

/-- The number of buckets, the threshold and the load factor. -/
def gauge (b : Buckets K P) : Nat × Nat × LoadFactor :=
  (b.heads.size, b.threshold, b.loadFactor)

/-- The threshold is that of the buckets there are. -/
def Metered (b : Buckets K P) : Prop :=
  b.threshold = b.loadFactor.threshold b.heads.size

/-- There are no more nodes than the buckets are meant for, unless there can be no more buckets. -/
structure Roomy (f : LoadFactor) (b : Buckets K P) : Prop where
  loadFactor : b.loadFactor = f
  metered : b.Metered
  room : b.heads.size < LoadFactor.mostBuckets → b.size ≤ b.threshold

theorem Roomy.threshold (h : b.Roomy f) : b.threshold = f.threshold b.heads.size :=
  h.loadFactor ▸ h.metered

theorem Roomy.own (h : b.Roomy f) : b.Roomy b.loadFactor :=
  ⟨rfl, h.metered, h.room⟩

theorem canGrow_iff :
    b.canGrow = true ↔ b.threshold < b.size ∧ b.heads.size < LoadFactor.mostBuckets := by
  rw [canGrow, needsGrowth, Bool.and_eq_true, decide_eq_true_eq, decide_eq_true_eq]

theorem Roomy.canGrow (h : b.Roomy f) : b.canGrow = false := by
  refine Bool.eq_false_iff.2 fun hgrow => ?_
  obtain ⟨hfew, hmore⟩ := canGrow_iff.1 hgrow
  exact Nat.not_lt.2 (h.room hmore) hfew

theorem Metered.of_gauge (h : b.Metered) (heq : b'.gauge = b.gauge) : b'.Metered := by
  obtain ⟨hsize, hrest⟩ := Prod.mk.inj heq
  obtain ⟨hthreshold, hfactor⟩ := Prod.mk.inj hrest
  unfold Metered
  rw [hsize, hthreshold, hfactor]
  exact h

/-- The same buckets with no more nodes. -/
theorem Roomy.of_gauge (h : b.Roomy f) (heq : b'.gauge = b.gauge) (hsize : b'.size ≤ b.size) :
    b'.Roomy f := by
  obtain ⟨hcount, hrest⟩ := Prod.mk.inj heq
  obtain ⟨hthreshold, hfactor⟩ := Prod.mk.inj hrest
  refine ⟨hfactor.trans h.loadFactor, h.metered.of_gauge heq, fun hmore => ?_⟩
  rw [hthreshold]
  exact hsize.trans (h.room (hcount ▸ hmore))

theorem roomy_empty (capacity : Nat) (f : LoadFactor) :
    (Buckets.empty capacity f : Buckets K P).Roomy f where
  loadFactor := rfl
  metered := by simp [Metered, empty]
  room := fun _ => Nat.zero_le _

/-! ### Single nodes -/

@[simp] theorem gauge_insert (hash : UInt64) (key : K) (payload : P) :
    (b.insert hash key payload).gauge = b.gauge := by
  simp [gauge, Buckets.insert]

theorem gauge_unchain (b : Buckets K P) (bucket slot : Nat) :
    (b.unchain bucket slot).1.gauge = b.gauge := by
  unfold unchain
  dsimp only
  split
  · simp [gauge]
  · split <;> rfl

theorem gauge_removeNode (b : Buckets K P) (node : Node K P) :
    (b.removeNode node).1.gauge = b.gauge := by
  have hunchain := gauge_unchain b (b.index node.hash) node.slot
  unfold Buckets.removeNode removeSlot
  dsimp only
  split
  · split
    · next heq =>
      rw [heq] at hunchain
      exact hunchain
    · next heq =>
      rw [heq] at hunchain
      exact hunchain
  · rfl

theorem size_removeNode_le (b : Buckets K P) (node : Node K P) :
    (b.removeNode node).1.size ≤ b.size := by
  rcases b.removeNode_cases node with hsame | ⟨-, -, hemptied⟩
  · rw [hsame]
  · rw [hemptied.size]
    exact Nat.sub_le _ _

theorem Roomy.removeNode (h : b.Roomy f) (node : Node K P) : (b.removeNode node).1.Roomy f :=
  h.of_gauge (b.gauge_removeNode node) (b.size_removeNode_le node)

theorem gauge_clear (b : Buckets K P) : b.clear.gauge = b.gauge := by
  simp [gauge, Buckets.clear]

/-! ### Doubling and halving -/

/-- What each bucket keeps when it is dealt with is kept by all of them in turn. -/
theorem foldl_keeps {α : Type} (step : Buckets K P → Nat → Buckets K P) (g : Buckets K P → α)
    (hstep : ∀ b i, g (step b i) = g b) (l : List Nat) (b : Buckets K P) :
    g (l.foldl step b) = g b := by
  induction l generalizing b with
  | nil => rfl
  | cons i l ih => rw [List.foldl_cons, ih, hstep]

theorem gauge_splitBucket (old : Nat) (b : Buckets K P) (i : Nat) :
    (b.splitBucket old i).gauge = b.gauge :=
  congrArg (·, b.threshold, b.loadFactor) (size_heads_splitBucket old b i)

theorem gauge_mergeBucket (half : Nat) (b : Buckets K P) (i : Nat) :
    (b.mergeBucket half i).gauge = b.gauge := by
  unfold Buckets.mergeBucket
  split
  · rfl
  · simp [gauge]
  · rfl

/-- Doubled buckets have the threshold of twice as many. -/
theorem gauge_double (b : Buckets K P) : b.double.gauge =
    (b.heads.size * 2, b.loadFactor.threshold (b.heads.size * 2), b.loadFactor) := by
  refine (foldl_keeps (splitBucket b.heads.size) gauge (gauge_splitBucket b.heads.size)
    (List.range b.heads.size) _).trans ?_
  simp [gauge, Nat.mul_two]

theorem size_double (b : Buckets K P) : b.double.size = b.size :=
  foldl_keeps (splitBucket b.heads.size) Buckets.size (fun _ _ => rfl) (List.range b.heads.size) _

/-- Merging buckets leaves as many as there were. The upper ones are cut off after it. -/
theorem gauge_merged (half : Nat) (b : Buckets K P) :
    ((List.range half).foldl (mergeBucket half) b).gauge = b.gauge :=
  foldl_keeps (mergeBucket half) gauge (gauge_mergeBucket half) (List.range half) b

theorem size_heads_halve (b : Buckets K P) : b.halve.heads.size = b.heads.size / 2 := by
  have hsize := (Prod.mk.inj (gauge_merged (b.heads.size / 2) b)).1
  simp only [Buckets.halve, Array.take_eq_extract, Array.size_extract, hsize]
  omega

theorem gauge_halve (b : Buckets K P) : b.halve.gauge =
    (b.heads.size / 2, b.loadFactor.threshold (b.heads.size / 2), b.loadFactor) := by
  have hfactor := (Prod.mk.inj (Prod.mk.inj (gauge_merged (b.heads.size / 2) b)).2).2
  have hsame : b.halve.loadFactor = b.loadFactor := hfactor
  show (b.halve.heads.size, LoadFactor.threshold _ _, _) = _
  rw [size_heads_halve, hfactor, hsame]

theorem metered_of_gauge {n : Nat} (h : b.gauge = (n, f.threshold n, f)) :
    b.loadFactor = f ∧ b.Metered := by
  obtain ⟨hsize, hrest⟩ := Prod.mk.inj h
  obtain ⟨hthreshold, hfactor⟩ := Prod.mk.inj hrest
  refine ⟨hfactor, ?_⟩
  unfold Metered
  rw [hsize, hthreshold, hfactor]

/-! ## Growing -/

/-- Growing stops at once where the nodes fit. -/
theorem Metered.fitting (h : b.Metered) (hfactor : b.loadFactor = f)
    (hroom : b.heads.size < LoadFactor.mostBuckets → b.size ≤ b.threshold) :
    b.Roomy f ∧ f.FirstFit b.size b.heads.size b.heads.size := by
  have hroomy : b.Roomy f := ⟨hfactor, h, hroom⟩
  exact ⟨hroomy, .here fun hmore => hroomy.threshold ▸ hroom hmore⟩

/-- Buckets that may be doubled often enough end up as the first number of them that fits. -/
theorem Metered.growFor {fuel : Nat} (h : b.Metered) (hfactor : b.loadFactor = f)
    (hfuel : LoadFactor.mostBuckets ≤ b.heads.size * 2 ^ fuel) :
    let b' := growFor fuel b
    b'.size = b.size ∧ b'.Roomy f ∧ f.FirstFit b.size b.heads.size b'.heads.size := by
  induction fuel generalizing b with
  -- Without fuel the number of buckets is the largest that there is.
  | zero =>
    rw [Nat.pow_zero, Nat.mul_one] at hfuel
    exact ⟨rfl, h.fitting hfactor fun hmore => absurd hmore (Nat.not_lt.2 hfuel)⟩
  | succ fuel ih =>
    intro b'
    by_cases hgrow : b.canGrow = true
    · have hb' : b' = Buckets.growFor fuel b.double := if_pos hgrow
      obtain ⟨hfew, hmore⟩ := canGrow_iff.1 hgrow
      obtain ⟨hcount, -⟩ := Prod.mk.inj b.gauge_double
      obtain ⟨hsame, hmetered⟩ := metered_of_gauge b.gauge_double
      have hfuel' : LoadFactor.mostBuckets ≤ b.double.heads.size * 2 ^ fuel := by
        rwa [hcount, Nat.mul_assoc, ← Nat.pow_succ']
      obtain ⟨hsize, hroomy, hfit⟩ := ih hmetered (hsame.trans hfactor) hfuel'
      rw [b.size_double, hcount] at hfit
      rw [h, hfactor] at hfew
      rw [hb']
      exact ⟨hsize.trans b.size_double, hroomy, hfit.double hfew hmore⟩
    · have hb' : b' = b := if_neg hgrow
      rw [hb']
      refine ⟨rfl, h.fitting hfactor fun hmore => ?_⟩
      exact Nat.not_lt.1 fun hfew => hgrow (canGrow_iff.2 ⟨hfew, hmore⟩)

theorem Metered.grow (h : b.Metered) (hfactor : b.loadFactor = f) (hpos : 0 < b.heads.size) :
    b.grow.size = b.size ∧ b.grow.Roomy f ∧
      f.FirstFit b.size b.heads.size b.grow.heads.size :=
  h.growFor hfactor (Nat.le_mul_of_pos_left _ hpos)

/-! ## Shrinking -/

/-- Sparse nodes fit into half of the buckets four times over. -/
theorem Roomy.halve (h : b.Roomy f) (hs : b.Sound hashOf) (hsparse : b.isSparse = true) :
    b.halve.Roomy f ∧ 4 * (b.size + 1) ≤ b.halve.threshold := by
  rw [isSparse, Bool.and_eq_true, decide_eq_true_eq, decide_eq_true_eq] at hsparse
  obtain ⟨hmore, hfew⟩ := hsparse
  obtain ⟨-, heven⟩ := sized_half hs.sized hmore
  obtain ⟨hcount, -⟩ := Prod.mk.inj b.gauge_halve
  obtain ⟨hsame, hmetered⟩ := metered_of_gauge b.gauge_halve
  have hroom : 4 * (b.size + 1) ≤ f.threshold (b.heads.size / 2) := by
    apply LoadFactor.room_of_sparse
    rw [← heven, ← h.loadFactor]
    exact hfew
  have hthreshold : b.halve.threshold = f.threshold (b.heads.size / 2) := by
    rw [hmetered, hsame, h.loadFactor, hcount]
  have hsize : b.halve.size = b.size := (hs.halve hmore).1.size
  rw [hthreshold]
  refine ⟨⟨hsame.trans h.loadFactor, hmetered, fun _ => ?_⟩, hroom⟩
  rw [hsize, hthreshold]
  omega

/-- Buckets that are halved, any number of times, have room for four times as many nodes. -/
theorem Roomy.shrinkFor (h : b.Roomy f) (hs : b.Sound hashOf) (fuel : Nat) :
    let b' := shrinkFor fuel b
    b'.Roomy f ∧ (b' = b ∨ 4 * (b.size + 1) ≤ b'.threshold) := by
  induction fuel generalizing b with
  | zero => exact ⟨h, .inl rfl⟩
  | succ fuel ih =>
    intro b'
    by_cases hsparse : b.isSparse = true
    · have hb' : b' = Buckets.shrinkFor fuel b.halve := if_pos hsparse
      obtain ⟨hroomy, hroom⟩ := h.halve hs hsparse
      rw [isSparse, Bool.and_eq_true, decide_eq_true_eq] at hsparse
      obtain ⟨hr, hs'⟩ := hs.halve hsparse.1
      obtain ⟨hend, hcases⟩ := ih hroomy hs'
      rw [hb']
      refine ⟨hend, .inr ?_⟩
      rcases hcases with hsame | hroom'
      · rw [hsame]
        exact hroom
      · rwa [hr.size] at hroom'
    · have hb' : b' = b := if_neg hsparse
      exact ⟨hb' ▸ h, .inl hb'⟩

theorem Roomy.pinch (h : b.Roomy f) (hs : b.Sound hashOf) :
    b.pinch.Roomy f ∧
      (b.pinch.heads.size = b.heads.size ∨ 4 * (b.size + 1) ≤ b.pinch.threshold) := by
  obtain ⟨hroomy, hcases⟩ := h.shrinkFor hs b.heads.size.log2
  -- Cutting the slab touches neither the buckets nor the number of nodes.
  refine ⟨hroomy.of_gauge rfl (Nat.le_refl _), hcases.imp_left fun hsame => ?_⟩
  show (Buckets.shrinkFor b.heads.size.log2 b).heads.size = b.heads.size
  rw [hsame]

end Buckets

/-! ## Tables -/

open Buckets

variable {t : Table K P} {f : LoadFactor}

theorem insertNew_grow (key : K) (payload : P) (t : Table K P) :
    (t.insertNew key payload).table.buckets =
      (t.buckets.insert (t.hashOf key) key payload).grow := by
  unfold insertNew
  dsimp only
  split
  · rfl
  · next hgrow =>
    -- Growing does nothing to buckets that cannot grow.
    exact (if_neg hgrow : Buckets.growFor 62 _ = _).symm

/-- Insertion doubles the buckets as often as needed. -/
theorem insertNew_roomy (h : t.buckets.Roomy f) (hpos : 0 < t.bucketCount) (key : K) (payload : P) :
    let u := (t.insertNew key payload).table
    u.buckets.Roomy f ∧ f.FirstFit u.size t.bucketCount u.bucketCount := by
  intro u
  have hgauge := Buckets.gauge_insert (b := t.buckets) (t.hashOf key) key payload
  have hfactor : (t.buckets.insert (t.hashOf key) key payload).loadFactor = f := h.loadFactor
  have hcount : (t.buckets.insert (t.hashOf key) key payload).heads.size = t.bucketCount :=
    (Prod.mk.inj hgauge).1
  obtain ⟨hsize, hroomy, hfit⟩ :=
    (h.metered.of_gauge hgauge).grow hfactor (hcount.symm ▸ hpos)
  rw [hcount, ← hsize, ← insertNew_grow] at hfit
  rw [← insertNew_grow] at hroomy
  exact ⟨hroomy, hfit⟩

/-- A walk takes nodes away and leaves the buckets as many as they are. -/
theorem keeps_gauge (judge : Judge K P σ) (b₀ : Buckets K P) :
    judge.Keeps fun b _ => b.gauge = b₀.gauge ∧ b.size ≤ b₀.size where
  spare := fun _ _ _ _ _ _ _ h => h
  evict := fun b _ _ _ node _ _ h =>
    ⟨(b.gauge_removeNode node).trans h.1, (b.size_removeNode_le node).trans h.2⟩

section

variable [DecidableEq K]

theorem getOrInsert_roomy (h : t.buckets.Roomy f) (hpos : 0 < t.bucketCount)
    (lastUse : σ → P → Nat) (judge : Judge K P σ) (key : K) (payload : Except String P) (m : σ) :
    let u := (t.getOrInsert lastUse judge key payload m).table
    u.buckets.Roomy f ∧ f.FirstFit u.size t.bucketCount u.bucketCount := by
  -- If nothing is inserted the number of buckets stays, and it is enough.
  have hstay {u : Table K P} (hroomy : u.buckets.Roomy f) (hcount : u.bucketCount = t.bucketCount) :
      u.buckets.Roomy f ∧ f.FirstFit u.size t.bucketCount u.bucketCount := by
    refine ⟨hroomy, ?_⟩
    rw [← hcount]
    exact .here fun hmore => hroomy.threshold ▸ hroomy.room hmore
  cases hget : t.get? key with
  | some node =>
    rw [getOrInsert_present hget payload]
    exact hstay h rfl
  | none =>
    -- Making room changes neither the buckets nor their threshold.
    obtain ⟨hgauge, hsize⟩ : (t.makeRoom lastUse judge m).table.buckets.gauge = t.buckets.gauge ∧
        (t.makeRoom lastUse judge m).table.buckets.size ≤ t.buckets.size :=
      trim_keeps lastUse (keeps_gauge judge t.buckets) _ ⟨rfl, Nat.le_refl _⟩
    have hcount : (t.makeRoom lastUse judge m).table.bucketCount = t.bucketCount :=
      (Prod.mk.inj hgauge).1
    have hroom := h.of_gauge hgauge hsize
    have hlodged : Lodged key payload (t.makeRoom lastUse judge m) _ :=
      getOrInsert_lodged hget payload
    generalize t.getOrInsert lastUse judge key payload m = r at hlodged ⊢
    cases hlodged with
    | unjudged => exact hstay hroom hcount
    | full => exact hstay hroom hcount
    | unmade => exact hstay hroom hcount
    | inserted p =>
      rw [← hcount] at hpos ⊢
      exact insertNew_roomy hroom hpos key p

omit [DecidableEq K] in
theorem pinch_roomy (h : t.buckets.Roomy f) (hs : t.Sound) :
    let u := t.pinch.table
    u.buckets.Roomy f ∧ (u.bucketCount = t.bucketCount ∨ 4 * (t.size + 1) ≤ u.capacity) := by
  unfold Table.pinch
  split
  · exact Roomy.pinch h hs
  · exact ⟨h, .inl rfl⟩

omit [DecidableEq K] in
theorem clear_roomy (h : t.buckets.Roomy f) : t.clear.1.buckets.Roomy f :=
  h.of_gauge t.buckets.gauge_clear (Nat.zero_le _)

omit [DecidableEq K] in
theorem resize_roomy (h : t.buckets.Roomy f) : t.resize = { table := t, value := false } := by
  unfold Table.resize
  rw [h.canGrow, if_neg Bool.false_ne_true]

/-- Whatever is done to a table, there is room in its buckets. -/
theorem perform_roomy (h : t.buckets.Roomy f) (hs : t.Sound) (o : Operation (Node K P) K P) :
    (t.perform o).1.buckets.Roomy f := by
  have hremoved (node : Node K P) : (t.removeNode node).1.buckets.Roomy f := by
    rw [(removeNode_buckets node t).1]
    exact h.removeNode node
  have hstart : t.buckets.gauge = t.buckets.gauge ∧ t.buckets.size ≤ t.buckets.size :=
    ⟨rfl, Nat.le_refl _⟩
  cases o with
  | getOrInsert key payload lastUse p =>
    exact (getOrInsert_roomy h (Buckets.Sound.heads_pos hs) lastUse p.judge key payload []).1
  | remove key =>
    show (t.remove key).1.buckets.Roomy f
    unfold Table.remove
    split
    · exact h
    · exact hremoved _
  | removeNode handle => exact hremoved handle
  | trim count lastUse p =>
    obtain ⟨hgauge, hsize⟩ := trim_keeps lastUse (keeps_gauge p.judge t.buckets) count hstart
    exact h.of_gauge hgauge hsize
  | sweep lastUse p =>
    obtain ⟨hgauge, hsize⟩ := sweep_keeps lastUse (keeps_gauge p.judge t.buckets) hstart
    exact h.of_gauge hgauge hsize
  -- There is room already, so a resize has nothing to do.
  | resize =>
    show t.resize.table.buckets.Roomy f
    rw [resize_roomy h]
    exact h
  | pinch => exact (pinch_roomy h hs).1
  | clear => exact clear_roomy h
  | touch | unlink | relink | setMaxCapacity | get? | byRecency | nodes | size | isEmpty | repairs =>
    exact h

theorem Reachable.roomy (h : t.Reachable) : t.buckets.Roomy t.buckets.loadFactor := by
  induction h with
  | empty initial maxCapacity loadFactor hashOf => exact Buckets.roomy_empty initial loadFactor
  | perform o ht hnone ih => exact (perform_roomy ih ht.orderly.sound o).own
  | performOn o ht ht' hmem hnode ih ih' => exact (perform_roomy ih ht.orderly.sound o).own

theorem Reachable.bucketCount_eq (h : t.Reachable) : ∃ j, 4 ≤ j ∧ t.bucketCount = 2 ^ j := by
  obtain ⟨j, hj⟩ := h.orderly.sound.sized
  refine ⟨4 + j, Nat.le_add_right 4 j, ?_⟩
  rw [Nat.pow_add]
  exact hj

/-- Whatever was done to a table, its buckets are a power of two of at least 16, and they are meant
    for all the nodes there are, unless there are 2^62 of them. The load factor stays the one that
    the table was made with. So there is never anything for resizing to do.

    An insertion doubles the buckets until they are enough, and not once more. Pinching and clearing
    leave none that would have to grow; if a pinch takes buckets away, the others have room for four
    times as many nodes. -/
theorem nodes_fit (h : t.Reachable) :
    let f := t.buckets.loadFactor
    (∃ j, 4 ≤ j ∧ t.bucketCount = 2 ^ j) ∧
      t.capacity = f.threshold t.bucketCount ∧
      (t.bucketCount < 2 ^ 62 → t.size ≤ t.capacity) ∧
      (∀ o : Operation (Node K P) K P, (t.perform o).1.buckets.loadFactor = f) ∧
      t.resize = { table := t, value := false } ∧
      (∀ {σ : Type} (lastUse : σ → P → Nat) (judge : Judge K P σ) (key : K)
        (payload : Except String P) (m : σ),
        let u := (t.getOrInsert lastUse judge key payload m).table
        f.FirstFit u.size t.bucketCount u.bucketCount) ∧
      (let u := t.pinch.table
       u.resize = { table := u, value := false } ∧
         (u.bucketCount = t.bucketCount ∨ 4 * (t.size + 1) ≤ u.capacity)) ∧
      let u := t.clear.1
      u.resize = { table := u, value := false } ∧ u.bucketCount = t.bucketCount := by
  intro f
  have hroomy := h.roomy
  have hs : t.Sound := h.orderly.sound
  obtain ⟨hpinched, hcases⟩ := pinch_roomy hroomy hs
  exact ⟨h.bucketCount_eq, hroomy.metered, hroomy.room,
    fun o => (perform_roomy hroomy hs o).loadFactor, resize_roomy hroomy,
    fun lastUse judge key payload m =>
      (getOrInsert_roomy hroomy (Buckets.Sound.heads_pos hs) lastUse judge key payload m).2,
    ⟨resize_roomy hpinched, hcases⟩, resize_roomy (clear_roomy hroomy),
    (Prod.mk.inj t.buckets.gauge_clear).1⟩

end

/-- One node for forty buckets: the first insertion doubles 16 buckets twice and the second one 64
    once. Where there are 64 buckets for 40 nodes that do not come, a pinch goes back to 16. -/
theorem nodes_fit_thin :
    let insert {N : Type} (key : Nat) : Operation N Nat Nat :=
      .getOrInsert key (.ok key) (fun _ used => used) fun _ _ => .keep
    let thin : LoadFactor := .ofFraction 1 40 (by decide) (by decide)
    let t : Table Nat Nat := Table.empty 0 9 thin Nat.toUInt64
    let one := (t.perform (insert 1)).1
    let two := (one.perform (insert 2)).1
    let wide := ((Table.empty 40 9 .standard Nat.toUInt64).perform (insert 1)).1
    t.bucketCount = 16 ∧ one.bucketCount = 64 ∧ two.bucketCount = 128 ∧
      thin.FirstFit one.size t.bucketCount one.bucketCount ∧
      thin.FirstFit two.size one.bucketCount two.bucketCount ∧ two.size ≤ two.capacity ∧
      wide.bucketCount = 64 ∧ wide.pinch.table.bucketCount = 16 ∧
      4 * (wide.size + 1) ≤ wide.pinch.table.capacity := by
  intro insert thin t one two wide
  have ht : t.Reachable := .empty 0 9 thin Nat.toUInt64
  have hone : one.Reachable := .perform _ ht rfl
  have htwo : two.Reachable := .perform _ hone rfl
  have hwide : wide.Reachable := .perform _ (.empty 40 9 .standard Nat.toUInt64) rfl
  -- Each part of the result is taken from the table for which it says most.
  obtain ⟨-, -, -, hkept, -, hfirst, -⟩ := nodes_fit ht
  obtain ⟨-, -, -, -, -, hsecond, -⟩ := nodes_fit hone
  obtain ⟨-, -, hroom, -⟩ := nodes_fit htwo
  obtain ⟨-, -, -, -, -, -, ⟨-, hcases⟩, -⟩ := nodes_fit hwide
  have hgrown : two.bucketCount = 128 := by decide +kernel
  have hcount : wide.bucketCount = 64 := by decide +kernel
  have hfew : wide.pinch.table.bucketCount = 16 := by decide +kernel
  rw [hgrown] at hroom
  rw [hfew, hcount] at hcases
  refine ⟨by decide +kernel, by decide +kernel, hgrown, hfirst _ _ 1 (.ok 1) [], ?_,
    hroom (by decide), hcount, hfew, hcases.resolve_left (by decide)⟩
  have hfactor : one.buckets.loadFactor = thin := hkept (insert 1)
  exact hfactor ▸ hsecond _ _ 2 (.ok 2) []

end ReadThrough.Table
