import ReadThrough.Proofs.Table.Slots

/-! # Growing and Shrinking the Bucket Array

  The chains while the number of buckets changes. No node changes, and none changes its slot.

  - **splitFrom_parts**: a chain is split into the two chains of its lower and its upper slots, in
    their order.
  - **double**: every bucket is split in turn; a hash is at home in its new bucket as soon as its
    old one has been split.
  - **halve**: every bucket of the lower half is joined in turn with its counterpart.
  - **pinch**: beyond that, empty slots are cut off at the end of the slab.
-/

namespace ReadThrough.Table.Buckets

variable {K P : Type} {b : Buckets K P} {hashOf : K → UInt64} {chains : Nat → List Nat}

/-! ## Chains under construction -/

/-- A chain with its first and last slot. -/
structure Strand (cells : Array (Cell K P)) (first? last? : Option Nat) (l : List Nat) :
    Prop where
  first : first? = l.head?
  last : last? = l.getLast?
  strung : Strung (next? cells) l

section strand

variable {cells cells' : Array (Cell K P)} {first? last? : Option Nat} {l : List Nat}
  {s t : Nat}

theorem Strand.congr (h : Strand cells first? last? l)
    (hn : ∀ x ∈ l, next? cells' x = next? cells x) : Strand cells' first? last? l :=
  ⟨h.first, h.last, h.strung.congr hn⟩

@[simp] theorem size_linkLast : (linkLast cells last? s).size = cells.size := by
  cases last? with
  | none => rfl
  | some last => exact size_setNext cells last _

@[simp] theorem node?_linkLast :
    (linkLast cells last? s)[t]?.bind Cell.node? = cells[t]?.bind Cell.node? := by
  cases last? with
  | none => rfl
  | some last => exact node?_setNext cells last t _

/-- Only the last slot of a chain gets another successor when a slot is appended. -/
theorem next?_linkLast_ne (h : last? ≠ some t) :
    next? (linkLast cells last? s) t = next? cells t := by
  cases last? with
  | none => rfl
  | some last =>
    refine next?_setNext_ne ?_
    rintro rfl
    exact h rfl

theorem next?_linkLast (h : Strand cells first? last? l) (ht : t ∉ l) :
    next? (linkLast cells last? s) t = next? cells t := by
  refine next?_linkLast_ne fun hlast => ?_
  exact ht (List.mem_of_getLast? (h.last ▸ hlast))

/-- A slot without a successor can be appended to a chain. -/
theorem Strand.append (h : Strand cells first? last? l) (hnd : l.Nodup) (hs : s ∉ l)
    (hlt : ∀ x ∈ l, x < cells.size) (hloose : next? cells s = none) :
    Strand (linkLast cells last? s) (first? <|> some s) (some s) (l ++ [s]) where
  first := by
    rw [h.first, List.head?_append]
    cases l <;> rfl
  last := by simp
  strung := by
    have hloose' : next? (linkLast cells last? s) s = none := (next?_linkLast h hs).trans hloose
    rcases List.eq_nil_or_concat' l with rfl | ⟨init, last, rfl⟩
    · -- An empty chain has no last slot whose link is to be written.
      exact ⟨hloose', trivial⟩
    · have hlast : last? = some last := by simp [h.last]
      have hinit : last ∉ init := fun hmem =>
        (List.nodup_append.1 hnd).2.2 last hmem last (List.mem_singleton_self last) rfl
      -- The old last slot occurs once in the chain, so writing its link changes nothing before it.
      have hend : Strung (next? cells) [s] := ⟨hloose, trivial⟩
      have hne : s ≠ last := by
        rintro rfl
        exact hs (by simp)
      rw [List.append_assoc]
      refine h.strung.graft hend ?_ fun x hx => ?_
      · rw [hlast]
        exact next?_setNext_self (hlt last (by simp))
      · rw [hlast]
        refine next?_setNext_ne ?_
        rintro rfl
        simp [hinit, hne.symm] at hx

/-- A slot is cut off from its successor and appended to a chain. Only its own successor and that of
    the last slot of the chain change. -/
theorem Strand.move (h : Strand cells first? last? l) (hnd : (l ++ [s]).Nodup)
    (hlt : ∀ x ∈ l ++ [s], x < cells.size) :
    Strand (linkLast (setNext cells s none) last? s) (first? <|> some s) (some s) (l ++ [s]) ∧
      ∀ t, t ∉ l ++ [s] → next? (linkLast (setNext cells s none) last? s) t = next? cells t := by
  obtain ⟨hndl, -, hdisj⟩ := List.nodup_append.1 hnd
  have hs : s ∉ l := fun hmem => hdisj s hmem s (List.mem_singleton_self s) rfl
  have hcut {t : Nat} (ht : t ≠ s) : next? (setNext cells s none) t = next? cells t :=
    next?_setNext_ne ht
  have hstrand := h.congr fun t ht => hcut (ne_of_mem_of_not_mem ht hs)
  refine ⟨hstrand.append hndl hs (fun x hx => ?_) (next?_setNext_self (hlt s (by simp))), ?_⟩
  · rw [size_setNext]
    exact hlt x (List.mem_append_left _ hx)
  · intro t ht
    rw [List.mem_append, List.mem_singleton, not_or] at ht
    rw [next?_linkLast hstrand ht.1, hcut ht.2]

end strand

/-! ## Splitting a chain -/

/-- What splitting a chain leads to: two chains, while other slots keep their successors. -/
structure Parts (cells cells' : Array (Cell K P)) (s : Split) (lo hi slots : List Nat) :
    Prop where
  low : Strand cells' s.lowFirst? s.lowLast? lo
  high : Strand cells' s.highFirst? s.highLast? hi
  size : cells'.size = cells.size
  node? : ∀ t : Nat, cells'[t]?.bind Cell.node? = cells[t]?.bind Cell.node?
  next? : ∀ t, t ∉ slots → next? cells' t = next? cells t

/-- Whether a slot holds a node whose hash has a bit set. -/
def isHigh (bit : Nat) (cells : Array (Cell K P)) (slot : Nat) : Bool :=
  (cells[slot]?.bind Cell.node?).any fun node => node.hash.toNat / bit % 2 == 1

/-- The slots of a chain are appended in turn to one of the two chains that there are already. -/
theorem splitFrom_parts (bit : Nat) {high : Nat → Bool} {l lo hi : List Nat} {fuel : Nat}
    {cells : Array (Cell K P)} {s : Split} (hhigh : ∀ t, isHigh bit cells t = high t)
    (hl : Strung (Buckets.next? cells) l) (hfuel : l.length ≤ fuel)
    (hlo : Strand cells s.lowFirst? s.lowLast? lo)
    (hhi : Strand cells s.highFirst? s.highLast? hi) (hnd : (lo ++ hi ++ l).Nodup)
    (hlt : ∀ x ∈ lo ++ hi ++ l, x < cells.size) :
    Parts cells (splitFrom bit fuel l.head? cells s).1 (splitFrom bit fuel l.head? cells s).2
      (lo ++ l.filter fun t => !high t) (hi ++ l.filter high) (lo ++ hi ++ l) := by
  induction l generalizing lo hi fuel cells s with
  | nil =>
    have hout : splitFrom bit fuel ([] : List Nat).head? cells s = (cells, s) := by
      cases fuel <;> rfl
    rw [hout]
    simp only [List.filter_nil, List.append_nil]
    exact ⟨hlo, hhi, rfl, fun _ => rfl, fun _ _ => rfl⟩
  | cons x l ih =>
    obtain ⟨fuel, rfl, hle⟩ := exists_fuel hfuel
    have hafter : Buckets.next? cells x = l.head? := hl.1
    have hhigh' {last? : Option Nat} (t : Nat) :
        isHigh bit (linkLast (setNext cells x none) last? x) t = high t := by
      rw [← hhigh, isHigh, node?_linkLast, node?_setNext]
      rfl
    -- The slot goes to one of the chains; the other one and the slots to come stay.
    cases hbit : high x with
    | false =>
      have hperm : (lo ++ [x] ++ hi ++ l).Perm (lo ++ hi ++ x :: l) := by
        simpa using (@List.perm_middle _ x hi l).symm.append_left lo
      have hnd' := hperm.nodup_iff.2 hnd
      have hlt' : ∀ t ∈ lo ++ [x] ++ hi ++ l, t < cells.size :=
        fun t ht => hlt t (hperm.mem_iff.1 ht)
      rw [List.append_assoc] at hnd' hlt'
      obtain ⟨hndlo, -, hdisj⟩ := List.nodup_append.1 hnd'
      obtain ⟨hmoved, hkeep⟩ := hlo.move hndlo fun t ht => hlt' t (List.mem_append_left _ ht)
      have hrest {t : Nat} (ht : t ∈ hi ++ l) := hkeep t fun hmem => hdisj t hmem t ht rfl
      have hparts := ih hhigh' (s := { s with
          lowFirst? := s.lowFirst? <|> some x
          lowLast? := some x }) (hl.2.congr fun t ht => hrest (List.mem_append_right hi ht)) hle
        hmoved (hhi.congr fun t ht => hrest (List.mem_append_left l ht)) (hperm.nodup_iff.2 hnd)
        fun t ht => by
          rw [size_linkLast, size_setNext]
          exact hlt t (hperm.mem_iff.1 ht)
      have hout : splitFrom bit (fuel + 1) (x :: l).head? cells s =
          splitFrom bit fuel l.head? (linkLast (setNext cells x none) s.lowLast? x)
            { s with lowFirst? := s.lowFirst? <|> some x, lowLast? := some x } := by
        have hb : isHigh bit cells x = false := (hhigh x).trans hbit
        unfold isHigh at hb
        simp only [List.head?_cons, splitFrom, hafter, hb]
        rfl
      rw [hout]
      exact {
        low := by simpa [hbit] using hparts.low
        high := by simpa [hbit] using hparts.high
        size := by simpa using hparts.size
        node? := fun t => by simpa using hparts.node? t
        next? := fun t ht => by
          rw [hparts.next? t fun hmem => ht (hperm.mem_iff.1 hmem)]
          refine hkeep t fun hmem => ht (hperm.mem_iff.1 ?_)
          rw [List.append_assoc]
          exact List.mem_append_left _ hmem }
    | true =>
      have hsame : lo ++ (hi ++ [x]) ++ l = lo ++ hi ++ x :: l := by simp
      rw [← hsame] at hnd hlt ⊢
      obtain ⟨hleft, -, hdisjl⟩ := List.nodup_append.1 hnd
      obtain ⟨-, hndhi, hdisjlo⟩ := List.nodup_append.1 hleft
      obtain ⟨hmoved, hkeep⟩ := hhi.move hndhi fun t ht =>
        hlt t (List.mem_append_left l (List.mem_append_right lo ht))
      have hparts := ih hhigh' (s := { s with
          highFirst? := s.highFirst? <|> some x
          highLast? := some x })
        (hl.2.congr fun t ht => hkeep t fun hmem =>
          hdisjl t (List.mem_append_right lo hmem) t ht rfl) hle
        (hlo.congr fun t ht => hkeep t fun hmem => hdisjlo t ht t hmem rfl) hmoved hnd
        fun t ht => by
          rw [size_linkLast, size_setNext]
          exact hlt t ht
      have hout : splitFrom bit (fuel + 1) (x :: l).head? cells s =
          splitFrom bit fuel l.head? (linkLast (setNext cells x none) s.highLast? x)
            { s with highFirst? := s.highFirst? <|> some x, highLast? := some x } := by
        have hb : isHigh bit cells x = true := (hhigh x).trans hbit
        unfold isHigh at hb
        simp only [List.head?_cons, splitFrom, hafter, hb]
        rfl
      rw [hout]
      exact {
        low := by simpa [hbit] using hparts.low
        high := by simpa [hbit] using hparts.high
        size := by simpa using hparts.size
        node? := fun t => by simpa using hparts.node? t
        next? := fun t ht => by
          rw [hparts.next? t ht]
          exact hkeep t fun hmem =>
            ht (List.mem_append_left l (List.mem_append_right lo hmem)) }

/-! ## Doubling -/

/-- The bucket of a hash among `old` buckets, those below `done` of which have been split. -/
def splitHome (old done : Nat) (hash : UInt64) : Nat :=
  if hash.toNat % old < done then hash.toNat % (old * 2) else hash.toNat % old

theorem mod_double (n old : Nat) :
    n % (old * 2) = if n / old % 2 == 1 then n % old + old else n % old := by
  rw [Nat.mod_mul]
  rcases Nat.mod_two_eq_zero_or_one (n / old) with h | h <;> simp [h]

/-- Splitting one more bucket moves the hashes at home there. -/
theorem splitHome_succ (old done : Nat) (hash : UInt64) :
    splitHome old (done + 1) hash =
      if hash.toNat % old = done then
        (if hash.toNat / old % 2 == 1 then done + old else done)
      else splitHome old done hash := by
  unfold splitHome
  by_cases heq : hash.toNat % old = done
  · rw [if_pos (by omega), if_pos heq, mod_double, heq]
  · rw [if_neg heq]
    by_cases hlt : hash.toNat % old < done
    · rw [if_pos (by omega), if_pos hlt]
    · rw [if_neg (by omega), if_neg hlt]

/-- The hashes that the split of a bucket concerns. -/
theorem splitHome_self {old i : Nat} (hi : i < old) (hash : UInt64) :
    splitHome old i hash = i ↔ hash.toNat % old = i := by
  unfold splitHome
  have hmod := mod_double hash.toNat old
  split
  · split at hmod <;> omega
  · rfl

/-- Nothing is at home in the upper half of a bucket that is still to be split. -/
theorem splitHome_ne {old i : Nat} (hi : i < old) (hash : UInt64) :
    splitHome old i hash ≠ i + old := by
  unfold splitHome
  have hmod := mod_double hash.toNat old
  have hlt : hash.toNat % old < old := Nat.mod_lt _ (Nat.zero_lt_of_lt hi)
  split
  · split at hmod <;> omega
  · omega

theorem isHigh_eq {s : Nat} {node : Node K P} (h : b.node? s = some node) (bit : Nat) :
    isHigh bit b.cells s = (node.hash.toNat / bit % 2 == 1) := by
  unfold isHigh
  rw [show b.cells[s]?.bind Cell.node? = some node from h]
  rfl

/-- The lists after the list of a bucket has been split. -/
def splitChains (old i : Nat) (high : Nat → Bool) (chains : Nat → List Nat) (j : Nat) :
    List Nat :=
  if j = i + old then (chains i).filter high
  else if j = i then (chains i).filter fun t => !high t
  else chains j

/-- The slots of the split lists are at home where they are. -/
theorem Threads.placed_split {old i j t : Nat} (h : b.Threads (splitHome old i) chains)
    (hi : i < old) (ht : t ∈ splitChains old i (isHigh old b.cells) chains j) :
    ∃ n, b.node? t = some n ∧ splitHome old (i + 1) n.hash = j := by
  have hsplit (hmem : t ∈ chains i) : ∃ n, b.node? t = some n ∧
      splitHome old (i + 1) n.hash = if isHigh old b.cells t then i + old else i := by
    obtain ⟨n, hn, hhome⟩ := h.placed i t hmem
    refine ⟨n, hn, ?_⟩
    rw [splitHome_succ, if_pos ((splitHome_self hi _).1 hhome), ← isHigh_eq hn]
  unfold splitChains at ht
  split at ht
  · next hj =>
    obtain ⟨hmem, hhigh⟩ := List.mem_filter.1 ht
    obtain ⟨n, hn, hhome⟩ := hsplit hmem
    exact ⟨n, hn, by rw [hhome, if_pos hhigh, hj]⟩
  split at ht
  · next hj =>
    obtain ⟨hmem, hlow⟩ := List.mem_filter.1 ht
    obtain ⟨n, hn, hhome⟩ := hsplit hmem
    exact ⟨n, hn, by rw [hhome, if_neg (by simpa using hlow), hj]⟩
  · next hj =>
    obtain ⟨n, hn, hhome⟩ := h.placed j t ht
    refine ⟨n, hn, ?_⟩
    rw [splitHome_succ, if_neg, hhome]
    intro heq
    exact hj (hhome.symm.trans ((splitHome_self hi _).2 heq))

/-- Every node is in the split list of its home. -/
theorem Threads.covered_split {old i t : Nat} {n : Node K P}
    (h : b.Threads (splitHome old i) chains) (hi : i < old) (hn : b.node? t = some n) :
    t ∈ splitChains old i (isHigh old b.cells) chains (splitHome old (i + 1) n.hash) := by
  have hold := h.covered t n hn
  rw [splitHome_succ]
  by_cases heq : n.hash.toNat % old = i
  · rw [(splitHome_self hi _).2 heq] at hold
    rw [if_pos heq, ← isHigh_eq hn]
    unfold splitChains
    cases hbit : isHigh old b.cells t with
    | true => simp [hold, hbit]
    | false =>
      have hne : old ≠ 0 := by omega
      simp [hne, hold, hbit]
  · have hne : splitHome old i n.hash ≠ i := fun hs => heq ((splitHome_self hi _).1 hs)
    rw [if_neg heq, splitChains, if_neg (splitHome_ne hi _), if_neg hne]
    exact hold

/-- The chain of a bucket is split into its lower and its upper slots. -/
theorem Threads.parts {home : UInt64 → Nat} (h : b.Threads home chains) (hh : b.Headed chains)
    (old i : Nat) :
    Parts b.cells (splitFrom old b.cells.size (b.head? i) b.cells {}).1
      (splitFrom old b.cells.size (b.head? i) b.cells {}).2
      ((chains i).filter fun t => !isHigh old b.cells t)
      ((chains i).filter (isHigh old b.cells)) (chains i) := by
  have hempty : Strand b.cells none none [] := ⟨rfl, rfl, trivial⟩
  have hparts := splitFrom_parts (s := {}) old
    (fun t => rfl : ∀ t, isHigh old b.cells t = isHigh old b.cells t) (h.strung i)
    (h.length_le i) hempty hempty (h.nodup i) fun x hx => h.lt_size (i := i) hx
  rw [hh i]
  simpa only [List.nil_append] using hparts

theorem Threads.headed_splitBucket {old i : Nat} {home : UInt64 → Nat} (h : b.Threads home chains)
    (hh : b.Headed chains) (hi : i < old) (hsize : b.heads.size = old * 2) :
    (b.splitBucket old i).Headed (splitChains old i (isHigh old b.cells) chains) := by
  have hparts := h.parts hh old i
  intro j
  have hheads : (b.splitBucket old i).head? j =
      (((b.heads.setIfInBounds i (splitFrom old b.cells.size (b.head? i) b.cells {}).2.lowFirst?
        ).setIfInBounds (i + old)
        (splitFrom old b.cells.size (b.head? i) b.cells {}).2.highFirst?)[j]?).join := rfl
  rw [hheads, splitChains, Array.getElem?_setIfInBounds, Array.getElem?_setIfInBounds]
  by_cases hhigh : j = i + old
  · have hlt : i + old < b.heads.size := by omega
    rw [if_pos hhigh.symm, if_pos hhigh, Array.size_setIfInBounds, if_pos hlt]
    exact hparts.high.first
  rw [if_neg (Ne.symm hhigh), if_neg hhigh]
  by_cases hlow : j = i
  · have hlt : i < b.heads.size := by omega
    rw [if_pos hlow.symm, if_pos hlow, if_pos hlt]
    exact hparts.low.first
  · rw [if_neg (Ne.symm hlow), if_neg hlow]
    exact hh j

/-- Splitting a bucket, as a change of the lists. -/
theorem Threads.splitBucket {old i : Nat} (h : b.Threads (splitHome old i) chains)
    (hh : b.Headed chains) (hi : i < old) (hsize : b.heads.size = old * 2) :
    Rewired b (b.splitBucket old i) ∧
      (b.splitBucket old i).Threads (splitHome old (i + 1))
        (splitChains old i (isHigh old b.cells) chains) ∧
      (b.splitBucket old i).Headed (splitChains old i (isHigh old b.cells) chains) := by
  have hparts := h.parts hh old i
  have hr : Rewired b (b.splitBucket old i) := ⟨hparts.node?, hparts.size, rfl, rfl, rfl⟩
  refine ⟨hr, ?_, h.headed_splitBucket hh hi hsize⟩
  exact {
    strung := by
      intro j
      unfold splitChains
      split
      · exact hparts.high.strung
      split
      · exact hparts.low.strung
      next hne =>
      -- No other chain has a slot of the bucket that is split.
      exact (h.strung j).congr fun t ht => hparts.next? t fun hmem =>
        hne (h.bucket_unique ht hmem)
    nodup := by
      intro j
      unfold splitChains
      split
      · exact (h.nodup i).filter _
      split
      · exact (h.nodup i).filter _
      · exact h.nodup j
    placed := by
      intro j t ht
      obtain ⟨n, hn, hhome⟩ := h.placed_split hi ht
      exact ⟨n, (hr.node? t).trans hn, hhome⟩
    covered := by
      intro t n hn
      exact h.covered_split hi ((hr.node? t).symm.trans hn) }

@[simp] theorem size_heads_splitBucket (old : Nat) (b : Buckets K P) (i : Nat) :
    (b.splitBucket old i).heads.size = b.heads.size := by
  show (Array.setIfInBounds (Array.setIfInBounds b.heads _ _) _ _).size = _
  simp

/-- The lists after the lists of the buckets below `done` have been split. -/
def splitUpTo (old done : Nat) (high : Nat → Bool) (chains : Nat → List Nat) (j : Nat) :
    List Nat :=
  if j < done then (chains j).filter fun t => !high t
  else if old ≤ j ∧ j < old + done then (chains (j - old)).filter high
  else chains j

theorem splitUpTo_zero (old : Nat) (high : Nat → Bool) (chains : Nat → List Nat) :
    splitUpTo old 0 high chains = chains := by
  funext j
  unfold splitUpTo
  rw [if_neg (Nat.not_lt_zero j), if_neg (by omega)]

theorem splitChains_splitUpTo {old i : Nat} (hi : i < old) (high : Nat → Bool)
    (chains : Nat → List Nat) :
    splitChains old i high (splitUpTo old i high chains) = splitUpTo old (i + 1) high chains := by
  have hself : splitUpTo old i high chains i = chains i := by
    unfold splitUpTo
    rw [if_neg (Nat.lt_irrefl i), if_neg (by omega)]
  funext j
  unfold splitChains
  rw [hself]
  unfold splitUpTo
  by_cases hhigh : j = i + old
  · rw [if_pos hhigh, if_neg (by omega), if_pos (by omega), show j - old = i by omega]
  rw [if_neg hhigh]
  by_cases hlow : j = i
  · rw [if_pos hlow, if_pos (by omega), hlow]
  rw [if_neg hlow]
  -- No other list is split now.
  by_cases hdone : j < i
  · rw [if_pos hdone, if_pos (by omega)]
  rw [if_neg hdone, if_neg (show ¬ j < i + 1 by omega)]
  by_cases hupper : old ≤ j ∧ j < old + i
  · rw [if_pos hupper, if_pos (by omega)]
  · rw [if_neg hupper, if_neg (by omega)]

theorem Rewired.isHigh {b' : Buckets K P} (h : Rewired b b') (bit : Nat) :
    Buckets.isHigh bit b'.cells = Buckets.isHigh bit b.cells := by
  funext s
  exact congrArg (Option.any fun node => node.hash.toNat / bit % 2 == 1) (h.node? s)

/-- Splitting the buckets below `n` in turn. -/
theorem splitBuckets {old : Nat} (h : b.Threads (splitHome old 0) chains) (hh : b.Headed chains)
    (hsize : b.heads.size = old * 2) {n : Nat} (hn : n ≤ old) :
    let b' := (List.range n).foldl (splitBucket old) b
    let chains' := splitUpTo old n (isHigh old b.cells) chains
    Rewired b b' ∧ b'.heads.size = old * 2 ∧ b'.Threads (splitHome old n) chains' ∧
      b'.Headed chains' := by
  induction n with
  | zero =>
    rw [splitUpTo_zero]
    exact ⟨.refl b, hsize, h, hh⟩
  | succ n ih =>
    -- The buckets below `n` have been split; the hashes at home there are where they belong.
    obtain ⟨hr, hs, hc, hh'⟩ := ih (Nat.le_of_succ_le hn)
    obtain ⟨hr', hc', hh''⟩ := hc.splitBucket hh' hn hs
    rw [hr.isHigh, splitChains_splitUpTo hn] at hc' hh''
    simp only [List.range_succ, List.foldl_append, List.foldl_cons, List.foldl_nil]
    exact ⟨hr.trans hr', (size_heads_splitBucket _ _ _).trans hs, hc', hh''⟩

/-- The buckets while they are doubled, when the chains of those below `n` have been split. -/
def splitting (b : Buckets K P) (n : Nat) : Buckets K P :=
  (List.range n).foldl (splitBucket b.heads.size) { b with
    heads := b.heads ++ Array.replicate b.heads.size none
    threshold := b.loadFactor.threshold (b.heads.size * 2) }

theorem splitting_all (b : Buckets K P) : b.splitting b.heads.size = b.double :=
  rfl

theorem Threads.splitting (hc : b.Threads b.index chains) (hh : b.Headed chains) {n : Nat}
    (hn : n ≤ b.heads.size) :
    let chains' := splitUpTo b.heads.size n (isHigh b.heads.size b.cells) chains
    Rewired b (b.splitting n) ∧ (b.splitting n).heads.size = b.heads.size * 2 ∧
      (b.splitting n).Threads (splitHome b.heads.size n) chains' ∧
      (b.splitting n).Headed chains' := by
  -- Widening the array with empty heads comes first; the loop then splits bucket by bucket.
  let wide : Buckets K P := { b with
    heads := b.heads ++ Array.replicate b.heads.size none
    threshold := b.loadFactor.threshold (b.heads.size * 2) }
  have hwide : Rewired b wide := ⟨fun _ => rfl, rfl, rfl, rfl, rfl⟩
  -- With no bucket split yet, a hash is still at home where it was.
  have hstart : splitHome b.heads.size 0 = b.index := by
    funext hash
    exact if_neg (Nat.not_lt_zero _)
  have hsize : wide.heads.size = b.heads.size * 2 := by
    simp [wide, Nat.mul_two]
  have hheaded : wide.Headed chains := by
    intro i
    rw [← hh i]
    simp only [head?, wide, Array.getElem?_append, Array.getElem?_replicate]
    split
    · rfl
    · next hge =>
      rw [Array.getElem?_eq_none (Nat.le_of_not_lt hge)]
      split <;> rfl
  obtain ⟨hr, hs, hc', hh'⟩ := splitBuckets
    (hstart ▸ hc.rewire hwide hc.strung) hheaded hsize hn
  exact ⟨hwide.trans hr, hs, hc', hh'⟩

/-- Doubling the buckets, as a change of the lists. -/
theorem Threads.double (hc : b.Threads b.index chains) (hh : b.Headed chains)
    (hpos : 0 < b.heads.size) :
    let chains' := splitUpTo b.heads.size b.heads.size (isHigh b.heads.size b.cells) chains
    Rewired b b.double ∧ b.double.heads.size = b.heads.size * 2 ∧
      b.double.Threads b.double.index chains' ∧ b.double.Headed chains' := by
  obtain ⟨hr, hs, hc', hh'⟩ := hc.splitting hh (Nat.le_refl _)
  rw [splitting_all] at hr hs hc' hh'
  have hend : splitHome b.heads.size b.heads.size = b.double.index := by
    funext hash
    show _ = hash.toNat % b.double.heads.size
    rw [hs]
    exact if_pos (Nat.mod_lt _ hpos)
  exact ⟨hr, hs, hend ▸ hc', hh'⟩

theorem Sound.double (h : b.Sound hashOf) :
    Rewired b b.double ∧ b.double.Sound hashOf := by
  obtain ⟨chains, hc, hh⟩ := h.threads
  obtain ⟨hr, hs, hc', hh'⟩ := hc.double hh h.heads_pos
  refine ⟨hr, ?_⟩
  exact {
    toStocked := h.toStocked.rewire hr
    threads := ⟨_, hc', hh'⟩
    sized := by
      obtain ⟨j, hj⟩ := h.sized
      refine ⟨j + 1, ?_⟩
      rw [hs, hj, Nat.pow_succ, Nat.mul_assoc] }

theorem Sound.grow (h : b.Sound hashOf) : Rewired b b.grow ∧ b.grow.Sound hashOf := by
  unfold Buckets.grow
  generalize 62 = fuel
  induction fuel generalizing b with
  | zero => exact ⟨.refl b, h⟩
  | succ fuel ih =>
    unfold growFor
    split
    · obtain ⟨hr, hs⟩ := h.double
      obtain ⟨hr', hs'⟩ := ih hs
      exact ⟨hr.trans hr', hs'⟩
    · exact ⟨.refl b, h⟩

/-! ## Halving -/

/-- The bucket of a hash among `half * 2` buckets when the lower ones below `done` have been joined
    with their counterparts. -/
def mergeHome (half done : Nat) (hash : UInt64) : Nat :=
  if hash.toNat % half < done then hash.toNat % half else hash.toNat % (half * 2)

/-- The hashes that joining a bucket with its counterpart concerns. -/
theorem mergeHome_self {half i : Nat} (hi : i < half) (hash : UInt64) :
    mergeHome half i hash = i ∨ mergeHome half i hash = i + half ↔ hash.toNat % half = i := by
  unfold mergeHome
  have hmod := mod_double hash.toNat half
  have hlt : hash.toNat % half < half := Nat.mod_lt _ (Nat.zero_lt_of_lt hi)
  split
  · omega
  · split at hmod <;> omega

theorem mergeHome_succ (half done : Nat) (hash : UInt64) :
    mergeHome half (done + 1) hash =
      if hash.toNat % half = done then done else mergeHome half done hash := by
  unfold mergeHome
  by_cases heq : hash.toNat % half = done
  · rw [if_pos (by omega), if_pos heq, heq]
  · rw [if_neg heq]
    by_cases hlt : hash.toNat % half < done
    · rw [if_pos (by omega), if_pos hlt]
    · rw [if_neg (by omega), if_neg hlt]

/-- The lists after the list of a bucket has been joined with that of its counterpart. -/
def mergeChains (half i : Nat) (chains : Nat → List Nat) (j : Nat) : List Nat :=
  if j = i then chains i ++ chains (i + half)
  else if j = i + half then []
  else chains j

theorem lastFrom_eq {cells : Array (Cell K P)} {l : List Nat} {x fuel : Nat}
    (hs : Strung (next? cells) (x :: l)) (hfuel : l.length ≤ fuel) :
    (x :: l).getLast? = some (lastFrom cells fuel x) := by
  induction l generalizing x fuel with
  | nil =>
    have hx : next? cells x = none := hs.1
    cases fuel <;> simp [lastFrom, hx]
  | cons y l ih =>
    obtain ⟨fuel, rfl, hle⟩ := exists_fuel hfuel
    have hx : next? cells x = some y := hs.1
    rw [List.getLast?_cons_cons, ih hs.2 hle]
    simp only [lastFrom, hx]

/-- What joining a bucket with its counterpart does to the links. The first slot of the counterpart
    stays where it is, but is looked at no more. -/
structure Joined (b b' : Buckets K P) (half i : Nat) (chains : Nat → List Nat) : Prop where
  rewired : Rewired b b'
  size : b'.heads.size = b.heads.size
  others : ∀ j, j ≠ i → b'.head? j = b.head? j
  first : b'.head? i = (chains i ++ chains (i + half)).head?
  strung : ∀ j, Strung (next? b'.cells) (mergeChains half i chains j)

section joined

variable {half i : Nat} {home : UInt64 → Nat} {x y : Nat} {xs ys : List Nat}

theorem mergeChains_self : mergeChains half i chains i = chains i ++ chains (i + half) :=
  if_pos rfl

/-- The other lists are kept, but for the list of the counterpart, which is empty. -/
theorem mem_chains_of_mem_mergeChains {j t : Nat} (hj : j ≠ i)
    (ht : t ∈ mergeChains half i chains j) : t ∈ chains j := by
  unfold mergeChains at ht
  rw [if_neg hj] at ht
  split at ht
  · cases ht
  · exact ht

theorem Threads.strung_mergeChains (h : b.Threads home chains) {j : Nat} (hj : j ≠ i) :
    Strung (next? b.cells) (mergeChains half i chains j) := by
  unfold mergeChains
  rw [if_neg hj]
  split
  · trivial
  · exact h.strung j

theorem Threads.joined_upperEmpty (h : b.Threads home chains)
    (hlow : b.head? i = (chains i).head?) (hhigh : b.head? (i + half) = (chains (i + half)).head?)
    (hup : chains (i + half) = []) : Joined b (b.mergeBucket half i) half i chains := by
  have hout : b.mergeBucket half i = b := by
    rw [Buckets.mergeBucket, hhigh, hup]
    rfl
  rw [hout]
  refine ⟨.refl b, rfl, fun _ _ => rfl, by simpa [hup] using hlow, fun j => ?_⟩
  by_cases hj : j = i
  · rw [hj, mergeChains_self, hup, List.append_nil]
    exact h.strung i
  · exact h.strung_mergeChains hj

theorem Threads.joined_lowerEmpty (h : b.Threads home chains)
    (hlow : b.head? i = (chains i).head?) (hhigh : b.head? (i + half) = (chains (i + half)).head?)
    (hlt : i < b.heads.size) (hdown : chains i = []) (hup : chains (i + half) = y :: ys) :
    Joined b (b.mergeBucket half i) half i chains := by
  have hout : b.mergeBucket half i = { b with heads := b.heads.setIfInBounds i (some y) } := by
    rw [Buckets.mergeBucket, hhigh, hlow, hup, hdown]
    rfl
  rw [hout]
  refine ⟨⟨fun _ => rfl, rfl, rfl, rfl, rfl⟩, by simp, fun j hj => ?_, ?_, fun j => ?_⟩
  · simp [head?, Ne.symm hj]
  · simp [head?, hlt, hdown, hup]
  · by_cases hj : j = i
    · rw [hj, mergeChains_self, hdown, List.nil_append]
      exact h.strung _
    · exact h.strung_mergeChains hj

/-- The last slot of the lower list is pointed at the first one of the upper list. -/
theorem Threads.joined (h : b.Threads home chains)
    (hlow : b.head? i = (chains i).head?) (hhigh : b.head? (i + half) = (chains (i + half)).head?)
    (hhalf : 0 < half) (hdown : chains i = x :: xs) (hup : chains (i + half) = y :: ys) :
    Joined b (b.mergeBucket half i) half i chains := by
  have hlen : xs.length ≤ b.cells.size := by
    have hle := h.length_le i
    rw [hdown, List.length_cons] at hle
    omega
  have hlast := lastFrom_eq (hdown ▸ h.strung i) hlen
  have hout : b.mergeBucket half i =
      { b with cells := setNext b.cells (lastFrom b.cells b.cells.size x) (some y) } := by
    rw [Buckets.mergeBucket, hhigh, hlow, hup, hdown]
    rfl
  generalize lastFrom b.cells b.cells.size x = last at hlast hout
  obtain ⟨init, hinit⟩ := List.getLast?_eq_some_iff.1 hlast
  have hmem : last ∈ chains i := by simp [hdown, hinit]
  -- The last slot belongs to this chain alone, so no other chain is affected.
  have hothers : ∀ j, j ≠ i → ∀ t ∈ chains j, t ≠ last := by
    rintro j hj t ht rfl
    exact hj (h.bucket_unique ht hmem)
  rw [hout]
  refine ⟨⟨fun t => node?_setNext b.cells last t _, size_setNext _ _ _, rfl, rfl, rfl⟩, rfl,
    fun _ _ => rfl, ?_, fun j => ?_⟩
  · show b.head? i = _
    rw [hlow, hdown]
    rfl
  -- The joined chain is the lower one followed by the upper one; all others are as before.
  by_cases hj : j = i
  · have hnd := h.nodup i
    have hxs := h.strung i
    rw [hdown, hinit] at hnd hxs
    rw [hj, mergeChains_self, hdown, hinit, List.append_assoc, List.singleton_append]
    refine hxs.graft (h.strung (i + half)) ?_ fun t ht => next?_setNext_ne ?_
    · rw [next?_setNext_self (h.lt_size hmem), hup]
      rfl
    rcases List.mem_append.1 ht with ht | ht
    · rintro rfl
      exact (List.nodup_append.1 hnd).2.2 t ht t (List.mem_singleton_self t) rfl
    · exact hothers (i + half) (by omega) t ht
  · refine (h.strung_mergeChains hj).congr fun t ht => next?_setNext_ne ?_
    exact hothers j hj t (mem_chains_of_mem_mergeChains hj ht)

theorem Threads.joined_mergeBucket (h : b.Threads home chains)
    (hlow : b.head? i = (chains i).head?) (hhigh : b.head? (i + half) = (chains (i + half)).head?)
    (hi : i < half) (hsize : b.heads.size = half * 2) :
    Joined b (b.mergeBucket half i) half i chains := by
  cases hup : chains (i + half) with
  | nil => exact h.joined_upperEmpty hlow hhigh hup
  | cons y ys =>
    cases hdown : chains i with
    | nil => exact h.joined_lowerEmpty hlow hhigh (by omega) hdown hup
    | cons x xs => exact h.joined hlow hhigh (Nat.zero_lt_of_lt hi) hdown hup

end joined

/-- The slots of the joined lists are at home where they are. -/
theorem Threads.placed_merge {half i j t : Nat} (h : b.Threads (mergeHome half i) chains)
    (hi : i < half) (ht : t ∈ mergeChains half i chains j) :
    ∃ n, b.node? t = some n ∧ mergeHome half (i + 1) n.hash = j := by
  have hjoin {k : Nat} (hk : k = i ∨ k = i + half) (hmem : t ∈ chains k) :
      ∃ n, b.node? t = some n ∧ mergeHome half (i + 1) n.hash = i := by
    obtain ⟨n, hn, hhome⟩ := h.placed k t hmem
    refine ⟨n, hn, ?_⟩
    rw [mergeHome_succ, if_pos ((mergeHome_self hi _).1 (by omega))]
  unfold mergeChains at ht
  split at ht
  · next hj =>
    rw [hj]
    rcases List.mem_append.1 ht with hmem | hmem
    · exact hjoin (.inl rfl) hmem
    · exact hjoin (.inr rfl) hmem
  split at ht
  · cases ht
  · next hj hj' =>
    obtain ⟨n, hn, hhome⟩ := h.placed j t ht
    refine ⟨n, hn, ?_⟩
    rw [mergeHome_succ, if_neg, hhome]
    intro heq
    have := (mergeHome_self hi _).2 heq
    omega

/-- Every node is in the joined list of its home. -/
theorem Threads.covered_merge {half i t : Nat} {n : Node K P}
    (h : b.Threads (mergeHome half i) chains) (hi : i < half) (hn : b.node? t = some n) :
    t ∈ mergeChains half i chains (mergeHome half (i + 1) n.hash) := by
  have hold := h.covered t n hn
  rw [mergeHome_succ]
  by_cases heq : n.hash.toNat % half = i
  · rw [if_pos heq, mergeChains, if_pos rfl, List.mem_append]
    rcases (mergeHome_self hi _).2 heq with hhome | hhome
    · exact .inl (hhome ▸ hold)
    · exact .inr (hhome ▸ hold)
  · have hne : ¬(mergeHome half i n.hash = i ∨ mergeHome half i n.hash = i + half) :=
      fun hs => heq ((mergeHome_self hi _).1 hs)
    rw [if_neg heq, mergeChains, if_neg (fun hs => hne (.inl hs)),
      if_neg (fun hs => hne (.inr hs))]
    exact hold

/-- The buckets that are still looked at have the first slots of their lists. -/
def HeadedBut (half done : Nat) (b : Buckets K P) (chains : Nat → List Nat) : Prop :=
  ∀ j, j < half ∨ half + done ≤ j → b.head? j = (chains j).head?

/-- Joining a bucket with its counterpart, as a change of the lists. -/
theorem Threads.mergeBucket {half i : Nat} (h : b.Threads (mergeHome half i) chains)
    (hh : HeadedBut half i b chains) (hi : i < half) (hsize : b.heads.size = half * 2) :
    Rewired b (b.mergeBucket half i) ∧ (b.mergeBucket half i).heads.size = b.heads.size ∧
      (b.mergeBucket half i).Threads (mergeHome half (i + 1)) (mergeChains half i chains) ∧
      HeadedBut half (i + 1) (b.mergeBucket half i) (mergeChains half i chains) := by
  obtain ⟨hr, hs, hothers, hself, hstrung⟩ := h.joined_mergeBucket (hh i (.inl hi))
    (hh (i + half) (.inr (by omega))) hi hsize
  refine ⟨hr, hs, ?_, ?_⟩
  · exact {
      strung := hstrung
      nodup := by
        intro j
        unfold mergeChains
        split
        · -- No slot is in two chains.
          refine List.nodup_append.2 ⟨h.nodup i, h.nodup _, fun t ht u hu => ?_⟩
          rintro rfl
          have := h.bucket_unique ht hu
          omega
        split
        · exact List.nodup_nil
        · exact h.nodup j
      placed := by
        intro j t ht
        obtain ⟨n, hn, hhome⟩ := h.placed_merge hi ht
        exact ⟨n, (hr.node? t).trans hn, hhome⟩
      covered := by
        intro t n hn
        exact h.covered_merge hi ((hr.node? t).symm.trans hn) }
  · -- The heads of buckets that are not merged yet are still right.
    intro j hj
    unfold mergeChains
    by_cases hji : j = i
    · rw [if_pos hji, hji]
      exact hself
    · rw [if_neg hji, if_neg (by omega), hothers j hji]
      exact hh j (by omega)

/-- Joining the buckets below `n` with their counterparts in turn. -/
theorem mergeBuckets {half : Nat} (h : b.Threads (mergeHome half 0) chains)
    (hh : b.Headed chains) (hsize : b.heads.size = half * 2) {n : Nat} (hn : n ≤ half) :
    let b' := (List.range n).foldl (mergeBucket half) b
    Rewired b b' ∧ b'.heads.size = half * 2 ∧
      ∃ chains', b'.Threads (mergeHome half n) chains' ∧ HeadedBut half n b' chains' := by
  induction n with
  | zero => exact ⟨.refl b, hsize, chains, h, fun j _ => hh j⟩
  | succ n ih =>
    obtain ⟨hr, hs, chains', hc, hh'⟩ := ih (Nat.le_of_succ_le hn)
    obtain ⟨hr', hs', hc', hh''⟩ := hc.mergeBucket hh' hn hs
    simp only [List.range_succ, List.foldl_append, List.foldl_cons, List.foldl_nil]
    exact ⟨hr.trans hr', hs'.trans hs, _, hc', hh''⟩

/-- More than the least number of buckets is an even number of them. -/
theorem sized_half {n : Nat} (h : ∃ j, n = LoadFactor.leastBuckets * 2 ^ j)
    (hmore : LoadFactor.leastBuckets < n) :
    (∃ j, n / 2 = LoadFactor.leastBuckets * 2 ^ j) ∧ n = n / 2 * 2 := by
  obtain ⟨j, hj⟩ := h
  obtain ⟨i, rfl⟩ : ∃ i, j = i + 1 := by
    cases j with
    | zero => simp [hj] at hmore
    | succ i => exact ⟨i, rfl⟩
  rw [Nat.pow_succ, ← Nat.mul_assoc] at hj
  exact ⟨⟨i, by omega⟩, by omega⟩

theorem Sound.halve (h : b.Sound hashOf) (hmore : LoadFactor.leastBuckets < b.heads.size) :
    Rewired b b.halve ∧ b.halve.Sound hashOf := by
  obtain ⟨chains, hc, hh⟩ := h.threads
  obtain ⟨hsized, hsize⟩ := sized_half h.sized hmore
  have hpos : 0 < b.heads.size / 2 := by
    unfold LoadFactor.leastBuckets at hmore
    omega
  -- Before the first bucket is merged every node is at home by the full index.
  have hstart : mergeHome (b.heads.size / 2) 0 = b.index := by
    funext hash
    rw [index, mergeHome, if_neg (Nat.not_lt_zero _), ← hsize]
  obtain ⟨hr, hs, chains', hc', hh'⟩ := mergeBuckets (hstart ▸ hc) hh hsize (Nat.le_refl _)
  have htake : b.halve.heads.size = b.heads.size / 2 := by
    simp only [Buckets.halve, Array.take_eq_extract, Array.size_extract, hs]
    omega
  -- After the last one it is so by the index of half as many buckets.
  have hend : mergeHome (b.heads.size / 2) (b.heads.size / 2) = b.halve.index := by
    funext hash
    rw [index, htake]
    exact if_pos (Nat.mod_lt _ hpos)
  have hr' : Rewired b b.halve := ⟨hr.node?, hr.cells, hr.vacant, hr.generation, hr.size⟩
  refine ⟨hr', ?_⟩
  exact {
    toStocked := h.toStocked.rewire hr'
    threads := by
      refine ⟨chains', hend ▸ ⟨hc'.strung, hc'.nodup, hc'.placed, hc'.covered⟩, fun i => ?_⟩
      by_cases hi : i < b.heads.size / 2
      · rw [← hh' i (.inl hi)]
        simp only [head?, Buckets.halve, Array.take_eq_extract, Array.getElem?_extract]
        rw [if_pos (by omega)]
        simp
      · rw [hc'.eq_nil, head?, Array.getElem?_eq_none (by omega)]
        · rfl
        · intro hash heq
          rw [mergeHome, if_pos (Nat.mod_lt _ hpos)] at heq
          exact hi (heq ▸ Nat.mod_lt _ hpos)
    sized := htake ▸ hsized }

theorem Sound.shrinkFor (h : b.Sound hashOf) (fuel : Nat) :
    Rewired b (shrinkFor fuel b) ∧ (Buckets.shrinkFor fuel b).Sound hashOf := by
  induction fuel generalizing b with
  | zero => exact ⟨.refl b, h⟩
  | succ fuel ih =>
    unfold Buckets.shrinkFor
    split
    · next hsparse =>
      simp only [isSparse, Bool.and_eq_true, decide_eq_true_eq] at hsparse
      obtain ⟨hr, hs⟩ := h.halve hsparse.1
      obtain ⟨hr', hs'⟩ := ih hs
      exact ⟨hr.trans hr', hs'⟩
    · exact ⟨.refl b, h⟩

/-! ## Cutting the slab -/

theorem Stocked.occupiedEnd_spec (h : b.Stocked hashOf) (n : Nat) :
    reserved ≤ b.occupiedEnd n ∧ b.occupiedEnd n ≤ max reserved n ∧
      ∀ s < n, (b.node? s).isSome → s < b.occupiedEnd n := by
  induction n with
  | zero => exact ⟨Nat.le_refl _, by simp [occupiedEnd], by simp⟩
  | succ n ih =>
    obtain ⟨hres, hle, hall⟩ := ih
    unfold occupiedEnd
    split
    · next hsome =>
      obtain ⟨node, hnode⟩ := Option.isSome_iff_exists.1 hsome
      have hslot := (h.slot n node hnode).2
      exact ⟨by omega, by omega, fun s hs _ => hs⟩
    · next hnone =>
      refine ⟨hres, by omega, fun s hs hsome => ?_⟩
      have hne : s ≠ n := by
        rintro rfl
        exact hnone hsome
      exact hall s (by omega) hsome

/-- Below the cut the slab stays as it is. -/
theorem getElem?_cutSlab {s : Nat} (hs : s < b.occupiedEnd b.cells.size) :
    b.cutSlab.cells[s]? = b.cells[s]? := by
  simp only [cutSlab, Array.take_eq_extract, Array.getElem?_extract]
  split
  · simp
  · next hge => rw [Array.getElem?_eq_none (by omega)]

theorem Stocked.node?_cutSlab (h : b.Stocked hashOf) (s : Nat) :
    b.cutSlab.node? s = b.node? s := by
  obtain ⟨-, -, hall⟩ := h.occupiedEnd_spec b.cells.size
  by_cases hs : s < b.occupiedEnd b.cells.size
  · unfold node?
    rw [getElem?_cutSlab hs]
  · have hnone : b.node? s = none := by
      by_contra hsome
      obtain ⟨node, hnode⟩ := Option.ne_none_iff_exists'.1 hsome
      exact hs (hall s (lt_size_of_node? hnode) (by simp [hnode]))
    rw [hnone, node?, Array.getElem?_eq_none]
    · rfl
    · simp only [cutSlab, Array.take_eq_extract, Array.size_extract]
      omega

theorem Sound.cutSlab (h : b.Sound hashOf) : b.cutSlab.Sound hashOf := by
  -- No node lies in the slots that are cut off, so only spare ones are lost.
  obtain ⟨hres, hle, hall⟩ := h.toStocked.occupiedEnd_spec b.cells.size
  have hnode := h.toStocked.node?_cutSlab
  have hsize : b.cutSlab.cells.size = b.occupiedEnd b.cells.size := by
    have hslab := h.slab
    simp only [Buckets.cutSlab, Array.take_eq_extract, Array.size_extract]
    omega
  obtain ⟨chains, hc, hh⟩ := h.threads
  have hstocked : b.cutSlab.Stocked hashOf := by
    refine h.of_sub (fun s n hn => (hnode s).symm.trans hn) rfl (fun s hs => ?_)
      (h.spare.filter _) (hsize ▸ hres)
    obtain ⟨hmem, hlt⟩ := List.mem_filter.1 hs
    obtain ⟨-, hnone, hslot⟩ := h.vacant s hmem
    exact ⟨hsize ▸ of_decide_eq_true hlt, (hnode s).trans hnone, hslot⟩
  refine ⟨hstocked, ⟨chains, ⟨fun i => ?_, hc.nodup, fun i s hs => ?_, fun s n hn => ?_⟩, hh⟩,
    h.sized⟩
  · refine (hc.strung i).congr fun s hs => ?_
    obtain ⟨n, hn, -⟩ := hc.placed i s hs
    unfold next?
    rw [getElem?_cutSlab (hall s (lt_size_of_node? hn) (by simp [hn]))]
  · rw [hnode]
    exact hc.placed i s hs
  · rw [hnode] at hn
    exact hc.covered s n hn

theorem Sound.pinch (h : b.Sound hashOf) :
    b.pinch.Sound hashOf ∧ ∀ s, b.pinch.node? s = b.node? s := by
  obtain ⟨hr, hs⟩ := h.shrinkFor b.heads.size.log2
  exact ⟨hs.cutSlab, fun s => (hs.toStocked.node?_cutSlab s).trans (hr.node? s)⟩

/-! ## The beginning -/

theorem bucketsFor_sized (f : LoadFactor) (capacity : Nat) :
    ∃ j, f.bucketsFor capacity = LoadFactor.leastBuckets * 2 ^ j := by
  obtain ⟨k, hk⟩ := Nat.isPowerOfTwo_nextPowerOfTwo
    (min ((capacity * f.den + f.num - 1) / f.num) LoadFactor.mostBuckets)
  simp only [LoadFactor.bucketsFor, hk]
  by_cases hle : 4 ≤ k
  · obtain ⟨j, rfl⟩ := Nat.exists_eq_add_of_le hle
    refine ⟨j, ?_⟩
    have hpos := Nat.two_pow_pos j
    rw [Nat.pow_add]
    simp only [LoadFactor.leastBuckets]
    omega
  · refine ⟨0, ?_⟩
    have hlt : 2 ^ k ≤ 2 ^ 4 := Nat.pow_le_pow_right (by decide) (by omega)
    simp only [LoadFactor.leastBuckets]
    omega

theorem sound_empty (capacity : Nat) (f : LoadFactor) :
    (Buckets.empty capacity f : Buckets K P).Sound hashOf := by
  refine sound_of_none (fun s => ?_) (fun i => ?_) rfl (by simp [empty]) ?_
  · simp only [node?, empty, Array.getElem?_replicate]
    split <;> rfl
  · simp only [head?, empty, Array.getElem?_replicate]
    split <;> rfl
  · obtain ⟨j, hj⟩ := bucketsFor_sized f capacity
    exact ⟨j, by simp [empty, hj]⟩

end ReadThrough.Table.Buckets
