import ReadThrough.Proofs.Table.WellFormed

/-! # Chains that are Split

  Doubling the buckets takes every chain apart, and nothing gets lost or out of order.

  - **WellChained**: the chains lead through the nodes of their buckets and end. Nothing is said
    about keys, nor about where the hashes come from.
  - **Ends**: a loop along a chain is over when the chain is, however many steps it may take.
  - **upper**: the bit of the hash that tells the two halves of a chain apart.
  - **WellChained.double**: every chain becomes two, each with its slots in their old order.
  - **chains_split**: beyond that, a key is found as before, also after several doublings.
-/

namespace ReadThrough.Table.Buckets

variable {K P : Type} {b : Buckets K P} {cells : Array (Cell K P)} {l : List Nat}
  {fuel i j s : Nat}

/-! ## Loops along a chain -/

theorem predecessor?_fuel (hs : Strung (next? cells) l) (hfuel : l.length ≤ fuel) :
    predecessor? cells s fuel l.head? = predecessor? cells s l.length l.head? := by
  induction l generalizing fuel with
  | nil => cases fuel <;> rfl
  | cons x l ih =>
    obtain ⟨fuel, rfl, hle⟩ := exists_fuel hfuel
    simp only [List.head?_cons, List.length_cons, predecessor?, hs.1,
      ih hs.2 hle]

/-- A chain is split in as many steps as it has slots, if the chains that its slots are appended to
    have others. -/
theorem splitFrom_fuel {bit : Nat} {split : Split} (hs : Strung (next? cells) l) (hnd : l.Nodup)
    (hlow : ∀ t ∈ l, split.lowLast? ≠ some t) (hhigh : ∀ t ∈ l, split.highLast? ≠ some t)
    (hfuel : l.length ≤ fuel) :
    splitFrom bit fuel l.head? cells split = splitFrom bit l.length l.head? cells split := by
  induction l generalizing fuel cells split with
  | nil => cases fuel <;> rfl
  | cons x l ih =>
    obtain ⟨fuel, rfl, hle⟩ := exists_fuel hfuel
    obtain ⟨hx, hnd'⟩ := List.nodup_cons.1 hnd
    have hne : ∀ t ∈ l, some x ≠ some t := by
      rintro t ht ⟨rfl⟩
      exact hx ht
    have hlow' : ∀ t ∈ l, split.lowLast? ≠ some t := fun t ht => hlow t (List.mem_cons_of_mem x ht)
    have hhigh' : ∀ t ∈ l, split.highLast? ≠ some t :=
      fun t ht => hhigh t (List.mem_cons_of_mem x ht)
    -- The slots to come keep their successors, whichever chain the slot goes to.
    have hrest {last? : Option Nat} (hlast : ∀ t ∈ l, last? ≠ some t) :
        Strung (next? (linkLast (setNext cells x none) last? x)) l := by
      refine hs.2.congr fun t ht => (next?_linkLast_ne (hlast t ht)).trans (next?_setNext_ne ?_)
      exact ne_of_mem_of_not_mem ht hx
    simp only [List.head?_cons, List.length_cons, splitFrom, hs.1]
    split
    · exact ih (hrest hhigh') hnd' hlow' hne hle
    · exact ih (hrest hlow') hnd' hne hhigh' hle

/-! ## Well-formed chains -/

/-- There are 2^j chains. Each of them leads through different slots, which hold just those nodes
    whose hashes are at home there. -/
structure WellChained (b : Buckets K P) (j : Nat) : Prop where
  sized : b.heads.size = 2 ^ j
  threads : b.Threads b.index b.chain
  headed : b.Headed b.chain

/-- Every loop along a chain is over when the chain is, even if more steps are allowed for: listing
    its slots, looking for a key, for the slot before a given one and for the slot behind all. -/
structure Ends [DecidableEq K] (b : Buckets K P) : Prop where
  last : ∀ i s, (b.chain i).getLast? = some s → next? b.cells s = none
  slots : ∀ i fuel, (b.chain i).length ≤ fuel →
    chainFrom b.cells fuel (b.head? i) = b.chain i
  search : ∀ hash (key : K) i fuel, (b.chain i).length ≤ fuel →
    findFrom b.cells hash key fuel (b.head? i) =
      findFrom b.cells hash key b.cells.size (b.head? i)
  before : ∀ s i fuel, (b.chain i).length ≤ fuel →
    predecessor? b.cells s fuel (b.head? i) = predecessor? b.cells s b.cells.size (b.head? i)
  behind : ∀ s i fuel, b.head? i = some s → (b.chain i).length ≤ fuel →
    (b.chain i).getLast? = some (lastFrom b.cells fuel s)

theorem Sound.wellChained {hashOf : K → UInt64} (h : b.Sound hashOf)
    (hsize : b.heads.size = 2 ^ j) : b.WellChained j :=
  ⟨hsize, h.chain_eq.1, h.chain_eq.2⟩

theorem WellChained.ends [DecidableEq K] (h : b.WellChained j) : b.Ends := by
  have hstrung := h.threads.strung
  -- Every chain is shorter than the slab, so the slab as fuel is as good as any that is enough.
  have hlength := h.threads.length_le
  refine ⟨fun i s => (hstrung i).next_last, ?_, ?_, ?_, ?_⟩
  · intro i fuel hfuel
    rw [h.headed i]
    exact chainFrom_eq (hstrung i) hfuel
  · intro hash key i fuel hfuel
    have hnodes : ∀ s ∈ b.chain i, ∃ node, b.node? s = some node := by
      intro s hs
      obtain ⟨node, hnode, -⟩ := h.threads.placed i s hs
      exact ⟨node, hnode⟩
    rw [h.headed i, findFrom_eq (hstrung i) hfuel hnodes,
      findFrom_eq (hstrung i) (hlength i) hnodes]
  · intro s i fuel hfuel
    rw [h.headed i, predecessor?_fuel (hstrung i) hfuel, predecessor?_fuel (hstrung i) (hlength i)]
  · intro s i fuel hfirst hfuel
    rw [h.headed i] at hfirst
    obtain ⟨l, hl⟩ := List.head?_eq_some_iff.1 hfirst
    have hs := hstrung i
    rw [hl] at hs hfuel ⊢
    exact lastFrom_eq hs (Nat.le_of_succ_le hfuel)

/-! ## Doubling -/

/-- Whether a slot holds a node whose hash has bit `j` set. -/
def upper (b : Buckets K P) (j s : Nat) : Bool :=
  (b.node? s).any fun node => node.hash.toNat.testBit j

theorem isHigh_two_pow (b : Buckets K P) (j : Nat) : isHigh (2 ^ j) b.cells = b.upper j := by
  funext s
  unfold isHigh upper node?
  congr 1
  funext node
  rw [Nat.testBit_eq_decide_div_mod_eq]
  rfl

/-- Every chain becomes two. The slots of either one stand in the order in which they were. -/
theorem WellChained.double (h : b.WellChained j) :
    Rewired b b.double ∧ b.double.WellChained (j + 1) ∧ ∀ i < 2 ^ j,
      b.double.chain i = (b.chain i).filter (fun s => !b.upper j s) ∧
        b.double.chain (i + 2 ^ j) = (b.chain i).filter (b.upper j) := by
  have hpos : 0 < b.heads.size := h.sized ▸ Nat.two_pow_pos j
  obtain ⟨hr, hsize, hc, hh⟩ := h.threads.double h.headed hpos
  have hchain := hc.chain_eq hh
  have hwell : b.double.WellChained (j + 1) := by
    refine ⟨?_, hchain ▸ hc, hchain ▸ hh⟩
    rw [hsize, h.sized, Nat.pow_succ]
  refine ⟨hr, hwell, fun i hi => ?_⟩
  rw [hchain, h.sized, isHigh_two_pow]
  unfold splitUpTo
  constructor
  · rw [if_pos hi]
  · rw [if_neg (by omega), if_pos (by omega), Nat.add_sub_cancel]

/-- While the buckets are doubled, the chain that is split next is still the old one. -/
theorem WellChained.splitting (h : b.WellChained j) (hi : i < 2 ^ j) :
    let b' := b.splitting i
    Rewired b b' ∧ b'.Threads (splitHome (2 ^ j) i) b'.chain ∧ b'.Headed b'.chain ∧
      b'.chain i = b.chain i := by
  rw [← h.sized] at hi ⊢
  obtain ⟨hr, -, hc, hh⟩ := h.threads.splitting h.headed (Nat.le_of_lt hi)
  have hchain := hc.chain_eq hh
  rw [← hchain] at hc hh
  refine ⟨hr, hc, hh, ?_⟩
  rw [hchain]
  unfold splitUpTo
  rw [if_neg (Nat.lt_irrefl i), if_neg (by omega)]

/-- Splitting a chain is over when the chain is. -/
theorem WellChained.split_ends (h : b.WellChained j) (hi : i < 2 ^ j)
    (hfuel : (b.chain i).length ≤ fuel) :
    let b' := b.splitting i
    splitFrom (2 ^ j) fuel (b'.head? i) b'.cells {} =
      splitFrom (2 ^ j) b'.cells.size (b'.head? i) b'.cells {} := by
  obtain ⟨-, hc, hh, hsame⟩ := h.splitting hi
  have hlength {fuel : Nat} (hfuel : ((b.splitting i).chain i).length ≤ fuel) :
      splitFrom (2 ^ j) fuel ((b.splitting i).chain i).head? (b.splitting i).cells {} =
        splitFrom (2 ^ j) ((b.splitting i).chain i).length ((b.splitting i).chain i).head?
          (b.splitting i).cells {} :=
    splitFrom_fuel (hc.strung i) (hc.nodup i) nofun nofun hfuel
  intro b'
  rw [hh i, hlength (hsame ▸ hfuel), hlength (hc.length_le i)]

/-! ## Looking a key up -/

/-- What is looked for is found as well among some of the slots, if it is not at the others. -/
theorem find?_filter {α : Type} {l : List Nat} {g : Nat → Option α} {p : α → Bool} {q : Nat → Bool}
    (h : ∀ s a, g s = some a → p a = true → q s = true) :
    ((l.filter q).filterMap g).find? p = (l.filterMap g).find? p := by
  rw [List.find?_filterMap, List.find?_filterMap, List.find?_filter]
  congr 2
  funext s
  cases hs : g s with
  | none => simp
  | some a =>
    cases hp : p a with
    | false => simp [hp]
    | true => simp [hp, h s a hs hp]

section

variable [DecidableEq K]

/-- The nodes with a hash are all in the half of their chain where the hash is at home. -/
theorem WellChained.find?_double (h : b.WellChained j) (hash : UInt64) (key : K) :
    b.double.find? hash key = b.find? hash key := by
  obtain ⟨hr, hwell, hhalves⟩ := h.double
  have hnode : b.double.node? = b.node? := funext hr.node?
  have hi : hash.toNat % 2 ^ j < 2 ^ j := Nat.mod_lt _ (Nat.two_pow_pos j)
  obtain ⟨hlow, hhigh⟩ := hhalves _ hi
  -- A node with the hash lies above or below according to the bit of the hash itself.
  have hbit {s : Nat} {n : Node K P} (hs : b.node? s = some n) (hn : n.hash = hash) :
      b.upper j s = (hash.toNat / 2 ^ j % 2 == 1) := by
    rw [← isHigh_two_pow, isHigh_eq hs, hn]
  rw [find?_eq hwell.threads hwell.headed, find?_eq h.threads h.headed, hnode]
  have hhome : b.double.index hash =
      if hash.toNat / 2 ^ j % 2 == 1 then hash.toNat % 2 ^ j + 2 ^ j else hash.toNat % 2 ^ j := by
    rw [index, hwell.sized, Nat.pow_succ, mod_double]
  have hold : b.index hash = hash.toNat % 2 ^ j := by rw [index, h.sized]
  rw [hhome, hold]
  cases hupper : hash.toNat / 2 ^ j % 2 == 1 with
  | true =>
    rw [if_pos rfl, hhigh]
    refine find?_filter fun s n hs hfound => ?_
    rw [hbit hs (of_decide_eq_true hfound).1, hupper]
  | false =>
    rw [if_neg Bool.false_ne_true, hlow]
    refine find?_filter fun s n hs hfound => ?_
    rw [hbit hs (of_decide_eq_true hfound).1, hupper, Bool.not_false]

/-- Doubling any number of times moves no node to where it is not found. -/
theorem WellChained.growFor (h : b.WellChained j) (fuel : Nat) :
    ∃ k, (growFor fuel b).WellChained (j + k) ∧
      ∀ hash key, (Buckets.growFor fuel b).find? hash key = b.find? hash key := by
  induction fuel generalizing b j with
  | zero => exact ⟨0, h, fun _ _ => rfl⟩
  | succ fuel ih =>
    unfold Buckets.growFor
    split
    · obtain ⟨-, hwell, -⟩ := h.double
      obtain ⟨k, hk, hfind⟩ := ih hwell
      refine ⟨k + 1, ?_, fun hash key => (hfind hash key).trans (h.find?_double hash key)⟩
      rwa [Nat.add_comm k, ← Nat.add_assoc]
    · exact ⟨0, h, fun _ _ => rfl⟩

/-- Doubling 2^j buckets with any nodes in them splits the chain of each bucket `i` in two. The nodes
    whose hashes have bit `j` clear stay at `i` and the others come to `i + 2^j`, both in the order
    they had, so that together they are what was there. The chains are well formed again.

    So every hash and key leads to the same node before and after growing. Every loop along a chain
    is over when the chain is: those that look for a key or a slot, and the one that takes the chain
    apart when its turn has come. -/
theorem chains_split (h : b.WellChained j) :
    (Rewired b b.double ∧ b.double.WellChained (j + 1)) ∧
      (∀ i < 2 ^ j,
        b.double.chain i = (b.chain i).filter (fun s => !b.upper j s) ∧
          b.double.chain (i + 2 ^ j) = (b.chain i).filter (b.upper j) ∧
          (b.double.chain i ++ b.double.chain (i + 2 ^ j)).Perm (b.chain i)) ∧
      (∀ hash key, b.double.find? hash key = b.find? hash key ∧
        b.grow.find? hash key = b.find? hash key) ∧
      (∃ k, b.grow.WellChained (j + k)) ∧
      (b.Ends ∧ b.double.Ends ∧ b.grow.Ends) ∧
      ∀ i < 2 ^ j, ∀ fuel, (b.chain i).length ≤ fuel →
        let b' := b.splitting i
        b'.chain i = b.chain i ∧
          splitFrom (2 ^ j) fuel (b'.head? i) b'.cells {} =
            splitFrom (2 ^ j) b'.cells.size (b'.head? i) b'.cells {} := by
  obtain ⟨hr, hwell, hhalves⟩ := h.double
  obtain ⟨k, hk, hfind⟩ := h.growFor 62
  refine ⟨⟨hr, hwell⟩, ?_, fun hash key => ⟨h.find?_double hash key, hfind hash key⟩, ⟨k, hk⟩,
    ⟨h.ends, hwell.ends, hk.ends⟩, ?_⟩
  · intro i hi
    obtain ⟨hlow, hhigh⟩ := hhalves i hi
    refine ⟨hlow, hhigh, ?_⟩
    rw [hlow, hhigh]
    exact List.perm_append_comm.trans (List.filter_append_perm (b.upper j) (b.chain i))
  · intro i hi fuel hfuel b'
    obtain ⟨-, -, -, hsame⟩ := h.splitting hi
    exact ⟨hsame, h.split_ends hi hfuel⟩

end

/-- Five of six nodes are in the same one of 16 chains, with bit 4 of their hashes clear and set by
    turns. Doubling leaves three of them there and finds the others 16 buckets further on. -/
theorem chains_split_by_turns :
    let insert {N : Type} (key : Nat) : Operation N Nat Nat :=
      .getOrInsert key (.ok key) (fun _ used => used) fun _ _ => .keep
    let t : Table Nat Nat :=
      ((((((Table.empty 0 9 .standard Nat.toUInt64).perform (insert 3)).1.perform
        (insert 19)).1.perform (insert 35)).1.perform (insert 7)).1.perform
        (insert 51)).1.perform (insert 67) |>.1
    let b := t.buckets
    b.WellChained 4 ∧ b.chain 3 = [7, 6, 4, 3, 2] ∧ b.double.chain 3 = [7, 4, 2] ∧
      b.double.chain 19 = [6, 3] ∧ b.double.chain 7 = [5] ∧
      b.double.find? 51 51 = b.find? 51 51 ∧ (b.find? 51 51).isSome := by
  intro insert t b
  have ht : t.Reachable := .perform _ (.perform _ (.perform _ (.perform _ (.perform _ (.perform _
    (.empty 0 9 .standard _) rfl) rfl) rfl) rfl) rfl) rfl
  have hwell : b.WellChained 4 := ht.orderly.sound.wellChained (by decide +kernel)
  obtain ⟨-, hhalves, hfind, -⟩ := chains_split hwell
  obtain ⟨hlow, hhigh, -⟩ := hhalves 3 (by decide)
  obtain ⟨halone, -⟩ := hhalves 7 (by decide)
  refine ⟨hwell, by decide +kernel, ?_, ?_, ?_, (hfind 51 51).1, by decide +kernel⟩
  · rw [hlow]
    decide +kernel
  · exact hhigh.trans (by decide +kernel)
  · rw [halone]
    decide +kernel

end ReadThrough.Table.Buckets
