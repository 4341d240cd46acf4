import Mathlib.Data.List.Nodup
import Mathlib.Data.List.Perm.Subperm

/-! # Lists Threaded Through Slots

  What the dirty chain and the chains of the buckets have in common: every slot knows its
  successor, and the slots of a list lead from one to the next.

  - **Strung**: the successors lead along the list and end with it.
  - **splice**, **graft**: a list is cut behind a slot and continued with another one. Appending,
    removing and joining are special cases.
  - **erase**, **insert**: a slot is left out of a list, or put into it.
  - **exists_fuel**: how many steps a loop along a list needs.
-/

namespace ReadThrough

variable {next next' : Nat → Option Nat} {xs ys zs : List Nat} {x : Nat}

/-- The successors of the slots lead along the list and end with it. -/
def Strung (next : Nat → Option Nat) : List Nat → Prop
  | [] => True
  | x :: xs => next x = xs.head? ∧ Strung next xs

theorem Strung.congr (h : ∀ x ∈ xs, next' x = next x) (hs : Strung next xs) :
    Strung next' xs := by
  induction xs with
  | nil => trivial
  | cons x xs ih =>
    refine ⟨?_, ih (fun y hy => h y (List.mem_cons_of_mem _ hy)) hs.2⟩
    rw [h x List.mem_cons_self]
    exact hs.1

/-- A list determines the successors of its slots. -/
theorem Strung.unique (hs : Strung next xs) (hs' : Strung next' xs) :
    ∀ x ∈ xs, next' x = next x := by
  induction xs with
  | nil => exact nofun
  | cons x xs ih =>
    intro y hy
    rcases List.mem_cons.1 hy with rfl | hy
    · exact hs'.1.trans hs.1.symm
    · exact ih hs.2 hs'.2 y hy

theorem Strung.suffix (hs : Strung next (xs ++ ys)) : Strung next ys := by
  induction xs with
  | nil => exact hs
  | cons x xs ih => exact ih hs.2

theorem Strung.next_eq (hs : Strung next (xs ++ x :: ys)) : next x = ys.head? :=
  hs.suffix.1

/-- The last slot of a list has no successor. -/
theorem Strung.next_last (hs : Strung next xs) (hlast : xs.getLast? = some x) : next x = none := by
  obtain ⟨init, rfl⟩ := List.getLast?_eq_some_iff.1 hlast
  exact hs.next_eq

/-- Behind one of its slots a list goes on with another one, whose slots lead along already. -/
theorem Strung.splice (hxs : Strung next (xs ++ x :: zs)) (hys : Strung next' ys)
    (hx : next' x = ys.head?) (hsame : ∀ y ∈ xs, next' y = next y) :
    Strung next' (xs ++ x :: ys) := by
  induction xs with
  | nil => exact ⟨hx, hys⟩
  | cons y xs ih =>
    refine ⟨?_, ih hxs.2 fun z hz => hsame z (List.mem_cons_of_mem _ hz)⟩
    rw [hsame y List.mem_cons_self, hxs.1]
    cases xs <;> rfl

/-- Behind one of its slots a list goes on with another one. -/
theorem Strung.graft (hxs : Strung next (xs ++ x :: zs)) (hys : Strung next ys)
    (hx : next' x = ys.head?) (hsame : ∀ y ∈ xs ++ ys, next' y = next y) :
    Strung next' (xs ++ x :: ys) :=
  hxs.splice (hys.congr fun y hy => hsame y (List.mem_append_right _ hy)) hx
    fun y hy => hsame y (List.mem_append_left _ hy)

/-- A slot is left out of a list: the one before it is pointed at the one behind it. -/
theorem Strung.erase (hs : Strung next (xs ++ x :: ys)) (hnd : (xs ++ ys).Nodup)
    (h : ∀ y ∈ xs ++ ys, next' y = if xs.getLast? = some y then ys.head? else next y) :
    Strung next' (xs ++ ys) := by
  have hys : Strung next ys := hs.suffix.2
  rcases List.eq_nil_or_concat' xs with rfl | ⟨init, p, rfl⟩
  · exact hys.congr fun y hy => h y hy
  rw [List.append_assoc, List.singleton_append] at hs hnd ⊢
  have hp : p ∉ init ∧ p ∉ ys := by
    obtain ⟨-, hcons, hdisj⟩ := List.nodup_append.1 hnd
    exact ⟨fun hmem => hdisj p hmem p List.mem_cons_self rfl, (List.nodup_cons.1 hcons).1⟩
  have hlast : (init ++ [p]).getLast? = some p := List.getLast?_concat
  refine hs.graft hys ?_ fun y hy => ?_
  · rw [h p (by simp), hlast, if_pos rfl]
  · have hne : p ≠ y := by
      intro heq
      subst heq
      exact (List.mem_append.1 hy).elim hp.1 hp.2
    rw [h y (by rw [List.append_assoc]; simp only [List.mem_append, List.mem_cons] at hy ⊢; tauto),
      hlast, if_neg fun heq => hne (Option.some.inj heq)]

/-- A slot is put between two slots of a list. -/
theorem Strung.insert (hs : Strung next (xs ++ ys)) (hnd : (xs ++ ys).Nodup)
    (hx : next' x = ys.head?)
    (h : ∀ y ∈ xs ++ ys, next' y = if xs.getLast? = some y then some x else next y) :
    Strung next' (xs ++ x :: ys) := by
  have hold {y : Nat} (hy : y ∈ xs ++ ys) (hlast : xs.getLast? ≠ some y) : next' y = next y := by
    rw [h y hy, if_neg hlast]
  have hys : Strung next' (x :: ys) := by
    refine ⟨hx, hs.suffix.congr fun y hy => hold (List.mem_append_right _ hy) fun hlast => ?_⟩
    exact (List.nodup_append.1 hnd).2.2 y (List.mem_of_getLast? hlast) y hy rfl
  rcases List.eq_nil_or_concat' xs with rfl | ⟨init, p, rfl⟩
  · exact hys
  have hlast : (init ++ [p]).getLast? = some p := List.getLast?_concat
  have hsplit : Strung next (init ++ p :: ys) := by simpa using hs
  rw [List.append_assoc, List.singleton_append]
  refine hsplit.splice hys ?_ fun y hy => hold (by simp [hy]) fun heq => ?_
  · rw [h p (by simp), hlast, if_pos rfl]
    rfl
  · -- The last slot does not occur before itself.
    rw [hlast, Option.some.injEq] at heq
    subst heq
    have hinit := (List.nodup_append.1 (List.nodup_append.1 hnd).1).2.2
    exact hinit p hy p (List.mem_singleton_self p) rfl

/-- As many steps as a list is long are one more than enough for the rest of it. -/
theorem exists_fuel {α : Type} {a : α} {as : List α} {fuel : Nat} (h : (a :: as).length ≤ fuel) :
    ∃ n, fuel = n + 1 ∧ as.length ≤ n := by
  cases fuel with
  | zero => exact absurd h (Nat.not_succ_le_zero _)
  | succ n => exact ⟨n, rfl, Nat.le_of_succ_le_succ h⟩

/-- A list of different slots is no longer than their number. -/
theorem length_le_of_nodup {n : Nat} (hnodup : xs.Nodup) (hlt : ∀ x ∈ xs, x < n) :
    xs.length ≤ n := by
  have hsub : xs ⊆ List.range n := fun x hx => List.mem_range.2 (hlt x hx)
  simpa using (hnodup.subperm hsub).length_le

end ReadThrough
