import ReadThrough.Proofs.Runs.Systems

/-! # What Happens in a Run

  - **Sometime**, **Throughout**: some action of a run, or every one, happens in a state that
    satisfies a condition.
  - **closed?**: the name whose open batch an action finishes or forgets. All other batches keep
    their entries.
  - **version_le**: in a run the version of an entry never falls, and as long as it stays the same
    nothing becomes unflushed.
-/

namespace ReadThrough

open Ledger

variable {K V : Type}

namespace System

section

variable [DecidableEq K] {s : System K V} {P : System K V → Action K V → Prop}

/-- Some action of the run satisfies `P`, together with the state before it. -/
def Sometime (P : System K V → Action K V → Prop) (s : System K V) : List (Action K V) → Prop
  | [] => False
  | a :: as => P s a ∨ (s.act a).Sometime P as

instance decidableSometime [∀ s a, Decidable (P s a)] (as : List (Action K V)) (s : System K V) :
    Decidable (s.Sometime P as) :=
  match as with
  | [] => .isFalse id
  | a :: as =>
    have : Decidable ((s.act a).Sometime P as) := decidableSometime as (s.act a)
    inferInstanceAs (Decidable (P s a ∨ (s.act a).Sometime P as))

@[simp] theorem sometime_nil : ¬ s.Sometime P [] := id

theorem sometime_append {as bs : List (Action K V)} :
    s.Sometime P (as ++ bs) ↔ s.Sometime P as ∨ (s.actAll as).Sometime P bs := by
  induction as generalizing s with
  | nil => simp
  | cons a as ih =>
    show P s a ∨ (s.act a).Sometime P (as ++ bs) ↔
      (P s a ∨ (s.act a).Sometime P as) ∨ ((s.act a).actAll as).Sometime P bs
    rw [ih, or_assoc]

theorem sometime_concat {as : List (Action K V)} {a : Action K V} :
    s.Sometime P (as ++ [a]) ↔ s.Sometime P as ∨ P (s.actAll as) a := by
  rw [sometime_append]
  simp [Sometime]

/-- What happens sometime happens between two parts of the run. -/
theorem exists_of_sometime {as : List (Action K V)} (h : s.Sometime P as) :
    ∃ before a after, as = before ++ a :: after ∧ P (s.actAll before) a := by
  induction as generalizing s with
  | nil => exact h.elim
  | cons a as ih =>
    rcases h with h | h
    · exact ⟨[], a, as, rfl, h⟩
    · obtain ⟨before, x, after, rfl, hx⟩ := ih h
      exact ⟨a :: before, x, after, rfl, hx⟩

/-- Every action of the run satisfies `P`, together with the state before it. -/
def Throughout (P : System K V → Action K V → Prop) (s : System K V) : List (Action K V) → Prop
  | [] => True
  | a :: as => P s a ∧ (s.act a).Throughout P as

instance decidableThroughout [∀ s a, Decidable (P s a)] (as : List (Action K V))
    (s : System K V) : Decidable (s.Throughout P as) :=
  match as with
  | [] => .isTrue trivial
  | a :: as =>
    have : Decidable ((s.act a).Throughout P as) := decidableThroughout as (s.act a)
    inferInstanceAs (Decidable (P s a ∧ (s.act a).Throughout P as))

theorem throughout_append {as bs : List (Action K V)} :
    s.Throughout P (as ++ bs) ↔ s.Throughout P as ∧ (s.actAll as).Throughout P bs := by
  induction as generalizing s with
  | nil => simp [Throughout]
  | cons a as ih =>
    show P s a ∧ (s.act a).Throughout P (as ++ bs) ↔ _
    rw [ih, ← and_assoc]
    rfl

end

end System

/-! ## Open batches -/

/-- The name whose open batch is finished or forgotten. -/
def Upkeep.closed? : Upkeep → Option String
  | .drain name _ _ => some name
  | .finish name _ => some name
  | .dropBatch name => some name
  | _ => none

/-- The name whose open batch is finished or forgotten. -/
def Action.closed? : Action K V → Option String
  | .upkeep u => u.closed?
  | _ => none

namespace System

variable {s : System K V} {name : String} {b : Batch}

/-- No entry is in an open batch twice. -/
theorem Sound.distinct (hs : s.Sound) (hb : s.batches.find? name = some b) : b.ids.Nodup := by
  obtain ⟨ids, hc⟩ := hs.ledger.chained
  exact hc.distinct b (List.mem_map_of_mem (Names.mem_of_find? hb))

/-- An open batch knows a version that its entry has had. -/
theorem Sound.recorded (hs : s.Sound) (hb : s.batches.find? name = some b) {id : EntryId}
    {version : Nat} (hmem : (id, version) ∈ b.entries) :
    ∃ e, s.cache.entries[id]? = some e ∧ version ≤ e.version := by
  obtain ⟨ids, hc⟩ := hs.ledger.chained
  exact hc.recorded b (List.mem_map_of_mem (Names.mem_of_find? hb)) id version hmem

/-- The batch that was just drained. -/
theorem drain_find? (name : String) (limit : Nat) (copyOn : Bool) (s : System K V) :
    (s.drain name limit copyOn).batches.find? name = some (s.cache.drain limit copyOn).2 := by
  rw [drain_eq]
  exact Names.find?_keep _ _ _

theorem finish_cache (how : Finish) (hb : s.batches.find? name = some b) :
    (s.finish name how).1.cache = (s.cache.finish how b).1 := by
  unfold finish
  rw [hb]
  rfl

theorem finish_batches (other : String) (how : Finish) (s : System K V) :
    (s.finish other how).1.batches = s.batches.forget other := by
  unfold finish
  split
  · next hnone => exact (Names.forget_eq_self hnone).symm
  · rfl

theorem dropBatch_batches (other : String) (s : System K V) :
    (s.dropBatch other).batches = s.batches.forget other := by
  unfold dropBatch
  split
  · next hnone => exact (Names.forget_eq_self hnone).symm
  · rfl

/-- Looking for the next entry changes how much of the batch is consumed, and nothing else of
    it. -/
theorem next_find? (keepAs : Option String) (hb : s.batches.find? name = some b) :
    (s.next name keepAs).1.batches.find? name = some (b.next s.held s.cache).1 := by
  unfold next
  rw [hb]
  exact Names.find?_keep _ _ _

/-- Any other action that does not close a batch leaves it alone. -/
theorem act_find? [DecidableEq K] {a : Action K V} (ha : a.closed? ≠ some name)
    (hnext : ∀ keepAs, a ≠ .upkeep (.next name keepAs)) :
    (s.act a).batches.find? name = s.batches.find? name := by
  cases a with
  | spawn r => rfl
  | advance i => exact congrArg (Names.find? · name) (withCall_batches _ i s)
  | resume r i => exact congrArg (Names.find? · name) (withCall_batches _ i s)
  | expire i => exact congrArg (Names.find? · name) (withCall_batches _ i s)
  | collect i keepAs => exact congrArg (Names.find? · name) (collect_batches i keepAs s)
  -- Upkeep is the only kind of action that is about batches, each time under one name.
  | upkeep u =>
    cases u with
    | drain other limit copyOn =>
      have hne : name ≠ other := fun h => ha (congrArg some h.symm)
      rw [act, keepUp, drain_eq]
      exact Names.find?_keep_of_ne hne
    | next other keepAs =>
      have hne : name ≠ other := by
        rintro rfl
        exact hnext keepAs rfl
      show (s.next other keepAs).1.batches.find? name = _
      unfold next
      split
      · rfl
      · exact Names.find?_keep_of_ne hne
    | finish other how =>
      have hne : name ≠ other := fun h => ha (congrArg some h.symm)
      rw [act, keepUp, finish_batches, Names.find?_forget_of_ne hne]
    | dropBatch other =>
      have hne : name ≠ other := fun h => ha (congrArg some h.symm)
      rw [act, keepUp, dropBatch_batches, Names.find?_forget_of_ne hne]
    | beginItem entries =>
      show (s.beginItem entries).batches.find? name = _
      unfold beginItem
      split <;> rfl
    | _ => rfl

/-- As long as a batch is not closed its entries and its mode are what they were. -/
theorem actAll_find? [DecidableEq K] {as : List (Action K V)}
    (has : ∀ a ∈ as, a.closed? ≠ some name) (hb : s.batches.find? name = some b) :
    ∃ n, (s.actAll as).batches.find? name = some { b with consumed := n } := by
  induction as generalizing s b with
  | nil => exact ⟨b.consumed, hb⟩
  | cons a as ih =>
    have hrest : ∀ x ∈ as, x.closed? ≠ some name := fun x hx => has x (List.mem_cons_of_mem a hx)
    by_cases hnext : ∃ keepAs, a = .upkeep (.next name keepAs)
    · obtain ⟨keepAs, rfl⟩ := hnext
      -- Handing out an entry changes nothing but the count.
      obtain ⟨n, hn⟩ := ih hrest (next_find? keepAs hb)
      exact ⟨n, hn⟩
    · have hsame := act_find? (s := s) (has a List.mem_cons_self) (not_exists.1 hnext)
      exact ih hrest (hsame.trans hb)

end System

/-! ## Versions -/

namespace Ledger

/-- Over any number of changes the version of an entry does not fall; and if it stays the same,
    nothing has become unflushed. -/
theorem Leads.version_le {L L' : Ledger K V} (h : Sound L) (hs : Leads L L') {id : EntryId}
    {e : Entry K V} (he : L.entries[id]? = some e) :
    ∃ e', L'.entries[id]? = some e' ∧ e.version ≤ e'.version ∧
      (e'.version = e.version → ∀ v, L'.Unflushed id v → L.Unflushed id v) := by
  -- What is unflushed at last is traced back step by step, as long as the version stays.
  induction hs with
  | refl => exact ⟨e, he, Nat.le_refl _, fun _ v hv => hv⟩
  | tail hfirst hlast ih =>
    obtain ⟨e₁, he₁, hle, hback⟩ := ih
    obtain ⟨⟨ids, hc⟩, ho, -⟩ := h.leads hfirst
    obtain ⟨e', he', hcon⟩ := hlast.concerns hc ho he₁
    rcases hcon with ⟨hlt, -⟩ | ⟨hsame, hlast⟩
    · exact ⟨e', he', by omega, fun heq => by omega⟩
    · exact ⟨e', he', by omega, fun heq v hv => hback (by omega) v (hlast v hv)⟩

end Ledger

namespace System

theorem actAll_leads [DecidableEq K] {s : System K V} (h : s.Sound) (as : List (Action K V)) :
    Ledger.Leads s.ledger (s.actAll as).ledger := by
  induction as generalizing s with
  | nil => exact .refl
  | cons a as ih => exact (act_leads h a).trans (ih (h.act a))

end System

end ReadThrough
