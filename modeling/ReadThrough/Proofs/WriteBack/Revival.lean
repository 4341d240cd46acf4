import Mathlib.Data.List.Induction
import ReadThrough.Proofs.WriteBack.Unchanged

/-! # Entries Linked Without a Change

  Which entries in the dirty chain have nothing to write back.

  - **Outlives**: a batch in copy-on mode is open that lists an entry, and the entry was marked
    clean since by finishing another batch.
  - **Revived**: such a batch was closed, and that has linked the entry.
  - **History**: in every run an entry has changes, or it is no member, or it was revived.
  - **linked_changed_iff**: an entry in the chain is dirty or being updated, unless it was revived.
-/

namespace ReadThrough

open Ledger

variable {K V : Type}

namespace System

/-- An update of the entry is in flight. -/
def Updating (id : EntryId) (s : System K V) : Prop :=
  ∃ call ∈ s.calls, call.updates? = some id

/-- An open batch in copy-on mode lists the entry. -/
def Lists (name : String) (id : EntryId) (s : System K V) : Prop :=
  ∃ b, s.batches.find? name = some b ∧ b.copyOn = true ∧ id ∈ b.ids

instance (id : EntryId) (s : System K V) : Decidable (s.Updating id) := by
  unfold Updating
  infer_instance

section

variable [DecidableEq K]

/-- In the run the entry was marked clean by finishing a batch while the batch of a name listed it
    that is still open, and the entry was not changed since. -/
def Outlives (name : String) (id : EntryId) (s : System K V) (as : List (Action K V)) : Prop :=
  ∃ before clean between other, as = before ++ clean :: between ∧ other ≠ name ∧
    (s.actAll before).Cleaning other id clean ∧ (s.actAll before).Lists name id ∧
    (∀ a ∈ between, a.closed? ≠ some name) ∧
    ¬ ((s.actAll before).act clean).Sometime (Mutates id) between

/-- In the run a batch was closed in copy-on mode that listed the entry, which had been marked clean
    by finishing another batch meanwhile. That has linked the entry, and it was not changed
    since. -/
def Revived (id : EntryId) (s : System K V) (as : List (Action K V)) : Prop :=
  ∃ before back after name, as = before ++ back :: after ∧ s.Outlives name id before ∧
    back.closed? = some name ∧ id ∉ (s.actAll before).linked ∧
    id ∈ ((s.actAll before).act back).linked ∧
    ¬ (s.actAll before).Sometime (Mutates id) (back :: after)

/-- The entry is no member, and all open batches that list it outlive its last changes. -/
structure Clear (id : EntryId) (s : System K V) (as : List (Action K V)) : Prop where
  member : ¬ (s.actAll as).IsMember id
  outlived : ∀ name b, (s.actAll as).batches.find? name = some b → id ∈ b.ids →
    s.Outlives name id as

/-- What a run has made of an entry: it has changes, or it has nothing to do with write-back, or it
    was revived. -/
inductive History (id : EntryId) (s : System K V) (as : List (Action K V)) : Prop where
  | changed (h : (s.actAll as).HasChanges id)
  | clear (h : s.Clear id as)
  | revived (h : s.Revived id as)

/-! ## Runs that go on -/

variable {s : System K V} {as : List (Action K V)} {a : Action K V} {name : String} {id : EntryId}

theorem actAll_concat (s : System K V) (as : List (Action K V)) (a : Action K V) :
    s.actAll (as ++ [a]) = (s.actAll as).act a := by
  rw [actAll_append]
  rfl

theorem actAll_split (s : System K V) (before : List (Action K V)) (a : Action K V)
    (after : List (Action K V)) :
    s.actAll (before ++ a :: after) = ((s.actAll before).act a).actAll after := by
  rw [actAll_append, actAll_cons]

theorem Outlives.concat (h : s.Outlives name id as) (ha : a.closed? ≠ some name)
    (hmut : ¬ (s.actAll as).Mutates id a) : s.Outlives name id (as ++ [a]) := by
  obtain ⟨before, clean, between, other, rfl, hother, hclean, hlists, hopen, hsame⟩ := h
  refine ⟨before, clean, between ++ [a], other, by simp, hother, hclean, hlists, ?_, ?_⟩
  · intro x hx
    rcases List.mem_append.1 hx with hx | hx
    · exact hopen x hx
    · exact List.mem_singleton.1 hx ▸ ha
  · rw [actAll_split] at hmut
    rw [sometime_concat]
    exact not_or.2 ⟨hsame, hmut⟩

theorem Revived.concat (h : s.Revived id as) (hmut : ¬ (s.actAll as).Mutates id a) :
    s.Revived id (as ++ [a]) := by
  obtain ⟨before, back, after, name, rfl, houtlives, hback, hout, hin, hsame⟩ := h
  refine ⟨before, back, after ++ [a], name, by simp, houtlives, hback, hout, hin, ?_⟩
  rw [actAll_append] at hmut
  rw [← List.cons_append, sometime_concat]
  exact not_or.2 ⟨hsame, hmut⟩

/-! ## The history of an entry -/

theorem clear_new (config : Config) (clock : Clock) (hashOf : K → UInt64) (id : EntryId) :
    (System.new config clock hashOf : System K V).Clear id [] where
  member := by
    rintro ⟨e, he, -⟩
    simp [System.new, Cache.new] at he
  outlived := by
    intro name b hb
    cases hb

/-- An entry that was just marked clean is in the batches only that were open meanwhile. -/
theorem clear_of_cleaning (hs : (s.actAll as).Reachable) {other : String} {how : Finish}
    (hclean : (s.actAll as).Cleaning other id (.upkeep (.finish other how)))
    (hout : ¬ ((s.actAll as).act (.upkeep (.finish other how))).IsMember id) :
    s.Clear id (as ++ [.upkeep (.finish other how)]) where
  member := by
    rw [actAll_concat]
    exact hout
  outlived := by
    intro name b hb hid
    rw [actAll_concat] at hb
    have hsound := (hs.sound.act (.upkeep (.finish other how)))
    have hcopy : b.copyOn = true := by
      -- What a batch in direct mode lists is a member.
      by_contra hdirect
      refine hout (hsound.isMember_iff.2 (.inr (List.mem_flatMap.2
        ⟨(name, b), Names.mem_of_find? hb, ?_⟩)))
      simpa [Batch.members, hdirect] using hid
    have hbatches : ((s.actAll as).act (.upkeep (.finish other how))).batches =
        (s.actAll as).batches.forget other := finish_batches other how _
    rw [hbatches] at hb
    have hne : name ≠ other := by
      rintro rfl
      rw [Names.find?_forget_self] at hb
      cases hb
    rw [Names.find?_forget_of_ne hne] at hb
    exact ⟨as, _, [], other, rfl, hne.symm, hclean, ⟨b, hb, hcopy, hid⟩, by simp, sometime_nil⟩

/-- An entry that is not changed stays clear, or it is revived. -/
theorem Clear.act (h : s.Clear id as) (hs : (s.actAll as).Reachable)
    (hmut : ¬ (s.actAll as).Mutates id a) :
    s.Clear id (as ++ [a]) ∨ s.Revived id (as ++ [a]) := by
  have hlinked : id ∉ (s.actAll as).linked := fun hid =>
    h.member (hs.sound.isMember_iff.2 (.inl hid))
  have hsound := hs.sound.act a
  by_cases hin : ((s.actAll as).act a).IsMember id
  · refine .inr ?_
    obtain ⟨name, b, hcloses, hb, hid⟩ := exists_closed hs hmut h.member hin
    refine ⟨as, a, [], name, rfl, h.outlived name b hb hid, hcloses, hlinked, ?_, ?_⟩
    · refine (hsound.isMember_iff.1 hin).resolve_right fun hdispatched => ?_
      -- A batch in direct mode would have made the entry a member before.
      obtain ⟨⟨other, b'⟩, hmem, hid'⟩ := List.mem_flatMap.1 hdispatched
      have hb' := Names.find?_of_mem hsound.names hmem
      have hdirect : b'.copyOn = false ∧ id ∈ b'.ids := by
        unfold Batch.members at hid'
        split at hid'
        · cases hid'
        · next hcopy => exact ⟨by simpa using hcopy, hid'⟩
      obtain ⟨-, b₀, hb₀, hids, hcopy⟩ := listed_before hs.sound hb' hdirect.2 hlinked
      refine h.member (hs.sound.isMember_iff.2 (.inr (List.mem_flatMap.2
        ⟨(other, b₀), Names.mem_of_find? hb₀, ?_⟩)))
      simpa [Batch.members, hcopy, hdirect.1, hids] using hdirect.2
    · exact not_or.2 ⟨hmut, sometime_nil⟩
  · refine .inl ⟨?_, fun name b hb hid => ?_⟩
    · rw [actAll_concat]
      exact hin
    · rw [actAll_concat] at hb
      obtain ⟨hopen, b₀, hb₀, hids, -⟩ := listed_before hs.sound hb hid hlinked
      exact (h.outlived name b₀ hb₀ (hids ▸ hid)).concat hopen hmut

/-- In every run an entry has changes, or it is clear, or it was revived. -/
theorem history (config : Config) (clock : Clock) (hashOf : K → UInt64)
    (as : List (Action K V)) (id : EntryId) :
    (System.new config clock hashOf).History id as := by
  -- By induction on the run, from its end: the last action is what may change the state.
  induction as using List.reverseRecOn with
  | nil => exact .clear (clear_new config clock hashOf id)
  | append_singleton as a ih =>
    have hs : ((System.new config clock hashOf).actAll as).Reachable := ⟨_, _, _, as, rfl⟩
    by_cases hmut : ((System.new config clock hashOf).actAll as).Mutates id a
    · refine .changed ?_
      rw [actAll_concat]
      exact hmut.hasChanges hs.sound
    cases ih with
    | changed h =>
      rcases h.act (a := a) hs with hstill | ⟨other, how, rfl, hclean, hout⟩
      · refine .changed ?_
        rw [actAll_concat]
        exact hstill
      · exact .clear (clear_of_cleaning hs hclean hout)
    | clear h =>
      rcases h.act hs hmut with hclear | hrevived
      · exact .clear hclear
      · exact .revived hrevived
    | revived h => exact .revived (h.concat hmut)

/-- An entry that was just marked clean has no changes. -/
theorem Cleaning.not_hasChanges (h : s.Cleaning name id a) (hs : s.Reachable) :
    ¬ (s.act a).HasChanges id := by
  obtain ⟨v, hv⟩ := (ValueState.isDirty_iff _).1 h.before
  obtain ⟨e, he, hvalue⟩ := Cache.exists_of_valueOf_dirty hv
  have hcalls : (s.act a).calls = s.calls := by
    cases a with
    | upkeep u => exact keepUp_calls u s
    | _ => cases h.closes
  rintro (⟨w, hw⟩ | ⟨call, hcall, node, epoch, w, hstage, rfl⟩)
  · have hafter := h.after
    rw [hw] at hafter
    cases hafter
  · -- An entry that a callback runs for is pending, and not dirty.
    rw [hcalls] at hcall
    obtain ⟨e', he', hpending, -⟩ := hs.sound.ledger.owned.pending _ (mem_flights hcall hstage)
    obtain rfl : e = e' := Option.some.inj (he.symm.trans he')
    rw [hvalue] at hpending
    cases hpending

/-- An entry that was revived has no changes. -/
theorem Revived.not_hasChanges (h : s.Revived id as) (hs : s.Reachable) :
    ¬ (s.actAll as).HasChanges id := by
  obtain ⟨_, back, after, name, rfl, ⟨before, clean, between, other, rfl, -, hclean, -, -, hsame⟩,
    -, -, -, hlater⟩ := h
  have hu : (s.actAll before).Reachable := hs.actAll before
  obtain ⟨v, hv⟩ := (ValueState.isDirty_iff _).1 hclean.before
  obtain ⟨e, he, -⟩ := Cache.exists_of_valueOf_dirty hv
  have hkept : ¬ (s.actAll before).Mutates id clean := by
    cases clean with
    | upkeep u => exact fun hmut => hmut
    | _ => cases hclean.closes
  obtain ⟨e', he', -⟩ := act_version hu hkept he
  -- Nothing has changed it since it was marked clean.
  have hunchanged : ¬ ((s.actAll before).act clean).Sometime (Mutates id)
      (between ++ back :: after) := by
    rw [actAll_split] at hlater
    rw [sometime_append]
    exact not_or.2 ⟨hsame, hlater⟩
  rw [List.append_assoc, List.cons_append, actAll_split]
  exact fun hchanges => hclean.not_hasChanges hu
    (hasChanges_before (hu.actAll [clean]) hunchanged he' hchanges)

/-- An entry has changes if it is dirty, and only if it is dirty or being updated. -/
theorem dirty_or_updating (hs : s.Reachable) (h : s.HasChanges id) :
    (s.cache.valueOf id).isDirty = true ∨ s.Updating id := by
  rcases h with ⟨v, hv⟩ | ⟨call, hcall, node, epoch, v, hstage, rfl⟩
  · exact .inl (by rw [hv]; rfl)
  · -- What a loader starts from is not dirty.
    have hsuits := hs.orderly call hcall
    rw [hstage] at hsuits
    obtain ⟨key, hr⟩ := hsuits.resolve_right fun hor => by cases hor.2
    exact .inr ⟨call, hcall, by simp [Call.updates?, hr, hstage]⟩

end

end System

/-- In every run an entry that is linked in the dirty chain is dirty or being updated, except if it
    was revived and no update of it is in flight: it was marked clean by finishing a batch while
    another one in copy-on mode still listed it, and that one was closed then, which links an entry
    again without looking whether it is still dirty. -/
theorem linked_changed_iff [DecidableEq K] (config : Config) (clock : Clock) (hashOf : K → UInt64)
    (as : List (Action K V)) {id : EntryId}
    (hlinked : id ∈ ((System.new config clock hashOf).actAll as).linked) :
    ((((System.new config clock hashOf).actAll as).cache.valueOf id).isDirty = true ∨
        ((System.new config clock hashOf).actAll as).Updating id) ↔
      ¬ ((System.new config clock hashOf).Revived id as ∧
        ¬ ((System.new config clock hashOf).actAll as).Updating id) := by
  have hnew : (System.new config clock hashOf : System K V).Reachable := ⟨_, _, _, [], rfl⟩
  have hs := hnew.actAll as
  constructor
  · rintro hor ⟨hrevived, hidle⟩
    obtain ⟨v, hv⟩ := (ValueState.isDirty_iff _).1 (hor.resolve_right hidle)
    exact hrevived.not_hasChanges hnew (.inl ⟨v, hv⟩)
  · intro hnot
    by_contra hneither
    have hidle := (not_or.1 hneither).2
    cases System.history config clock hashOf as id with
    | changed h => exact hneither (System.dirty_or_updating hs h)
    | clear h => exact h.member (hs.sound.isMember_iff.2 (.inl hlinked))
    | revived h => exact hnot ⟨h, hidle⟩

/-- An entry that two batches in copy-on mode list, of which one is committed and the other one is
    rolled back then. -/
def System.rolledBack : List (Action Nat Nat) :=
  [.spawn (.update 1), .advance 0, .advance 0, .resume (.value 5) 0, .advance 0, .collect 0 none,
   .upkeep (.drain "b" 10 true), .spawn (.mark 1), .advance 0, .advance 0, .advance 0,
   .collect 0 none, .upkeep (.drain "c" 10 true), .upkeep (.next "c" none),
   .upkeep (.finish "c" .commit), .upkeep (.finish "b" .rollback)]

/-- The entry is revived in that run. -/
theorem linked_changed_iff_rolledBack :
    (System.new {} (.manual 0) fun _ => 0 : System Nat Nat).Revived 0 System.rolledBack := by
  have hlinked : 0 ∈ ((System.new {} (.manual 0) fun _ => 0).actAll System.rolledBack).linked := by
    decide +kernel
  have hiff := linked_changed_iff {} (.manual 0) (fun _ => 0) System.rolledBack hlinked
  have hneither : ¬ ((((System.new {} (.manual 0) fun _ => 0 : System Nat Nat).actAll
      System.rolledBack).cache.valueOf 0).isDirty = true ∨
        ((System.new {} (.manual 0) fun _ => 0 : System Nat Nat).actAll
          System.rolledBack).Updating 0) := by decide +kernel
  exact (not_not.1 (mt hiff.2 hneither)).1

/-- It is linked in the chain at the end, although its value is written back. -/
theorem linked_unchanged :
    ¬ ∀ s : System Nat Nat, s.Reachable → ∀ id ∈ s.linked,
      (s.cache.valueOf id).isDirty = true ∨ s.Updating id := by
  intro h
  have hat := h ((System.new {} (.manual 0) fun _ => 0).actAll System.rolledBack)
    ⟨_, _, _, _, rfl⟩ 0 (by decide +kernel)
  revert hat
  decide +kernel

end ReadThrough
