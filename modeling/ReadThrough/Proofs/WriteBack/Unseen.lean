import Mathlib.Data.List.Induction
import ReadThrough.Proofs.Runs.History

/-! # Entries That Become Clean Unseen

  Which dirty values a batch that is finished may write off: those that it has handed out, and one
  kind more.

  - **Yields**: the batch hands an entry out with its value.
  - **PassesInFlight**: the batch gets past an entry while an update of it is in flight.
  - **cleaned_seen_iff**: a value that is written off was handed out, unless the batch got past its
    entry while an update that had started from that value was in flight.
-/

namespace ReadThrough

open Ledger DirtyChain

variable {K V : Type}

/-! ## Looking for the next entry -/

namespace Batch

/-- The entries that looking for the next one gets past: some without a value, and the one that is
    handed out. -/
def passed (held : Held) (c : Cache K V) (b : Batch) : List EntryId :=
  let rest := b.entries.drop b.consumed
  (rest.take (firstWithValue (c.peek held) rest).1).map Prod.fst

variable {peek : EntryId → Option (Value V)} {ps : List (EntryId × Nat)} {id : EntryId}
  {v : Value V}

/-- What is found is one of the entries that are passed, and has that value. -/
theorem firstWithValue_found (h : (firstWithValue peek ps).2 = some (id, v)) :
    peek id = some v ∧ id ∈ (ps.take (firstWithValue peek ps).1).map Prod.fst := by
  induction ps with
  | nil => cases h
  | cons p ps ih =>
    obtain ⟨j, version⟩ := p
    unfold firstWithValue at h ⊢
    split at h
    · next w hpeek =>
      obtain ⟨rfl, rfl⟩ : j = id ∧ w = v := by simpa using h
      exact ⟨hpeek, by simp⟩
    · obtain ⟨hv, hmem⟩ := ih h
      exact ⟨hv, List.mem_cons_of_mem j hmem⟩

/-- An entry with a value is not passed without being handed out. -/
theorem firstWithValue_passed {i version : Nat} (hi : i < (firstWithValue peek ps).1)
    (hp : ps[i]? = some (id, version)) (hv : peek id = some v) :
    (firstWithValue peek ps).2 = some (id, v) := by
  induction ps generalizing i with
  | nil => cases hp
  | cons p ps ih =>
    obtain ⟨j, n⟩ := p
    unfold firstWithValue at hi ⊢
    split
    · next w hpeek =>
      rw [hpeek] at hi
      obtain rfl : i = 0 := Nat.lt_one_iff.1 hi
      obtain ⟨rfl, rfl⟩ : j = id ∧ n = version := by simpa using hp
      rw [hpeek] at hv
      obtain rfl := Option.some.inj hv
      rfl
    -- The first entry has no value, so it is not the one that `hv` is about.
    · next hpeek =>
      rw [hpeek] at hi
      cases i with
      | zero =>
        obtain ⟨rfl, rfl⟩ : j = id ∧ n = version := by simpa using hp
        rw [hpeek] at hv
        cases hv
      | succ i => exact ih (Nat.lt_of_succ_lt_succ hi) (by simpa using hp)

end Batch

/-! ## What a run does with a value -/

/-- The entry and the dirty value that a running callback has started from. -/
def Call.startedFrom? (call : Call K V) : Option (EntryId × Value V) :=
  match call.stage with
  | .running node _ (.dirty v) => some (node.payload, v)
  | _ => none

namespace System

/-- The entries that looking for the next entry of a batch gets past. -/
def passed (name : String) (s : System K V) : List EntryId :=
  match s.batches.find? name with
  | some b => b.passed s.held s.cache
  | none => []

/-- The batch hands the entry out with the value. -/
def Yields (name : String) (id : EntryId) (v : Value V) (s : System K V) : Action K V → Prop
  | .upkeep (.next other keepAs) => other = name ∧
    (s.next name keepAs).2.map (fun y => (y.entry, y.value)) = some (id, v)
  | _ => False

/-- The batch gets past the entry while an update that has started from the value is in flight. -/
def PassesInFlight (name : String) (id : EntryId) (v : Value V) (s : System K V) :
    Action K V → Prop
  | .upkeep (.next other _) => other = name ∧ id ∈ s.passed name ∧
    ∃ call ∈ s.calls, call.startedFrom? = some (id, v)
  | _ => False

instance [DecidableEq V] (name : String) (id : EntryId) (v : Value V) (s : System K V)
    (a : Action K V) : Decidable (s.Yields name id v a) := by
  unfold Yields
  split <;> infer_instance

instance [DecidableEq V] (name : String) (id : EntryId) (v : Value V) (s : System K V)
    (a : Action K V) : Decidable (s.PassesInFlight name id v a) := by
  unfold PassesInFlight
  split <;> infer_instance

section

variable {s : System K V} {name : String} {b : Batch} {id : EntryId} {i version : Nat}
  {v : Value V}

theorem passed_eq (hb : s.batches.find? name = some b) :
    s.passed name = b.passed s.held s.cache := by
  unfold passed
  rw [hb]

/-- A batch gets past the entries between what was consumed before and what is consumed then. -/
theorem mem_passed_iff (hb : s.batches.find? name = some b) (hdistinct : b.ids.Nodup)
    (hi : b.entries[i]? = some (id, version)) : id ∈ s.passed name ↔
      b.consumed ≤ i ∧ i < (b.next s.held s.cache).1.consumed := by
  have hlt : i < b.ids.length := by
    simpa [Batch.ids] using (List.getElem?_eq_some_iff.1 hi).1
  -- An entry has one position in the batch only.
  have hposition {j m : Nat} (hj : b.entries[j]? = some (id, m)) : i = j :=
    (List.getElem?_inj hlt hdistinct).1 (by simp [Batch.ids, hi, hj])
  rw [passed_eq hb]
  unfold Batch.passed Batch.next
  dsimp only
  generalize (Batch.firstWithValue (s.cache.peek s.held) (b.entries.drop b.consumed)).1 = n
  constructor
  · intro h
    obtain ⟨⟨_, m⟩, hmem, rfl⟩ := List.mem_map.1 h
    obtain ⟨j, hj⟩ := List.mem_iff_getElem?.1 hmem
    rw [List.getElem?_take] at hj
    split at hj
    · next hn =>
      rw [List.getElem?_drop] at hj
      have := hposition hj
      omega
    · cases hj
  · rintro ⟨hle, hn⟩
    refine List.mem_map.2 ⟨(id, version), List.mem_iff_getElem?.2 ⟨i - b.consumed, ?_⟩, rfl⟩
    rw [List.getElem?_take, if_pos (by omega), List.getElem?_drop, ← hi]
    congr 1
    omega

theorem next_result (keepAs : Option String) (hb : s.batches.find? name = some b) :
    (s.next name keepAs).2.map (fun y => (y.entry, y.value)) =
      (Batch.firstWithValue (s.cache.peek s.held) (b.entries.drop b.consumed)).2 := by
  unfold next
  rw [hb]
  simp [Batch.next, Function.comp_def]

/-- Whatever is handed out is got past, and has a value. -/
theorem Yields.passed {a : Action K V} (h : s.Yields name id v a) :
    id ∈ s.passed name ∧ s.cache.peek s.held id = some v := by
  unfold Yields at h
  split at h
  · next other keepAs =>
    obtain ⟨-, hyield⟩ := h
    cases hb : s.batches.find? name with
    | none => simp [next, hb] at hyield
    | some b =>
      rw [next_result keepAs hb] at hyield
      obtain ⟨hv, hmem⟩ := Batch.firstWithValue_found hyield
      rw [passed_eq hb]
      exact ⟨hmem, hv⟩
  · exact h.elim

/-- A batch that gets past an entry hands it out if it has a value. -/
theorem yields_of_passed (keepAs : Option String) (hb : s.batches.find? name = some b)
    (hdistinct : b.ids.Nodup) (hi : b.entries[i]? = some (id, version))
    (hpassed : id ∈ s.passed name) (hv : s.cache.peek s.held id = some v) :
    s.Yields name id v (.upkeep (.next name keepAs)) := by
  obtain ⟨hle, hlt⟩ := (mem_passed_iff hb hdistinct hi).1 hpassed
  have hrest : (b.entries.drop b.consumed)[i - b.consumed]? = some (id, version) := by
    rw [List.getElem?_drop, ← hi]
    congr 1
    omega
  refine ⟨rfl, ?_⟩
  rw [next_result keepAs hb]
  refine Batch.firstWithValue_passed ?_ hrest hv
  unfold Batch.next at hlt
  dsimp only at hlt
  omega

/-- The updates that have started from a dirty value are flights. -/
theorem exists_flight {call : Call K V} (hcall : call ∈ s.calls)
    (h : call.startedFrom? = some (id, v)) :
    ∃ f ∈ s.ledger.flights, f.entry = id ∧ f.prior = .dirty v := by
  unfold Call.startedFrom? at h
  split at h
  · next node epoch w hstage =>
    obtain ⟨rfl, rfl⟩ : node.payload = id ∧ w = v := by simpa using h
    exact ⟨_, mem_flights hcall hstage, rfl, rfl⟩
  · cases h

theorem exists_started {f : Flight V} (hf : f ∈ s.ledger.flights) (hid : f.entry = id)
    (hprior : f.prior = .dirty v) : ∃ call ∈ s.calls, call.startedFrom? = some (id, v) := by
  obtain ⟨call, hcall, hmem⟩ := List.mem_flatMap.1 hf
  refine ⟨call, hcall, ?_⟩
  unfold Call.flights Stage.flights at hmem
  split at hmem
  · next node epoch prior hstage =>
    obtain rfl := List.mem_singleton.1 hmem
    subst hid
    obtain rfl : prior = .dirty v := hprior
    simp [Call.startedFrom?, hstage]
  · cases hmem

/-- When a batch gets past an entry with the unflushed value `v`, it either hands the entry out or
    an update that has started from `v` is in flight. -/
theorem yields_iff_of_passed (hs : s.Sound) (keepAs : Option String)
    (hb : s.batches.find? name = some b) (hdistinct : b.ids.Nodup)
    (hi : b.entries[i]? = some (id, version)) (hpassed : id ∈ s.passed name)
    (hunflushed : s.ledger.Unflushed id v) :
    s.Yields name id v (.upkeep (.next name keepAs)) ↔
      ¬ s.PassesInFlight name id v (.upkeep (.next name keepAs)) := by
  constructor
  · rintro hyields ⟨-, -, call, hcall, hstarted⟩
    obtain ⟨f, hf, rfl, -⟩ := exists_flight hcall hstarted
    obtain ⟨e, he, hpending, -⟩ := hs.ledger.owned.pending f hf
    have hv : e.value.peek s.held = some v := by
      rw [← Cache.valueOf_eq he]
      exact hyields.passed.2
    exact ValueState.ne_pending_of_peek hv hpending
  · intro hnot
    rcases hunflushed with ⟨e, he, hval⟩ | ⟨f, hf, hid, hprior⟩
    · refine yields_of_passed keepAs hb hdistinct hi hpassed ?_
      rw [Cache.peek, Cache.valueOf_eq he, hval]
      rfl
    · exact absurd ⟨rfl, hpassed, exists_started hf hid hprior⟩ hnot

end

end System

/-! ## The history of a batch -/

/-- How the history of a batch that is open bears on the value `v` of the entry that it has drained
    at position `i`: what it has not consumed was neither handed out nor passed, and what it has
    consumed was one or the other. -/
structure Accounts [DecidableEq K] (name : String) (id : EntryId) (v : Value V) (i : Nat)
    (s : System K V) (as : List (Action K V)) (b : Batch) : Prop where
  ahead : b.consumed ≤ i → ¬ s.Sometime (System.Yields name id v) as ∧
    ¬ s.Sometime (System.PassesInFlight name id v) as
  behind : i < b.consumed → (s.Sometime (System.Yields name id v) as ↔
    ¬ s.Sometime (System.PassesInFlight name id v) as)

section

variable [DecidableEq K] {s : System K V} {name : String} {b : Batch} {id : EntryId}
  {i version : Nat} {v : Value V} {as : List (Action K V)} {a : Action K V}

/-- Actions that get past nothing change nothing. -/
theorem Accounts.of_not_passed {b' : Batch} (h : Accounts name id v i s as b)
    (hyields : ¬ (s.actAll as).Yields name id v a)
    (hpasses : ¬ (s.actAll as).PassesInFlight name id v a)
    (hconsumed : i < b'.consumed ↔ i < b.consumed) : Accounts name id v i s (as ++ [a]) b' where
  ahead := fun hle => by
    rw [System.sometime_concat, System.sometime_concat]
    obtain ⟨hy, hp⟩ := h.ahead (by omega)
    exact ⟨not_or.2 ⟨hy, hyields⟩, not_or.2 ⟨hp, hpasses⟩⟩
  behind := fun hlt => by
    rw [System.sometime_concat, System.sometime_concat]
    simp only [hyields, hpasses, or_false]
    exact h.behind (hconsumed.1 hlt)

/-- Looking for the next entry settles the matter for those that it gets past. -/
theorem Accounts.next (hs : (s.actAll as).Sound) (keepAs : Option String)
    (h : Accounts name id v i s as b) (hb : (s.actAll as).batches.find? name = some b)
    (hdistinct : b.ids.Nodup) (hi : b.entries[i]? = some (id, version))
    (hunflushed : (s.actAll as).ledger.Unflushed id v) :
    Accounts name id v i s (as ++ [.upkeep (.next name keepAs)])
      (b.next (s.actAll as).held (s.actAll as).cache).1 := by
  have hiff := System.mem_passed_iff hb hdistinct hi
  by_cases hpassed : id ∈ (s.actAll as).passed name
  · obtain ⟨hle, hlt⟩ := hiff.1 hpassed
    obtain ⟨hy, hp⟩ := h.ahead hle
    refine ⟨fun hge => by omega, fun _ => ?_⟩
    rw [System.sometime_concat, System.sometime_concat]
    simp only [hy, hp, false_or]
    exact System.yields_iff_of_passed hs keepAs hb hdistinct hi hpassed hunflushed
  · have hgrows : b.consumed ≤ (b.next (s.actAll as).held (s.actAll as).cache).1.consumed :=
      Nat.le_add_right _ _
    refine h.of_not_passed (fun hy => hpassed hy.passed.1) (fun hp => hpassed hp.2.1) ?_
    rw [hiff] at hpassed
    omega

/-- The history of an open batch accounts for every value that it has drained and that is still
    not written back. -/
theorem accounts_of_open (hs : s.Sound) (hb : s.batches.find? name = some b)
    (hfresh : b.consumed = 0) (hi : b.entries[i]? = some (id, version)) {e : Entry K V}
    (hopen : ∀ a ∈ as, a.closed? ≠ some name) {b' : Batch}
    (hb' : (s.actAll as).batches.find? name = some b')
    (he : (s.actAll as).cache.entries[id]? = some e) (hversion : e.version = version)
    (hunflushed : (s.actAll as).ledger.Unflushed id v) : Accounts name id v i s as b' := by
  induction as using List.reverseRecOn generalizing b' e with
  | nil =>
    obtain rfl : b = b' := Option.some.inj (hb.symm.trans hb')
    exact ⟨fun _ => ⟨System.sometime_nil, System.sometime_nil⟩, fun hlt => by omega⟩
  | append_singleton as a ih =>
    have hopen' : ∀ x ∈ as, x.closed? ≠ some name :=
      fun x hx => hopen x (List.mem_append_left _ hx)
    have ha : a.closed? ≠ some name := hopen a (by simp)
    have hsound : (s.actAll as).Sound := hs.actAll as
    obtain ⟨n, hb₁⟩ := System.actAll_find? hopen' hb
    -- The entry had the drained version all the time, so its value was never written back.
    obtain ⟨e₁, he₁, hle₁⟩ := hsound.recorded hb₁ (List.mem_of_getElem? hi)
    have hdistinct := hsound.distinct hb₁
    rw [System.actAll_append] at hb' he hunflushed
    obtain ⟨e', he', hle, hback⟩ :=
      Leads.version_le hsound.ledger (System.act_leads hsound a) he₁
    obtain rfl : e = e' := Option.some.inj (he.symm.trans he')
    have hunflushed₁ := hback (by omega) v hunflushed
    have hbefore := ih hopen' hb₁ he₁ (by omega) hunflushed₁
    by_cases hnext : ∃ keepAs, a = .upkeep (.next name keepAs)
    · obtain ⟨keepAs, rfl⟩ := hnext
      have hafter := System.next_find? keepAs hb₁
      obtain rfl := Option.some.inj (hafter.symm.trans hb')
      exact hbefore.next hsound keepAs hb₁ hdistinct hi hunflushed₁
    · have hafter := (System.act_find? (s := s.actAll as) ha (not_exists.1 hnext)).trans hb₁
      obtain rfl := Option.some.inj (hafter.symm.trans hb')
      refine hbefore.of_not_passed (fun hy => ?_) (fun hp => ?_) Iff.rfl
      · unfold System.Yields at hy
        split at hy
        · exact hnext ⟨_, by rw [hy.1]⟩
        · exact hy
      · unfold System.PassesInFlight at hp
        split at hp
        · exact hnext ⟨_, by rw [hp.1]⟩
        · exact hp

end

/-! ## Finishing -/

/-- A batch that is finished takes a dirty value for written only if it has consumed the entry and
    the entry has the version that was drained. -/
theorem consumed_of_cleaned {es : Entries K V} {c : DirtyChain} {b : Batch} {how : Finish}
    (hdistinct : b.ids.Nodup) {id : EntryId} {e e' : Entry K V} {v : Value V}
    (he : es[id]? = some e) (hval : e.value = .dirty v)
    (he' : (b.finish how es c).1[id]? = some e') (hclean : e'.value ≠ .dirty v) :
    ∃ i, b.entries[i]? = some (id, e.version) ∧ i < b.consumed := by
  obtain ⟨e'', he'', n, d, hd, rfl⟩ := (finish_each how b hdistinct es c).2 id e he
  obtain rfl := Option.some.inj (he'.symm.trans he'')
  have hd' : d.value ≠ .dirty v := hclean
  rcases hd with ⟨-, rfl⟩ | ⟨i, version, hi, rfl⟩
  · exact absurd hval hd'
  · cases hfate : Batch.fate how b.copyOn (decide (i < b.consumed)) version e with
    | clean =>
      obtain ⟨hwritten, rfl, -⟩ := Batch.fate_eq_clean hfate
      simp only [Batch.isWritten, Bool.and_eq_true, decide_eq_true_eq] at hwritten
      exact ⟨i, hi, hwritten.1⟩
    | leave =>
      rw [hfate] at hd'
      exact absurd hval hd'
    | relink =>
      rw [hfate] at hd'
      exact absurd hval hd'

/-- Whenever a batch is finished and a dirty value becomes clean by it, that batch had handed the
    value out, except if it had got past the entry while an update that had started from the value
    was in flight: if such an update leaves the entry as it was, the value is written off
    unseen. -/
theorem cleaned_seen_iff [DecidableEq K] {s : System K V} (hs : s.Reachable) {name : String}
    {limit : Nat} {copyOn : Bool} {as : List (Action K V)}
    (hopen : ∀ a ∈ as, a.closed? ≠ some name) (how : Finish) {id : EntryId} {v : Value V}
    (hdirty : ((s.drain name limit copyOn).actAll as).cache.valueOf id = .dirty v)
    (hclean : (((s.drain name limit copyOn).actAll as).finish name how).1.cache.valueOf id ≠
      .dirty v) :
    (s.drain name limit copyOn).Sometime (System.Yields name id v) as ↔
      ¬ (s.drain name limit copyOn).Sometime (System.PassesInFlight name id v) as := by
  have hsound : (s.drain name limit copyOn).Sound :=
    hs.sound.act (.upkeep (.drain name limit copyOn))
  have hfind := System.drain_find? name limit copyOn s
  obtain ⟨n, hb⟩ := System.actAll_find? hopen hfind
  obtain ⟨e, he, hval⟩ := Cache.exists_of_valueOf_dirty hdirty
  have hdistinct := (hsound.actAll as).distinct hb
  rw [System.finish_cache how hb] at hclean
  obtain ⟨e', he', -⟩ := (finish_each how _ hdistinct _
    ((s.drain name limit copyOn).actAll as).cache.chain).2 id e he
  rw [Cache.valueOf_eq ((Cache.finish_entries _ how _).symm ▸ he')] at hclean
  obtain ⟨i, hi, hconsumed⟩ := consumed_of_cleaned hdistinct he hval he' hclean
  exact (accounts_of_open hsound hfind rfl hi hopen hb he rfl (.inl ⟨e, he, hval⟩)).behind hconsumed

/-- A value that is handed out and then committed. -/
theorem cleaned_seen_iff_commit :
    let s := (System.new {} (.manual 0) (fun _ => 0) : System Nat Nat).actAll
      [.spawn (.update 1), .advance 0, .advance 0, .resume (.value 5) 0]
    let as : List (Action Nat Nat) := [.upkeep (.next "b" none)]
    (s.drain "b" 10 false).Sometime (System.Yields "b" 0 ⟨0, 5⟩) as ↔
      ¬ (s.drain "b" 10 false).Sometime (System.PassesInFlight "b" 0 ⟨0, 5⟩) as := by
  intro s as
  exact cleaned_seen_iff ⟨_, _, _, _, rfl⟩ (by decide +kernel) .commit (by decide +kernel)
    (by decide +kernel)

/-- A value that is committed without having been handed out: the only `next` of the batch comes
    while an update is in flight, which then fails. -/
theorem cleaned_unseen :
    let s := (System.new {} (.manual 0) (fun _ => 0) : System Nat Nat).actAll
      [.spawn (.update 1), .advance 0, .advance 0, .resume (.value 5) 0]
    let as : List (Action Nat Nat) :=
      [.spawn (.update 1), .advance 1, .advance 1, .upkeep (.next "b" none), .resume (.fail "x") 1]
    let t := (s.drain "b" 10 false).actAll as
    s.Reachable ∧ (∀ a ∈ as, a.closed? ≠ some "b") ∧ t.cache.valueOf 0 = .dirty ⟨0, 5⟩ ∧
      (t.finish "b" .commit).1.cache.valueOf 0 = .ready ⟨0, 5⟩ ∧
      ¬ (s.drain "b" 10 false).Sometime (System.Yields "b" 0 ⟨0, 5⟩) as :=
  ⟨⟨_, _, _, _, rfl⟩, by decide +kernel⟩

end ReadThrough
