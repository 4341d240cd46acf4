import ReadThrough.Proofs.Departures.Departed
import ReadThrough.Proofs.WriteBack.Readable
import ReadThrough.Proofs.WriteBack.Unseen

/-! # Changes That Can Be Drained

  How a change comes out again, whether its entry is in the table or not.

  - **HandsOut**: the client that goes on with a batch gets the value of the entry in the end.
  - **Drains**: a batch that takes the whole chain hands the value out.
  - **Awaits**: all of this for one entry.
  - **awaits_of_update**: an update that returns a value leaves its entry so.
-/

namespace ReadThrough

open Ledger DirtyChain Entries

variable {K V : Type}

/-! ## Handing out -/

/-- Looking for the next entry gets past one at least, if any is left. -/
theorem Batch.firstWithValue_pos {peek : EntryId → Option (Value V)} {ps : List (EntryId × Nat)}
    (h : ps ≠ []) : 0 < (firstWithValue peek ps).1 := by
  cases ps with
  | nil => exact absurd rfl h
  | cons p ps =>
    unfold firstWithValue
    split
    · exact Nat.one_pos
    · exact Nat.succ_pos _

namespace System

variable {s : System K V} {id : EntryId} {v : Value V} {name : String} {b : Batch}
  {i version : Nat} {u : Upkeep} {e : Entry K V}

theorem next_cache (name : String) (s : System K V) :
    (s.next name none).1.cache = s.cache ∧ (s.next name none).1.held = s.held := by
  unfold next
  split <;> exact ⟨rfl, rfl⟩

theorem peek_of_dirty (hv : s.cache.valueOf id = .dirty v) :
    s.cache.peek s.held id = some v := by
  rw [Cache.peek, hv]
  rfl

section

variable [DecidableEq K]

/-- Who goes on with the batch of a name gets the entry with the value, maybe after others. -/
def HandsOut (name : String) (id : EntryId) (v : Value V) (s : System K V) : Prop :=
  ∃ n, (s.moveAll (List.replicate n (.upkeep (.next name none)))).Yields name id v
    (.upkeep (.next name none))

/-- A batch comes to every entry that its consumer has not got past. -/
theorem handsOut_of_entry (hb : s.batches.find? name = some b) (hdistinct : b.ids.Nodup)
    (hi : b.entries[i]? = some (id, version)) (hle : b.consumed ≤ i)
    (hv : s.cache.peek s.held id = some v) : s.HandsOut name id v := by
  -- Whatever is handed out before brings the consumer nearer.
  obtain ⟨left, hleft⟩ : ∃ left, left = i - b.consumed := ⟨_, rfl⟩
  induction left using Nat.strongRecOn generalizing s b with
  | ind left ih =>
    by_cases hpassed : id ∈ s.passed name
    · exact ⟨0, yields_of_passed none hb hdistinct hi hpassed hv⟩
    · obtain ⟨hcache, hheld⟩ := next_cache name s
      have hbefore : (b.next s.held s.cache).1.consumed ≤ i := by
        rw [mem_passed_iff hb hdistinct hi] at hpassed
        omega
      have hgoes : b.consumed < (b.next s.held s.cache).1.consumed := by
        have hlt : i < b.entries.length := (List.getElem?_eq_some_iff.1 hi).1
        have hrest : b.entries.drop b.consumed ≠ [] := by
          intro hnil
          rw [List.drop_eq_nil_iff] at hnil
          omega
        have hpos : 0 < (Batch.firstWithValue (s.cache.peek s.held)
            (b.entries.drop b.consumed)).1 := Batch.firstWithValue_pos hrest
        show b.consumed < b.consumed + _
        omega
      have hv' : (s.next name none).1.cache.peek (s.next name none).1.held id = some v := by
        rw [hcache, hheld]
        exact hv
      obtain ⟨n, hn⟩ := ih (i - (b.next s.held s.cache).1.consumed) (by omega)
        (next_find? none hb) hdistinct hi hbefore hv' rfl
      exact ⟨n + 1, hn⟩

theorem handsOut_of_ahead (hs : s.Sound) (hv : s.cache.valueOf id = .dirty v)
    (h : id ∈ s.ahead name) : s.HandsOut name id v := by
  unfold ahead at h
  split at h
  · next b hb =>
    obtain ⟨j, hj⟩ := List.mem_iff_getElem?.1 h
    rw [List.getElem?_drop, Batch.ids, List.getElem?_map] at hj
    obtain ⟨⟨_, version⟩, hi, rfl⟩ := Option.map_eq_some_iff.1 hj
    exact handsOut_of_entry hb (hs.distinct hb) hi (Nat.le_add_right _ _) (peek_of_dirty hv)
  · cases h

/-! ## Draining -/

/-- A batch that takes everything that is in the chain, whatever its name and its mode, hands the
    entry out with the value. -/
def Drains (id : EntryId) (v : Value V) (s : System K V) : Prop :=
  ∀ name limit copyOn, s.cache.dirtyLength ≤ limit →
    (s.keepUp (.drain name limit copyOn)).HandsOut name id v

omit [DecidableEq K] in
/-- Draining a batch leaves what is dirty as it is. -/
theorem drain_dirty (hs : s.Sound) (hv : s.cache.valueOf id = .dirty v) (limit : Nat)
    (copyOn : Bool) : (s.keepUp (.drain name limit copyOn)).cache.valueOf id = .dirty v := by
  obtain ⟨e, he, hdirty⟩ := Cache.exists_of_valueOf_dirty hv
  cases keepUp_closes hs (u := .drain name limit copyOn) rfl with
  | nothing hb h =>
    obtain ⟨e', he', _, _, rfl, -⟩ := h.2 id e he
    rw [Cache.valueOf_eq he']
    exact hdirty
  | finishes b how hb hu h => cases hu
  | drops b es hb h hlast =>
    -- The batch that had the name before writes nothing back.
    obtain ⟨_, he₁, _, _, rfl, -⟩ := h.2 id e he
    obtain ⟨e', he', hfinished⟩ := hlast.2 id _ he₁
    rw [Cache.valueOf_eq he']
    exact hfinished.dirty_of_dropped hdirty

theorem drains_of_linked (hs : s.Sound) (hv : s.cache.valueOf id = .dirty v)
    (hlinked : id ∈ s.linked) : s.Drains id v := by
  intro name limit copyOn hlimit
  have hsound : (s.keepUp (.drain name limit copyOn)).Sound :=
    hs.act (.upkeep (.drain name limit copyOn))
  refine handsOut_of_ahead hsound (drain_dirty hs hv limit copyOn) ?_
  obtain ⟨ids, hc⟩ := hs.ledger.chained
  have hids : s.linked = ids := hc.links.toList_eq
  have hlength : ids.length = s.cache.dirtyLength := hc.links.length.symm
  have hsize : ids.length ≤ s.cache.entries.size := hc.links.length_le
  -- The batch lists the whole chain, and nobody has got past anything yet.
  have hfirst := (Cache.takeDirty_taken copyOn (min limit s.cache.entries.size) hc.links).first
  rw [List.take_of_length_le (by omega)] at hfirst
  have hahead : (s.keepUp (.drain name limit copyOn)).ahead name =
      (s.cache.drain limit copyOn).2.ids := by
    unfold ahead
    rw [keepUp, drain_find?]
    rfl
  rw [hahead]
  have hlisted : (s.cache.drain limit copyOn).2.ids = ids := hfirst
  rw [hlisted, ← hids]
  exact hlinked

end

end System

/-! ## Entries that wait to be written back -/

namespace System

variable [DecidableEq K] {s : System K V} {id : EntryId} {v : Value V} {e : Entry K V}

/-- The entry has a value that is not written back, and it is in the chain or in an open batch in
    direct mode, from where the value can be drained. -/
structure Awaits (id : EntryId) (v : Value V) (s : System K V) : Prop where
  dirty : s.cache.valueOf id = .dirty v
  member : id ∈ s.linked ∨
    ∃ name b, s.batches.find? name = some b ∧ b.copyOn = false ∧ id ∈ b.ids
  drains : id ∈ s.linked → s.Drains id v
  /-- An open batch hands the value out if its consumer has not got past the entry. -/
  ahead : ∀ name, id ∈ s.ahead name → s.HandsOut name id v
  /-- A batch in direct mode gives the entry back to the chain in any case, however it is closed. -/
  back : ∀ name b u, s.batches.find? name = some b → b.copyOn = false → id ∈ b.ids →
    u.closed? = some name → (s.keepUp u).cache.valueOf id = .dirty v ∧
      id ∈ (s.keepUp u).linked ∧ (s.keepUp u).Drains id v

/-- A dirty member is waiting to be written back if it has changed since any batch has drained it. -/
theorem awaits_of_newer (hs : s.Sound) (he : s.cache.entries[id]? = some e)
    (hv : e.value = .dirty v) (hin : e.inChain = true)
    (hnewer : ∀ name b version, s.batches.find? name = some b → (id, version) ∈ b.entries →
      version < e.version) : s.Awaits id v where
  dirty := (Cache.valueOf_eq he).trans hv
  member := by
    refine (hs.isMember_iff.1 ⟨e, he, hin⟩).imp_right fun hdispatched => ?_
    obtain ⟨⟨name, b⟩, hmem, hid⟩ := List.mem_flatMap.1 hdispatched
    refine ⟨name, b, Names.find?_of_mem hs.names hmem, ?_⟩
    unfold Batch.members at hid
    split at hid
    · cases hid
    · next hdirect => exact ⟨by simpa using hdirect, hid⟩
  drains := drains_of_linked hs ((Cache.valueOf_eq he).trans hv)
  ahead := fun name => handsOut_of_ahead hs ((Cache.valueOf_eq he).trans hv)
  back := by
    intro name b u hb hdirect hid hu
    obtain ⟨i, version, hi⟩ := Batch.exists_index_of_mem_ids hid
    have hmem := List.mem_of_getElem? hi
    have hsurvives := survives_of_closes hs hb hmem he (hnewer name b version hb hmem) hu
    have hdirty := hsurvives.value.trans ((Cache.valueOf_eq he).trans hv)
    have hlinked := hsurvives.relinked b hb hdirect
    have hsound : (s.keepUp u).Sound := hs.act (.upkeep u)
    exact ⟨hdirty, hlinked, drains_of_linked hsound hdirty hlinked⟩

end System

/-! ## Updates -/

namespace Call

variable {call : Call K V} {node : EntryNode K} {key : K} {epoch : Nat} {prior : ValueState V}

/-- An update whose callback returns a value comes to that value. -/
theorem resume_update (hrequest : call.request = .update key)
    (hstage : call.stage = .running node epoch prior) (content : V) (c : Cache K V) :
    ∃ v, v.content = content ∧
      (call.resume (.value content) c).2.stage.outcome? = some (.value (some v)) := by
  refine ⟨⟨c.nextValue, content⟩, rfl, ?_⟩
  unfold resume
  rw [hstage, hrequest]
  rfl

end Call

namespace System

variable [DecidableEq K] {s : System K V} {call : Call K V} {id : EntryId}

/-- An update that returns a value leaves its entry waiting to be written back with that value,
    whether the node of the entry is in the table or not. -/
theorem awaits_of_update (hs : s.Reachable) (hlast : s.calls.getLast? = some call)
    (hupdates : call.updates? = some id) (content : V) : ∃ v : Value V, v.content = content ∧
      (s.move (.reply (.value content))).outcome? (s.calls.length - 1) = some (.value (some v)) ∧
        (s.move (.reply (.value content))).Awaits id v := by
  obtain ⟨key, node, epoch, prior, hrequest, hstage, rfl⟩ : ∃ key node epoch prior,
      call.request = .update key ∧ call.stage = .running node epoch prior ∧
        node.payload = id := by
    unfold Call.updates? at hupdates
    split at hupdates
    · next key node epoch prior hrequest hstage =>
      exact ⟨key, node, epoch, prior, hrequest, hstage, Option.some.inj hupdates⟩
    · cases hupdates
  have hcall : call ∈ s.calls := List.mem_of_getLast? hlast
  -- The call comes to the value, and it keeps this outcome until it is done.
  obtain ⟨v, hcontent, houtcome⟩ := Call.resume_update hrequest hstage content s.cache
  obtain ⟨t, q, ht, hreply, hended⟩ := hs.reply_ended hlast hstage (.value content)
  obtain ⟨outcome, hsame, hdone⟩ := hended.done
  obtain rfl : Outcome.value (some v) = outcome := Option.some.inj (houtcome.symm.trans hsame)
  have hcalls : s.calls = t.calls ++ [call] := congrArg System.calls ht
  have hlength : s.calls.length - 1 = t.calls.length := by simp [hcalls]
  refine ⟨v, hcontent, ?_, ?_⟩
  · rw [hreply, hlength, outcome?, withLatest_getElem?, Option.map_some, hdone]
  · -- The entry as the callback leaves it, and as the call leaves it.
    obtain ⟨-, e, he, -⟩ := exists_pending hs.sound hcall hstage
    obtain ⟨e₁, he₁, hsettles⟩ := Call.resume_settles (.value content) hstage he
    obtain ⟨hvalue, hin, hversion⟩ := hsettles.enlisted hrequest houtcome
    obtain ⟨e₂, he₂, -, tick, rfl⟩ := hended.entries.2 node.payload e₁ he₁
    have hsound : (s.move (.reply (.value content))).Sound := (hs.move _).sound
    rw [hreply] at hsound ⊢
    refine awaits_of_newer hsound he₂ hvalue hin fun name b version hb hmem => ?_
    -- The batches are those of before, which know versions before this change.
    have hbefore : s.batches.find? name = some b := by
      rw [ht]
      exact hb
    obtain ⟨e', he', hle⟩ := hs.sound.recorded hbefore hmem
    obtain rfl : e = e' := Option.some.inj (he.symm.trans he')
    exact Nat.lt_of_le_of_lt hle hversion

end System

end ReadThrough
