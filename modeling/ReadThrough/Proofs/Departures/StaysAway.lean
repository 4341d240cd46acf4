import ReadThrough.Proofs.Departures.Drains

/-! # Removed Entries Stay Away

  An entry that has left the table never comes back, whatever is done through its node later.

  - **StaysAway**: what is true of such an entry: nobody finds its values, and neither a callback
    that ends for it nor a batch that is closed touches the table or another entry, but a value
    that an update returns can still be drained.
  - **departed_stays_away**: in every run of a single caller an entry stays away from when its node
    has left the table, however it has done so.
-/

namespace ReadThrough

variable {K V : Type} [DecidableEq K]

namespace System

variable {s : System K V} {id : EntryId}

/-- The entry is away, and nothing that is done through its node brings it back. -/
structure StaysAway (id : EntryId) (s : System K V) : Prop where
  departed : s.Departed id
  /-- Nobody finds the value that it has, or that its callback may give back to it. -/
  hidden : ∀ w, s.Bears w id → s.Hidden w
  /-- The end of a callback for it, with or without a value, by a failure or by a panic, shows and
      moves nothing, and the other entries only may get another successor in the dirty chain. -/
  reply : ∀ call r, s.calls.getLast? = some call → call.runsFor id = true →
    Unmoved (fun j e e' => j ≠ id → e.Relinked e') s (s.move (.reply r))
  /-- Closing a batch shows and moves nothing, and it only makes values clean that it lists. -/
  close : ∀ name b u, s.batches.find? name = some b → u.closed? = some name →
    Unmoved (Entry.WrittenBack b) s (s.keepUp u)
  /-- An update of it succeeds all the same, and its value can be drained. -/
  update : ∀ call content, s.calls.getLast? = some call → call.updates? = some id →
    ∃ v : Value V, v.content = content ∧
      (s.move (.reply (.value content))).outcome? (s.calls.length - 1) = some (.value (some v)) ∧
        (s.move (.reply (.value content))).Awaits id v

theorem Departed.staysAway (h : s.Departed id) (hs : s.Reachable) : s.StaysAway id where
  departed := h
  hidden := fun _ hw => (hs.housed.home hw).hidden h hs
  reply := fun _ r hlast hruns => unmoved_reply hs h hlast hruns r
  close := fun _ _ _ hb hu => unmoved_close hs hu hb
  update := fun _ content hlast hupdates => awaits_of_update hs hlast hupdates content

/-- What an entry bears at some time it is the only one ever to bear. -/
theorem Reachable.home_moveAll (hs : s.Reachable) {ms earlier : List (Move K V)} {w : Nat}
    (hpart : earlier <+: ms) (hw : (s.moveAll earlier).Bears w id) :
    (s.moveAll ms).Home w id := by
  obtain ⟨rest, rfl⟩ := hpart
  have hearlier : (s.moveAll earlier).Reachable := hs.moveAll earlier
  rw [moveAll_append]
  exact (hearlier.housed.home hw).moveAll hearlier rest

end System

/-- In every run of a single caller, with operations nested in callbacks in any way, an entry whose
    node has left the table stays away from then on, and nobody finds any value that it bears or
    has ever borne. -/
theorem departed_stays_away (config : Config) (clock : Clock) (hashOf : K → UInt64)
    {before : List (Move K V)} {id : EntryId}
    (hid : ((System.new config clock hashOf : System K V).moveAll before).Departed id)
    (after : List (Move K V)) :
    let s : System K V := System.new config clock hashOf
    let t := (s.moveAll before).moveAll after
    t.StaysAway id ∧
      ∀ earlier, earlier <+: before ++ after → ∀ w, (s.moveAll earlier).Bears w id → t.Hidden w := by
  intro s t
  have hs : s.Reachable := System.reachable_new config clock hashOf
  have hbefore : (s.moveAll before).Reachable := hs.moveAll before
  have ht : t.Reachable := hbefore.moveAll after
  have haway : t.Departed id := hid.moveAll hbefore after
  refine ⟨haway.staysAway ht, fun earlier hpart w hw => ?_⟩
  have hhome : (s.moveAll (before ++ after)).Home w id := hs.home_moveAll hpart hw
  rw [System.moveAll_append] at hhome
  exact hhome.hidden haway ht

/-- An entry with a dirty value is drained in direct mode, an update of it starts, and its key is
    forgotten and put again meanwhile: the update is that of the entry that is away, which the batch
    still lists, and the key leads to another one. -/
theorem departed_stays_away_reinserted :
    let s : System Nat Nat := System.new {} (.manual 0) fun _ => 0
    let before : List (Move Nat Nat) := [.start (.update 1), .reply (.value 5), .collect none,
      .upkeep (.drain "b" 10 false), .start (.update 1), .start (.invalidate 1), .collect none]
    let t := (s.moveAll before).moveAll [.start (.put 1 7), .collect none]
    (s.moveAll before).Departed 0 ∧ t.StaysAway 0 ∧
      t.calls.getLast?.bind Call.updates? = some 0 ∧
      (t.batches.find? "b").map Batch.ids = some [0] ∧
      (t.nodeAt 1).map Table.Node.payload = some 1 := by
  intro s before t
  have hid : (s.moveAll before).Departed 0 := by decide +kernel
  have haway := (departed_stays_away {} (.manual 0) (fun _ => 0) hid
    [.start (.put 1 7), .collect none]).1
  exact ⟨hid, haway, by decide +kernel, by decide +kernel, by decide +kernel⟩

end ReadThrough
