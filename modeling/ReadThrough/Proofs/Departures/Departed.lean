import ReadThrough.Proofs.Departures.Homes
import ReadThrough.Proofs.Recency.Uses
import ReadThrough.Proofs.WriteBack.Unchanged

/-! # Departed Entries

  What is left of an entry whose node has left the table.

  - **Departed**: no node of the table leads to the entry, and none ever will again.
  - **Hidden**: neither a get nor a contains nor a scan finds a value.
  - **Unmoved**: what callers see of the table stays as it is.
  - **unmoved_reply**: a callback that ends for a departed entry moves nothing. Its handle no
    longer fits anything in the recency list, and the values that come and go with the call are
    those of its own entry.
  - **unmoved_close**: nor does finishing or forgetting a batch, whatever it lists.
-/

namespace ReadThrough

open Cache Entries

variable {K V : Type}

namespace ValueState

/-- What can be had from a state depends on whether its own value is held, and on no other. -/
theorem peek_congr {held held' : Held} {s : ValueState V}
    (h : ∀ w, s.Has w → held' w = held w) : s.peek held' = s.peek held := by
  cases s with
  | detached v => simp only [peek, h v.id ⟨v, rfl, rfl⟩]
  | _ => rfl

@[simp] theorem peek_clean (held : Held) (s : ValueState V) : s.clean.peek held = s.peek held := by
  cases s <;> rfl

end ValueState

namespace System

variable [DecidableEq K] {s t : System K V} {id : EntryId} {w : Nat}

/-! ## Departures -/

/-- The entry was made once, and no node of the table leads to it. -/
def Departed (id : EntryId) (s : System K V) : Prop :=
  id < s.cache.entries.size ∧ ∀ n ∈ s.cache.table.nodes, n.payload ≠ id

instance (id : EntryId) (s : System K V) : Decidable (s.Departed id) :=
  inferInstanceAs (Decidable (_ ∧ _))

theorem Departed.act (h : s.Departed id) (hs : s.Reachable) (a : Action K V) :
    (s.act a).Departed id := by
  obtain ⟨hlt, haway⟩ := h
  refine ⟨?_, fun n hn hid => ?_⟩
  · obtain ⟨e', he', -⟩ := (act_leads hs.sound a).sameKeys hs.sound.ledger id _
      (Array.getElem?_eq_getElem hlt)
    exact (Array.getElem?_eq_some_iff.1 he').1
  · -- A node that is new leads to a new entry.
    rcases act_tenants hs.keyed hn with hold | ⟨hnew, -⟩
    · exact haway n hold hid
    · rw [← hid, hnew] at hlt
      exact Nat.lt_irrefl _ hlt

/-- An entry that has left the table never gets into it again. -/
theorem Departed.actAll (h : s.Departed id) (hs : s.Reachable) (as : List (Action K V)) :
    (s.actAll as).Departed id := by
  induction as generalizing s with
  | nil => exact h
  | cons a as ih => exact ih (h.act hs a) (hs.actAll [a])

theorem Departed.moveAll (h : s.Departed id) (hs : s.Reachable) (ms : List (Move K V)) :
    (s.moveAll ms).Departed id := by
  obtain ⟨as, has⟩ := exists_actAll_eq_moveAll s ms
  exact has ▸ h.actAll hs as

/-! ## Values that nobody finds -/

/-- Nobody finds the value of that identity: no get returns it, no key is said to have a value for
    its sake, and no scan comes upon it. -/
structure Hidden (w : Nat) (s : System K V) : Prop where
  get : ∀ k v, s.GetReturns k (some v) → v.id ≠ w
  contains : ∀ k, s.cache.contains s.held k = true → ∃ v, s.GetReturns k (some v) ∧ v.id ≠ w
  scan : ∀ kv ∈ s.cache.scan s.held, kv.2.id ≠ w
  /-- A scan that starts now does not hand the value out either, whatever its client does between
      two of the items. -/
  item : ∀ ms entries v, entries <:+ s.cache.table.nodes.map Table.Node.payload →
    ((s.moveAll ms).beginItem entries).scans = { current := v, entries } :: (s.moveAll ms).scans →
    v.id ≠ w

omit [DecidableEq K] in
theorem bears_of_peek {v : Value V} (h : s.cache.peek s.held id = some v) : s.Bears v.id id := by
  unfold Cache.peek Cache.valueOf at h
  cases he : s.cache.entries[id]? with
  | none =>
    rw [he] at h
    cases h
  | some e =>
    rw [he] at h
    exact .inl ⟨e, he, v, ValueState.result?_of_peek h, rfl⟩

omit [DecidableEq K] in
/-- A scan hands out the values of the entries that it goes through. -/
theorem exists_of_beginItem {entries : List EntryId} {v : Value V}
    (h : (s.beginItem entries).scans = { current := v, entries } :: s.scans) :
    ∃ j ∈ entries, s.cache.peek s.held j = some v := by
  unfold beginItem at h
  split at h
  · exact absurd h.symm (List.cons_ne_self _ _)
  · next current hcurrent =>
    obtain ⟨j, hj, hv⟩ := Option.bind_eq_some_iff.1 hcurrent
    obtain rfl : current = v := by simpa using h
    exact ⟨j, List.mem_of_head? hj, hv⟩

/-- What belongs to an entry that has departed is found by nobody. -/
theorem Home.hidden (h : s.Home w id) (hid : s.Departed id) (hs : s.Reachable) : s.Hidden w := by
  have hpeek {n : EntryNode K} {v : Value V} (hn : n ∈ s.cache.table.nodes)
      (hv : s.cache.peek s.held n.payload = some v) : v.id ≠ w := by
    rintro rfl
    exact hid.2 n hn (h.own n.payload (bears_of_peek hv))
  have hvalue {k : K} {v : Value V} (hv : s.valueAt k = some v) : v.id ≠ w := by
    obtain ⟨n, hget, hv⟩ := Option.bind_eq_some_iff.1 hv
    exact hpeek (hs.filed.complete.sound.get?_eq_some_iff.1 hget).1 hv
  refine ⟨fun k v hget => hvalue (getReturns_iff.1 hget), fun k hcontains => ?_, fun kv hkv => ?_,
    fun ms entries v hentries hitem => ?_⟩
  · rw [contains_eq] at hcontains
    obtain ⟨v, hv⟩ := Option.isSome_iff_exists.1 hcontains
    exact ⟨v, getReturns_iff.2 hv, hvalue hv⟩
  · obtain ⟨n, hn, hfound⟩ := List.mem_filterMap.1 hkv
    obtain ⟨v, hv, rfl⟩ := Option.map_eq_some_iff.1 hfound
    exact hpeek hn hv
  · -- The entry that the item comes from was in the table, so it is another one.
    obtain ⟨j, hj, hv⟩ := exists_of_beginItem hitem
    obtain ⟨n, hn, rfl⟩ := List.mem_map.1 (hentries.subset hj)
    rintro rfl
    exact hid.2 n hn ((h.moveAll hs ms).own n.payload (bears_of_peek hv))

/-! ## What is left alone -/

/-- What callers see of the table stays: its size, the nodes of the keys, the order of last uses and
    all values. The entries go on as told. -/
structure Unmoved (R : EntryId → Entry K V → Entry K V → Prop) (s t : System K V) : Prop where
  size : t.cache.size = s.cache.size
  nodes : ∀ k, t.nodeAt k = s.nodeAt k
  order : t.cache.order = s.cache.order
  entries : Each R s.cache.entries t.cache.entries
  get : ∀ k v?, t.GetReturns k v? ↔ s.GetReturns k v?
  contains : ∀ k, t.cache.contains t.held k = s.cache.contains s.held k
  scan : t.cache.scan t.held = s.cache.scan s.held

theorem unmoved_of_table {R : EntryId → Entry K V → Entry K V → Prop} (hs : s.cache.table.Sound)
    (htable : t.cache.table = s.cache.table) (h : Each R s.cache.entries t.cache.entries)
    (hpeek : ∀ n ∈ s.cache.table.nodes,
      t.cache.peek t.held n.payload = s.cache.peek s.held n.payload) : Unmoved R s t := by
  have hnodes (k : K) : t.nodeAt k = s.nodeAt k := congrArg (Table.get? · k) htable
  have hvalues (k : K) : t.valueAt k = s.valueAt k := by
    rw [valueAt, valueAt, hnodes]
    refine Option.bind_congr fun n hn => ?_
    exact hpeek n (hs.get?_eq_some_iff.1 hn).1
  refine ⟨congrArg Table.size htable, hnodes, ?_, h, fun k v? => ?_, fun k => ?_, ?_⟩
  · rw [Cache.order, htable, Cache.order]
  · rw [getReturns_iff, getReturns_iff, hvalues]
  · rw [contains_eq, contains_eq, hvalues]
  · rw [Cache.scan, htable]
    exact List.filterMap_congr fun n hn => by rw [hpeek n hn]

end System

/-! ## Callbacks that end -/

/-- From where its callback has ended the call has gone on to its outcome, and the cache is as it
    was then but for a use of the entry, if one was recorded. -/
structure Call.Ended (node : EntryNode K) (p q : Cache K V × Call K V) : Prop where
  done : ∃ outcome, p.2.stage.outcome? = some outcome ∧ q.2.stage = .done outcome
  table : q.1.table = p.1.table ∨ q.1.table = p.1.table.touch node
  entries : Each (fun id e e' => (id ≠ node.payload → e' = e) ∧
    ∃ tick, e' = { e with lastAccess := tick }) p.1.entries q.1.entries
  chain : q.1.chain = p.1.chain
  next : q.1.nextValue = p.1.nextValue

namespace System

variable [DecidableEq K] {s t : System K V} {c : Cache K V} {call : Call K V} {node : EntryNode K}
  {id : EntryId} {w : Nat}

omit [DecidableEq K] in
/-- The call is done, and no use was recorded. -/
theorem ended_of_done {stage : Stage K V} {c' : Cache K V} {outcome : Outcome V}
    (houtcome : stage.outcome? = some outcome) (htable : c'.table = c.table)
    (hentries : c'.entries = c.entries) (hchain : c'.chain = c.chain)
    (hnext : c'.nextValue = c.nextValue) :
    Call.Ended node (c, call.goTo stage) (c', call.goTo (.done outcome)) where
  done := ⟨outcome, houtcome, rfl⟩
  table := .inl htable
  entries := by
    rw [show (c', call.goTo (.done outcome)).1.entries = c.entries from hentries]
    exact .refl (fun _ e => ⟨fun _ => rfl, e.lastAccess, rfl⟩) _
  chain := hchain
  next := hnext

omit [DecidableEq K] in
/-- The call is done, and a use was recorded. -/
theorem ended_of_use {stage : Stage K V} {c' : Cache K V} {outcome : Outcome V} {tick : Nat}
    (houtcome : stage.outcome? = some outcome) (htable : c'.table = c.table)
    (hentries : c'.entries = c.entries) (hchain : c'.chain = c.chain)
    (hnext : c'.nextValue = c.nextValue) :
    Call.Ended node (c, call.goTo stage) (c'.use node tick, call.goTo (.done outcome)) where
  done := ⟨outcome, houtcome, rfl⟩
  table := .inr (congrArg (Table.touch · node) htable)
  entries := by
    show Each _ c.entries (c'.entries.modify node.payload (Entry.stamp tick))
    rw [hentries]
    refine each_modify _ _ (fun e _ => ⟨fun hne => absurd rfl hne, _, rfl⟩) fun j e hj => ?_
    exact ⟨fun _ => rfl, e.lastAccess, rfl⟩
  chain := hchain
  next := hnext

theorem haltsWith_ended {now : Nat} {stage : Stage K V} (h : call.Ends node now stage) :
    s.HaltsWith (Call.Ended node (c, call.goTo stage)) 2 (c, call.goTo stage) := by
  cases h with
  | closes outcome hno => exact .halts rfl (ended_of_done rfl rfl rfl rfl rfl)
  | uses outcome huse => exact .goes rfl (.halts rfl (ended_of_use rfl rfl rfl rfl rfl))
  | loads v? huse =>
    -- The reservation is given back first.
    exact .goes rfl (.goes rfl (.halts rfl (ended_of_use rfl rfl rfl rfl rfl)))
  | fails error => exact .goes rfl (.halts rfl (ended_of_done rfl rfl rfl rfl rfl))
  | panics reason => exact .goes rfl (.halts rfl (ended_of_done rfl rfl rfl rfl rfl))

/-- The reply to the latest call leads to its end, whatever the other calls are. -/
theorem Reachable.reply_ended (hs : s.Reachable) {epoch : Nat} {prior : ValueState V}
    (hlast : s.calls.getLast? = some call) (hstage : call.stage = .running node epoch prior)
    (r : Return V) : ∃ (t : System K V) (q : Cache K V × Call K V),
      s = t.withLatest (s.cache, call) ∧ s.move (.reply r) = t.withLatest q ∧
        Call.Ended node (call.resume r s.cache) q := by
  have hi : s.calls[s.calls.length - 1]? = some call := by rw [← List.getLast?_eq_getElem?, hlast]
  obtain ⟨t, ht, hlength⟩ := exists_withLatest hi
  have hsuits := hs.orderly call (List.mem_of_getElem? hi)
  rw [hstage] at hsuits
  obtain ⟨stage, hcall, hends⟩ := Call.resume_ends r s.cache hstage hsuits
  have hpair : call.resume r s.cache = ((call.resume r s.cache).1, call.goTo stage) :=
    Prod.ext rfl hcall
  have hhalts : t.HaltsWith (Call.Ended node (call.resume r s.cache)) 2
      (call.resume r s.cache) := by
    rw [hpair]
    exact haltsWith_ended hends
  obtain ⟨q, hq, hcarry⟩ := hhalts.carryOn_awake (by decide) fun q hq => by
    obtain ⟨outcome, -, hdone⟩ := hq.done
    exact Stage.ne_parked_of_rests (by rw [hdone]; rfl)
  exact ⟨t, q, ht, (reply_latest ht hlength r).trans hcarry, hq⟩

omit [DecidableEq K] in
theorem held_withLatest (p : Cache K V × Call K V) (w : Nat) :
    (s.withLatest p).held w = (s.held w || p.2.holdings.any (·.id == w)) := by
  simp only [withLatest, held, heldBy, List.any_append, List.any_cons, List.any_nil,
    Bool.or_false]
  cases s.scans.any (·.current.id == w) <;> simp [Bool.or_assoc]

/-- What the call holds whose callback runs for an entry belongs to that entry. -/
theorem Reachable.bears_of_holdings (hs : s.Reachable) {epoch : Nat} {prior : ValueState V}
    (hcall : call ∈ s.calls) (hstage : call.stage = .running node epoch prior) {v : Value V}
    (hv : v ∈ call.holdings) : s.Bears v.id node.payload := by
  have hown : call.own? = none := by
    have hproper := hs.sound.proper call hcall
    have hsuits := hs.orderly call hcall
    rw [hstage] at hsuits
    unfold Call.Proper at hproper
    split at hproper
    · next key content hr =>
      rcases hsuits with ⟨key', hr'⟩ | ⟨hload, -⟩
      · rw [hr] at hr'
        cases hr'
      · rw [hr] at hload
        cases hload
    · exact hproper
  have hkept : prior.kept = some v := by simpa [Call.holdings, hstage, hown] using hv
  refine .inr ⟨_, mem_flights hcall hstage, rfl, v, ?_, rfl⟩
  cases prior <;> simp_all [ValueState.kept, ValueState.result?]

/-- The values that come and go with a callback that ends are those of its own entry, and new
    ones. -/
theorem Reachable.held_ended (hs : s.Reachable) {epoch : Nat} {prior : ValueState V} {r : Return V}
    {q : Cache K V × Call K V} {j : EntryId} (hcall : call ∈ s.calls)
    (hstage : call.stage = .running node epoch prior) (ht : s = t.withLatest (s.cache, call))
    (hended : Call.Ended node (call.resume r s.cache) q) (hj : j ≠ node.payload)
    (hw : s.Bears w j) :
    (t.withLatest q).held w = s.held w := by
  obtain ⟨outcome, houtcome, hdone⟩ := hended.done
  have hbefore : call.holdings.any (·.id == w) = false := by
    rw [List.any_eq_false]
    intro v hv heq
    have hown := hs.bears_of_holdings hcall hstage hv
    rw [eq_of_beq heq] at hown
    exact hj (hs.housed.once w j node.payload hw hown)
  have hafter : q.2.holdings.any (·.id == w) = false := by
    rw [List.any_eq_false]
    intro v hv heq
    have hnew : outcome = .value (some v) := by
      rw [Call.holdings, hdone] at hv
      cases outcome with
      | value v? => simpa [Outcome.value?] using hv
      | _ => simp [Outcome.value?] at hv
    obtain ⟨hfresh, -⟩ := Call.resume_makes hstage (hnew ▸ houtcome)
    have hlt := hs.housed.borne w j hw
    rw [← eq_of_beq heq, hfresh] at hlt
    exact Nat.lt_irrefl _ hlt
  have hnow : s.held w = (t.held w || call.holdings.any (·.id == w)) := by
    nth_rewrite 1 [ht]
    exact held_withLatest _ w
  rw [hnow, held_withLatest, hbefore, hafter]

omit [DecidableEq K] in
theorem exists_running (h : call.runsFor id = true) : ∃ node epoch prior,
    call.stage = .running node epoch prior ∧ node.payload = id := by
  unfold Call.runsFor at h
  split at h
  · next node epoch prior hstage => exact ⟨node, epoch, prior, hstage, by simpa using h⟩
  · cases h

/-- A callback that ends for an entry that has left the table moves nothing and leaves the other
    entries alone, whether it makes a value or not. -/
theorem unmoved_reply (hs : s.Reachable) (hid : s.Departed id)
    (hlast : s.calls.getLast? = some call) (hruns : call.runsFor id = true) (r : Return V) :
    Unmoved (fun j e e' => j ≠ id → e.Relinked e') s (s.move (.reply r)) := by
  have hcall : call ∈ s.calls := List.mem_of_getLast? hlast
  obtain ⟨node, epoch, prior, hstage, rfl⟩ := exists_running hruns
  obtain ⟨t, q, ht, hreply, hended⟩ := hs.reply_ended hlast hstage r
  have hhandles : s.cache.Handles node :=
    hs.filed.handles call hcall node (by rw [Call.node?, hstage])
  -- The handle fits nothing in the recency list, so a use that is recorded moves nothing.
  have htable : q.1.table = s.cache.table := by
    have hresume := Call.resume_table r s.cache call
    have htouch := hhandles.known.touch_of_not_mem hs.filed.complete fun hn => hid.2 node hn rfl
    rcases hended.table with h | h
    · exact h.trans hresume
    · rw [h, hresume, htouch]
  have hentries : Each (fun j e e' => j ≠ node.payload → e.Relinked e') s.cache.entries
      q.1.entries := by
    refine (Call.resume_each (c := s.cache) r hstage).comp hended.entries fun j a b c h k hj => ?_
    rw [k.1 hj]
    exact h.2 hj
  rw [hreply]
  refine unmoved_of_table hs.filed.complete.sound htable hentries fun n hn => ?_
  obtain ⟨e, he, -⟩ := hs.keyed.nodes n hn
  obtain ⟨e', he', hrelinked⟩ := hentries.2 n.payload e he
  obtain ⟨next?, rfl⟩ := hrelinked (hid.2 n hn)
  show ((t.withLatest q).cache.valueOf n.payload).peek _ = (s.cache.valueOf n.payload).peek _
  rw [valueOf_eq he, valueOf_eq (c := (t.withLatest q).cache) he']
  exact ValueState.peek_congr fun w hw =>
    hs.held_ended hcall hstage ht hended (hid.2 n hn) (.inl ⟨e, he, hw⟩)

end System

/-! ## Batches that are closed -/

/-- The entry has been written back with the batch if anything: the batch lists it then, and its
    value is clean. Only its place in the dirty chain may be another one besides. -/
def Entry.WrittenBack (b : Batch) (id : EntryId) (e e' : Entry K V) : Prop :=
  ∃ value inChain next?, e' = { e with value, inChain, nextDirty? := next? } ∧
    (value = e.value ∨ (id ∈ b.ids ∧ value = e.value.clean))

theorem Batch.Finished.writtenBack {b : Batch} {how : Finish} {id : EntryId} {e e' : Entry K V}
    (h : b.Finished how id e e') : e.WrittenBack b id e' := by
  obtain ⟨n, d, ⟨-, rfl⟩ | ⟨i, version, hi, rfl⟩, rfl⟩ := h
  · exact ⟨_, _, n, rfl, .inl rfl⟩
  · have hlisted : id ∈ b.ids := mem_ids (List.mem_of_getElem? hi)
    cases Batch.fate how b.copyOn (decide (i < b.consumed)) version e with
    | clean => exact ⟨_, _, n, rfl, .inr ⟨hlisted, rfl⟩⟩
    | leave => exact ⟨_, _, n, rfl, .inl rfl⟩
    | relink => exact ⟨_, _, n, rfl, .inl rfl⟩

namespace System

variable {s : System K V} {name : String} {b : Batch} {u : Upkeep}

/-- Closing a batch is none of the table's business, and nothing is held or let go for it. -/
theorem keepUp_closed_table (hu : u.closed? = some name) :
    (s.keepUp u).cache.table = s.cache.table ∧ (s.keepUp u).held = s.held := by
  have hdrop (b : Batch) (c : Cache K V) : (c.dropBatch b).table = c.table := by
    unfold Cache.dropBatch
    split <;> rfl
  cases u with
  | drain other limit copyOn =>
    rw [keepUp, drain_eq]
    refine ⟨?_, rfl⟩
    dsimp only
    split
    · exact hdrop _ _
    · rfl
  | finish other how =>
    show (s.finish other how).1.cache.table = _ ∧ (s.finish other how).1.held = _
    unfold finish
    split <;> exact ⟨rfl, rfl⟩
  | dropBatch other =>
    show (s.dropBatch other).cache.table = _ ∧ (s.dropBatch other).held = _
    unfold dropBatch
    split
    · exact ⟨rfl, rfl⟩
    · exact ⟨hdrop _ _, rfl⟩
  | _ => cases hu

theorem keepUp_writtenBack (hs : s.Sound) (hu : u.closed? = some name)
    (hb : s.batches.find? name = some b) :
    Each (Entry.WrittenBack b) s.cache.entries (s.keepUp u).cache.entries := by
  cases keepUp_closes hs hu with
  | nothing hnone h =>
    rw [hb] at hnone
    cases hnone
  | finishes b' how hb' hu h =>
    obtain rfl := Option.some.inj (hb.symm.trans hb')
    exact h.imp fun _ _ _ => Batch.Finished.writtenBack
  | drops b' es hb' h hlast =>
    obtain rfl := Option.some.inj (hb.symm.trans hb')
    refine h.comp hlast fun id e₁ e₂ e₃ hleaves hfinished => ?_
    obtain ⟨inChain, next?, rfl, -⟩ := hleaves
    obtain ⟨value, inChain', next?', rfl, hvalue⟩ := hfinished.writtenBack
    exact ⟨value, inChain', next?', rfl, hvalue⟩

/-- Finishing or forgetting a batch shows nothing and moves nothing, whatever the batch lists. -/
theorem unmoved_close [DecidableEq K] (hs : s.Reachable) (hu : u.closed? = some name)
    (hb : s.batches.find? name = some b) : Unmoved (Entry.WrittenBack b) s (s.keepUp u) := by
  obtain ⟨htable, hheld⟩ := keepUp_closed_table (s := s) hu
  have hentries := keepUp_writtenBack hs.sound hu hb
  refine unmoved_of_table hs.filed.complete.sound htable hentries fun n hn => ?_
  obtain ⟨e, he, -⟩ := hs.keyed.nodes n hn
  obtain ⟨e', he', value, inChain, next?, rfl, hvalue⟩ := hentries.2 n.payload e he
  rw [hheld, Cache.peek, Cache.peek, valueOf_eq he, valueOf_eq he']
  -- A value that is written back can be had as before.
  rcases hvalue with rfl | ⟨-, rfl⟩
  · rfl
  · exact e.value.peek_clean s.held

end System

end ReadThrough
