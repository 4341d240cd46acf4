import ReadThrough.Proofs.Runs.Inspections

/-! # What an Action Does to the Entries

  Every action deals with the entries in one of a few ways, so that a property of entries is
  followed through a run by looking at those.

  - **Tolerant**: a relation between an entry before and after that allows for all that happens to
    an entry without anybody dealing with it: evictions, idle passes, removals, uses and links.
  - **Deals**, **act_deals**: actions that close no batch.
  - **Closes**, **keepUp_closes**: actions that close a batch.
-/

namespace ReadThrough

open Cache Entries Ledger

variable {K V : Type}

/-! ## Actions that close no batch -/

/-- A relation between an entry before and after that allows for all that happens to an entry
    without anybody dealing with it. -/
structure Entry.Tolerant (R : Entry K V → Entry K V → Prop) : Prop extends Cache.Lenient R where
  stamp : ∀ now e, R e (e.stamp now)
  relinked : ∀ {e e'}, Entry.Relinked e e' → R e e'

namespace Call

/-- What becomes of an entry when a call looks at the entry of a node. -/
def InspectsAt (held : Held) (call : Call K V) (node : EntryNode K) (stage : Stage K V)
    (id : EntryId) (e e' : Entry K V) : Prop :=
  (id = node.payload → call.Inspects held node e e' stage) ∧ (id ≠ node.payload → e.Relinked e')

/-- What becomes of an entry when the callback for the entry of a node ends. -/
def SettlesAt (call : Call K V) (r : Return V) (node : EntryNode K) (epoch : Nat)
    (prior : ValueState V) (stage : Stage K V) (id : EntryId) (e e' : Entry K V) : Prop :=
  (id = node.payload → call.Settles r node epoch prior e e' stage) ∧
    (id ≠ node.payload → e.Relinked e')

variable {held : Held} {c : Cache K V} {call : Call K V} {node : EntryNode K} {now : Nat}

theorem inspect_each (hproper : call.Proper) (hsuits : ∀ key, call.request ≠ .invalidate key) :
    Each (call.InspectsAt held node (inspect held call node now c).2) c.entries
      (inspect held call node now c).1.entries := by
  have hothers := inspect_relinked held call node now c
  refine ⟨hothers.1, fun id e he => ?_⟩
  by_cases hid : id = node.payload
  · subst hid
    obtain ⟨e', he', hinspects⟩ := inspect_inspects held now hproper hsuits he
    exact ⟨e', he', fun _ => hinspects, fun hne => absurd rfl hne⟩
  · obtain ⟨e', he', hrelinked⟩ := hothers.2 id e he
    exact ⟨e', he', fun heq => absurd heq hid, hrelinked⟩

theorem resume_each {epoch : Nat} {prior : ValueState V} (r : Return V)
    (hstage : call.stage = .running node epoch prior) :
    Each (call.SettlesAt r node epoch prior (call.resume r c).2.stage) c.entries
      (call.resume r c).1.entries := by
  have hothers := resume_relinked r c hstage
  refine ⟨hothers.1, fun id e he => ?_⟩
  by_cases hid : id = node.payload
  · subst hid
    obtain ⟨e', he', hsettles⟩ := resume_settles r hstage he
    exact ⟨e', he', fun _ => hsettles, fun hne => absurd rfl hne⟩
  · obtain ⟨e', he', hrelinked⟩ := hothers.2 id e he
    exact ⟨e', he', fun heq => absurd heq hid, hrelinked⟩

/-- A critical section in which a call neither looks at its entry nor inserts one leaves all entries
    alone, but for a use that it records. -/
theorem advance_each [DecidableEq K] {R : Entry K V → Entry K V → Prop} (hR : Lenient R)
    (htouch : ∀ node now outcome, call.stage = .touch node now outcome → ∀ e, R e (e.stamp now))
    (hinspect : ∀ node now, call.stage ≠ .inspect node now)
    (hinsert : ∀ now, call.stage ≠ .insert now) :
    Each (fun _ => R) c.entries (call.advance held c).1.entries := by
  have hsame := hR.each_refl c.entries
  unfold advance
  dsimp only
  -- By the stage; of those that are left only a use and a retirement write to an entry.
  cases hcase : call.stage with
  | lookup =>
    dsimp only
    rw [lookup_entries]
    exact hsame
  | inspect node now => exact absurd hcase (hinspect node now)
  | insert now => exact absurd hcase (hinsert now)
  | giveBack error? => cases error? <;> exact hsame
  | parked node epoch =>
    dsimp only
    rw [wake_cache]
    exact hsame
  | release node now outcome => cases outcome <;> exact hsame
  | touch node now outcome =>
    exact hR.each_modify hsame node.payload (htouch node now outcome hcase)
  | retire node => exact hR.each_modify hsame node.payload (hR.retire held)
  | _ => exact hsame

end Call

namespace System

variable [DecidableEq K] {R : Entry K V → Entry K V → Prop} {s : System K V} {a : Action K V}

/-- What an action makes of the entries if it closes no batch. -/
inductive Deals (R : Entry K V → Entry K V → Prop) (s : System K V) (a : Action K V) : Prop where
  /-- It leaves them alone. -/
  | leaves (h : Each (fun _ => R) s.cache.entries (s.act a).cache.entries)
  /-- A call looks at an entry. -/
  | inspects (i : Nat) (call : Call K V) (node : EntryNode K) (now : Nat) (ha : a = .advance i)
      (hi : s.calls[i]? = some call) (hstage : call.stage = .inspect node now)
      (h : Each (call.InspectsAt s.held node (call.advance s.held s.cache).2.stage)
        s.cache.entries (s.act a).cache.entries)
  /-- A call adds an entry. -/
  | inserts (i : Nat) (call : Call K V) (now : Nat) (es : Entries K V) (node : EntryNode K)
      (ha : a = .advance i) (hi : s.calls[i]? = some call) (hstage : call.stage = .insert now)
      (hes : Each (fun _ => R) s.cache.entries es)
      (hentries : (s.act a).cache.entries =
        es.push (Entry.new call.request.key call.firstState now))
      (hnode : node.payload = es.size)
      (hnext : (call.advance s.held s.cache).2.stage = call.inserted node)
  /-- The callback for an entry ends. -/
  | settles (r : Return V) (i : Nat) (call : Call K V) (node : EntryNode K) (epoch : Nat)
      (prior : ValueState V) (ha : a = .resume r i) (hi : s.calls[i]? = some call)
      (hstage : call.stage = .running node epoch prior)
      (h : Each (call.SettlesAt r node epoch prior (call.resume r s.cache).2.stage)
        s.cache.entries (s.act a).cache.entries)

theorem deals_of_same (hR : Entry.Tolerant R) (h : (s.act a).cache.entries = s.cache.entries) :
    s.Deals R a := by
  refine .leaves ?_
  rw [h]
  exact hR.each_refl _

theorem advance_deals (hR : Entry.Tolerant R) (hs : s.Sound) (ho : s.Orderly) (i : Nat) :
    s.Deals R (.advance i) := by
  cases hi : s.calls[i]? with
  | none => exact deals_of_same hR (by rw [act_onCall rfl, withCall_eq_self hi])
  | some call =>
    have hcall := List.mem_of_getElem? hi
    have hcache : (s.act (.advance i)).cache = (call.advance s.held s.cache).1 :=
      act_cache rfl hi
    cases hstage : call.stage with
    -- The call looks at its entry, and only at that one.
    | inspect node now =>
      refine .inspects i call node now rfl hi hstage ?_
      have hsuits := ho call hcall
      rw [hstage] at hsuits
      rw [hcache, Call.advance_inspect _ _ hstage]
      exact Call.inspect_each (hs.proper call hcall) hsuits
    -- The call puts its key in, which may evict other entries before.
    | insert now =>
      have hadvance : call.advance s.held s.cache =
          ((call.insert now s.cache).1, call.goTo (call.insert now s.cache).2) := by
        rw [Call.advance, hstage]
      have hinserts := Call.insert_inserts (hR.evictor s.cache.entries) call now s.cache
        (hR.each_refl s.cache.entries)
      generalize call.insert now s.cache = out at hadvance hinserts
      rw [hadvance] at hcache
      cases hinserts with
      | found node hget htable hentries hchain hnext =>
        exact deals_of_same hR ((congrArg Cache.entries hcache).trans hentries)
      | refused m hget hkeep hhash hentries hchain hnext =>
        refine .leaves ?_
        rw [congrArg Cache.entries hcache, hentries]
        exact hkeep
      | made room m hget hkeep hhash htable hentries hchain hnext =>
        refine .inserts i call now m.1 _ rfl hi hstage hkeep
          ((congrArg Cache.entries hcache).trans hentries) ?_ (by rw [hadvance]; exact hnext)
        rw [Table.insertNew_payload]
        exact hkeep.1.symm
    -- At any other stage the call does no more to an entry than to stamp it.
    | _ =>
      refine .leaves ?_
      rw [hcache]
      exact Call.advance_each hR.toLenient (fun _ now _ _ => hR.stamp now) (by simp [hstage])
        (by simp [hstage])

theorem resume_deals (hR : Entry.Tolerant R) (r : Return V) (i : Nat) :
    s.Deals R (.resume r i) := by
  cases hi : s.calls[i]? with
  | none => exact deals_of_same hR (by rw [act_onCall rfl, withCall_eq_self hi])
  | some call =>
    have hcache : (s.act (.resume r i)).cache = (call.resume r s.cache).1 := act_cache rfl hi
    by_cases hrunning : ∃ node epoch prior, call.stage = .running node epoch prior
    · obtain ⟨node, epoch, prior, hstage⟩ := hrunning
      refine .settles r i call node epoch prior rfl hi hstage ?_
      rw [hcache]
      exact Call.resume_each r hstage
    · refine deals_of_same hR ?_
      rw [hcache, Call.resume_of_idle r s.cache fun node epoch prior hstage =>
        hrunning ⟨node, epoch, prior, hstage⟩]

omit [DecidableEq K] in
theorem keepUp_each (hR : Lenient R) {u : Upkeep} (hu : u.closed? = none) :
    Each (fun _ => R) s.cache.entries (s.keepUp u).cache.entries := by
  have hsame := hR.each_refl s.cache.entries
  cases u with
  | clear => exact (hR.clear _ _).entries
  | trim n => exact (hR.trim _ _).entries
  | setMaxCapacity n => exact (hR.setMaxCapacity _ _).entries
  | idleTrim cutoff => exact (hR.idleTrim _ _ _).entries
  | evictIdle seconds => exact (hR.evictIdle _ _ _).entries
  | relieve level => exact (hR.relieve _ _).entries
  | drain name limit copyOn => cases hu
  | next name keepAs =>
    unfold keepUp next
    dsimp only
    split <;> exact hsame
  | finish name how => cases hu
  | dropBatch name => cases hu
  | beginItem entries =>
    unfold keepUp beginItem
    dsimp only
    split <;> exact hsame
  | _ => exact hsame

/-- What an action makes of the entries if it closes no batch. -/
theorem act_deals (hR : Entry.Tolerant R) (hs : s.Sound) (ho : s.Orderly)
    (ha : a.closed? = none) : s.Deals R a := by
  cases a with
  | spawn r => exact deals_of_same hR (by cases r <;> rfl)
  | advance i => exact advance_deals hR hs ho i
  | resume r i => exact resume_deals hR r i
  | expire i =>
    refine deals_of_same hR (withCall_cases (P := fun t => t.cache.entries = s.cache.entries)
      (fun _ => rfl) fun call _ => Call.expire_entries s.cache call)
  | collect i keepAs =>
    refine deals_of_same hR ?_
    unfold act collect
    dsimp only
    split <;> rfl
  | upkeep u => exact .leaves (keepUp_each hR.toLenient ha)

end System

/-! ## Actions that close a batch -/

/-- The entry goes on as before, except that it may have left the chain for a batch. -/
def Entry.Leaves (e e' : Entry K V) : Prop :=
  ∃ (inChain : Bool) (next? : Option EntryId),
    e' = { e with inChain, nextDirty? := next? } ∧ (inChain = true → e.inChain = true)

theorem Entry.Leaves.refl (e : Entry K V) : e.Leaves e :=
  ⟨e.inChain, e.nextDirty?, rfl, id⟩

theorem Cache.Drained.leaves {copyOn : Bool} {taken : List EntryId} {id : EntryId}
    {e e' : Entry K V} (h : Drained copyOn taken id e e') : e.Leaves e' := by
  obtain ⟨next?, rfl⟩ := h
  refine ⟨_, next?, rfl, fun hin => ?_⟩
  split at hin
  · cases hin
  · exact hin

/-- A batch that is forgotten makes nothing clean. -/
theorem Batch.fate_dropped (b : Batch) (consumed : Bool) (version : Nat) (e : Entry K V) :
    fate (dropped b) b.copyOn consumed version e ≠ .clean := by
  intro hclean
  have hwritten := (fate_eq_clean hclean).1
  unfold isWritten dropped at hwritten
  cases hcopy : b.copyOn <;> simp [hcopy] at hwritten

namespace System

variable {s : System K V} {name : String}

/-- What upkeep makes of the entries if it closes the batch of a name. -/
inductive Closes (name : String) (s : System K V) (u : Upkeep) : Prop where
  /-- There is no such batch. -/
  | nothing (hb : s.batches.find? name = none)
      (h : Each (fun _ => Entry.Leaves) s.cache.entries (s.keepUp u).cache.entries)
  /-- The batch is finished. -/
  | finishes (b : Batch) (how : Finish) (hb : s.batches.find? name = some b)
      (hu : u = .finish name how)
      (h : Each (b.Finished how) s.cache.entries (s.keepUp u).cache.entries)
  /-- The batch is forgotten, maybe after another one was drained. -/
  | drops (b : Batch) (es : Entries K V) (hb : s.batches.find? name = some b)
      (h : Each (fun _ => Entry.Leaves) s.cache.entries es)
      (hlast : Each (b.Finished (dropped b)) es (s.keepUp u).cache.entries)

theorem keepUp_closes (hs : s.Sound) {u : Upkeep} (hu : u.closed? = some name) :
    s.Closes name u := by
  have hsame : Each (fun _ => Entry.Leaves) s.cache.entries s.cache.entries :=
    .refl (fun _ => Entry.Leaves.refl) _
  -- Forgetting a batch finishes it in a way that depends on its mode only.
  have hdropped {b : Batch} (hb : s.batches.find? name = some b) (c : Cache K V) :
      Each (b.Finished (dropped b)) c.entries (c.dropBatch b).entries := by
    rw [(c.dropBatch_entries b).1]
    exact finish_each _ b (hs.distinct hb) _ _
  cases u with
  -- A drain closes the batch that had the name before, if there was one.
  | drain other limit copyOn =>
    obtain rfl : other = name := Option.some.inj hu
    obtain ⟨ids, hc⟩ := hs.ledger.chained
    have hdrained : Each (fun _ => Entry.Leaves) s.cache.entries
        (s.cache.drain limit copyOn).1.entries :=
      (takeDirty_taken copyOn _ hc.links).each.imp fun _ _ _ => Drained.leaves
    cases hb : s.batches.find? other with
    | none =>
      refine .nothing hb ?_
      rw [keepUp, drain_eq, hb]
      exact hdrained
    | some old =>
      refine .drops old _ hb hdrained ?_
      rw [keepUp, drain_eq, hb]
      exact hdropped hb _
  | finish other how =>
    obtain rfl : other = name := Option.some.inj hu
    cases hb : s.batches.find? other with
    | none =>
      refine .nothing hb ?_
      rw [keepUp, finish, hb]
      exact hsame
    | some b =>
      refine .finishes b how hb rfl ?_
      rw [keepUp, finish_cache how hb]
      exact finish_each how b (hs.distinct hb) _ _
  | dropBatch other =>
    obtain rfl : other = name := Option.some.inj hu
    cases hb : s.batches.find? other with
    | none =>
      refine .nothing hb ?_
      rw [keepUp, dropBatch, hb]
      exact hsame
    | some b =>
      refine .drops b s.cache.entries hb hsame ?_
      rw [keepUp, dropBatch, hb]
      exact hdropped hb s.cache
  | _ => cases hu

end System

end ReadThrough
