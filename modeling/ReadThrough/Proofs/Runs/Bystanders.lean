import ReadThrough.Proofs.Cache.Guarded
import ReadThrough.Proofs.Runs.History
import ReadThrough.Proofs.Runs.Keys

/-! # Bystanders

  What happens to an entry while other keys are dealt with.

  - **OthersRelinked**: looking at an entry, or the end of its callback, concerns no other entry.
  - **Call.advance_calmAt**, **Call.resume_calmAt**: a call only changes the entry that it refers
    to, and the entries whose nodes it evicts.
  - **act_calm**: an entry stays as calls expect it through every action of a call on another key,
    and through all upkeep but idle passes, as long as its node stays in the table.
  - **act_kept**: the node of a protected entry stays in the table until it is taken out by name.
-/

namespace ReadThrough

open Cache Entries

variable {K V : Type}

namespace Call

variable {held : Held} {c : Cache K V} {call : Call K V} {node : EntryNode K} {now : Nat}
  {cleans : Bool} {id : EntryId}

theorem lookup_entries [DecidableEq K] (r : Request K V) (c : Cache K V) :
    (lookup r c).1.entries = c.entries := by
  unfold lookup
  repeat' split
  all_goals rfl

/-- Nothing but the entry of a place changes, except for where entries are linked in the chain. -/
abbrev OthersRelinked (id : EntryId) (es es' : Entries K V) : Prop :=
  Entries.Each (fun j e e' => j ≠ id → e.Relinked e') es es'

theorem OthersRelinked.refl (id : EntryId) (es : Entries K V) : OthersRelinked id es es :=
  Each.refl (fun _ e _ => .refl e) es

theorem OthersRelinked.modify {es es' : Entries K V} (h : OthersRelinked id es es')
    (f : Entry K V → Entry K V) : OthersRelinked id es (es'.modify id f) :=
  h.comp (Entries.each_modify (R := fun j e e' => j ≠ id → e.Relinked e') id f
    (fun _ _ hne => absurd rfl hne) fun _ e _ _ => .refl e)
    fun _ _ _ _ hab hbc hne => (hab hne).trans (hbc hne)

theorem OthersRelinked.makeDirty {es : Entries K V} (h : OthersRelinked id es c.entries)
    (v : Value V) : OthersRelinked id es (c.makeDirty id v).entries := by
  rw [makeDirty_entries]
  refine h.comp (enlist_each id v c.entries c.chain) ?_
  rintro j a b d hab ⟨n, rfl⟩ hne
  rw [if_neg hne]
  exact (hab hne).trans ⟨n, rfl⟩

theorem OthersRelinked.calmAt {es es' : Entries K V} {j : EntryId} (h : OthersRelinked id es es')
    (hne : j ≠ id) : CalmAt cleans j es es' := by
  intro e he
  obtain ⟨e', he', hrelinked⟩ := h.2 j e he
  exact ⟨e', he', (hrelinked hne).calm⟩

/-- Looking at an entry concerns no other one. -/
theorem inspect_relinked (held : Held) (call : Call K V) (node : EntryNode K) (now : Nat)
    (c : Cache K V) :
    OthersRelinked node.payload c.entries (inspect held call node now c).1.entries := by
  have hsame := OthersRelinked.refl node.payload c.entries
  have hresolved := hsame.modify (Entry.resolve held)
  unfold inspect
  split
  · exact hsame
  split
  · unfold inspectGet
    dsimp only
    split <;> exact hresolved
  · unfold inspectLoad park giveUp
    dsimp only
    repeat' split
    all_goals first | exact hsame | exact hresolved | exact hresolved.modify _
  · unfold inspectUpdate park giveUp
    repeat' split
    all_goals first | exact hsame | exact hsame.modify _
  · unfold inspectPut park giveUp
    dsimp only
    repeat' split
    all_goals first | exact hsame | exact hresolved | exact hresolved.modify _
  · unfold inspectMark
    dsimp only
    split
    · exact hresolved
    · exact OthersRelinked.makeDirty (c := c.modify node.payload (Entry.resolve held)) hresolved _
  · exact hsame

theorem inspect_calmAt (held : Held) (call : Call K V) (now : Nat) (c : Cache K V)
    (hne : id ≠ node.payload) :
    CalmAt cleans id c.entries (inspect held call node now c).1.entries :=
  (inspect_relinked held call node now c).calmAt hne

/-- Insertion concerns no entry whose node stays in the table. -/
theorem Inserts.calmAt [DecidableEq K] {r : Cache K V × Stage K V}
    (h : Inserts (Spared c.table.hashOf c.table.buckets c.entries) call now c r)
    (hs : c.table.Sound) (hstay : Stays id c.table r.1.table) :
    CalmAt cleans id c.entries r.1.entries := by
  cases h with
  | found node hget htable hentries hchain hstage => exact calmAt_of_same (by rw [hentries])
  | refused m hget hkeep hhash hentries hchain hstage =>
    rw [hentries]
    exact calmAt_of_same (hkeep.same id hstay)
  | @made c' stage room m hget hkeep hhash htable hentries hchain hstage =>
    intro e he
    have hlt : id < c.entries.size := (Array.getElem?_eq_some_iff.1 he).1
    obtain ⟨hroom, habsent⟩ := hkeep.room hhash hs hget
    -- The node that is inserted is not the one that stays, so eviction has spared that one.
    have hspared : Stays id c.table room := by
      intro n hn hid
      have hleft := hstay n hn hid
      rw [htable] at hleft
      rcases ((hroom.insertNew habsent _).2 n).1 hleft with rfl | hroom
      · -- The new node leads to a place of its own.
        rw [Table.insertNew_payload] at hid
        rw [hid] at hlt
        exact absurd hlt (Nat.lt_irrefl id)
      · exact hroom
    rw [hentries]
    exact (calmAt_of_same (hkeep.same id hspared)).trans (calmAt_push _) e he

/-- A critical section of a call leaves an entry alone that the call does not refer to and whose
    node it does not evict. -/
theorem advance_calmAt [DecidableEq K] (hs : c.table.Sound)
    (hne : ∀ n, call.node? = some n → id ≠ n.payload)
    (hstay : Stays id c.table (call.advance held c).1.table) :
    CalmAt cleans id c.entries (call.advance held c).1.entries := by
  unfold advance at hstay ⊢
  unfold node? at hne
  dsimp only at hstay ⊢
  cases hcase : call.stage with
  | lookup => exact calmAt_of_same (by rw [lookup_entries])
  | inspect node now =>
    rw [hcase] at hne
    exact inspect_calmAt held call now c (hne node rfl)
  | insert now =>
    rw [hcase] at hstay
    exact (insert_spared call now hs).calmAt hs hstay
  | giveBack error? => cases error? <;> exact .refl id _
  | parked node epoch =>
    dsimp only
    rw [wake_cache]
    exact .refl id _
  | release node now outcome => cases outcome <;> exact .refl id _
  | touch node now outcome =>
    rw [hcase] at hne
    exact calmAt_modify_of_ne (hne node rfl)
  | retire node =>
    rw [hcase] at hne
    exact calmAt_modify_of_ne (hne node rfl)
  | _ => exact .refl id _

/-- The end of a callback only concerns the entry that it ran for. -/
theorem resume_relinked {epoch : Nat} {prior : ValueState V} (r : Return V) (c : Cache K V)
    (hstage : call.stage = .running node epoch prior) :
    OthersRelinked node.payload c.entries (call.resume r c).1.entries := by
  have hmod := fun f => (OthersRelinked.refl node.payload c.entries).modify f
  unfold resume
  rw [hstage]
  dsimp only
  split
  · cases r with
    | _ => exact hmod _
  · cases r with
    | value content =>
      exact OthersRelinked.makeDirty (c := (c.allocate content).1.modify node.payload _) (hmod _) _
    | _ => exact hmod _

/-- The end of a callback that does not run comes to nothing. -/
theorem resume_of_idle (r : Return V) (c : Cache K V)
    (hidle : ∀ node epoch prior, call.stage ≠ .running node epoch prior) :
    call.resume r c = (c, call) := by
  unfold resume
  split
  · next node epoch prior hstage => exact absurd hstage (hidle node epoch prior)
  · rfl

theorem resume_calmAt (r : Return V) (hne : ∀ n, call.node? = some n → id ≠ n.payload) :
    CalmAt cleans id c.entries (call.resume r c).1.entries := by
  by_cases hrunning : ∃ node epoch prior, call.stage = .running node epoch prior
  · obtain ⟨node, epoch, prior, hstage⟩ := hrunning
    refine (resume_relinked r c hstage).calmAt (hne node ?_)
    rw [node?, hstage]
  · rw [resume_of_idle r c fun node epoch prior hstage => hrunning ⟨node, epoch, prior, hstage⟩]
    exact .refl id _

theorem expire_entries (c : Cache K V) (call : Call K V) :
    (call.expire c).1.entries = c.entries := by
  unfold expire
  split
  · next node epoch hstage =>
    have hwake := wake_cache call node epoch c
    dsimp only
    split
    · next heq =>
      rw [heq] at hwake
      rw [← hwake]
      rfl
    · rw [hwake]
  · rfl

end Call

/-- Whether an action is an idle pass. -/
def Action.isIdlePass : Action K V → Bool
  | .upkeep (.idleTrim _) => true
  | .upkeep (.evictIdle _) => true
  | _ => false

namespace System

variable {s : System K V} {id : EntryId}

/-- Only what closes a batch may write changes back, and idle passes leave protected entries
    alone. -/
theorem keepUp_calmAt (hs : s.Sound) (hk : s.Keyed) (u : Upkeep)
    (hidle : (Action.upkeep u : Action K V).isIdlePass = true →
      ∃ e, s.cache.entries[id]? = some e ∧ e.isProtected = true)
    (hstay : Stays id s.cache.table (s.keepUp u).cache.table) :
    CalmAt u.closed?.isSome id s.cache.entries (s.keepUp u).cache.entries := by
  obtain ⟨ids, hc⟩ := hs.ledger.chained
  have hdrop {name : String} {b : Batch} (hb : s.batches.find? name = some b) (c : Cache K V) :
      CalmAt true id c.entries (c.dropBatch b).entries := by
    rw [(c.dropBatch_entries b).1]
    exact finish_calmAt (hs.distinct hb) _ _ _
  cases u with
  | clear => exact clear_calmAt hk.table s.held hstay
  | trim n => exact trim_calmAt hk.table n hstay
  | setMaxCapacity n => exact setMaxCapacity_calmAt hk.table n hstay
  -- An idle pass could detach the value, so the entry has to be a protected one.
  | idleTrim cutoff =>
    obtain ⟨e, he, hprotected⟩ := hidle rfl
    have hsame := (idleTrim_thins hk.table s.held cutoff).same id e he hprotected
    exact calmAt_of_same (hsame.trans he.symm)
  | evictIdle seconds =>
    obtain ⟨e, he, hprotected⟩ := hidle rfl
    have hsame := (evictIdle_thins hk.table s.held seconds).same id e he hprotected
    exact calmAt_of_same (hsame.trans he.symm)
  | relieve level => exact relieve_calmAt hk.table level hstay
  -- The batch that had the name before is forgotten after draining.
  | drain name limit copyOn =>
    have hdrain : CalmAt true id s.cache.entries (s.cache.drain limit copyOn).1.entries :=
      drain_calmAt hc.links limit copyOn
    rw [keepUp, drain_eq]
    dsimp only
    split
    · next old hold => exact hdrain.trans (hdrop hold _)
    · exact hdrain
  -- Handing out entries concerns the batch only.
  | next name keepAs =>
    unfold keepUp next
    dsimp only
    split <;> exact .refl id _
  | finish name how =>
    unfold keepUp finish
    dsimp only
    split
    · exact .refl id _
    · next b hb => exact finish_calmAt (hs.distinct hb) how _ _
  | dropBatch name =>
    unfold keepUp dropBatch
    dsimp only
    split
    · exact .refl id _
    · next b hb => exact hdrop hb s.cache
  | beginItem entries =>
    unfold keepUp beginItem
    dsimp only
    split <;> exact .refl id _
  | _ => exact .refl id _

/-- An entry stays as calls expect it through every action of a call that does not refer to it, and
    through all upkeep, as long as its node stays in the table. An idle pass is harmless only if the
    entry is protected. -/
theorem act_calmAt [DecidableEq K] (hs : s.Sound) (hk : s.Keyed) (a : Action K V)
    (hidle : a.isIdlePass = true → ∃ e, s.cache.entries[id]? = some e ∧ e.isProtected = true)
    (hcall : ∀ i call, a.call? = some i → s.calls[i]? = some call →
      ∀ n, call.node? = some n → id ≠ n.payload)
    (hstay : Stays id s.cache.table (s.act a).cache.table) :
    CalmAt a.closed?.isSome id s.cache.entries (s.act a).cache.entries := by
  have hcalls {f : Held → Cache K V → Call K V → Cache K V × Call K V} {i : Nat}
      (hf : ∀ call, s.calls[i]? = some call →
        CalmAt false id s.cache.entries (f s.held s.cache call).1.entries) :
      CalmAt false id s.cache.entries (s.withCall f i).cache.entries :=
    withCall_cases (P := fun t => CalmAt false id s.cache.entries t.cache.entries)
      (fun _ => .refl id _) hf
  cases a with
  | spawn r => cases r <;> exact .refl id _
  | advance i =>
    refine hcalls fun call hi => ?_
    rw [act, System.advance, withCall_eq hi] at hstay
    exact Call.advance_calmAt hk.table (hcall i call rfl hi) hstay
  | resume r i => exact hcalls fun call hi => Call.resume_calmAt r (hcall i call rfl hi)
  | expire i => exact hcalls fun call _ => calmAt_of_same (by rw [Call.expire_entries])
  | collect i keepAs =>
    unfold act collect
    dsimp only
    split <;> exact .refl id _
  | upkeep u => exact keepUp_calmAt hs hk u hidle hstay

/-- An entry stays as calls expect it while other keys are dealt with, as long as its node stays in
    the table and no idle pass looks at it. -/
theorem act_calm [DecidableEq K] (hs : s.Sound) (hk : s.Keyed) {e : Entry K V}
    (he : s.cache.entries[id]? = some e) (a : Action K V) (hidle : a.isIdlePass = false)
    (hcall : ∀ i call, a.call? = some i → s.calls[i]? = some call → call.request.key ≠ e.key)
    (hstay : Stays id s.cache.table (s.act a).cache.table) :
    ∃ e', (s.act a).cache.entries[id]? = some e' ∧ e.Calm a.closed?.isSome e' := by
  refine act_calmAt hs hk a (by simp [hidle]) (fun i call ha hi n hn => ?_) hstay e he
  -- A call on another key refers to another entry.
  rintro rfl
  obtain ⟨e', he', hkey⟩ := hk.calls call (List.mem_of_getElem? hi) n hn
  rw [he] at he'
  obtain rfl := Option.some.inj he'
  exact hcall i call ha hi hkey.symm

/-- Nobody who deals with other keys brings a node of a key into the table or changes its entry. -/
theorem act_foreign [DecidableEq K] (hs : s.Sound) (hk : s.Keyed) {k : K} {a : Action K V}
    (hstays : ∀ n ∈ s.cache.table.nodes, n.key = k → n ∈ (s.act a).cache.table.nodes)
    (hidle : ∀ n ∈ s.cache.table.nodes, n.key = k → a.isIdlePass = false)
    (hforeign : ∀ i call, a.call? = some i → s.calls[i]? = some call → call.request.key ≠ k) :
    (∀ n, n.key = k → (n ∈ (s.act a).cache.table.nodes ↔ n ∈ s.cache.table.nodes)) ∧
      ∀ n ∈ s.cache.table.nodes, n.key = k →
        CalmAt true n.payload s.cache.entries (s.act a).cache.entries := by
  refine ⟨fun n hkey => ⟨fun hn => ?_, fun hn => hstays n hn hkey⟩, fun n hn hkey e he => ?_⟩
  · rcases (act_nodes hk a).2 n hn with hold | ⟨i, call, rfl, hi, hcall, -⟩
    · exact hold
    · exact absurd (hcall.symm.trans hkey) (hforeign i call rfl hi)
  · -- The entry belongs to the key, so calls on other keys do not refer to it.
    have hentry {m : EntryNode K} (hm : m ∈ s.cache.table.nodes) (hid : m.payload = n.payload) :
        e.key = m.key := by
      obtain ⟨e', he', hkey'⟩ := hk.nodes m hm
      rw [hid, he] at he'
      rw [← hkey', Option.some.inj he']
    have hek : e.key = k := (hentry hn rfl).trans hkey
    obtain ⟨e', he', hcalm⟩ : ∃ e', (s.act a).cache.entries[n.payload]? = some e' ∧
        e.Calm a.closed?.isSome e' := by
      refine act_calm hs hk he a (hidle n hn hkey) ?_ fun m hm hid => ?_
      · rw [hek]
        exact hforeign
      · exact hstays m hm ((hentry hm hid).symm.trans hek)
    exact ⟨e', he', hcalm.mayClean⟩

end System

/-! ## Nodes that stay -/

/-- The key that a call is about to take out of the table by name. -/
def Call.forgets? (call : Call K V) : Option K :=
  match call.request, call.stage with
  | .invalidate key, .lookup => some key
  | _, _ => none

/-- The action takes the key out of the table by name, or it takes all keys out. -/
def System.Forgets (k : K) (s : System K V) : Action K V → Prop
  | .advance i => s.calls[i]?.bind Call.forgets? = some k
  | .upkeep .clear => True
  | _ => False

instance [DecidableEq K] (k : K) (s : System K V) (a : Action K V) : Decidable (s.Forgets k a) :=
  match a with
  | .advance i => inferInstanceAs (Decidable (s.calls[i]?.bind Call.forgets? = some k))
  | .upkeep u => decidable_of_iff (u = .clear) (by cases u <;> simp [System.Forgets])
  | .spawn _ => .isFalse id
  | .resume _ _ => .isFalse id
  | .expire _ => .isFalse id
  | .collect _ _ => .isFalse id

/-- Whether a node is among some others. -/
instance decidableMemNodes [DecidableEq K] (node : EntryNode K) (nodes : List (EntryNode K)) :
    Decidable (node ∈ nodes) :=
  List.instDecidableMemOfLawfulBEq node nodes

variable {c : Cache K V} {call : Call K V} {n : EntryNode K} {e : Entry K V}

/-- Looking a key up takes no other node out of the table than that of a key to be forgotten. -/
theorem Call.lookup_kept [DecidableEq K] (hs : c.table.Sound) (hn : n ∈ c.table.nodes)
    (hkey : call.request ≠ .invalidate n.key) : n ∈ (lookup call.request c).1.table.nodes := by
  unfold lookup
  split
  · next key hrequest =>
    unfold Table.remove
    cases hget : c.table.get? key with
    | none => exact hn
    | some node =>
      obtain ⟨hnode, rfl⟩ := hs.get?_eq_some_iff.1 hget
      have hne : n ≠ node := by
        rintro rfl
        exact hkey hrequest
      show n ∈ (c.table.removeNode node).1.buckets.nodes
      rw [(Table.removeNode_buckets node c.table).1]
      exact (Table.Buckets.Sound.mem_removeNode hs hnode).2 ⟨hn, hne⟩
  · repeat' split
    all_goals exact hn

/-- Inserting a key takes no node of a protected entry out of the table. -/
theorem Call.insert_kept [DecidableEq K] (hs : c.table.Sound) (now : Nat)
    (hn : n ∈ c.table.nodes) (he : c.entries[n.payload]? = some e) (hp : e.isProtected = true) :
    n ∈ (call.insert now c).1.table.nodes := by
  have hinserts := insert_inserts (evictor_careful.thins c.table.hashOf c.table.buckets c.entries)
    call now c (.refl hs c.entries)
  generalize call.insert now c = out at hinserts
  cases hinserts with
  | found node hget htable hentries hchain hstage =>
    rw [htable]
    exact hn
  | refused m hget hkeep hhash hentries hchain hstage => exact hkeep.kept n hn e he hp
  | @made c' stage room m hget hkeep hhash htable hentries hchain hstage =>
    have hroom : room.Sound := by
      unfold Table.Sound
      rw [hhash]
      exact hkeep.sound
    have habsent : ∀ n ∈ room.nodes, n.key ≠ call.request.key :=
      fun n hn => hs.get?_eq_none_iff.1 hget n (hkeep.sub n hn)
    rw [htable]
    exact ((hroom.insertNew habsent _).2 n).2 (.inr (hkeep.kept n hn e he hp))

/-- No critical section takes the node of a protected entry out of the table, unless it does so by
    name. -/
theorem Call.advance_kept [DecidableEq K] (held : Held) (hs : c.table.Sound)
    (hn : n ∈ c.table.nodes) (he : c.entries[n.payload]? = some e) (hp : e.isProtected = true)
    (hcall : call.forgets? ≠ some n.key) : n ∈ (call.advance held c).1.table.nodes := by
  unfold advance
  unfold forgets? at hcall
  dsimp only
  cases hcase : call.stage with
  | lookup =>
    refine lookup_kept hs hn fun hrequest => ?_
    rw [hcase, hrequest] at hcall
    exact hcall rfl
  | inspect node now =>
    show n ∈ (inspect held call node now c).1.table.nodes
    rw [inspect_table]
    exact hn
  | insert now => exact insert_kept hs now hn he hp
  | giveBack error? => cases error? <;> exact hn
  | parked node epoch =>
    show n ∈ (wake call node epoch c).1.table.nodes
    rw [wake_cache]
    exact hn
  | release node now outcome => cases outcome <;> exact hn
  | _ => exact hn

namespace System

variable {s : System K V}

theorem keepUp_kept (hs : s.cache.table.Sound) (hn : n ∈ s.cache.table.nodes)
    (he : s.cache.entries[n.payload]? = some e) (hp : e.isProtected = true) {u : Upkeep}
    (hu : u ≠ .clear) : n ∈ (s.keepUp u).cache.table.nodes := by
  cases u with
  | clear => exact absurd rfl hu
  | trim m => exact (trim_thins hs m).kept n hn e he hp
  | setMaxCapacity m => exact (setMaxCapacity_thins hs m).kept n hn e he hp
  | idleTrim cutoff => exact (idleTrim_thins hs s.held cutoff).kept n hn e he hp
  | evictIdle seconds => exact (evictIdle_thins hs s.held seconds).kept n hn e he hp
  | relieve level => exact (relieve_thins hs level).kept n hn e he hp
  | pinch => exact (pinch_thins hs).kept n hn e he hp
  -- From here on the upkeep is about batches, and the table is left alone.
  | drain name limit copyOn =>
    rw [keepUp, drain_eq]
    dsimp only
    split
    · unfold Cache.dropBatch
      split <;> exact hn
    · exact hn
  | next name keepAs =>
    unfold keepUp next
    dsimp only
    split <;> exact hn
  | finish name how =>
    unfold keepUp finish
    dsimp only
    split <;> exact hn
  | dropBatch name =>
    unfold keepUp dropBatch
    dsimp only
    split
    · exact hn
    · unfold onCache Cache.dropBatch
      dsimp only
      split <;> exact hn
  | beginItem entries =>
    unfold keepUp beginItem
    dsimp only
    split <;> exact hn
  | _ => exact hn

/-- The node of a protected entry stays in the table until it is taken out by name. -/
theorem act_kept [DecidableEq K] (hs : s.cache.table.Sound) (hn : n ∈ s.cache.table.nodes)
    (he : s.cache.entries[n.payload]? = some e) (hp : e.isProtected = true) {a : Action K V}
    (ha : ¬ s.Forgets n.key a) : n ∈ (s.act a).cache.table.nodes := by
  cases a with
  | spawn r => cases r <;> exact hn
  | advance i =>
    refine withCall_cases (P := fun t => n ∈ t.cache.table.nodes) (fun _ => hn) fun call hi => ?_
    refine Call.advance_kept s.held hs hn he hp fun hforgets => ha ?_
    show s.calls[i]?.bind Call.forgets? = some n.key
    rw [hi]
    exact hforgets
  | resume r i =>
    refine withCall_cases (P := fun t => n ∈ t.cache.table.nodes) (fun _ => hn) fun call _ => ?_
    exact (Call.resume_table r s.cache call).symm ▸ hn
  | expire i =>
    refine withCall_cases (P := fun t => n ∈ t.cache.table.nodes) (fun _ => hn) fun call _ => ?_
    exact (Call.expire_table s.cache call).symm ▸ hn
  | collect i keepAs =>
    unfold act collect
    dsimp only
    split <;> exact hn
  | upkeep u =>
    refine keepUp_kept hs hn he hp ?_
    rintro rfl
    exact ha trivial

end System

end ReadThrough
