import ReadThrough.Proofs.Cache.Calm
import ReadThrough.Proofs.Table.Contents

/-! # Protected Entries

  Evictions and idle passes thin the table out, but no entry that is pending, dirty or in the dirty
  chain loses its node to them, and no such entry changes. The entries of the nodes that they take
  out are marked as removed.

  - **KeepsMark**, **Gone**: no mark is taken back; an entry is marked.
  - **Careful**: a judge that concerns no entry but the one it is asked about, leaves that one
    alone if it is protected, and marks it if it is evicted.
  - **Thinned**: what a walk with a careful judge keeps.
  - One lemma for each operation that evicts or goes through idle entries.
-/

namespace ReadThrough

variable {K V : Type}

/-! ## Marks -/

/-- The mark that an entry has been removed is not taken back. -/
def Entry.KeepsMark (e e' : Entry K V) : Prop :=
  e.removed = true → e'.removed = true

/-- The entry of a place is marked as removed, if there is one. -/
def Entries.Gone (es : Entries K V) (id : EntryId) : Prop :=
  ∀ e, es[id]? = some e → e.removed = true

namespace Entry

variable {e e' : Entry K V}

theorem keepsMark_of_eq (h : e'.removed = e.removed) : e.KeepsMark e' :=
  fun hremoved => h.trans hremoved

theorem removed_retire (held : Held) (e : Entry K V) : (e.retire held).removed = true := by
  unfold retire
  dsimp only
  split <;> rfl

theorem lenient_keepsMark : Cache.Lenient (KeepsMark : Entry K V → Entry K V → Prop) where
  refl := fun _ => id
  trans := fun h k hremoved => k (h hremoved)
  removed := fun _ _ => rfl
  detach := fun _ => id
  retire := fun held e _ => removed_retire held e

end Entry

namespace Entries

variable {es es' : Entries K V} {id : EntryId}

theorem Gone.each (h : es.Gone id) (heach : Each (fun _ => Entry.KeepsMark) es es') :
    es'.Gone id := by
  intro e' he'
  obtain ⟨e, he, hkeeps⟩ := heach.backward he'
  exact hkeeps (h e he)

theorem gone_modify {f : Entry K V → Entry K V} (hf : ∀ e : Entry K V, (f e).removed = true) :
    Gone (es.modify id f) id := by
  intro e' he'
  rw [Array.getElem?_modify, if_pos rfl] at he'
  obtain ⟨e, -, rfl⟩ := Option.map_eq_some_iff.1 he'
  exact hf e

end Entries

namespace Cache

open Table Entries

/-! ## Judges -/

/-- The judge concerns only the entry that it is asked about. It leaves a protected one alone, and
    it marks the ones as removed that it evicts, and no other ones. -/
structure Careful (judge : Judge K EntryId (Census K V)) : Prop where
  others : ∀ node m verdict m', judge node m = (verdict, m') →
    ∀ id, id ≠ node.payload → m'.1[id]? = m.1[id]?
  guards : ∀ node m verdict m', judge node m = (verdict, m') →
    ∀ e, m.1[node.payload]? = some e → e.isProtected = true →
      verdict ≠ .evict ∧ m'.1[node.payload]? = some e
  spares : ∀ node m verdict m', judge node m = (verdict, m') → verdict ≠ .evict →
    ∀ e, m.1[node.payload]? = some e →
      ∃ e', m'.1[node.payload]? = some e' ∧ e'.removed = e.removed
  keepsMarks : ∀ node m verdict m', judge node m = (verdict, m') →
    Each (fun _ => Entry.KeepsMark) m.1 m'.1
  marks : ∀ node m m', judge node m = (.evict, m') → m'.1.Gone node.payload

theorem each_markRemoved (es : Entries K V) (id : EntryId) :
    Each (fun _ => Entry.KeepsMark) es (markRemoved es id) :=
  Entry.lenient_keepsMark.each_modify (Entry.lenient_keepsMark.each_refl es) id
    Entry.lenient_keepsMark.removed

theorem evictor_careful : Careful (evictor : Judge K EntryId (Census K V)) where
  others := by
    intro node m verdict m' hjudge id hne
    by_cases hevict : verdict = .evict
    · subst hevict
      rw [(evictor_evict hjudge).1]
      simp [markRemoved, Array.getElem?_modify, hne.symm]
    · rw [evictor_spare hjudge hevict]
  guards := by
    intro node m verdict m' hjudge e he hprotected
    have hkeep : evictor node m = (.keep, m) := by simp [evictor, he, hprotected]
    obtain ⟨rfl, rfl⟩ := Prod.mk.inj (hkeep.symm.trans hjudge)
    exact ⟨by simp, he⟩
  spares := by
    intro node m verdict m' hjudge hne e he
    rw [evictor_spare hjudge hne]
    exact ⟨e, he, rfl⟩
  keepsMarks := by
    intro node m verdict m' hjudge
    by_cases hevict : verdict = .evict
    · subst hevict
      rw [(evictor_evict hjudge).1]
      exact each_markRemoved m.1 node.payload
    · rw [evictor_spare hjudge hevict]
      exact Entry.lenient_keepsMark.each_refl m.1
  marks := by
    intro node m m' hjudge
    rw [(evictor_evict hjudge).1]
    exact gone_modify fun _ => rfl

theorem idler_careful (held : Held) (policy : IdlePolicy) (cutoff : Nat) :
    Careful (idler held policy cutoff : Judge K EntryId (Census K V)) where
  others := by
    intro node m verdict m' hjudge id hne
    by_cases hevict : verdict = .evict
    · -- A removed entry is marked, and the others are left alone.
      subst hevict
      simp [idler_evict hjudge, markRemoved, Array.getElem?_modify, hne.symm]
    · -- Of a node that stays, the entry is as it was or has let go of its value.
      rcases idler_spare hjudge hevict with hsame | hsame
      · rw [hsame]
      · simp [hsame, Array.getElem?_modify, hne.symm]
  guards := by
    intro node m verdict m' hjudge e he hprotected
    -- Policies have no say in a protected entry, so the verdict depends on the tick only.
    have hfate : (m.1[node.payload]?.map (Entry.idleFate held policy)).getD .keep = .keep := by
      simp [he, Entry.idleFate, hprotected]
    unfold idler at hjudge
    dsimp only at hjudge
    rw [hfate] at hjudge
    split at hjudge
    · obtain ⟨rfl, rfl⟩ := Prod.mk.inj hjudge
      exact ⟨by simp, he⟩
    · obtain ⟨rfl, rfl⟩ := Prod.mk.inj hjudge
      exact ⟨by simp, he⟩
  spares := by
    intro node m verdict m' hjudge hne e he
    rcases idler_spare hjudge hne with hsame | hsame
    · exact ⟨e, by rw [hsame, he], rfl⟩
    · exact ⟨{ e with value := e.value.detach }, by simp [hsame, Array.getElem?_modify, he], rfl⟩
  keepsMarks := by
    intro node m verdict m' hjudge
    have hrefl := Entry.lenient_keepsMark.each_refl m.1
    by_cases hevict : verdict = .evict
    · subst hevict
      rw [idler_evict hjudge]
      exact each_markRemoved m.1 node.payload
    · rcases idler_spare hjudge hevict with hsame | hsame
      · rw [hsame]
        exact hrefl
      · rw [hsame]
        exact Entry.lenient_keepsMark.each_modify hrefl node.payload Entry.lenient_keepsMark.detach
  marks := by
    intro node m m' hjudge
    rw [idler_evict hjudge]
    exact gone_modify fun _ => rfl

/-! ## Walks -/

/-- Every node leads to an entry of its own. -/
def Distinct (b : Buckets K EntryId) : Prop :=
  ∀ n ∈ b.nodes, ∀ n' ∈ b.nodes, n.payload = n'.payload → n = n'

/-- What evictions and idle passes make of the buckets `b₀` and the entries `es₀`. -/
structure Thinned (hashOf : K → UInt64) (b₀ : Buckets K EntryId) (es₀ : Entries K V)
    (b : Buckets K EntryId) (es : Entries K V) : Prop where
  sound : b.Sound hashOf
  sub : ∀ n ∈ b.nodes, n ∈ b₀.nodes
  same : ∀ (id : EntryId) (e : Entry K V), es₀[id]? = some e → e.isProtected = true →
    es[id]? = some e
  kept : ∀ n ∈ b₀.nodes, ∀ e : Entry K V, es₀[n.payload]? = some e → e.isProtected = true →
    n ∈ b.nodes
  present : Distinct b₀ → ∀ n ∈ b.nodes, ∀ e : Entry K V, es₀[n.payload]? = some e →
    ∃ e', es[n.payload]? = some e' ∧ e'.removed = e.removed
  keepsMarks : Each (fun _ => Entry.KeepsMark) es₀ es
  gone : ∀ n ∈ b₀.nodes, n ∈ b.nodes ∨ es.Gone n.payload

variable {hashOf : K → UInt64} {b₀ b b' : Buckets K EntryId} {es₀ es es' : Entries K V}

theorem Thinned.refl (h : b.Sound hashOf) (es : Entries K V) : Thinned hashOf b es b es where
  sound := h
  sub := fun _ hn => hn
  same := fun _ _ he _ => he
  kept := fun _ hn _ _ _ => hn
  present := fun _ _ _ e he => ⟨e, he, rfl⟩
  keepsMarks := Entry.lenient_keepsMark.each_refl es
  gone := fun _ hn => .inl hn

theorem Thinned.trans (h : Thinned hashOf b₀ es₀ b es) (k : Thinned hashOf b es b' es') :
    Thinned hashOf b₀ es₀ b' es' where
  sound := k.sound
  sub := fun n hn => h.sub n (k.sub n hn)
  same := fun id e he hp => k.same id e (h.same id e he hp) hp
  kept := fun n hn e he hp => k.kept n (h.kept n hn e he hp) e (h.same _ e he hp) hp
  present := by
    intro hd n hn e he
    obtain ⟨e', he', hsame⟩ := h.present hd n (k.sub n hn) e he
    have hd' : Distinct b := fun m hm m' hm' => hd m (h.sub m hm) m' (h.sub m' hm')
    obtain ⟨e'', he'', hsame'⟩ := k.present hd' n hn e' he'
    exact ⟨e'', he'', hsame'.trans hsame⟩
  keepsMarks := h.keepsMarks.comp k.keepsMarks fun _ _ _ _ => Entry.lenient_keepsMark.trans
  gone := by
    intro n hn
    rcases h.gone n hn with hleft | hgone
    · exact k.gone n hleft
    · exact .inr (hgone.each k.keepsMarks)

/-- A careful judge thins the table out. -/
theorem Careful.thins {judge : Judge K EntryId (Census K V)} (hj : Careful judge)
    (hashOf : K → UInt64) (b₀ : Buckets K EntryId) (es₀ : Entries K V) :
    judge.Keeps fun b m => Thinned hashOf b₀ es₀ b m.1 where
  spare := by
    intro b m m' node verdict hjudge hne h
    have hmarks := hj.keepsMarks node m verdict m' hjudge
    refine { h with
      same := fun id e he hp => ?_
      present := fun hd n hn e he => ?_
      keepsMarks := h.keepsMarks.comp hmarks fun _ _ _ _ => Entry.lenient_keepsMark.trans
      gone := fun n hn => (h.gone n hn).imp_right fun hgone => hgone.each hmarks }
    · have hold := h.same id e he hp
      by_cases hid : id = node.payload
      · subst hid
        exact (hj.guards node m verdict m' hjudge e hold hp).2
      · rw [hj.others node m verdict m' hjudge id hid, hold]
    · obtain ⟨e', he', hsame⟩ := h.present hd n hn e he
      by_cases hid : n.payload = node.payload
      · rw [hid] at he' ⊢
        obtain ⟨e'', he'', hspared⟩ := hj.spares node m verdict m' hjudge hne e' he'
        exact ⟨e'', he'', hspared.trans hsame⟩
      · exact ⟨e', by rw [hj.others node m verdict m' hjudge _ hid, he'], hsame⟩
  evict := by
    intro b m m' slot node hnode hjudge h
    have hmem : node ∈ b.nodes := Buckets.mem_nodes.2 ⟨slot, hnode⟩
    have hothers := hj.others node m .evict m' hjudge
    have hmarks := hj.keepsMarks node m .evict m' hjudge
    -- The entry of the evicted node was not protected, so protected entries are other ones.
    have hother {id : EntryId} {e : Entry K V} (he : es₀[id]? = some e)
        (hp : e.isProtected = true) : id ≠ node.payload := by
      rintro rfl
      exact (hj.guards node m .evict m' hjudge e (h.same _ e he hp) hp).1 rfl
    exact {
      sound := h.sound.removeNode_sound node
      sub := fun n hn => h.sub n (h.sound.of_mem_removeNode node hn)
      same := fun id e he hp => (hothers id (hother he hp)).trans (h.same id e he hp)
      kept := by
        intro n hn e he hp
        refine (h.sound.mem_removeNode hmem).2 ⟨h.kept n hn e he hp, ?_⟩
        rintro rfl
        exact hother he hp rfl
      present := by
        intro hd n hn e he
        obtain ⟨hin, hne⟩ := (h.sound.mem_removeNode hmem).1 hn
        obtain ⟨e', he', hsame⟩ := h.present hd n hin e he
        have hid : n.payload ≠ node.payload := fun heq =>
          hne (hd n (h.sub n hin) node (h.sub node hmem) heq)
        exact ⟨e', (hothers _ hid).trans he', hsame⟩
      keepsMarks := h.keepsMarks.comp hmarks fun _ _ _ _ => Entry.lenient_keepsMark.trans
      gone := by
        intro n hn
        rcases h.gone n hn with hin | hgone
        · by_cases heq : n = node
          · exact .inr (heq ▸ hj.marks node m m' hjudge)
          · exact .inl ((h.sound.mem_removeNode hmem).2 ⟨hin, heq⟩)
        · exact .inr (hgone.each hmarks) }

/-! ## Operations -/

variable {c c' : Cache K V}

/-- The cache is thinned out. -/
def Thins (c c' : Cache K V) : Prop :=
  Thinned c.table.hashOf c.table.buckets c.entries c'.table.buckets c'.entries

theorem trim_thins (h : c.table.Sound) (n : Nat) : c.Thins (c.trim n).1 := by
  have htrim := trim_keeps (m := (c.entries, 0)) lastUseIn
    (evictor_careful.thins c.table.hashOf c.table.buckets c.entries) n (.refl h c.entries)
  unfold trim
  dsimp only
  split <;> exact htrim

theorem setMaxCapacity_thins (h : c.table.Sound) (n : Nat) : c.Thins (c.setMaxCapacity n) := by
  unfold setMaxCapacity
  dsimp only
  split
  · exact .refl h c.entries
  · exact trim_thins (c := { c with table := c.table.setMaxCapacity n }) h _

theorem idleTrim_thins (h : c.table.Sound) (held : Held) (cutoff : Nat) :
    c.Thins (c.idleTrim held cutoff).1 :=
  sweep_keeps (m := (c.entries, 0)) lastUseIn
    ((idler_careful held c.idlePolicy cutoff).thins c.table.hashOf c.table.buckets c.entries)
    (.refl h c.entries)

theorem evictIdle_thins (h : c.table.Sound) (held : Held) (seconds : Nat) :
    c.Thins (c.evictIdle held seconds).1 := by
  unfold evictIdle
  split
  · exact .refl h c.entries
  · exact idleTrim_thins h held _

theorem pinch_thins (h : c.table.Sound) : c.Thins c.pinch.1 := by
  have hsame : ∀ n, n ∈ c.pinch.1.table.buckets.nodes ↔ n ∈ c.table.buckets.nodes := by
    intro n
    show n ∈ c.table.pinch.table.buckets.nodes ↔ _
    unfold Table.pinch
    split
    · show n ∈ c.table.buckets.pinch.nodes ↔ _
      rw [Buckets.Sound.pinch_nodes h]
    · rfl
  have hwithin := pinch_within c.table
  exact {
    sound := hwithin.hashOf ▸ hwithin.sound h
    sub := fun n hn => (hsame n).1 hn
    same := fun _ _ he _ => he
    kept := fun n hn _ _ _ => (hsame n).2 hn
    present := fun _ _ _ e he => ⟨e, he, rfl⟩
    keepsMarks := Entry.lenient_keepsMark.each_refl c.entries
    gone := fun n hn => .inl ((hsame n).2 hn) }

theorem relieve_thins (h : c.table.Sound) (level : Pressure) : c.Thins (c.relieve level) := by
  have htrim := trim_thins h (level.target c.size)
  have hwithin := shrinking_within.cache_trim (level.target c.size) c
  unfold relieve
  dsimp only
  split
  · have hpinch := pinch_thins (hwithin.sound h)
    unfold Thins at hpinch
    rw [hwithin.hashOf] at hpinch
    exact htrim.trans hpinch
  · exact htrim

end Cache

end ReadThrough
