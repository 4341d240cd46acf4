import Mathlib.Logic.Relation
import ReadThrough.Cache.Call
import ReadThrough.Proofs.WriteBack.Batches

/-! # The Ledger

  What write-back and running callbacks are about, apart from the table, the counters and the
  clients of a cache, and every way in which it can change.

  - **Flight**: a callback that is running, with the entry that it made pending.
  - **Ledger**: entries, dirty chain, open batches and flights.
  - **Step**: the ten kinds of change. Whatever is kept by each of them is kept by every action of
    a system.
  - **Unflushed**: the value of an entry has changes that are not written back.
-/

namespace ReadThrough

variable {K V : Type}

/-- A callback that is running. -/
structure Flight (V : Type) where
  /-- The entry that it made pending. -/
  entry : EntryId
  /-- The epoch at which it did so. -/
  epoch : Nat
  /-- The state of the entry before. -/
  prior : ValueState V

/-- The part of a system that write-back and running callbacks are about. -/
structure Ledger (K V : Type) where
  entries : Entries K V
  chain : DirtyChain
  batches : List Batch
  flights : List (Flight V)

/-! ## Changes -/

/-- An entry after an operation that ended without a change: nothing is dirty but what was so
    before the operation. -/
structure Entry.Settled (prior : ValueState V) (e : Entry K V) : Prop where
  settled : e.value ≠ .pending
  dirty : ∀ v, e.value = .dirty v → prior = .dirty v

/-- Marks an entry dirty with a value, and appends it to the chain unless it was a member. -/
def DirtyChain.enlist (id : EntryId) (v : Value V) (es : Entries K V) (c : DirtyChain) :
    Entries K V × DirtyChain :=
  if es[id]?.any Entry.inChain then (es.modify id (Entry.enlist v), c)
  else c.pushBack id (es.modify id (Entry.enlist v))

/-- Finishes a batch. -/
def Batch.finish (how : Finish) (b : Batch) (es : Entries K V) (c : DirtyChain) :
    Entries K V × DirtyChain :=
  let s := settle how b.copyOn b.entries b.consumed { entries := es }
  c.pushFrontAll s.relink.reverse s.entries

namespace Ledger

/-- The kinds of change that a ledger undergoes. -/
inductive Step : Ledger K V → Ledger K V → Prop where
  /-- The order of open batches and of flights is of no account. -/
  | reorder {es : Entries K V} {c : DirtyChain} {bs bs' : List Batch} {fs fs' : List (Flight V)}
      (hb : bs.Perm bs') (hf : fs.Perm fs') : Step ⟨es, c, bs, fs⟩ ⟨es, c, bs', fs'⟩
  /-- Neither operations nor changes begin or end. -/
  | quiet {es es' : Entries K V} {c : DirtyChain} {bs : List Batch} {fs : List (Flight V)}
      (h : es.Quiet es') : Step ⟨es, c, bs, fs⟩ ⟨es', c, bs, fs⟩
  /-- A key is put into the table. -/
  | insertReady {es : Entries K V} {c : DirtyChain} {bs : List Batch} {fs : List (Flight V)}
      (key : K) (v : Value V) (now : Nat) :
      Step ⟨es, c, bs, fs⟩ ⟨es.push (.new key (.ready v) now), c, bs, fs⟩
  /-- A key is put into the table and its callback starts. -/
  | insertPending {es : Entries K V} {c : DirtyChain} {bs : List Batch} {fs : List (Flight V)}
      (key : K) (now : Nat) :
      Step ⟨es, c, bs, fs⟩
        ⟨es.push (.new key .pending now), c, bs, ⟨es.size, 1, .unassigned⟩ :: fs⟩
  /-- A callback starts for an entry. -/
  | start {es : Entries K V} {c : DirtyChain} {bs : List Batch} {fs : List (Flight V)}
      {id : EntryId} {e : Entry K V} {prior : ValueState V} (he : es[id]? = some e)
      (hidle : e.value ≠ .pending) (hsettled : prior ≠ .pending)
      (hprior : ∀ v, prior = .dirty v ↔ e.value = .dirty v) :
      Step ⟨es, c, bs, fs⟩
        ⟨es.modify id Entry.begin, c, bs, ⟨id, e.epoch + 1, prior⟩ :: fs⟩
  /-- A callback ends without a change. -/
  | settle {es : Entries K V} {c : DirtyChain} {bs : List Batch} {fs : List (Flight V)}
      {f : Flight V} {g : Entry K V → Entry K V}
      (hg : ∀ e : Entry K V, e.SameMarks (g e))
      (h : ∀ e : Entry K V, e.value = .pending → e.epoch = f.epoch → f.prior ≠ .pending →
        (g e).Settled f.prior) :
      Step ⟨es, c, bs, f :: fs⟩ ⟨es.modify f.entry g, c, bs, fs⟩
  /-- An entry is marked dirty: a callback ends with a change, or the client says so. -/
  | enlist {es : Entries K V} {c : DirtyChain} {bs : List Batch} {old fs : List (Flight V)}
      {id : EntryId} {v : Value V} {g : Entry K V → Entry K V} (hlt : id < es.size)
      (hg : ∀ e : Entry K V, e.SameMarks (g e)) (hold : ∀ f ∈ old, f.entry = id)
      (hidle : old = [] → ∀ e, es[id]? = some e → e.value ≠ .pending) :
      Step ⟨es, c, bs, old ++ fs⟩
        ⟨(c.enlist id v (es.modify id g)).1, (c.enlist id v (es.modify id g)).2, bs, fs⟩
  /-- Entries leave the chain for a new batch. -/
  | drain {es : Entries K V} {c : DirtyChain} {bs : List Batch} {fs : List (Flight V)}
      (limit : Nat) (copyOn : Bool) :
      Step ⟨es, c, bs, fs⟩
        ⟨(Cache.takeDirty copyOn limit es c).2.1, (Cache.takeDirty copyOn limit es c).2.2,
          { entries := (Cache.takeDirty copyOn limit es c).1, copyOn } :: bs, fs⟩
  /-- The consumer of a batch goes on. -/
  | consume {es : Entries K V} {c : DirtyChain} {bs : List Batch} {fs : List (Flight V)}
      {b : Batch} (n : Nat) :
      Step ⟨es, c, b :: bs, fs⟩ ⟨es, c, { b with consumed := n } :: bs, fs⟩
  /-- A batch is finished. -/
  | finish {es : Entries K V} {c : DirtyChain} {bs : List Batch} {fs : List (Flight V)}
      (how : Finish) (b : Batch) :
      Step ⟨es, c, b :: bs, fs⟩ ⟨(b.finish how es c).1, (b.finish how es c).2, bs, fs⟩

/-- Any number of changes, one after the other. -/
abbrev Leads : Ledger K V → Ledger K V → Prop :=
  Relation.ReflTransGen Step

/-- The members of the chain that are in open batches. -/
def members (L : Ledger K V) : List EntryId :=
  L.batches.flatMap Batch.members

/-- An entry has a value with changes that are not written back: it is dirty, or an update that
    started from such a value is in flight. -/
def Unflushed (L : Ledger K V) (id : EntryId) (v : Value V) : Prop :=
  (∃ e, L.entries[id]? = some e ∧ e.value = .dirty v) ∨
    ∃ f ∈ L.flights, f.entry = id ∧ f.prior = .dirty v

end Ledger

/-! ## Laws of the single changes -/

open Ledger

section changes

variable {es : Entries K V} {c : DirtyChain} {id : EntryId} {v : Value V}

/-- What marking an entry dirty makes of all entries. -/
def Entry.Enlisted (id : EntryId) (v : Value V) (j : EntryId) (e e' : Entry K V) : Prop :=
  ∃ next?, e' = { (if j = id then e.enlist v else e) with nextDirty? := next? }

theorem enlist_each (id : EntryId) (v : Value V) (es : Entries K V) (c : DirtyChain) :
    Entries.Each (Entry.Enlisted id v) es (c.enlist id v es).1 := by
  have hmod : Entries.Each (Entry.Enlisted id v) es (es.modify id (Entry.enlist v)) :=
    Entries.each_modify id _ (fun e _ => ⟨(e.enlist v).nextDirty?, by simp⟩)
      fun j e hj => ⟨e.nextDirty?, by simp [hj]⟩
  unfold DirtyChain.enlist
  split
  · exact hmod
  · refine hmod.comp (DirtyChain.pushBack_relinked id _ c) ?_
    rintro j a b d ⟨n, rfl⟩ ⟨m, rfl⟩
    exact ⟨m, rfl⟩

/-- What marking an entry dirty makes of all entries, if its other fields were changed before. -/
def Entry.Marked (id : EntryId) (v : Value V) (j : EntryId) (e e' : Entry K V) : Prop :=
  (j ≠ id ∧ e.Relinked e') ∨
    (j = id ∧ e'.value = .dirty v ∧ e'.key = e.key ∧ e'.epoch = e.epoch ∧
      e'.version = e.version + 1 ∧ e'.inChain = true)

theorem marked_each (id : EntryId) (v : Value V) {g : Entry K V → Entry K V}
    (hg : ∀ e : Entry K V, e.SameMarks (g e)) (es : Entries K V) (c : DirtyChain) :
    Entries.Each (Entry.Marked id v) es (c.enlist id v (es.modify id g)).1 := by
  have hmod : Entries.Each (fun j e e' => (j ≠ id ∧ e' = e) ∨ (j = id ∧ e.SameMarks e')) es
      (es.modify id g) :=
    Entries.each_modify id g (fun e _ => .inr ⟨rfl, hg e⟩) fun j e hj => .inl ⟨hj, rfl⟩
  refine hmod.comp (enlist_each id v _ c) ?_
  rintro j a b d (⟨hj, rfl⟩ | ⟨rfl, hm⟩) ⟨n, rfl⟩
  · exact .inl ⟨hj, n, by simp [hj]⟩
  · refine .inr ⟨rfl, ?_⟩
    simp [Entry.enlist, hm.key, hm.epoch, hm.version]

/-- What finishing a batch makes of all entries. -/
def Batch.Finished (how : Finish) (b : Batch) (id : EntryId) (e e' : Entry K V) : Prop :=
  ∃ (next? : Option EntryId) (d : Entry K V),
    Batch.Settled how b.copyOn b.entries b.consumed id e d ∧ e' = { d with nextDirty? := next? }

theorem finish_each (how : Finish) (b : Batch) (hnodup : b.ids.Nodup) (es : Entries K V)
    (c : DirtyChain) : Entries.Each (b.Finished how) es (b.finish how es c).1 := by
  refine (Batch.settle_each how b.copyOn hnodup b.consumed { entries := es }).comp
    (DirtyChain.pushFrontAll_relinked _ _ c) ?_
  rintro j a d e hd ⟨n, rfl⟩
  exact ⟨n, d, hd, rfl⟩

/-- Whatever finishing a batch makes of an entry, it starts and ends no operation, and key, epoch
    and version stay. -/
theorem Batch.Finished.fields {how : Finish} {b : Batch} {e e' : Entry K V}
    (h : b.Finished how id e e') : e'.key = e.key ∧ e'.epoch = e.epoch ∧
      e'.version = e.version ∧ (e'.value = .pending ↔ e.value = .pending) := by
  obtain ⟨n, d, ⟨-, rfl⟩ | ⟨i, version, -, rfl⟩, rfl⟩ := h
  · exact ⟨rfl, rfl, rfl, Iff.rfl⟩
  · obtain ⟨hkey, hepoch, hversion, -⟩ := Batch.apply_fields
      (Batch.fate how b.copyOn (decide (i < b.consumed)) version e) b.copyOn e
    exact ⟨hkey, hepoch, hversion, Batch.apply_pending _ _ _⟩

/-- Whatever is dirty after a batch was finished was so before. -/
theorem Batch.Finished.dirty {how : Finish} {b : Batch} {e e' : Entry K V}
    (h : b.Finished how id e e') (hv : e'.value = .dirty v) : e.value = .dirty v := by
  obtain ⟨n, d, ⟨-, rfl⟩ | ⟨i, version, -, rfl⟩, rfl⟩ := h
  · exact hv
  · exact (Batch.apply_dirty hv).1

end changes

end ReadThrough
