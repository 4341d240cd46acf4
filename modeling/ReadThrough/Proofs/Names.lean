import Mathlib.Data.List.Nodup
import ReadThrough.Names

/-! # Laws of Names

  Looking up, keeping and forgetting.

  - **Distinct**: no name occurs twice. Keeping and forgetting preserve this.
  - **perm_forget**: a thing that is found is one of the things, and the others are those that stay
    when its name is forgotten.
-/

namespace ReadThrough.Names

variable {α : Type} {ns : Names α} {name other : String} {a b : α}

/-- No name occurs twice. -/
def Distinct (ns : Names α) : Prop :=
  (ns.map Prod.fst).Nodup

theorem find?_cons : find? ((other, b) :: ns) name =
    if name = other then some b else ns.find? name := by
  unfold find?
  rw [List.lookup_cons]
  by_cases h : name = other
  · simp [h]
  · rw [if_neg h, beq_false_of_ne h]

theorem forget_cons : forget ((other, b) :: ns) name =
    if other = name then ns.forget name else (other, b) :: ns.forget name := by
  unfold forget
  rw [List.filter_cons]
  by_cases h : other = name <;> simp [h]

@[simp] theorem find?_forget_of_ne (h : name ≠ other) :
    (ns.forget other).find? name = ns.find? name := by
  induction ns with
  | nil => rfl
  | cons p ns ih =>
    obtain ⟨first, x⟩ := p
    rw [forget_cons, find?_cons]
    split
    · next hfirst =>
      have hne : name ≠ first := fun heq => h (heq.trans hfirst)
      rw [ih, if_neg hne]
    · rw [find?_cons, ih]

@[simp] theorem find?_forget_self (ns : Names α) (name : String) :
    (ns.forget name).find? name = none := by
  induction ns with
  | nil => rfl
  | cons p ns ih =>
    obtain ⟨first, x⟩ := p
    rw [forget_cons]
    split
    · exact ih
    · next hne => rw [find?_cons, if_neg (Ne.symm hne), ih]

theorem find?_keep_of_ne (h : name ≠ other) : (ns.keep other a).find? name = ns.find? name := by
  rw [keep, find?_cons, if_neg h, find?_forget_of_ne h]

theorem mem_of_find? (h : ns.find? name = some a) : (name, a) ∈ ns := by
  induction ns with
  | nil => cases h
  | cons p ns ih =>
    obtain ⟨first, x⟩ := p
    rw [find?_cons] at h
    split at h
    · next heq =>
      obtain rfl := Option.some.inj h
      exact heq ▸ List.mem_cons_self
    · exact List.mem_cons_of_mem _ (ih h)

theorem find?_of_mem (hd : ns.Distinct) (h : (name, a) ∈ ns) : ns.find? name = some a := by
  induction ns with
  | nil => cases h
  | cons p ns ih =>
    obtain ⟨first, x⟩ := p
    obtain ⟨hfirst, hrest⟩ := List.nodup_cons.1 hd
    rw [find?_cons]
    rcases List.mem_cons.1 h with heq | hmem
    · obtain ⟨rfl, rfl⟩ := Prod.mk.inj heq
      rw [if_pos rfl]
    · have hne : name ≠ first := by
        rintro rfl
        exact hfirst (List.mem_map.2 ⟨_, hmem, rfl⟩)
      rw [if_neg hne]
      exact ih hrest hmem

theorem distinct_nil : Distinct ([] : Names α) :=
  List.nodup_nil

theorem Distinct.forget (h : ns.Distinct) : (ns.forget name).Distinct :=
  h.sublist (List.filter_sublist.map Prod.fst)

theorem Distinct.keep (h : ns.Distinct) : (ns.keep name a).Distinct := by
  refine List.nodup_cons.2 ⟨fun hmem => ?_, h.forget⟩
  obtain ⟨p, hp, hname⟩ := List.mem_map.1 hmem
  simpa [hname] using (List.mem_filter.1 hp).2

/-- Nothing is forgotten under a name that nothing has. -/
theorem forget_eq_self (h : ns.find? name = none) : ns.forget name = ns := by
  refine List.filter_eq_self.2 fun p hp => ?_
  rw [find?, List.lookup_eq_none_iff] at h
  have hne := h p hp
  simp only [bne_iff_ne, ne_eq] at hne ⊢
  exact fun heq => hne heq.symm

/-- Of two things that are kept under one name the latter takes the place of the former. -/
theorem keep_keep (ns : Names α) (name : String) (a b : α) :
    (ns.keep name a).keep name b = ns.keep name b := by
  simp only [keep, forget_cons, if_true]
  rw [forget_eq_self (find?_forget_self ns name)]

/-- Keeping a thing under a new name, and then forgetting that name. -/
theorem forget_keep (h : ns.find? name = none) (a : α) : (ns.keep name a).forget name = ns := by
  rw [keep, forget_cons, if_pos rfl, forget_eq_self (find?_forget_self ns name), forget_eq_self h]

/-- What is found under a name, apart from all the others. -/
theorem perm_forget (hd : ns.Distinct) (h : ns.find? name = some a) :
    ns.Perm ((name, a) :: ns.forget name) := by
  induction ns with
  | nil => cases h
  | cons p rest ih =>
    obtain ⟨first, x⟩ := p
    obtain ⟨hfirst, hrest⟩ := List.nodup_cons.1 hd
    rw [find?_cons] at h
    split at h
    · next heq =>
      subst heq
      obtain rfl := Option.some.inj h
      have hnone : find? rest name = none := by
        cases hx : find? rest name with
        | none => rfl
        | some y => exact absurd (List.mem_map_of_mem (mem_of_find? hx)) hfirst
      rw [forget_cons, if_pos rfl, forget_eq_self hnone]
    · next hne =>
      rw [forget_cons, if_neg (Ne.symm hne)]
      exact ((ih hrest h).cons _).trans (.swap _ _ _)

end ReadThrough.Names
