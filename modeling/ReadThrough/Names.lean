/-! # Names

  Things that a client keeps under names of its own choice.
-/

namespace ReadThrough

/-- Things by name, each name at most once. -/
abbrev Names (α : Type) := List (String × α)

namespace Names

variable {α : Type}

/-- The thing of a name. -/
def find? (ns : Names α) (name : String) : Option α :=
  ns.lookup name

/-- Forgets a name. -/
def forget (ns : Names α) (name : String) : Names α :=
  ns.filter (·.1 != name)

/-- Keeps a thing under a name, in place of what was there. -/
def keep (ns : Names α) (name : String) (a : α) : Names α :=
  (name, a) :: ns.forget name

/-- Keeps a thing if there is both a name and a thing. -/
def keep? (ns : Names α) (name? : Option String) (a? : Option α) : Names α :=
  match name?, a? with
  | some name, some a => ns.keep name a
  | _, _ => ns

/-- Things in the order of their names. -/
def sorted (ns : Names α) : Names α :=
  ns.mergeSort fun a b => !(b.1 < a.1)

@[simp] theorem find?_keep (ns : Names α) (name : String) (a : α) :
    (ns.keep name a).find? name = some a := by
  simp [find?, keep]

end Names

end ReadThrough
