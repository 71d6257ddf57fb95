/-!
# Named entries in the order of first assignment

Records and catalogs are lists of pairs.  Assigning a name that is present replaces its entry in place; a new name goes
to the end.  Reading takes the first entry of a name, which after assignments alone is the only one.
-/
namespace Splice.Fields

variable {α : Type}

def set (name : String) (a : α) : List (String × α) → List (String × α)
  | [] => [(name, a)]
  | (n, b) :: rest => if n = name then (n, a) :: rest else (n, b) :: set name a rest

def get? (name : String) : List (String × α) → Option α
  | [] => none
  | (n, a) :: rest => if n = name then some a else get? name rest

/-- The entries that the assignments make, one after the other, on an empty list. -/
def ofAssignments (assignments : List (String × α)) : List (String × α) :=
  assignments.foldl (fun fields (name, a) => set name a fields) []

theorem mem_of_get? {name : String} {a : α} {fields : List (String × α)} (h : get? name fields = some a) :
    (name, a) ∈ fields := by
  induction fields with
  | nil => cases h
  | cons entry rest ih =>
    obtain ⟨n, b⟩ := entry
    by_cases hn : n = name
    · subst hn
      simp_all [get?]
    · exact List.mem_cons_of_mem _ (ih (by simpa [get?, hn] using h))

theorem get?_set_self (name : String) (a : α) (fields : List (String × α)) :
    get? name (set name a fields) = some a := by
  induction fields with
  | nil => simp [set, get?]
  | cons entry rest ih =>
    obtain ⟨n, b⟩ := entry
    by_cases h : n = name <;> simp [set, get?, h, ih]

theorem get?_set_of_ne {name other : String} (h : other ≠ name) (a : α) (fields : List (String × α)) :
    get? other (set name a fields) = get? other fields := by
  induction fields with
  | nil => simp [set, get?, Ne.symm h]
  | cons entry rest ih =>
    obtain ⟨n, b⟩ := entry
    by_cases hn : n = name
    · subst hn; simp [set, get?, Ne.symm h]
    · simp [set, get?, hn, ih]

end Splice.Fields
