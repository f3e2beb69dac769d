namespace EagerLisp

/-- A finite map from names, with one entry for each in the order in which they came; a new value
for a name takes the place of the old one. -/
structure Table (α : Type) where
  entries : List (String × α)
  distinct : (entries.map Prod.fst).Nodup

namespace Table

variable {α : Type}

def empty : Table α := ⟨[], List.nodup_nil⟩

def names (table : Table α) : List String :=
  table.entries.map Prod.fst

def size (table : Table α) : Nat :=
  table.entries.length

def find? (table : Table α) (name : String) : Option α :=
  table.entries.lookup name

def contains (table : Table α) (name : String) : Bool :=
  (table.find? name).isSome

def assign (name : String) (value : α) : List (String × α) → List (String × α)
  | [] => [(name, value)]
  | (other, old) :: rest =>
    if other = name then (name, value) :: rest else (other, old) :: assign name value rest

theorem mem_assign_names {name other : String} {value : α} {entries : List (String × α)} :
    other ∈ (assign name value entries).map Prod.fst ↔
      other = name ∨ other ∈ entries.map Prod.fst := by
  induction entries with
  | nil => simp [assign]
  | cons entry rest ih =>
    obtain ⟨first, old⟩ := entry
    simp only [assign]
    split
    case isTrue same => subst same; simp
    case isFalse different =>
      simp only [List.map_cons, List.mem_cons, ih]
      constructor
      · rintro (rfl | rfl | member) <;> simp [*]
      · rintro (rfl | rfl | member) <;> simp [*]

theorem assign_distinct (name : String) (value : α) {entries : List (String × α)}
    (distinct : (entries.map Prod.fst).Nodup) :
    ((assign name value entries).map Prod.fst).Nodup := by
  induction entries with
  | nil => simp [assign]
  | cons entry rest ih =>
    obtain ⟨first, old⟩ := entry
    obtain ⟨fresh, others⟩ := List.nodup_cons.mp distinct
    simp only [assign]
    split
    case isTrue same =>
      subst same
      exact distinct
    case isFalse different =>
      refine List.nodup_cons.mpr ⟨fun member => ?_, ih others⟩
      rcases mem_assign_names.mp member with same | member
      · exact different same
      · exact fresh member

theorem lookup_cons (first other : String) (value : α) (rest : List (String × α)) :
    ((first, value) :: rest).lookup other =
      if other = first then some value else rest.lookup other := by
  rw [List.lookup_cons]
  by_cases same : other = first
  · simp [same]
  · simp [same, beq_eq_false_iff_ne.mpr same]

theorem lookup_assign (name other : String) (value : α) (entries : List (String × α)) :
    (assign name value entries).lookup other =
      if other = name then some value else entries.lookup other := by
  induction entries with
  | nil => simp [assign, lookup_cons]
  | cons entry rest ih =>
    obtain ⟨first, old⟩ := entry
    by_cases found : first = name
    · subst found
      by_cases same : other = first <;> simp [assign, lookup_cons, same]
    · by_cases head : other = first
      · subst head
        simp [assign, found]
      · simp [assign, lookup_cons, found, head, ih]

def insert (table : Table α) (name : String) (value : α) : Table α :=
  ⟨assign name value table.entries, assign_distinct name value table.distinct⟩

@[simp] theorem find?_empty (name : String) : (empty : Table α).find? name = none := rfl

theorem find?_insert (table : Table α) (name other : String) (value : α) :
    (table.insert name value).find? other =
      if other = name then some value else table.find? other :=
  lookup_assign name other value table.entries

@[simp] theorem find?_insert_self (table : Table α) (name : String) (value : α) :
    (table.insert name value).find? name = some value := by
  simp [find?_insert]

/-- The table of these entries; of two entries for one name the later one counts. -/
def ofList (entries : List (String × α)) : Table α :=
  entries.foldl (fun table entry => table.insert entry.1 entry.2) empty

theorem mem_of_find?_ofList {entries : List (String × α)} {name : String} {value : α}
    (found : (ofList entries).find? name = some value) : (name, value) ∈ entries := by
  have added (entries : List (String × α)) (table : Table α)
      (found : (entries.foldl (fun table entry => table.insert entry.1 entry.2) table).find? name =
        some value) : (name, value) ∈ entries ∨ table.find? name = some value := by
    induction entries generalizing table with
    | nil => exact .inr found
    | cons entry rest ih =>
      rcases ih _ found with later | here
      · exact .inl (List.mem_cons_of_mem _ later)
      · rw [find?_insert] at here
        split at here
        case isTrue same =>
          cases here
          exact .inl (by simp [same])
        case isFalse => exact .inr here
  rcases added entries empty found with member | impossible
  · exact member
  · cases impossible

def agree (same : α → α → Bool) (first second : Table α) : Bool :=
  first.size = second.size && first.entries.all fun (name, value) =>
    match second.find? name with
    | some other => same value other
    | none => false

end Table

/-- Names without repetition, in the order of their code points. -/
def sortedNames (names : List String) : List String :=
  names.eraseDups.mergeSort fun first second => decide (first ≤ second)

end EagerLisp
