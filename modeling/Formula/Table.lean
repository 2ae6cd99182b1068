namespace Formula

/-- A finite map, as its entries in the order in which the keys arrived. -/
structure Table (α β : Type) where
  entries : List (α × β)

namespace Table

variable {α β : Type} [DecidableEq α]

def empty : Table α β := ⟨[]⟩

instance : Inhabited (Table α β) := ⟨empty⟩

def find? (t : Table α β) (key : α) : Option β :=
  t.entries.lookup key

def contains (t : Table α β) (key : α) : Bool :=
  (t.find? key).isSome

def keys (t : Table α β) : List α :=
  t.entries.map Prod.fst

/-- Replaces the value of a key that is present and appends one that is not. -/
def insertEntry (key : α) (value : β) : List (α × β) → List (α × β)
  | [] => [(key, value)]
  | entry :: rest =>
    if entry.1 = key then (key, value) :: rest else entry :: insertEntry key value rest

def insert (t : Table α β) (key : α) (value : β) : Table α β :=
  ⟨insertEntry key value t.entries⟩

def erase (t : Table α β) (key : α) : Table α β :=
  ⟨t.entries.filter (fun entry => entry.1 ≠ key)⟩

/-- The entries by ascending key. -/
def sorted (t : Table String β) : List (String × β) :=
  t.entries.mergeSort (fun a b => decide (a.1 ≤ b.1))

/-- Later entries replace earlier ones of the same key. -/
def ofList (entries : List (α × β)) : Table α β :=
  entries.foldl (fun t entry => t.insert entry.1 entry.2) empty

@[simp] theorem find?_empty (key : α) : (empty : Table α β).find? key = none := rfl

theorem find?_insert (t : Table α β) (key other : α) (value : β) :
    (t.insert key value).find? other = if other = key then some value else t.find? other := by
  obtain ⟨entries⟩ := t
  simp only [insert, find?]
  induction entries with
  | nil =>
    by_cases h : other = key
    · subst h
      simp [insertEntry]
    · have : (other == key) = false := by simpa using h
      simp [insertEntry, List.lookup_cons, this, h]
  | cons entry rest ih =>
    obtain ⟨k, v⟩ := entry
    by_cases hk : k = key
    · subst hk
      by_cases h : other = k
      · subst h
        simp [insertEntry]
      · have : (other == k) = false := by simpa using h
        simp [insertEntry, List.lookup_cons, this, h]
    · by_cases h : other = k
      · subst h
        simp [insertEntry, hk]
      · have : (other == k) = false := by simpa using h
        simp [insertEntry, hk, List.lookup_cons, this, ih]

@[simp] theorem find?_insert_self (t : Table α β) (key : α) (value : β) :
    (t.insert key value).find? key = some value := by
  simp [find?_insert]

theorem find?_insert_of_ne (t : Table α β) {key other : α} (value : β) (h : other ≠ key) :
    (t.insert key value).find? other = t.find? other := by
  simp [find?_insert, h]

theorem find?_erase (t : Table α β) (key other : α) :
    (t.erase key).find? other = if other = key then none else t.find? other := by
  obtain ⟨entries⟩ := t
  simp only [erase, find?]
  induction entries with
  | nil => simp
  | cons entry rest ih =>
    obtain ⟨k, v⟩ := entry
    by_cases hk : k = key
    · subst hk
      by_cases h : other = k
      · subst h
        simpa using ih
      · have : (other == k) = false := by simpa using h
        simpa [List.lookup_cons, this, h] using ih
    · by_cases h : other = k
      · subst h
        simp [hk]
      · have : (other == k) = false := by simpa using h
        simpa [hk, List.lookup_cons, this] using ih

end Table

end Formula
