/-!
# Tables

A `Table` is a finite map kept as a list of entries, in the order in which their keys were first
inserted.  The registries of the kernel, the indices of a workspace and the two halves of a
substitution are tables.  What matters of a table is `get?`; `get?_insert` and `get?_erase` say how
the two updates change it.

The order of the entries is a choice of this representation, since a finite map as such has none.
It shows in the text of a substitution with several entries, and in what is reported where all
values are checked and several are refused: here it is the first one in this order, though any of
them could be reported as well (`Kernel.instantiate`).
-/

namespace HolSearch

/-- A finite map from `κ` to `α`. -/
structure Table (κ α : Type) where
  entries : List (κ × α) := []
deriving DecidableEq

namespace Table

variable {κ α : Type} [DecidableEq κ]

/-- The value of the first entry with key `k`. -/
def lookup (k : κ) : List (κ × α) → Option α
  | [] => none
  | (k', a) :: rest => if k' = k then some a else lookup k rest

/-- The entries with the value at `k` replaced, or with a new entry at the end. -/
def put (k : κ) (a : α) : List (κ × α) → List (κ × α)
  | [] => [(k, a)]
  | (k', a') :: rest => if k' = k then (k, a) :: rest else (k', a') :: put k a rest

/-- The table without entries. -/
def empty : Table κ α := {}

/-- The value at `k`. -/
def get? (t : Table κ α) (k : κ) : Option α := lookup k t.entries

/-- Whether `k` has a value. -/
def contains (t : Table κ α) (k : κ) : Bool := (t.get? k).isSome

/-- The table with value `a` at `k`. -/
def insert (t : Table κ α) (k : κ) (a : α) : Table κ α := ⟨put k a t.entries⟩

/-- The table without a value at `k`. -/
def erase (t : Table κ α) (k : κ) : Table κ α := ⟨t.entries.filter (·.1 ≠ k)⟩

/-- The values in the order of their keys' first insertion. -/
def values (t : Table κ α) : List α := t.entries.map (·.2)

/-- Whether the table has no entry. -/
def isEmpty (t : Table κ α) : Bool := t.entries.isEmpty

/-- The table of the given entries, where the last of equal keys counts. -/
def ofList (entries : List (κ × α)) : Table κ α :=
  entries.foldl (fun t e => t.insert e.1 e.2) empty

theorem lookup_put (k k' : κ) (a : α) (entries : List (κ × α)) :
    lookup k' (put k a entries) = if k' = k then some a else lookup k' entries := by
  induction entries with
  | nil => simp [put, lookup, eq_comm]
  | cons e rest ih =>
      obtain ⟨k₀, a₀⟩ := e
      by_cases h : k₀ = k
      · subst h
        by_cases h' : k' = k₀
        · simp [put, lookup, h']
        · have hne : ¬k₀ = k' := fun heq => h' heq.symm
          simp [put, lookup, h', hne]
      · by_cases h' : k₀ = k'
        · subst h'
          simp [put, lookup, h]
        · simp [put, lookup, h, h', ih]

theorem lookup_filter_ne (k k' : κ) (entries : List (κ × α)) :
    lookup k' (entries.filter (·.1 ≠ k)) = if k' = k then none else lookup k' entries := by
  induction entries with
  | nil => simp [lookup]
  | cons e rest ih =>
      obtain ⟨k₀, a₀⟩ := e
      by_cases h : k₀ = k
      · subst h
        by_cases h' : k' = k₀
        · simpa [lookup, h'] using ih
        · have hne : ¬k₀ = k' := fun heq => h' heq.symm
          simpa [lookup, h', hne] using ih
      · by_cases h' : k₀ = k'
        · subst h'
          simp [lookup, h]
        · simpa [lookup, h, h'] using ih

@[simp] theorem get?_empty (k : κ) : (empty : Table κ α).get? k = none := rfl

theorem get?_insert (t : Table κ α) (k k' : κ) (a : α) :
    (t.insert k a).get? k' = if k' = k then some a else t.get? k' :=
  lookup_put k k' a t.entries

theorem get?_erase (t : Table κ α) (k k' : κ) :
    (t.erase k).get? k' = if k' = k then none else t.get? k' :=
  lookup_filter_ne k k' t.entries

end Table

end HolSearch
