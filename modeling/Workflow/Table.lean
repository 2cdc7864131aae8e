/-!
# Tables

A table is a list of entries in ascending key order with at most one entry per key. It is the one
container of the library: a plan keeps its choices and groups in tables, a run keeps its data in
one, and so do the registry and the plan cache. Reading a table back as a list therefore needs no
sorting, and two tables with the same entries are equal as values.

The laws of look-up do not depend on the order of keys; they say that an insertion is seen by its
own key and by no other.
-/

namespace Workflow

/-- Entries in ascending order of their keys. -/
structure Table (κ : Type) (ν : Type) where
  entries : List (κ × ν) := []
  deriving Repr, DecidableEq

namespace Table

variable {κ ν : Type}

def empty : Table κ ν := ⟨[]⟩

instance : EmptyCollection (Table κ ν) := ⟨empty⟩

instance : Inhabited (Table κ ν) := ⟨empty⟩

def keys (t : Table κ ν) : List κ := t.entries.map Prod.fst

def values (t : Table κ ν) : List ν := t.entries.map Prod.snd

def size (t : Table κ ν) : Nat := t.entries.length

def isEmpty (t : Table κ ν) : Bool := t.entries.isEmpty

/-- Changes every value and keeps the keys. -/
def map {ν' : Type} (f : ν → ν') (t : Table κ ν) : Table κ ν' :=
  ⟨t.entries.map fun entry => (entry.1, f entry.2)⟩

section Lookup

variable [DecidableEq κ]

def lookup (key : κ) : List (κ × ν) → Option ν
  | [] => none
  | (k, v) :: rest => if k = key then some v else lookup key rest

def get? (t : Table κ ν) (key : κ) : Option ν := lookup key t.entries

def contains (t : Table κ ν) (key : κ) : Bool := (t.get? key).isSome

/-- Removes a key; a table without it is unchanged. -/
def erase (t : Table κ ν) (key : κ) : Table κ ν :=
  ⟨t.entries.filter fun entry => entry.1 ≠ key⟩

variable [LT κ] [DecidableLT κ]

/-- Puts an entry in its place, replacing one of the same key. -/
def place (key : κ) (value : ν) : List (κ × ν) → List (κ × ν)
  | [] => [(key, value)]
  | (k, v) :: rest =>
    if k = key then (key, value) :: rest
    else if key < k then (key, value) :: (k, v) :: rest
    else (k, v) :: place key value rest

/-- Gives a key a value, replacing the one it had. -/
def insert (t : Table κ ν) (key : κ) (value : ν) : Table κ ν := ⟨place key value t.entries⟩

/-- The table of a list of entries; of two entries with one key the later stays. -/
def ofList (entries : List (κ × ν)) : Table κ ν :=
  entries.foldl (fun t entry => t.insert entry.1 entry.2) ∅

/-! ## Laws of look-up -/

omit [LT κ] [DecidableLT κ] in
@[simp] theorem get?_empty (key : κ) : (∅ : Table κ ν).get? key = none := rfl

theorem lookup_place (key key' : κ) (value : ν) (entries : List (κ × ν)) :
    lookup key' (place key value entries) =
      if key = key' then some value else lookup key' entries := by
  induction entries with
  | nil => rfl
  | cons entry rest ih =>
    obtain ⟨k, v⟩ := entry
    by_cases hk : k = key
    · subst hk; by_cases h : k = key' <;> simp [place, lookup, h]
    · by_cases hlt : key < k
      · simp [place, lookup, hk, hlt]
      · by_cases h : k = key'
        · subst h; simp [place, lookup, hk, hlt, Ne.symm hk]
        · simp [place, lookup, hk, hlt, h, ih]

theorem get?_insert (t : Table κ ν) (key key' : κ) (value : ν) :
    (t.insert key value).get? key' = if key = key' then some value else t.get? key' :=
  lookup_place key key' value t.entries

@[simp] theorem get?_insert_self (t : Table κ ν) (key : κ) (value : ν) :
    (t.insert key value).get? key = some value := by
  simp [get?_insert]

theorem get?_insert_of_ne (t : Table κ ν) {key key' : κ} (value : ν) (h : key ≠ key') :
    (t.insert key value).get? key' = t.get? key' := by
  simp [get?_insert, h]

omit [LT κ] [DecidableLT κ] in
theorem get?_erase (t : Table κ ν) (key key' : κ) :
    (t.erase key).get? key' = if key = key' then none else t.get? key' := by
  obtain ⟨entries⟩ := t
  induction entries with
  | nil => simp [erase, get?, lookup]
  | cons entry rest ih =>
    obtain ⟨k, v⟩ := entry
    simp only [erase, get?] at ih ⊢
    by_cases hk : k = key
    · subst hk
      by_cases h : k = key'
      · simpa [List.filter, lookup, h] using ih
      · simpa [List.filter, lookup, h] using ih
    · by_cases h : k = key'
      · subst h; simp [List.filter, lookup, hk, Ne.symm hk]
      · simpa [List.filter, lookup, hk, h] using ih

end Lookup

end Table

end Workflow
