import Workflow.Table

/-!
# Tables by position

Plans keep their choices and groups in tables whose keys are positions. These tables are filled from
left to right, up to a few insertions in between; the lemmas here say where an insertion lands when
the keys around it are known, and that a look-up finds what stands in a table of distinct keys. The
last ones hold of any keys: a new key is added to the others, and a table holds nothing but what was
put into it.
-/

namespace Workflow.Table

variable {ν : Type} {key : Nat} {value : ν} {left right entries : List (Nat × ν)}

/-! ## Where an insertion lands -/

theorem place_append (hleft : ∀ e ∈ left, e.1 < key) :
    place key value (left ++ right) = left ++ place key value right := by
  induction left with
  | nil => rfl
  | cons e rest ih =>
    obtain ⟨k, v⟩ := e
    have hk : k < key := hleft (k, v) (by simp)
    rw [List.cons_append, place, if_neg (by omega), if_neg (by omega),
      ih fun e he => hleft e (by simp [he])]
    rfl

theorem place_of_lt (hright : ∀ e ∈ right, key < e.1) :
    place key value right = (key, value) :: right := by
  cases right with
  | nil => rfl
  | cons e rest =>
    obtain ⟨k, v⟩ := e
    have hk : key < k := hright (k, v) (by simp)
    rw [place, if_neg (by omega), if_pos hk]

theorem place_between (hleft : ∀ e ∈ left, e.1 < key) (hright : ∀ e ∈ right, key < e.1) :
    place key value (left ++ right) = left ++ (key, value) :: right := by
  rw [place_append hleft, place_of_lt hright]

/-- At the least key, an insertion takes the place of the entry there, if there is one. -/
theorem place_least (hle : ∀ e ∈ entries, key ≤ e.1)
    (hascending : entries.Pairwise fun a b => a.1 < b.1) :
    place key value entries = (key, value) :: entries.filter fun e => e.1 ≠ key := by
  cases entries with
  | nil => rfl
  | cons e rest =>
    obtain ⟨k, v⟩ := e
    have hk : key ≤ k := hle (k, v) (by simp)
    have hrest : ∀ e ∈ rest, key < e.1 := by
      intro e he
      have := (List.pairwise_cons.mp hascending).1 e he
      simp only at this
      omega
    have hkept : rest.filter (fun e => e.1 ≠ key) = rest := by
      rw [List.filter_eq_self]
      intro e he
      have := hrest e he
      simp only [ne_eq, decide_eq_true_eq]
      omega
    by_cases heq : k = key
    · subst heq
      rw [place, if_pos rfl, List.filter_cons_of_neg (by simp), hkept]
    · rw [place, if_neg heq, if_pos (by omega), List.filter_cons_of_pos (by simp [heq]), hkept]

/-! ## Entries in order -/

/-- Entries stand in strictly ascending order of their keys, which lie from `first` up to `stop`. -/
structure Ascends (entries : List (Nat × ν)) (first stop : Nat) : Prop where
  within : ∀ e ∈ entries, first ≤ e.1 ∧ e.1 < stop
  ascending : entries.Pairwise fun a b => a.1 < b.1

namespace Ascends

variable {first stop first' stop' limit : Nat}

theorem nil : Ascends ([] : List (Nat × ν)) first stop := ⟨by simp, .nil⟩

/-- Entries of one stretch are followed by those of a later one. -/
theorem append (h : Ascends left first stop) (h' : Ascends right first' stop') (hapart : stop ≤ first')
    (hfirst : first ≤ first') (hstop : stop ≤ limit) (hstop' : stop' ≤ limit) :
    Ascends (left ++ right) first limit := by
  constructor
  case within =>
    intro e he
    rcases List.mem_append.mp he with he | he
    · have := h.within e he
      omega
    · have := h'.within e he
      omega
  case ascending =>
    refine List.pairwise_append.mpr ⟨h.ascending, h'.ascending, ?_⟩
    intro a ha b hb
    have := h.within a ha
    have := h'.within b hb
    omega

/-- An entry is followed by those of a later stretch. -/
theorem cons (h : Ascends right first stop) (hlt : key < first) (hkey : key < limit)
    (hstop : stop ≤ limit) : Ascends ((key, value) :: right) key limit := by
  have hone : Ascends [(key, value)] key (key + 1) := ⟨by simp, List.pairwise_singleton _ _⟩
  exact hone.append h hlt (Nat.le_of_lt hlt) hkey hstop

/-- Without the entry at the first key, entries stand behind it. -/
theorem filter_ne (h : Ascends entries first stop) :
    Ascends (entries.filter fun e => e.1 ≠ first) (first + 1) stop := by
  refine ⟨fun e he => ?_, h.ascending.filter _⟩
  obtain ⟨hmem, hne⟩ := List.mem_filter.mp he
  have := h.within e hmem
  simp only [ne_eq, decide_eq_true_eq] at hne
  omega

end Ascends

/-! ## Look-ups -/

theorem lookup_eq_none (h : ∀ e ∈ entries, e.1 ≠ key) : lookup key entries = none := by
  induction entries with
  | nil => rfl
  | cons e rest ih =>
    obtain ⟨k, v⟩ := e
    rw [lookup, if_neg (h (k, v) (by simp)), ih fun e he => h e (by simp [he])]

theorem lookup_append_left (h : ∀ e ∈ right, e.1 ≠ key) :
    lookup key (left ++ right) = lookup key left := by
  induction left with
  | nil => rw [List.nil_append, lookup_eq_none h, lookup]
  | cons e rest ih => rw [List.cons_append, lookup, lookup, ih]

theorem lookup_append_right (h : ∀ e ∈ left, e.1 ≠ key) :
    lookup key (left ++ right) = lookup key right := by
  induction left with
  | nil => rfl
  | cons e rest ih =>
    obtain ⟨k, v⟩ := e
    rw [List.cons_append, lookup, if_neg (h (k, v) (by simp)), ih fun e he => h e (by simp [he])]

theorem mem_of_lookup (h : lookup key entries = some value) : (key, value) ∈ entries := by
  induction entries with
  | nil => simp [lookup] at h
  | cons e rest ih =>
    obtain ⟨k, v⟩ := e
    rw [lookup] at h
    split at h
    · next heq =>
      cases h
      simp [heq]
    · exact List.mem_cons_of_mem _ (ih h)

/-- In a table of distinct keys, a look-up finds exactly the entries. -/
theorem lookup_eq_some_iff_mem (hdistinct : (entries.map Prod.fst).Nodup) :
    lookup key entries = some value ↔ (key, value) ∈ entries := by
  induction entries with
  | nil => simp [lookup]
  | cons e rest ih =>
    obtain ⟨k, v⟩ := e
    rw [List.map_cons, List.nodup_cons] at hdistinct
    rw [lookup, List.mem_cons]
    split
    · next heq =>
      subst heq
      have hnot : (k, value) ∉ rest := fun hmem =>
        hdistinct.1 (List.mem_map.mpr ⟨(k, value), hmem, rfl⟩)
      simp [hnot, eq_comm]
    · next hne =>
      rw [ih hdistinct.2]
      simp [Ne.symm hne]

/-! ## Keys -/

section Keys

variable {κ : Type} [DecidableEq κ]

theorem isSome_get?_iff (t : Table κ ν) (key : κ) : (t.get? key).isSome ↔ key ∈ t.keys := by
  obtain ⟨entries⟩ := t
  rw [get?, keys]
  induction entries with
  | nil => simp [lookup]
  | cons e rest ih =>
    obtain ⟨k, v⟩ := e
    rw [lookup, List.map_cons, List.mem_cons]
    split
    · next heq => simp [heq]
    · next hne => simp [ih, Ne.symm hne]

/-- A key that is new is added to the others, wherever it stands. -/
theorem keys_insert_perm [LT κ] [DecidableLT κ] {t : Table κ ν} {key : κ} (h : t.get? key = none)
    (value : ν) : (t.insert key value).keys.Perm (key :: t.keys) := by
  obtain ⟨entries⟩ := t
  rw [get?] at h
  show ((place key value entries).map Prod.fst).Perm (key :: entries.map Prod.fst)
  induction entries with
  | nil => exact .refl _
  | cons e rest ih =>
    obtain ⟨k, v⟩ := e
    rw [lookup] at h
    split at h
    · cases h
    · next hne =>
      rw [place, if_neg hne]
      split
      · exact .refl _
      · rw [List.map_cons, List.map_cons]
        exact ((ih h).cons k).trans (.swap key k _)

theorem mem_of_mem_place [LT κ] [DecidableLT κ] {key : κ} {value : ν} {e : κ × ν}
    {entries : List (κ × ν)} (h : e ∈ place key value entries) : e = (key, value) ∨ e ∈ entries := by
  induction entries with
  | nil => exact .inl (List.mem_singleton.mp h)
  | cons first rest ih =>
    obtain ⟨k, v⟩ := first
    rw [place] at h
    split at h
    · rcases List.mem_cons.mp h with rfl | h
      · exact .inl rfl
      · exact .inr (List.mem_cons_of_mem _ h)
    · split at h
      · exact List.mem_cons.mp h
      · rcases List.mem_cons.mp h with rfl | h
        · exact .inr List.mem_cons_self
        · exact (ih h).imp_right (List.mem_cons_of_mem _)

theorem mem_of_mem_ofList [LT κ] [DecidableLT κ] {e : κ × ν} {entries : List (κ × ν)}
    (h : e ∈ (ofList entries).entries) : e ∈ entries := by
  -- the table is filled from the left
  have hfilled : ∀ (rest : List (κ × ν)) (t : Table κ ν),
      e ∈ (rest.foldl (fun t entry => t.insert entry.1 entry.2) t).entries →
        e ∈ t.entries ∨ e ∈ rest := by
    intro rest
    induction rest with
    | nil => exact fun t hmem => .inl hmem
    | cons first rest ih =>
      intro t hmem
      rcases ih _ hmem with hmem | hmem
      · rcases mem_of_mem_place hmem with rfl | hmem
        · exact .inr List.mem_cons_self
        · exact .inl hmem
      · exact .inr (List.mem_cons_of_mem _ hmem)
  exact (hfilled entries ∅ h).resolve_left (List.not_mem_nil)

end Keys

end Workflow.Table
