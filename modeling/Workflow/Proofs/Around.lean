import Mathlib.Data.List.Forall2

/-!
# An element of a list and what stands around it

Branches of a fork, runs of an executor and walks of a ledger are lists of which one element does
something while those around it stay as they are. The lemmas here take such a list apart at that
element: where another element can be (`mem_around`), how two ways to split a list compare
(`split_cases`), what matches the element in a second list (`forall₂_append_cons`), and that nothing
around it shares anything with it if the list is without repetitions (`not_mem_of_nodup_flatMap`).
-/

namespace Workflow

variable {α β : Type} {before after before' after' list : List α} {x x' y last : α}

/-- An element of a list is the one that is singled out, or stands before or behind it. -/
theorem mem_around : y ∈ before ++ x :: after ↔ x = y ∨ y ∈ before ∨ y ∈ after := by
  rw [List.mem_append, List.mem_cons, or_left_comm, eq_comm]

/-- What stands around an element is there whatever takes the place of it. -/
theorem mem_of_around (h : y ∈ before ∨ y ∈ after) (x : α) : y ∈ before ++ x :: after :=
  mem_around.mpr (.inr h)

/-- Two places in a list are the same, or one comes first. -/
theorem split_cases (h : before ++ x :: after = before' ++ x' :: after') :
    (before = before' ∧ x = x' ∧ after = after') ∨ (∃ mid, before' = before ++ x :: mid) ∨
      ∃ mid, before = before' ++ x' :: mid := by
  rcases List.append_eq_append_iff.mp h with ⟨mid, hbefore, hafter⟩ | ⟨mid, hbefore, hafter⟩
  · cases mid with
    | nil =>
      cases hafter
      exact .inl ⟨by simpa using hbefore.symm, rfl, rfl⟩
    | cons y mid =>
      cases hafter
      exact .inr (.inl ⟨mid, hbefore⟩)
  · cases mid with
    | nil =>
      cases hafter
      exact .inl ⟨by simpa using hbefore, rfl, rfl⟩
    | cons y mid =>
      cases hafter
      exact .inr (.inr ⟨mid, hbefore⟩)

/-- Where a list with one more element at its end can be split. -/
theorem concat_eq_append_cons (h : list ++ [last] = before ++ x :: after) :
    (after = [] ∧ x = last ∧ before = list) ∨
      ∃ rest, after = rest ++ [last] ∧ list = before ++ x :: rest := by
  rcases List.eq_nil_or_concat after with rfl | ⟨rest, y, rfl⟩
  · obtain ⟨rfl, hx⟩ := List.append_inj' h rfl
    cases hx
    exact .inl ⟨rfl, rfl, rfl⟩
  · rw [List.concat_eq_append, ← List.cons_append, ← List.append_assoc] at h
    obtain ⟨rfl, hy⟩ := List.append_inj' h rfl
    cases hy
    exact .inr ⟨rest, List.concat_eq_append .., rfl⟩

/-- Where one of two lists that match is split, the other can be split. -/
theorem forall₂_append_cons {R : α → β → Prop} {firsts : List β}
    (h : List.Forall₂ R (before ++ x :: after) firsts) :
    ∃ early own later, firsts = early ++ own :: later ∧ List.Forall₂ R before early ∧
      R x own ∧ List.Forall₂ R after later := by
  induction before generalizing firsts with
  | nil =>
    cases h with
    | cons hown hlater => exact ⟨[], _, _, rfl, .nil, hown, hlater⟩
  | cons first before ih =>
    cases h with
    | cons hfirst hrest =>
      obtain ⟨early, own, later, rfl, hearly, hown, hlater⟩ := ih hrest
      exact ⟨_ :: early, own, later, rfl, .cons hfirst hearly, hown, hlater⟩

/-- Where nothing occurs twice, what stands at different places has nothing in common. -/
theorem not_mem_of_nodup_flatMap {f : α → List β} {w : β}
    (hnodup : ((before ++ x :: after).flatMap f).Nodup) (hy : y ∈ before ∨ y ∈ after)
    (hw : w ∈ f y) : w ∉ f x := by
  intro hw'
  rw [List.flatMap_append, List.flatMap_cons] at hnodup
  obtain ⟨-, hafter, hbefore⟩ := List.nodup_append.mp hnodup
  rcases hy with hy | hy
  · exact hbefore w (List.mem_flatMap.mpr ⟨y, hy, hw⟩) w (List.mem_append_left _ hw') rfl
  · exact (List.nodup_append.mp hafter).2.2 w hw' w (List.mem_flatMap.mpr ⟨y, hy, hw⟩) rfl

end Workflow
