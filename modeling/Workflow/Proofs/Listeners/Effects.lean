import Workflow.Listeners

/-!
# What listeners make of a scope

Every listener changes the scope of a run as it likes, and registers others that do the same.
`Reaction.Makes R` says that each change a reaction makes is in the relation `R`, and so are those of
the listeners that it registers. Where `R` is reflexive and transitive, what a whole dispatch makes of
a scope is in `R` as well, and of the listeners that are registered afterwards the same can be said
(`Listeners.Make.announce`).
-/

namespace Workflow

/-- What a reaction makes of a scope is in a relation to it, and so is what listeners make of it that
the reaction registers. -/
def Reaction.Makes (R : Scope → Scope → Prop) : Reaction → Prop
  | .done | .panic => True
  | .access change next => ∀ s : Scope, R s (change s) ∧ (next s).Makes R
  | .note _ next | .clearListeners next => next.Makes R
  | .listen _ _ _ listener next => (∀ notice, (listener notice).Makes R) ∧ next.Makes R

def Listeners.Make (R : Scope → Scope → Prop) (l : Listeners) : Prop :=
  ∀ r ∈ l.registered, ∀ notice, (r.listener notice).Makes R

theorem Listeners.mem_place {r other : Subscription} {registered : List Subscription} :
    other ∈ Listeners.place r registered ↔ other = r ∨ other ∈ registered := by
  induction registered with
  | nil => simp [Listeners.place]
  | cons first rest ih =>
    rw [Listeners.place]
    split
    · simp
    · simp only [List.mem_cons, ih]
      exact or_left_comm

variable {R : Scope → Scope → Prop} (hrefl : ∀ s, R s s)
  (htrans : ∀ s s' s'' : Scope, R s s' → R s' s'' → R s s'')

include hrefl htrans

theorem Reaction.Makes.perform {reaction : Reaction} (h : reaction.Makes R) (r : Reception)
    (hr : r.listeners.Make R) :
    R r.scope (reaction.perform r).scope ∧ (reaction.perform r).listeners.Make R := by
  induction reaction generalizing r with
  | done | panic => exact ⟨hrefl _, hr⟩
  | access change next ih =>
    obtain ⟨hchange, hnext⟩ := h r.scope
    obtain ⟨hmakes, hlisteners⟩ := ih r.scope hnext { r with scope := change r.scope } hr
    exact ⟨htrans _ _ _ hchange hmakes, hlisteners⟩
  | note text next ih => exact ih h { r with remarks := r.remarks ++ [text] } hr
  | listen moment audience priority listener next _ ih =>
    -- of the new listener the same is known as of the reaction that registers it
    refine ih h.2
      { r with listeners := r.listeners.register moment audience priority listener } ?_
    intro other hother
    rcases Listeners.mem_place.mp hother with rfl | hother
    · exact h.1
    · exact hr other hother
  | clearListeners next ih =>
    refine ih h { r with listeners := r.listeners.clear } ?_
    rintro other ⟨⟩

/-- What several listeners make of a scope that are called one after another. -/
theorem Listeners.Make.foldl {called : List Subscription} (event : Notice)
    (hcalled : ∀ s ∈ called, ∀ notice, (s.listener notice).Makes R) (r : Reception)
    (hr : r.listeners.Make R) :
    let last := called.foldl (fun r s => (s.listener event).perform r) r
    R r.scope last.scope ∧ last.listeners.Make R := by
  induction called generalizing r with
  | nil => exact ⟨hrefl _, hr⟩
  | cons s rest ih =>
    obtain ⟨hmakes, hlisteners⟩ := (hcalled s (by simp) event).perform hrefl htrans r hr
    obtain ⟨hmakes', hlisteners'⟩ := ih (fun s hs => hcalled s (by simp [hs])) _ hlisteners
    exact ⟨htrans _ _ _ hmakes hmakes', hlisteners'⟩

theorem Listeners.Make.announce {l : Listeners} (h : l.Make R) (event : Notice) (scope : Scope) :
    R scope (l.announce event scope).scope ∧ (l.announce event scope).listeners.Make R :=
  Listeners.Make.foldl hrefl htrans event (fun s hs => h s (List.mem_filter.mp hs).1) ⟨l, scope, []⟩ h

end Workflow
