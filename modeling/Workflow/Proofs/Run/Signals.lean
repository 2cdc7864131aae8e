import Workflow.Engine
import Workflow.Proofs.Listeners.Effects

/-!
# Signals and who leaves them

The engine reads two slots of the scope for every unit, one for its routing signal and one for its
fork signal. `Scope.slots` is all that the engine looks at of a unit; the keys of different units,
and the two keys of one unit, never coincide, so an operation on the slots of one unit is not seen
by any other (`SameBut`).

* `Behavior.EndsWith kept u good` says of a call of unit `u` that it succeeds, whatever it reads,
  and that the slots of `u` satisfy `good` at its end, while it keeps its hands off the slots of the
  other units in `kept`. It is computed backwards along the behaviour.
* `FlowUnit.Obeys` puts the three calls of an execution together: the unit succeeds and leaves a
  given label, or none, and no fork.
* `Reaction.Quiet` says of a listener that it touches no slots at all.
-/

namespace Workflow

/-! ## Slots -/

/-- What the scope holds in the two slots of a unit. -/
structure Slots where
  route : Option Value
  fork : Option Value
  deriving DecidableEq

namespace Slots

/-- The slots of a unit that has left nothing. -/
def clear : Slots := ⟨none, none⟩

/-- The routing signal in the slots. -/
def target (σ : Slots) : Option String :=
  match σ.route with
  | some (.text target) => some target
  | _ => none

/-- The fork signal in the slots. -/
def entries (σ : Slots) : Option (List String) :=
  match σ.fork with
  | some (.texts entries) => some entries
  | _ => none

/-- The slots hold a label, or no routing signal, and no fork signal. -/
def Hold (label : Option Label) (σ : Slots) : Prop :=
  σ.target = label.map Label.text ∧ σ.entries = none

end Slots

namespace Scope

/-- The slots of a unit. -/
def slots (s : Scope) (u : String) : Slots := ⟨s.get? (routeSlot u), s.get? (forkSlot u)⟩

/-- Two scopes agree in the slots of all units but one. -/
def SameBut (u : String) (s s' : Scope) : Prop := ∀ v, v ≠ u → s'.slots v = s.slots v

theorem routeSlot_inj {u v : String} : routeSlot u = routeSlot v ↔ u = v :=
  String.append_right_inj _

theorem forkSlot_inj {u v : String} : forkSlot u = forkSlot v ↔ u = v :=
  String.append_right_inj _

theorem toList_routeSlot (u : String) :
    (routeSlot u).toList = "__routing_target__:".toList ++ u.toList := String.toList_append

theorem toList_forkSlot (u : String) :
    (forkSlot u).toList = "__fork_branches__:".toList ++ u.toList := String.toList_append

-- the three kinds of keys differ in their third character, whatever the unit is called

theorem third_routeSlot (u : String) : (routeSlot u).toList[2]? = some 'r' := by
  have hlength : 2 < "__routing_target__:".toList.length := by decide +kernel
  have hthird : "__routing_target__:".toList[2]? = some 'r' := by decide +kernel
  rw [toList_routeSlot]
  exact (List.getElem?_append_left hlength).trans hthird

theorem third_forkSlot (u : String) : (forkSlot u).toList[2]? = some 'f' := by
  have hlength : 2 < "__fork_branches__:".toList.length := by decide +kernel
  have hthird : "__fork_branches__:".toList[2]? = some 'f' := by decide +kernel
  rw [toList_forkSlot]
  exact (List.getElem?_append_left hlength).trans hthird

theorem third_completedSlot : completedSlot.toList[2]? = some 'c' := by decide

theorem routeSlot_ne_forkSlot (u v : String) : routeSlot u ≠ forkSlot v := by
  intro heq
  have h := third_routeSlot u
  rw [heq, third_forkSlot] at h
  exact absurd h (by decide)

theorem routeSlot_ne_completedSlot (u : String) : routeSlot u ≠ completedSlot := by
  intro heq
  have h := third_routeSlot u
  rw [heq, third_completedSlot] at h
  exact absurd h (by decide)

theorem forkSlot_ne_completedSlot (u : String) : forkSlot u ≠ completedSlot := by
  intro heq
  have h := third_forkSlot u
  rw [heq, third_completedSlot] at h
  exact absurd h (by decide)

/-! ### Operations on slots -/

theorem slots_signalRoute (s : Scope) (u target : String) :
    (s.signalRoute u target).slots u = ⟨some (.text target), (s.slots u).fork⟩ := by
  simp [slots, signalRoute, Table.get?_insert, routeSlot_ne_forkSlot]

theorem sameBut_signalRoute (s : Scope) (u target : String) :
    SameBut u s (s.signalRoute u target) := by
  intro v hv
  simp [slots, signalRoute, Table.get?_insert, routeSlot_inj, routeSlot_ne_forkSlot, Ne.symm hv]

theorem slots_signalFork (s : Scope) (u : String) (entries : List String) :
    (s.signalFork u entries).slots u = ⟨(s.slots u).route, some (.texts entries)⟩ := by
  simp [slots, signalFork, Table.get?_insert, (routeSlot_ne_forkSlot _ _).symm]

theorem sameBut_signalFork (s : Scope) (u : String) (entries : List String) :
    SameBut u s (s.signalFork u entries) := by
  intro v hv
  simp [slots, signalFork, Table.get?_insert, forkSlot_inj, (routeSlot_ne_forkSlot _ _).symm,
    Ne.symm hv]

variable {s : Scope} {u v : String} {value : Value}

/-- A routing signal changes no other slot than that of its unit. -/
theorem route_signalRoute {target : String}
    (h : ((s.signalRoute u target).slots v).route = some value) :
    (s.slots v).route = some value ∨ v = u ∧ value = .text target := by
  by_cases heq : v = u
  · subst heq
    rw [slots_signalRoute] at h
    exact .inr ⟨rfl, (Option.some.inj h).symm⟩
  · rw [sameBut_signalRoute s u target v heq] at h
    exact .inl h

theorem fork_signalRoute (s : Scope) (u target v : String) :
    ((s.signalRoute u target).slots v).fork = (s.slots v).fork := by
  by_cases heq : v = u
  · rw [heq, slots_signalRoute]
  · rw [sameBut_signalRoute s u target v heq]

/-- A fork signal changes no other slot than that of its unit. -/
theorem fork_signalFork {entries : List String}
    (h : ((s.signalFork u entries).slots v).fork = some value) :
    (s.slots v).fork = some value ∨ v = u ∧ value = .texts entries := by
  by_cases heq : v = u
  · subst heq
    rw [slots_signalFork] at h
    exact .inr ⟨rfl, (Option.some.inj h).symm⟩
  · rw [sameBut_signalFork s u entries v heq] at h
    exact .inl h

theorem route_signalFork (s : Scope) (u : String) (entries : List String) (v : String) :
    ((s.signalFork u entries).slots v).route = (s.slots v).route := by
  by_cases heq : v = u
  · rw [heq, slots_signalFork]
  · rw [sameBut_signalFork s u entries v heq]

theorem takeRoute_fst (s : Scope) (u : String) : (s.takeRoute u).1 = (s.slots u).target := by
  unfold takeRoute slots Slots.target
  split <;> simp_all

theorem takeFork_fst (s : Scope) (u : String) : (s.takeFork u).1 = (s.slots u).entries := by
  unfold takeFork slots Slots.entries
  split <;> simp_all

/-- Taking the routing signal leaves the fork slot as it is, and no routing signal. -/
theorem slots_takeRoute (s : Scope) (u : String) :
    ((s.takeRoute u).2.slots u).target = none ∧
      ((s.takeRoute u).2.slots u).fork = (s.slots u).fork := by
  unfold takeRoute
  split
  · simp [slots, Slots.target, Table.get?_erase, routeSlot_ne_forkSlot]
  -- a value of another type stays where it is, and is no signal
  · next h =>
    refine ⟨?_, rfl⟩
    simp only [slots, Slots.target]

theorem sameBut_takeRoute (s : Scope) (u : String) : SameBut u s (s.takeRoute u).2 := by
  intro v hv
  unfold takeRoute
  split
  · simp [slots, Table.get?_erase, routeSlot_inj, routeSlot_ne_forkSlot, Ne.symm hv]
  · rfl

theorem slots_takeFork (s : Scope) (u : String) :
    ((s.takeFork u).2.slots u).route = (s.slots u).route := by
  unfold takeFork
  split
  · simp [slots, Table.get?_erase, (routeSlot_ne_forkSlot _ _).symm]
  · rfl

theorem sameBut_takeFork (s : Scope) (u : String) : SameBut u s (s.takeFork u).2 := by
  intro v hv
  unfold takeFork
  split
  · simp [slots, Table.get?_erase, forkSlot_inj, (routeSlot_ne_forkSlot _ _).symm, Ne.symm hv]
  · rfl

theorem slots_dropSignals (s : Scope) (u : String) : (s.dropSignals u).slots u = .clear := by
  simp [slots, dropSignals, Table.get?_erase, Slots.clear, (routeSlot_ne_forkSlot _ _).symm]

theorem sameBut_dropSignals (s : Scope) (u : String) : SameBut u s (s.dropSignals u) := by
  intro v hv
  simp [slots, dropSignals, Table.get?_erase, routeSlot_inj, forkSlot_inj, routeSlot_ne_forkSlot,
    (routeSlot_ne_forkSlot _ _).symm, Ne.symm hv]

theorem slots_publish (s : Scope) (entries : List String) (v : String) :
    (s.publish entries).slots v = s.slots v := by
  simp [slots, publish, Table.get?_insert, (routeSlot_ne_completedSlot _).symm,
    (forkSlot_ne_completedSlot _).symm]

end Scope

/-! ## Labels -/

theorem Label.text_of_ofText? {text : String} {label : Label} (h : Label.ofText? text = some label) :
    label.text = text := by
  unfold Label.ofText? at h
  split at h
  · next heq =>
    cases h
    exact heq.symm
  · split at h
    · next heq =>
      cases h
      exact heq.symm
    · cases h

/-! ## Units -/

/-- A call succeeds, and at its end the slots of unit `u`, which at first are as given, satisfy
`good`. The call touches no slots of the other units in `kept`, registers and removes none of them,
and leaves the pool open. It runs no flow: whether that would ever return is not up to the unit. -/
def Behavior.EndsWith (kept : List String) (u : String) (good : Slots → Prop) :
    Behavior → Slots → Prop
  | .done, σ => good σ
  | .fail _, _ | .panic _, _ | .closePool _, _ | .runFlow .., _ => False
  | .access change next, σ => ∀ s : Scope, s.slots u = σ →
    (∀ v ∈ kept, v ≠ u → (change s).slots v = s.slots v) ∧
      (next s).EndsWith kept u good ((change s).slots u)
  | .signalRoute target next, σ => next.EndsWith kept u good ⟨some (.text target), σ.fork⟩
  | .signalFork entries next, σ => next.EndsWith kept u good ⟨σ.route, some (.texts entries)⟩
  | .note _ next, σ | .sleep _ next, σ | .addFlow _ _ next, σ => next.EndsWith kept u good σ
  | .payload _ next, σ => ∀ payload, (next payload).EndsWith kept u good σ
  | .viewPool next, σ => ∀ view, (next view).EndsWith kept u good σ
  | .addUnit unitId _ next, σ | .eraseUnit unitId next, σ =>
    unitId ∉ kept ∧ next.EndsWith kept u good σ

/-- What is known of the units of a run: which ones there are, the label that each leaves, and what
each is told of the run. -/
structure Contract where
  kept : List String
  label : String → Option Label
  view : String → UnitView

/-- Before the last call of a unit, from given slots: the call will succeed and leave the label. -/
def FlowUnit.EndsAfter (c : Contract) (unit : FlowUnit) (u : String) (σ : Slots) : Prop :=
  (unit.afterRun (c.view u)).EndsWith c.kept u (Slots.Hold (c.label u)) σ

/-- Before the second call of a unit, from given slots. -/
def FlowUnit.EndsRun (c : Contract) (unit : FlowUnit) (u : String) (σ : Slots) : Prop :=
  (unit.run (c.view u)).EndsWith c.kept u (FlowUnit.EndsAfter c unit u) σ

/-- A unit succeeds whenever it is executed, and leaves its label and nothing else. Its name is the
id under which it is registered. -/
structure FlowUnit.Obeys (c : Contract) (unit : FlowUnit) (u : String) : Prop where
  name : unit.name = u
  calls : (unit.beforeRun (c.view u)).EndsWith c.kept u (FlowUnit.EndsRun c unit u) .clear

/-! ## Listeners -/

/-- A reaction touches no slots of the units in `kept`, and neither do listeners that it
registers. -/
def Reaction.Quiet (kept : List String) : Reaction → Prop
  | .done | .panic => True
  | .access change next =>
    ∀ s : Scope, (∀ v ∈ kept, (change s).slots v = s.slots v) ∧ (next s).Quiet kept
  | .note _ next | .clearListeners next => next.Quiet kept
  | .listen _ _ _ listener next => (∀ notice, (listener notice).Quiet kept) ∧ next.Quiet kept

/-- All registered listeners are quiet. -/
def Listeners.Quiet (kept : List String) (l : Listeners) : Prop :=
  ∀ r ∈ l.registered, ∀ notice, (r.listener notice).Quiet kept

/-- Two scopes agree in the slots of the units in `kept`. -/
def Scope.Agree (kept : List String) (s s' : Scope) : Prop := ∀ v ∈ kept, s'.slots v = s.slots v

variable {kept : List String}

theorem Reaction.quiet_iff_makes {reaction : Reaction} :
    reaction.Quiet kept ↔ reaction.Makes (Scope.Agree kept) := by
  induction reaction with
  | done | panic => exact Iff.rfl
  | access change next ih => exact forall_congr' fun s => and_congr_right fun _ => ih s
  | note _ next ih | clearListeners next ih => exact ih
  | listen _ _ _ listener next ihlistener ih => exact and_congr (forall_congr' ihlistener) ih

theorem Listeners.quiet_iff_make {l : Listeners} : l.Quiet kept ↔ l.Make (Scope.Agree kept) :=
  forall₂_congr fun _ _ => forall_congr' fun _ => Reaction.quiet_iff_makes

/-- Telling quiet listeners an event changes no slots. -/
theorem Listeners.Quiet.announce {l : Listeners} (h : l.Quiet kept) (event : Notice)
    (scope : Scope) :
    (∀ v ∈ kept, (l.announce event scope).scope.slots v = scope.slots v) ∧
      (l.announce event scope).listeners.Quiet kept := by
  have hrefl : ∀ s, Scope.Agree kept s s := fun _ _ _ => rfl
  have htrans : ∀ s s' s'', Scope.Agree kept s s' → Scope.Agree kept s' s'' →
      Scope.Agree kept s s'' := fun _ _ _ h h' v hv => (h' v hv).trans (h v hv)
  obtain ⟨hslots, hmake⟩ := (quiet_iff_make.mp h).announce hrefl htrans event scope
  exact ⟨hslots, quiet_iff_make.mpr hmake⟩

end Workflow
