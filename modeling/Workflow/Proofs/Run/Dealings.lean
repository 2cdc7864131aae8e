import Workflow.Proofs.Run.Turns

/-!
# What decisions do with signals

A walk that decides takes the signals of a unit, or drops them, and may put a label back for a walk
around it. `Scope.Attends units` says that nothing else becomes of a scope, and that it is signals of
the given units only; there is one lemma for each decision. What is to be shown of the scope after a
decision is then shown for each of these operations instead.
-/

namespace Workflow

/-- From one scope to the other, signals of the given units have been taken or dropped, and labels have
been put back where they were. -/
inductive Scope.Attends (units : String → Prop) (s : Scope) : Scope → Prop where
  | refl : Attends units s s
  | takeRoute {s' : Scope} {u : String} (h : Attends units s s') (hu : units u) :
    Attends units s (s'.takeRoute u).2
  | takeFork {s' : Scope} {u : String} (h : Attends units s s') (hu : units u) :
    Attends units s (s'.takeFork u).2
  | dropSignals {s' : Scope} {u : String} (h : Attends units s s') (hu : units u) :
    Attends units s (s'.dropSignals u)
  | putBack {s' : Scope} {u target : String} (h : Attends units s s') (hu : units u)
      (hlabel : (Label.ofText? target).isSome = true) : Attends units s (s'.signalRoute u target)

theorem Scope.Attends.trans {units : String → Prop} {s s' s'' : Scope} (h : s.Attends units s')
    (h' : s'.Attends units s'') : s.Attends units s'' := by
  induction h' with
  | refl => exact h
  | takeRoute _ hu ih => exact ih.takeRoute hu
  | takeFork _ hu ih => exact ih.takeFork hu
  | dropSignals _ hu ih => exact ih.dropSignals hu
  | putBack _ hu hlabel ih => exact ih.putBack hu hlabel

namespace Walk

open Scope (Attends)

variable {units : String → Prop} {w : Walk} {u : String} {resume : Resume}

theorem attends_detour (w : Walk) (scope : Scope) (hasRun : String → Bool) (target : String) :
    scope.Attends units (w.detour scope hasRun target).scope := by
  unfold detour
  split <;> exact .refl

theorem attends_steer (hu : units u) (w : Walk) (scope : Scope) (hasRun : String → Bool)
    (signal : Option String) : scope.Attends units (w.steer scope hasRun u signal).scope := by
  unfold steer
  split
  · exact .refl
  · exact .refl
  · split
    · exact .refl
    · split
      · split
        · exact .refl
        · exact attends_detour ..
      · split
        · next hlabel => exact Attends.refl.putBack hu hlabel
        · exact attends_detour ..

theorem attends_obey (hu : units u) (w : Walk) (scope : Scope) (hasRun : String → Bool)
    (signal : Option String) (fork : Option (List String)) :
    scope.Attends units (w.obey scope hasRun u signal fork).scope := by
  unfold obey
  split
  · exact .refl
  · split
    · exact .refl
    · exact .refl
    · exact .refl
    · exact attends_steer hu ..

theorem attends_advance (h : ∀ u, w.plan.unitAt? w.position = some u → units u) (scope : Scope)
    (hasRun : String → Bool) : scope.Attends units (w.advance scope hasRun).scope := by
  unfold advance
  split
  · exact .refl
  · next unitId hunit =>
    have hu := h unitId hunit
    split
    · exact .refl
    · split <;> exact .refl
    · simp only
      split
      · exact .refl
      · exact (Attends.refl.takeRoute hu).trans (attends_obey hu ..)
      · exact attends_obey hu ..
    · exact .refl

/-! ## Units that have succeeded

The routing signal of the unit is taken first. -/

theorem attends_ownUnitDone (hunit : w.plan.unitAt? w.position = some u) (hu : units u) (scope : Scope)
    (hasRun : String → Bool) (tolerant : Bool) :
    (scope.takeRoute u).2.Attends units (w.ownUnitDone scope hasRun tolerant none).scope := by
  unfold ownUnitDone
  rw [hunit]
  exact (Attends.refl.takeFork hu).trans (attends_obey hu ..)

theorem attends_detourDone (hu : units u) (w : Walk) (scope : Scope) (tolerant reached : Bool) :
    (scope.takeRoute u).2.Attends units (w.detourDone scope tolerant u reached none).scope := by
  unfold detourDone
  simp only
  split
  · exact .refl
  · split <;> exact Attends.refl.takeFork hu

theorem attends_aloneDone (w : Walk) (scope : Scope) (u : String) :
    (scope.takeRoute u).2.Attends units (w.aloneDone scope u none).scope := by
  unfold aloneDone
  simp only
  split <;> exact .refl

theorem attends_succeeded (hawaits : w.AwaitsUnit u resume) (hu : units u) (scope : Scope)
    (hasRun : String → Bool) (tolerant : Bool) :
    (scope.takeRoute u).2.Attends units (w.unitDone scope hasRun tolerant u resume none).scope := by
  unfold unitDone
  split
  · exact attends_ownUnitDone (hawaits rfl) hu scope hasRun tolerant
  · exact attends_detourDone hu ..
  all_goals exact attends_aloneDone ..

/-! ## Answers -/

theorem attends_unitDone (h : ∀ v, w.plan.unitAt? w.position = some v → units v) (hu : units u)
    (scope : Scope) (hasRun : String → Bool) (tolerant : Bool) (resume : Resume)
    (result : Option Mishap) :
    scope.Attends units (w.unitDone scope hasRun tolerant u resume result).scope := by
  have htaken : scope.Attends units (scope.takeRoute u).2 := Attends.refl.takeRoute hu
  unfold unitDone
  rcases result with _ | f
  · split
    · rcases hunit : w.plan.unitAt? w.position with _ | v
      · unfold ownUnitDone
        rw [hunit]
        exact .refl
      · exact (Attends.refl.takeRoute (h v hunit)).trans
          (attends_ownUnitDone hunit (h v hunit) scope hasRun tolerant)
    · exact htaken.trans (attends_detourDone hu ..)
    all_goals exact htaken.trans (attends_aloneDone ..)
  · split
    · unfold ownUnitDone
      split
      · exact .refl
      · next v hunit =>
        simp only
        split
        · exact Attends.refl.dropSignals (h v hunit)
        · exact .refl
    · unfold detourDone
      simp only
      split <;> exact Attends.refl.dropSignals hu
    all_goals exact .refl

theorem attends_forkDone (h : ∀ u, w.plan.unitAt? w.position = some u → units u)
    (hgroup : ∀ stop, resume = .group stop → ∀ u, w.plan.unitAt? (stop - 1) = some u → units u)
    (scope : Scope) (hasRun : String → Bool) (tolerant : Bool) (result : Option Failure) :
    scope.Attends units (w.forkDone scope hasRun tolerant resume result).scope := by
  unfold forkDone
  split
  · unfold groupDone
    split
    · simp only
      split <;> exact .refl
    · split
      · next router _ hrouter =>
        have hu := hgroup _ rfl router hrouter
        exact (Attends.refl.takeRoute hu).trans (attends_steer hu ..)
      · exact .refl
  · unfold scatterDone
    split
    · exact .refl
    · next unitId hunit =>
      have hu := h unitId hunit
      split
      · simp only
        split
        · exact attends_steer hu ..
        · exact .refl
      · exact attends_steer hu ..
  all_goals
    unfold detourForkDone
    split
    · simp only
      split <;> exact .refl
    · exact .refl

end Walk

end Workflow
