import Mathlib.Logic.Hydra
import Mathlib.Order.WellFounded
import Workflow.Process

/-!
# Runs that come to an end

The steps of a walk can be counted beforehand, those of its units cannot: a behaviour branches over
everything that it may read, so that its paths are finite but of no bounded length. `Behavior.Next`
is the order in which a behaviour is worked off, and it is well-founded.

`Process.calls` collects the behaviours that are being worked off in a process. A step of a unit
replaces one of them by a later one, which is a descent of multisets. `Descends` puts a number of
steps above that: with every step either the number falls, or it stays and the calls descend.
-/

namespace Workflow

/-- The first behaviour is what may come next after the second. -/
inductive Behavior.Next : Behavior → Behavior → Prop where
  | access (change : Scope → Scope) (next : Scope → Behavior) (s : Scope) :
    Next (next s) (.access change next)
  | signalRoute (target : String) (next : Behavior) : Next next (.signalRoute target next)
  | signalFork (entries : List String) (next : Behavior) : Next next (.signalFork entries next)
  | note (text : String) (next : Behavior) : Next next (.note text next)
  | sleep (milliseconds : Nat) (next : Behavior) : Next next (.sleep milliseconds next)
  | payload (change : List String → List String) (next : Option (List String) → Behavior)
    (payload : Option (List String)) : Next (next payload) (.payload change next)
  | viewPool (next : PoolView → Behavior) (view : PoolView) : Next (next view) (.viewPool next)
  | addUnit (unitId : String) (unit : UnitWith Behavior) (next : Behavior) :
    Next next (.addUnit unitId unit next)
  | addFlow (flowId expression : String) (next : Behavior) :
    Next next (.addFlow flowId expression next)
  | eraseUnit (unitId : String) (next : Behavior) : Next next (.eraseUnit unitId next)

theorem Behavior.acc_next (b : Behavior) : Acc Behavior.Next b := by
  cases b with
  | done | fail | panic | closePool | runFlow => exact ⟨_, fun _ h => by cases h⟩
  | access _ next | payload _ next | viewPool next =>
    refine ⟨_, fun _ h => ?_⟩
    cases h
    exact Behavior.acc_next (next _)
  | signalRoute _ next | signalFork _ next | note _ next | sleep _ next | addUnit _ _ next
  | addFlow _ _ next | eraseUnit _ next =>
    refine ⟨_, fun _ h => ?_⟩
    cases h
    exact Behavior.acc_next next

/-- What is left of a call, and whether the unit sleeps before that. -/
abbrev Behavior.Rest := Behavior × Bool

/-- A call has been worked off further. To wake up is a step, too. -/
def Behavior.Later : Behavior.Rest → Behavior.Rest → Prop := Prod.Lex Behavior.Next (· < ·)

theorem Behavior.wellFounded_later : WellFounded Behavior.Later :=
  WellFounded.prod_lex ⟨Behavior.acc_next⟩ wellFounded_lt

mutual

/-- What is left of the calls in a process. -/
def Process.calls : Process → Multiset Behavior.Rest
  | .mk _ _ activity => activity.calls

/-- What is left of the calls in what a walk is busy with. Flows that units run do not count. -/
def Activity.calls : Activity → Multiset Behavior.Rest
  | .working _ rest => {(rest, false)}
  | .asleep _ _ rest => {(rest, true)}
  | .forking _ _ _ children _ => Child.callsIn children
  | .poised _ | .queued .. | .calling .. | .inPlace .. => 0

def Child.callsIn : List Child → Multiset Behavior.Rest
  | [] => 0
  | child :: rest => child.calls + Child.callsIn rest

def Child.calls : Child → Multiset Behavior.Rest
  | .running _ process => process.calls
  | .refused _ | .ended .. | .cancelled _ => 0

end

/-- A number of steps and the calls of units on the way down. -/
def Descends : Nat × Multiset Behavior.Rest → Nat × Multiset Behavior.Rest → Prop :=
  Prod.Lex (· < ·) (Relation.CutExpand Behavior.Later)

theorem wellFounded_descends : WellFounded Descends :=
  wellFounded_lt.prod_lex Behavior.wellFounded_later.cutExpand

namespace Descends

variable {m n : Nat} {calls calls' : Multiset Behavior.Rest}

/-- Calls elsewhere in the process do not matter. -/
theorem add_left (h : Descends (m, calls') (n, calls)) (others : Multiset Behavior.Rest) :
    Descends (m, others + calls') (n, others + calls) := by
  cases h with
  | left _ _ hlt => exact .left _ _ hlt
  | right _ hcut => exact .right _ ((Relation.cutExpand_add_left others).mpr hcut)

theorem add_right (h : Descends (m, calls') (n, calls)) (others : Multiset Behavior.Rest) :
    Descends (m, calls' + others) (n, calls + others) := by
  rw [add_comm calls', add_comm calls]
  exact h.add_left others

/-- Steps elsewhere in the process do not matter. -/
theorem of_part (h : Descends (m, calls') (n, calls)) {all : Nat} (hle : n ≤ all) :
    Descends (all - n + m, calls') (all, calls) := by
  cases h with
  | left _ _ hlt =>
    have hlt : m < n := hlt
    exact .left _ _ (by omega)
  | right _ hcut =>
    rw [Nat.sub_add_cancel hle]
    exact .right _ hcut

end Descends

end Workflow
