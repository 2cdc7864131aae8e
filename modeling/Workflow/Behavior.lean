import Workflow.Failure
import Workflow.Scope

/-!
# Units and what they do

A unit is a step of a flow, written by a user of the library. One execution of it makes up to three
calls, before, during and after its work, and one more when one of them fails. A call may do
anything that `Behavior` lists, in any order and depending on everything it has read, and it ends: a
behaviour is a tree without infinite paths. All that it can wait for is time to pass and the end of
a flow that it runs itself.

A behaviour is data, so a statement about all behaviours is a statement about all units. Signals to
the engine have constructors of their own; a unit that writes a signal's key by hand does it through
`access` like any other change of the scope.
-/

namespace Workflow

/-- How a run ended. -/
inductive Status where
  /-- The walk reached the end of the plan and nothing failed. -/
  | completed
  /-- A unit asked to stop and nothing failed. -/
  | stopped
  /-- Something failed, or the run could not start. -/
  | failed
  deriving Repr, DecidableEq

def Status.text : Status → String
  | .completed => "Completed"
  | .stopped => "Stopped"
  | .failed => "Failed"

def Status.isSuccess (status : Status) : Bool := status ≠ .failed

/-- What a caller hands to every unit of a run. -/
structure Context where
  requestId : Option Nat := none
  /-- Whether a walk goes on after a failure. -/
  tolerant : Bool := false
  /-- The texts that the caller shares with the units, if it shares any. -/
  payload : Option (List String) := none
  deriving Repr, DecidableEq

/-- What a call of a unit knows about its run from the start. -/
structure UnitView where
  unitId : String
  requestId : Option Nat
  tolerant : Bool
  deriving Repr, DecidableEq

structure PoolView where
  size : Nat
  available : Nat
  inFlight : Nat
  closed : Bool
  deriving Repr, DecidableEq

/-- What a unit learns of a flow that it ran. -/
structure RunSummary where
  status : Status
  /-- The names of the units that were executed, in order. -/
  executed : List String
  deriving Repr, DecidableEq

/-- A unit whose calls are of a given kind. -/
structure UnitWith (Call : Type) where
  name : String
  /-- What listeners select units by. -/
  kind : String
  /-- Whether a walk goes on after this unit has failed. -/
  tolerant : Bool
  beforeRun : UnitView → Call
  run : UnitView → Call
  afterRun : UnitView → Call
  onError : UnitView → Failure → Call

/-- What one call of a unit does. -/
inductive Behavior where
  | done
  | fail (cause : Cause)
  /-- Ends the call with a panic, whose payload may be no text. -/
  | panic (payload : Option String)
  /-- Changes the scope and goes on according to what it held before. -/
  | access (change : Scope → Scope) (next : Scope → Behavior)
  /-- Asks the walk to go on at a label or a unit, or to stop. -/
  | signalRoute (target : String) (next : Behavior)
  /-- Asks for units to be forked right after this one. -/
  | signalFork (entries : List String) (next : Behavior)
  | note (text : String) (next : Behavior)
  | sleep (milliseconds : Nat) (next : Behavior)
  /-- Changes the payload of the context and goes on according to what it was before. -/
  | payload (change : List String → List String) (next : Option (List String) → Behavior)
  | viewPool (next : PoolView → Behavior)
  /-- Closes the pool and learns whether no branch is in flight. -/
  | closePool (next : Bool → Behavior)
  | addUnit (unitId : String) (unit : UnitWith Behavior) (next : Behavior)
  | addFlow (flowId expression : String) (next : Behavior)
  | eraseUnit (unitId : String) (next : Behavior)
  /-- Runs a flow on the same executor and waits for its end. -/
  | runFlow (flowId : String) (next : RunSummary → Behavior)

/-- A unit as the registry holds it. -/
abbrev FlowUnit := UnitWith Behavior

/-- What is said about a unit that panicked. -/
def panicCause (payload : Option String) : Cause :=
  ⟨"unit panicked: " ++ payload.getD "non-string panic payload", []⟩

end Workflow
