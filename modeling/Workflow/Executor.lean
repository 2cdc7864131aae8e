import Workflow.Process

/-!
# Executors

An executor drives runs on one engine, any number of them side by side. A caller asks for a flow, a
plan or a single unit to be run; a run that cannot start ends at once as failed.

`Executor.step`, `Executor.wait`, `Executor.beginShutdown` and `Executor.settleShutdown` are all the
ways in which an executor moves. A shutdown closes the pool at once. It is over as soon as no branch
is in flight; when the grace period ends before that, the branches that are left are given up.
-/

namespace Workflow

inductive Request where
  | flow (flowId : String)
  | plan (plan : Plan)
  | unit (unitId : String)

/-- A run on its way. -/
structure Run where
  state : RunState
  root : Process

structure Outcome where
  status : Status
  failure : Option Failure
  executed : List String
  scopeId : Nat
  scope : Scope
  context : Context

namespace Outcome

def ofFailure (failure : Failure) (scopeId : Nat) (context : Context) : Outcome :=
  ⟨.failed, some failure, [], scopeId, ∅, context⟩

end Outcome

/-- The outcome of a run whose walk has come to its end. -/
def Run.result? (r : Run) : Option Outcome :=
  if r.root.isFinished then
    some ⟨r.root.status, r.root.walk.failure, r.state.unitNames, r.state.scopeId,
      r.state.scope, r.state.context⟩
  else none

/-- How far a shutdown has come. -/
inductive Shutdown where
  | notBegun
  /-- Branches in flight may end until the deadline. -/
  | draining (deadline : Nat)
  /-- No branch is in flight; `drained` tells whether all of them ended by themselves. -/
  | over (drained : Bool)
  deriving Repr, DecidableEq

/-- An engine and the runs on it. -/
structure Executor where
  engine : Engine
  runs : List Run := []
  shutdown : Shutdown := .notBegun

def Engine.openRun (e : Engine) : Request → Except Failure Process × Engine
  | .flow flowId => e.openFlow flowId
  | .plan plan => e.openPlan plan
  | .unit unitId => e.openUnit unitId

namespace Executor

/-! ## Building -/

/-- An executor with the given settings. It is not built when they switch it off. -/
def build (config : Config) (registry : Registry) (listeners : Listeners) :
    Except Failure Executor :=
  if config.enabled then .ok { engine := .start config registry listeners } else .error .disabled

/-- An executor from parts of which the registry is required. -/
def assemble (registry : Option Registry) (config : Option Config) (listeners : Listeners) :
    Except Failure Executor :=
  match registry with
  | none => .error (.misconfigured "registry" .noRegistry)
  | some registry => build (config.getD {}) registry listeners

/-! ## Moves -/

/-- Asks for a run in a scope of its own. The answer is the outcome of a run that cannot start. -/
def launch (x : Executor) (request : Request) (context : Context) : Option Outcome × Executor :=
  let (scopeId, engine) := x.engine.takeScope
  match engine.openRun request with
  -- the scope id is used up all the same
  | (.error failure, engine) =>
    (some (.ofFailure failure scopeId context), { x with engine := engine })
  | (.ok root, engine) =>
    (none, { x with
      engine := engine
      runs := x.runs ++ [⟨{ context := context, scopeId := scopeId }, root⟩] })

/-- Lets a task of one of the runs do one thing. -/
def stepRuns (who : Nat) (engine : Engine) : List Run → Option (List Run × Engine)
  | [] => none
  | run :: rest =>
    match run.root.step who run.root.serial run.state engine with
    | some (root, state, engine) => some (⟨state, root⟩ :: rest, engine)
    | none => (stepRuns who engine rest).map fun (rest, engine) => (run :: rest, engine)

/-- Lets a task do one thing, if it need not wait. -/
def step (x : Executor) (who : Nat) : Option Executor :=
  (stepRuns who x.engine x.runs).map fun (runs, engine) =>
    { x with runs := runs, engine := engine }

def wait (x : Executor) (milliseconds : Nat) : Executor :=
  { x with engine := { x.engine with clock := x.engine.clock + milliseconds } }

/-- Closes the pool and begins to wait for its tasks. -/
def beginShutdown (x : Executor) : Executor :=
  { x with
    engine := { x.engine with pool := x.engine.pool.close }
    shutdown := .draining (x.engine.clock + x.engine.config.grace) }

def cancelTasks (x : Executor) : Executor :=
  { x with
    engine := { x.engine with pool := x.engine.pool.cancel }
    runs := x.runs.map fun run => { run with root := run.root.cancelTasks } }

/-- Whether a shutdown is going on that need not wait any longer. -/
def canSettle (x : Executor) : Bool :=
  match x.shutdown with
  | .draining deadline => x.engine.pool.inFlight = 0 || deadline ≤ x.engine.clock
  | .notBegun | .over _ => false

/-- Ends a shutdown that need not wait any longer. -/
def settleShutdown (x : Executor) : Executor :=
  match x.shutdown with
  | .draining deadline =>
    -- that nothing is in flight counts for more than that the deadline has passed
    if x.engine.pool.inFlight = 0 then { x with shutdown := .over true }
    else if deadline ≤ x.engine.clock then { x.cancelTasks with shutdown := .over false }
    else x
  | .notBegun | .over _ => x

/-! ## Observations -/

def ready (x : Executor) : List Nat :=
  x.runs.flatMap fun run => run.root.ready x.engine run.root.serial

/-- The times at which something that waits now will go on by itself. -/
def alarms (x : Executor) : List Nat :=
  (x.runs.flatMap fun run => run.root.alarms) ++
    match x.shutdown with
    | .draining deadline => [deadline]
    | .notBegun | .over _ => []

end Executor

end Workflow
