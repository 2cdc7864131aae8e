import Workflow.Node.Display
import Workflow.Schedule
import Workflow.Script

/-!
# Sessions

A session is one executor over one registry and a sequence of commands to them, each with an answer.
The results of runs are kept and numbered from 0 in order; a later command may look into a kept
result, take its failure out or drop it.

Scope ids are shown relative to the first run that the session answered. The trace of a run holds
the remarks made since the last run was answered.
-/

namespace Workflow

/-! ## Commands -/

inductive ContextKind where
  | plain
  | payload
  /-- Without anything that could be set. -/
  | bare
  deriving Repr, DecidableEq

/-- The context of a run as a command describes it. -/
structure ContextSpec where
  kind : ContextKind := .plain
  tolerant : Bool := false
  requestId : Option Nat := none
  payload : List String := []
  deriving Repr, DecidableEq

/-- The context that a flow is run with. -/
def ContextSpec.context (c : ContextSpec) : Context :=
  match c.kind with
  | .plain => ⟨c.requestId, c.tolerant, none⟩
  | .payload => ⟨c.requestId, c.tolerant, some c.payload⟩
  | .bare => {}

/-- The context that a plan or a unit is run with: its payload is out of reach. -/
def ContextSpec.wrapped (c : ContextSpec) : Context := { c.context with payload := none }

inductive RunTarget where
  | flow (flowId : String)
  | unit (unitId : String)
  | expression (text : String)
  | node (node : Node)

inductive Command where
  | run (target : RunTarget) (context : ContextSpec) (shutdownAfter : Option Nat)
  | shutdown
  | pool
  | config
  | addFlow (flowId expression : String)
  | addUnit (unit : ScriptedUnit)
  | eraseFlow (flowId : String)
  | eraseUnit (unitId : String)
  | lookUpFlow (flowId : String)
  | lookUpUnit (unitId : String)
  | registry
  | clearRegistry
  | compile (expression : String)
  | plans (expression : Option String)
  | clearPlans
  | listen (listener : ScriptedListener)
  | listeners
  | clearListeners
  | scope (result : Nat) (actions : List ScopeAction)
  | takeFailure (result : Nat)
  | drop (result : Nat)
  | live
  | debug (result : Option Nat)

/-! ## Answers -/

/-- The remarks of a run: in the order in which they were made, or those made outside any branch
task and those of each branch task apart. -/
inductive Trace where
  | inOrder (remarks : List String)
  | byTask (main : List String) (tasks : List (List String))
  deriving Repr, DecidableEq

structure RunReport where
  status : Status
  failure : Option Failure
  executed : List String
  scope : Scope
  /-- The rank of the run's scope among those since the first answered run. -/
  scopeRank : Int
  requestId : Option Nat
  trace : Trace
  payload : Option (List String)
  /-- Whether the branches ended by themselves, if a shutdown was part of the command. -/
  drained : Option Bool

inductive Answer where
  | nothing
  | report (report : RunReport)
  | failure (failure : Failure)
  | refusal (error : Expression.Refusal)
  | drained (drained : Bool)
  | pool (view : PoolView)
  | config (config : Config)
  | previous (text : Option String)
  | removed (text : Option String)
  | flow (expression : Option String)
  | unit (unit : Option FlowUnit)
  | registry (flows units : List String)
  | compiled (text : String) (cachedBefore : Bool) (samePlan : Option Bool) (cached : Nat)
  | plans (cached : Nat) (has : Option Bool)
  | number (n : Nat)
  | listeners (n : Nat)
  | scope (replies : List Reply) (scope : Scope)
  | debug (registry listeners : String) (run : Option String)

/-! ## The state of a session -/

/-- How the executor of a session is made. -/
inductive Assembly where
  | parts
  | withoutRegistry
  | settings
  | registryAlone
  deriving Repr, DecidableEq

/-- An executor, the kept results, and the scope id that others are shown relative to. -/
structure Session where
  order : Order
  executor : Executor
  /-- The results in order; those dropped are missing. -/
  results : List (Option Outcome) := []
  firstScope : Option Nat := none

structure Setup where
  assembly : Assembly := .parts
  settings : Option (List Config.Setting) := none
  order : Order := .asHappened
  units : List ScriptedUnit := []
  flows : List (String × String) := []
  listeners : List ScriptedListener := []

namespace Setup

/-- The registry with the units and the flows, registered in order. -/
def registry (s : Setup) : Registry :=
  let withUnits := s.units.foldl
    (fun r unit => r.addUnit unit.registeredId (unit.toUnit s.order)) ({} : Registry)
  s.flows.foldl (fun r flow => r.addFlow flow.1 flow.2) withUnits

def config (s : Setup) : Option Config :=
  s.settings.map fun settings => settings.foldl Config.set {}

/-- The session, or why its executor cannot be made. -/
def start (s : Setup) : Except Failure Session :=
  let executor : Except Failure Executor :=
    match s.assembly with
    | .parts =>
      Executor.assemble (some s.registry) s.config (s.listeners.foldl Listeners.registerScripted {})
    | .withoutRegistry => Executor.assemble none s.config {}
    | .settings => Executor.build (s.config.getD {}) s.registry {}
    | .registryAlone => Executor.build {} s.registry {}
  executor.map fun executor => { order := s.order, executor := executor }

end Setup

namespace Outcome

/-- A result with the names of all its parts. -/
def debug (r : Outcome) : String :=
  debugRecord "RunResult" [("status", r.status.text),
    ("error", debugOption (r.failure.map Failure.debug)), ("executed", debugTexts r.executed),
    ("scope_id", "N"), ("request_id", debugOption (r.context.requestId.map toString))]

end Outcome

def Registry.debug (r : Registry) : String :=
  debugRecord "InMemoryRegistry" [("flows", debugTexts r.flowIds), ("units", debugTexts r.unitIds)]

def Listeners.debug (l : Listeners) : String :=
  debugRecord "Listeners" [("registered", toString l.size)]

/-- A scope as it is shown: completed branches are sorted where their order is the scheduler's. -/
def Scope.shown (order : Order) (s : Scope) : Scope :=
  match s.get? Scope.completedSlot with
  | some (.texts entries) => s.insert Scope.completedSlot (.texts (order.arrange entries))
  | _ => s

/-- The remarks of a journal, in order, with their tasks. -/
def remarksOf (journal : List JournalEntry) : List (Nat × String) :=
  journal.filterMap fun entry =>
    match entry.occurrence with
    | .remark text => some (entry.task, text)
    | _ => none

/-- The trace of a run whose root is the given task. -/
def Trace.ofJournal (order : Order) (root : Nat) (journal : List JournalEntry) : Trace :=
  let remarks := remarksOf journal
  match order with
  | .asHappened => .inOrder (remarks.map Prod.snd)
  | .byTask =>
    let of (task : Nat) : List String :=
      (remarks.filter fun remark => remark.1 = task).map Prod.snd
    let tasks := ((remarks.map Prod.fst).filter (· ≠ root)).eraseDups
    .byTask (of root) ((tasks.map of).mergeSort fun a b => !(decide (b < a)))

namespace Session

def mapEngine (s : Session) (f : Engine → Engine) : Session :=
  { s with executor := { s.executor with engine := f s.executor.engine } }

def mapRegistry (s : Session) (f : Registry → Registry) : Session :=
  s.mapEngine fun e => { e with registry := f e.registry }

def mapListeners (s : Session) (f : Listeners → Listeners) : Session :=
  s.mapEngine fun e => { e with listeners := f e.listeners }

def registry (s : Session) : Registry := s.executor.engine.registry

def result? (s : Session) (n : Nat) : Option Outcome := (s.results[n]?).join

def run (s : Session) (request : Request) (context : Context) (shutdownAfter : Option Nat) :
    Answer × Session :=
  let root := s.executor.engine.nextSerial
  let (result, executor) := s.executor.perform request context shutdownAfter
  let s := { s with executor := executor }
  match result with
  | none => (.nothing, s)
  | some result =>
    -- scope ids differ between executors, so they are counted from the first one shown
    let first := s.firstScope.getD result.scopeId
    let report : RunReport :=
      { status := result.status
        failure := result.failure
        executed := s.order.arrange result.executed
        scope := result.scope.shown s.order
        scopeRank := (result.scopeId : Int) - first + 1
        requestId := result.context.requestId
        trace := .ofJournal s.order root executor.engine.journal.toList
        payload := result.context.payload.map s.order.arrange
        drained := shutdownAfter.map fun _ => executor.shutdown = .over true }
    let s := { s with results := s.results ++ [some result], firstScope := some first }
    (.report report, s.mapEngine fun e => { e with journal := #[] })

/-- Performs a command. There is no answer when a node is to be run that has no plan. -/
def perform (s : Session) : Command → Option (Answer × Session)
  | .run (.flow flowId) context shutdownAfter =>
    some (s.run (.flow flowId) context.context shutdownAfter)
  | .run (.unit unitId) context shutdownAfter =>
    some (s.run (.unit unitId) context.wrapped shutdownAfter)
  | .run (.expression text) context shutdownAfter =>
    match s.executor.engine.compile text with
    | (.error error, _) => some (.failure (.refused error), s)
    | (.ok cached, engine) =>
      some ((s.mapEngine fun _ => engine).run (.plan cached.plan) context.wrapped shutdownAfter)
  | .run (.node node) context shutdownAfter =>
    node.compile?.map fun plan => s.run (.plan plan) context.wrapped shutdownAfter
  | .shutdown =>
    let (drained, executor) := s.executor.close
    some (.drained drained, { s with executor := executor })
  | .pool => some (.pool s.executor.engine.pool.view, s)
  | .config => some (.config s.executor.engine.config, s)
  | .addFlow flowId expression =>
    some (.previous (s.registry.flow? flowId), s.mapRegistry (·.addFlow flowId expression))
  | .addUnit unit =>
    some (.previous ((s.registry.unit? unit.registeredId).map UnitWith.name),
      s.mapRegistry (·.addUnit unit.registeredId (unit.toUnit s.order)))
  | .eraseFlow flowId =>
    some (.removed (s.registry.flow? flowId), s.mapRegistry (·.eraseFlow flowId))
  | .eraseUnit unitId =>
    some (.removed ((s.registry.unit? unitId).map UnitWith.name),
      s.mapRegistry (·.eraseUnit unitId))
  | .lookUpFlow flowId => some (.flow (s.registry.flow? flowId), s)
  | .lookUpUnit unitId => some (.unit (s.registry.unit? unitId), s)
  | .registry => some (.registry s.registry.flowIds s.registry.unitIds, s)
  | .clearRegistry => some (.nothing, s.mapRegistry fun _ => {})
  | .compile expression =>
    -- whether the plan was kept before, and whether it is the very same one
    let before := s.executor.engine.plans.get? expression
    match s.executor.engine.compile expression with
    | (.error error, _) => some (.refusal error, s)
    | (.ok cached, engine) =>
      some (.compiled cached.plan.display before.isSome
        (before.map fun kept => kept.stamp = cached.stamp) engine.plans.size,
        s.mapEngine fun _ => engine)
  | .plans expression =>
    let plans := s.executor.engine.plans
    some (.plans plans.size (expression.map fun text => (plans.get? text).isSome), s)
  | .clearPlans => some (.nothing, s.mapEngine fun e => { e with plans := e.plans.clear })
  | .listen listener =>
    let s := s.mapListeners (·.registerScripted listener)
    some (.number s.executor.engine.listeners.size, s)
  | .listeners => some (.listeners s.executor.engine.listeners.size, s)
  | .clearListeners => some (.nothing, s.mapListeners Listeners.clear)
  | .scope n actions =>
    match s.result? n with
    | none => some (.nothing, s)
    | some result =>
      let (replies, scope) := ScopeAction.performAll s.order actions result.scope
      some (.scope replies (scope.shown s.order),
        { s with results := s.results.set n (some { result with scope := scope }) })
  | .takeFailure n =>
    let answer := match (s.result? n).bind Outcome.failure with
      | some failure => Answer.failure failure
      | none => .nothing
    some (answer, { s with results := s.results.set n none })
  | .drop n => some (.nothing, { s with results := s.results.set n none })
  | .live => some (.number (s.results.countP Option.isSome), s)
  | .debug n =>
    some (.debug s.registry.debug s.executor.engine.listeners.debug
      ((n.bind s.result?).map Outcome.debug), s)

/-- Performs commands in order. There are no answers when one of them has none. -/
def performAll (s : Session) : List Command → Option (List Answer)
  | [] => some []
  | command :: rest => do
    let (answer, s) ← s.perform command
    let answers ← s.performAll rest
    some (answer :: answers)

end Session

end Workflow
