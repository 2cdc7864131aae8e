import Workflow.Config
import Workflow.Listeners
import Workflow.Plan.Cache
import Workflow.Pool
import Workflow.Registry

/-!
# The engine

An engine is what all runs of one executor share: its registry, listeners, plans, pool and settings,
a clock, and the numbers given out so far. It also keeps the journal, in which everything that
happens is written down in order, with the task and the walk in which it happened.
-/

namespace Workflow

inductive Occurrence where
  | remark (text : String)
  /-- The first call of a unit begins. -/
  | unitStarted (unitId : String)
  /-- The last call of a unit has ended, or the unit could not start. -/
  | unitEnded (unitId : String) (failure : Option Failure)
  | forked (anchor : String) (entries : List String)
  /-- A branch of a fork has been started, as the walk with this serial number. -/
  | branchStarted (entry : String) (branch : Nat)
  | joined (anchor : String) (failure : Option Failure)
  deriving Repr, DecidableEq

structure JournalEntry where
  task : Nat
  walk : Nat
  occurrence : Occurrence
  deriving Repr, DecidableEq

/-- What all runs of an executor share. -/
structure Engine where
  registry : Registry := {}
  listeners : Listeners := {}
  plans : Plan.Cache := {}
  pool : Pool
  config : Config
  /-- Milliseconds since the engine was made. -/
  clock : Nat := 0
  /-- The serial number of the next walk. -/
  nextSerial : Nat := 0
  /-- The id of the next scope. -/
  nextScope : Nat := 1
  journal : Array JournalEntry := #[]

namespace Engine

def start (config : Config) (registry : Registry) (listeners : Listeners) : Engine :=
  { registry := registry, listeners := listeners, pool := .ofSize config.poolSize,
    config := config }

def record (e : Engine) (task walk : Nat) (occurrence : Occurrence) : Engine :=
  { e with journal := e.journal.push ⟨task, walk, occurrence⟩ }

def takeSerial (e : Engine) : Nat × Engine :=
  (e.nextSerial, { e with nextSerial := e.nextSerial + 1 })

def takeScope (e : Engine) : Nat × Engine :=
  (e.nextScope, { e with nextScope := e.nextScope + 1 })

/-- The plan of an expression, which the cache keeps. -/
def compile (e : Engine) (expression : String) :
    Except Expression.Refusal Plan.Cached × Engine :=
  let (result, plans) := e.plans.obtain expression
  (result, { e with plans := plans })

/-- Whether new runs are refused. -/
def isClosed (e : Engine) : Bool := e.pool.closed

end Engine

/-- The state of one run, shared by all its walks. -/
structure RunState where
  context : Context
  scopeId : Nat
  scope : Scope := ∅
  /-- The units whose first call succeeded, as id and name, in order. -/
  executed : List (String × String) := []

namespace RunState

def hasRun (r : RunState) (unitId : String) : Bool := r.executed.any fun entry => entry.1 = unitId

def unitNames (r : RunState) : List String := r.executed.map Prod.snd

/-- What a call of a unit knows of the run. -/
def view (r : RunState) (unitId : String) : UnitView :=
  ⟨unitId, r.context.requestId, r.context.tolerant⟩

end RunState

end Workflow
