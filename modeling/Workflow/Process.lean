import Workflow.Engine
import Workflow.Walk

/-!
# Processes

A process is a walk and what it is busy with. While the walk waits for something that it started,
that something is part of the process: the unit being executed, the flow which that unit runs, the
branch run in the walk's place, or the branches running at the same time. So a run is a tree, a walk
never outlives the walk that started it, and what a walk waits for is what stands below it.

A process is also the unit of scheduling: the root of a run and every branch started by a fork of
two or more is a *task*, known by the serial number of its walk. Branches run in place and flows run
by a unit belong to the task around them. `Process.step who` lets the task `who` do one thing, and
does nothing when that task has to wait; `Process.ready` lists the tasks that need not wait. Nothing
here chooses between tasks, so that every order of steps is a schedule.

`Stage` follows the life of a unit: `before`, `run` and `after` while all goes well, `onError` from
the first failure on. With the stage goes the permit: a unit of a pooled walk holds one in every
stage.
-/

namespace Workflow

/-- The call of a unit that is being made. -/
inductive Stage where
  | before
  | run
  | after
  | onError (failure : Failure)
  deriving Repr, DecidableEq

structure Job where
  unitId : String
  unit : FlowUnit
  resume : Resume
  stage : Stage

mutual

/-- A walk and what it is busy with. -/
inductive Process where
  | mk (serial : Nat) (walk : Walk) (activity : Activity)

/-- What a walk is busy with. -/
inductive Activity where
  /-- It knows what to do next. -/
  | poised (next : Intent)
  | queued (unitId : String) (unit : FlowUnit) (resume : Resume)
  | working (job : Job) (rest : Behavior)
  | asleep (job : Job) (wakeAt : Nat) (rest : Behavior)
  | calling (job : Job) (run : RunState) (root : Process) (next : RunSummary → Behavior)
  /-- A single branch runs in its place. -/
  | inPlace (anchor entry : String) (resume : Resume) (branch : Process)
  /-- Branches run at the same time: those to be started, those started or refused in declared
  order, and the entries of those that ended without a failure in the order of their ends. -/
  | forking (anchor : String) (resume : Resume) (toStart : List (Branch Plan))
      (children : List Child) (completed : List String)

/-- A branch of a fork of two or more. -/
inductive Child where
  /-- The pool was closed. -/
  | refused (entry : String)
  | running (entry : String) (process : Process)
  | ended (entry : String) (failure : Option Failure)
  /-- It was given up by a shutdown. -/
  | cancelled (entry : String)

end

/-- What a step of a process works on besides the tree below it. -/
structure Scene where
  walk : Walk
  activity : Activity
  run : RunState
  engine : Engine

namespace Child

def entry : Child → String
  | .refused entry | .running entry _ | .ended entry _ | .cancelled entry => entry

def isOver : Child → Bool
  | .running .. => false
  | .refused _ | .ended .. | .cancelled _ => true

def failure? : Child → Option Failure
  | .refused _ => some (.interrupted .poolClosed)
  | .running .. => none
  | .ended _ failure => failure
  | .cancelled entry => some (.interrupted (.branchCancelled entry))

end Child

namespace Process

def serial : Process → Nat
  | .mk serial _ _ => serial

def walk : Process → Walk
  | .mk _ walk _ => walk

/-- A process at the start of a plan. -/
def ofPlan (serial : Nat) (plan : Plan) (pooled : Bool) : Process :=
  .mk serial { plan := plan, pooled := pooled } (.poised .advance)

/-- A process that executes one unit and nothing else. -/
def ofUnit (serial : Nat) (unitId : String) : Process :=
  .mk serial { plan := .ofUnit unitId, pooled := false } (.poised (.execute unitId .alone))

def isFinished : Process → Bool
  | .mk _ _ (.poised .finish) => true
  | _ => false

/-- How a run ended, seen from its finished walk. -/
def status (p : Process) : Status :=
  if p.walk.failure.isSome then .failed else if p.walk.stopped then .stopped else .completed

end Process

/-! ## Opening runs -/

namespace Engine

/-- Starts a plan as a run, unless the executor has been shut down. -/
def openPlan (e : Engine) (plan : Plan) : Except Failure Process × Engine :=
  if e.isClosed then (.error (.interrupted .executorClosed), e)
  else
    let (serial, e) := e.takeSerial
    (.ok (.ofPlan serial plan false), e)

/-- Starts a unit as a run, unless the executor has been shut down. -/
def openUnit (e : Engine) (unitId : String) : Except Failure Process × Engine :=
  if e.isClosed then (.error (.interrupted .executorClosed), e)
  else
    let (serial, e) := e.takeSerial
    (.ok (.ofUnit serial unitId), e)

def openFlow (e : Engine) (flowId : String) : Except Failure Process × Engine :=
  match e.registry.flow? flowId with
  | none => (.error (.unknownFlow flowId), e)
  | some expression =>
    match e.compile expression with
    | (.error error, e) => (.error (.refused error), e)
    | (.ok cached, e) => e.openPlan cached.plan

end Engine

/-! ## Steps of a walk -/

namespace Scene

def turn (s : Scene) (t : Turn) : Scene :=
  { s with walk := t.walk, activity := .poised t.next, run := { s.run with scope := t.scope } }

def record (s : Scene) (task serial : Nat) (occurrence : Occurrence) : Scene :=
  { s with engine := s.engine.record task serial occurrence }

def unitEnded (s : Scene) (task serial : Nat) (unitId : String) (resume : Resume)
    (result : Option Mishap) : Scene :=
  (s.record task serial (.unitEnded unitId (result.map Mishap.failure))).turn
    (s.walk.unitDone s.run.scope s.run.hasRun s.run.context.tolerant unitId resume result)

def joined (s : Scene) (task serial : Nat) (anchor : String) (resume : Resume)
    (result : Option Failure) : Scene :=
  (s.record task serial (.joined anchor result)).turn
    (s.walk.forkDone s.run.scope s.run.hasRun s.run.context.tolerant resume result)

/-- Begins the first call of a unit. -/
def beginUnit (s : Scene) (task serial : Nat) (unitId : String) (unit : FlowUnit)
    (resume : Resume) : Scene :=
  let job : Job := ⟨unitId, unit, resume, .before⟩
  -- an earlier execution of the unit may have left signals
  { s with
    activity := .working job (unit.beforeRun (s.run.view unitId))
    run := { s.run with scope := s.run.scope.dropSignals unitId } }.record task serial
      (.unitStarted unitId)

/-- Executes a unit: looks it up, and waits for a permit if the walk is pooled. -/
def execute (s : Scene) (task serial : Nat) (unitId : String) (resume : Resume) : Scene :=
  match s.engine.registry.unit? unitId with
  | none => s.unitEnded task serial unitId resume (some ⟨.unknownUnit unitId, false⟩)
  | some unit =>
    if s.walk.pooled then
      match s.engine.pool.take? with
      | some pool =>
        { s with engine := { s.engine with pool := pool } }.beginUnit task serial unitId unit resume
      | none =>
        { s with
          activity := .queued unitId unit resume
          engine := { s.engine with pool := s.engine.pool.enqueue serial } }
    else s.beginUnit task serial unitId unit resume

/-- Forks branches. -/
def fork (s : Scene) (task serial : Nat) (anchor : String) (branches : List (Branch Plan))
    (resume : Resume) : Scene :=
  let s := s.record task serial (.forked anchor (branches.map Branch.entry))
  match branches with
  -- nothing to wait for, and nothing to publish
  | [] => s.joined task serial anchor resume none
  -- no task of its own: the branch needs permits only if the walk around it does
  | [branch] =>
    let (own, engine) := s.engine.takeSerial
    { s with
      activity := .inPlace anchor branch.entry resume (.ofPlan own branch.plan s.walk.pooled)
      engine := engine }.record task serial (.branchStarted branch.entry own)
  -- they are started one by one, each in a step of its own
  | branches => { s with activity := .forking anchor resume branches [] [] }

/-- Starts the next branch of a fork as a task, unless the pool is closed. -/
def startBranch (s : Scene) (task serial : Nat) (anchor : String) (resume : Resume)
    (branch : Branch Plan) (toStart : List (Branch Plan)) (children : List Child)
    (completed : List String) : Scene :=
  match s.engine.pool.start? with
  | none =>
    { s with
      activity :=
        .forking anchor resume toStart (children ++ [.refused branch.entry]) completed }
  | some pool =>
    let (own, engine) := { s.engine with pool := pool }.takeSerial
    let child := Child.running branch.entry (.ofPlan own branch.plan true)
    { s with
      activity := .forking anchor resume toStart (children ++ [child]) completed
      engine := engine }.record task serial (.branchStarted branch.entry own)

/-- The failure of a fork whose branches are over: that of the first branch in declared order that
failed, wrapped. -/
def joinFailure? (anchor : String) (children : List Child) : Option Failure :=
  children.findSome? fun child =>
    child.failure?.map fun failure => .branchFailed anchor child.entry failure

/-- Joins branches that are over. Only without a failure are their entries published. -/
def join (s : Scene) (task serial : Nat) (anchor : String) (resume : Resume)
    (children : List Child) (completed : List String) : Scene :=
  match joinFailure? anchor children with
  | some failure => s.joined task serial anchor resume (some failure)
  | none =>
    { s with run := { s.run with scope := s.run.scope.publish completed } }.joined
      task serial anchor resume none

/-! ## Steps of a unit -/

def announce (s : Scene) (task serial : Nat) (job : Job) (moment : Moment)
    (failure : Option Failure) : Scene :=
  let event : Notice :=
    { moment := moment, unitId := job.unitId, kind := job.unit.kind,
      requestId := s.run.context.requestId,
      tolerant := s.run.context.tolerant, failure := failure }
  let reception := s.engine.listeners.announce event s.run.scope
  let engine := { s.engine with listeners := reception.listeners }
  { s with
    run := { s.run with scope := reception.scope }
    engine := reception.remarks.foldl (fun e text => e.record task serial (.remark text)) engine }

/-- Ends the execution of a unit: gives the permit back and tells the walk. -/
def endUnit (s : Scene) (task serial : Nat) (job : Job) (result : Option Mishap) : Scene :=
  let s :=
    if s.walk.pooled then
      { s with engine := { s.engine with pool := s.engine.pool.release } }
    else s
  s.unitEnded task serial job.unitId job.resume result

def call (s : Scene) (job : Job) (stage : Stage) (behavior : Behavior) : Scene :=
  { s with activity := .working { job with stage := stage } behavior }

def succeed (s : Scene) (task serial : Nat) (job : Job) : Scene :=
  match job.stage with
  | .before =>
    let s := s.announce task serial job .before none
    -- the unit counts as executed from here on, whatever becomes of its work
    let s := { s with
      run := { s.run with executed := s.run.executed ++ [(job.unitId, job.unit.name)] } }
    s.call job .run (job.unit.run (s.run.view job.unitId))
  | .run => s.call job .after (job.unit.afterRun (s.run.view job.unitId))
  | .after => (s.announce task serial job .after none).endUnit task serial job none
  | .onError failure =>
    (s.announce task serial job .error (some failure)).endUnit task serial job
      (some ⟨failure, job.unit.tolerant⟩)

def phase : Stage → Phase
  | .before => .beforeRun
  | .run => .run
  | .after => .afterRun
  | .onError _ => .run

/-- A call of the unit has failed. -/
def failCall (s : Scene) (task serial : Nat) (job : Job) (cause : Cause) : Scene :=
  match job.stage with
  -- the unit is told once; how it takes the news is ignored
  | .onError _ => s.succeed task serial job
  | stage =>
    let failure := Failure.unitFailed job.unitId (phase stage) cause
    s.call job (.onError failure) (job.unit.onError (s.run.view job.unitId) failure)

/-- Runs a flow for the unit. A flow that cannot start ends at once. -/
def runFlow (s : Scene) (job : Job) (flowId : String) (next : RunSummary → Behavior) : Scene :=
  let (scopeId, engine) := s.engine.takeScope
  match engine.openFlow flowId with
  | (.error _, engine) =>
    { s with activity := .working job (next ⟨.failed, []⟩), engine := engine }
  -- the inner run shares the engine and nothing else
  | (.ok root, engine) =>
    { s with activity := .calling job ⟨{}, scopeId, ∅, []⟩ root next, engine := engine }

def act (s : Scene) (task serial : Nat) (job : Job) (behavior : Behavior) : Scene :=
  let goOn (s : Scene) (rest : Behavior) : Scene := { s with activity := .working job rest }
  let setScope (s : Scene) (scope : Scope) : Scene :=
    { s with run := { s.run with scope := scope } }
  match behavior with
  | .done => s.succeed task serial job
  | .fail cause => s.failCall task serial job cause
  | .panic payload => s.failCall task serial job (panicCause payload)
  | .access change next => goOn (setScope s (change s.run.scope)) (next s.run.scope)
  | .signalRoute target rest => goOn (setScope s (s.run.scope.signalRoute job.unitId target)) rest
  | .signalFork entries rest => goOn (setScope s (s.run.scope.signalFork job.unitId entries)) rest
  | .note text rest => goOn (s.record task serial (.remark text)) rest
  | .sleep milliseconds rest =>
    { s with activity := .asleep job (s.engine.clock + milliseconds) rest }
  | .payload change next =>
    let context := { s.run.context with payload := s.run.context.payload.map change }
    goOn { s with run := { s.run with context := context } } (next s.run.context.payload)
  | .viewPool next => goOn s (next s.engine.pool.view)
  | .closePool next =>
    goOn { s with engine := { s.engine with pool := s.engine.pool.close } }
      (next (s.engine.pool.inFlight = 0))
  | .addUnit unitId unit rest =>
    goOn { s with engine := { s.engine with
      registry := s.engine.registry.addUnit unitId unit } } rest
  | .addFlow flowId expression rest =>
    goOn { s with engine := { s.engine with
      registry := s.engine.registry.addFlow flowId expression } } rest
  | .eraseUnit unitId rest =>
    goOn { s with engine := { s.engine with
      registry := s.engine.registry.eraseUnit unitId } } rest
  | .runFlow flowId next => s.runFlow job flowId next

/-! ## One step at one walk -/

/-- Does what comes next, if the walk need not wait for anything below it. -/
def stepHere (s : Scene) (task serial : Nat) : Option Scene :=
  match s.activity with
  | .poised .advance => some (s.turn (s.walk.advance s.run.scope s.run.hasRun))
  | .poised (.execute unitId resume) => some (s.execute task serial unitId resume)
  | .poised (.fork anchor branches resume) => some (s.fork task serial anchor branches resume)
  | .poised .finish => none
  | .queued unitId unit resume =>
    if s.engine.pool.isGranted serial then
      some ({ s with engine := { s.engine with
        pool := s.engine.pool.accept serial } }.beginUnit task serial unitId unit resume)
    else none
  | .working job behavior => some (s.act task serial job behavior)
  | .asleep job wakeAt rest =>
    if wakeAt ≤ s.engine.clock then some { s with activity := .working job rest } else none
  | .forking anchor resume (branch :: toStart) children completed =>
    some (s.startBranch task serial anchor resume branch toStart children completed)
  | .forking anchor resume [] children completed =>
    if children.all Child.isOver then some (s.join task serial anchor resume children completed)
    else none
  | .calling .. | .inPlace .. => none

/-- The flow that a unit runs has made a step; if it has ended, the unit goes on. -/
def stepCalled (s : Scene) (job : Job) (run : RunState) (root : Process)
    (next : RunSummary → Behavior) : Scene :=
  if root.isFinished then
    { s with activity := .working job (next ⟨root.status, run.unitNames⟩) }
  else { s with activity := .calling job run root next }

/-- The branch in the walk's place has made a step; if it has ended, the walk goes on. -/
def stepInPlace (s : Scene) (task serial : Nat) (anchor entry : String) (resume : Resume)
    (branch : Process) : Scene :=
  if branch.isFinished then
    match branch.walk.failure with
    | some failure =>
      s.joined task serial anchor resume (some (.branchFailed anchor entry failure))
    | none =>
      { s with run := { s.run with scope := s.run.scope.publish [entry] } }.joined
        task serial anchor resume none
  else { s with activity := .inPlace anchor entry resume branch }

end Scene

/-! ## One step of one task -/

mutual

/-- Lets a task do one thing, if it is in the process and need not wait. `task` is the task that the
process itself belongs to. -/
def Process.step (who task : Nat) (p : Process) (run : RunState) (engine : Engine) :
    Option (Process × RunState × Engine) :=
  match p with
  | .mk serial walk activity =>
    (activity.step who task serial walk run engine).map fun s =>
      (.mk serial s.walk s.activity, s.run, s.engine)

/-- Lets a task do one thing within what a walk is busy with. -/
def Activity.step (who task serial : Nat) (walk : Walk) (activity : Activity) (run : RunState)
    (engine : Engine) : Option Scene :=
  match activity with
  -- what runs below in the same task runs in place of the walk
  | .calling job inner root next =>
    (root.step who task inner engine).map fun (root, inner, engine) =>
      Scene.stepCalled ⟨walk, .calling job inner root next, run, engine⟩ job inner root next
  | .inPlace anchor entry resume branch =>
    (branch.step who task run engine).map fun (branch, run, engine) =>
      Scene.stepInPlace ⟨walk, .inPlace anchor entry resume branch, run, engine⟩ task serial
        anchor entry resume branch
  | .forking anchor resume toStart children completed =>
    -- the task of the walk starts the branches and joins them; other tasks are in the branches
    if who = task then
      Scene.stepHere ⟨walk, .forking anchor resume toStart children completed, run, engine⟩
        task serial
    else
      (Child.stepIn who children run engine).map fun (children, ended, run, engine) =>
        ⟨walk, .forking anchor resume toStart children (completed ++ ended), run, engine⟩
  | activity =>
    if who = task then Scene.stepHere ⟨walk, activity, run, engine⟩ task serial else none

/-- Lets a task do one thing within the branches of a fork. The second component lists the entry of
a branch that ended by it without a failure. -/
def Child.stepIn (who : Nat) (children : List Child) (run : RunState) (engine : Engine) :
    Option (List Child × List String × RunState × Engine) :=
  match children with
  | [] => none
  | child :: rest =>
    match child.step who run engine with
    | some (child, ended, run, engine) => some (child :: rest, ended, run, engine)
    | none =>
      (Child.stepIn who rest run engine).map fun (rest, ended, run, engine) =>
        (child :: rest, ended, run, engine)

def Child.step (who : Nat) (child : Child) (run : RunState) (engine : Engine) :
    Option (Child × List String × RunState × Engine) :=
  match child with
  | .running entry process =>
    (process.step who process.serial run engine).map fun (process, run, engine) =>
      if process.isFinished then
        -- the task is over, and the pool counts one less
        let failure := process.walk.failure
        (.ended entry failure, if failure.isNone then [entry] else [], run,
          { engine with pool := engine.pool.finish })
      else (.running entry process, [], run, engine)
  | .refused _ | .ended .. | .cancelled _ => none

end

/-! ## Waiting -/

mutual

/-- The tasks of a process that need not wait. -/
def Process.ready (engine : Engine) (task : Nat) : Process → List Nat
  | .mk serial _ activity => activity.ready engine task serial

def Activity.ready (engine : Engine) (task serial : Nat) : Activity → List Nat
  | .poised .finish => []
  | .poised _ | .working .. => [task]
  | .queued .. => if engine.pool.isGranted serial then [task] else []
  | .asleep _ wakeAt _ => if wakeAt ≤ engine.clock then [task] else []
  | .calling _ _ root _ => root.ready engine task
  | .inPlace _ _ _ branch => branch.ready engine task
  | .forking _ _ toStart children _ =>
    (if toStart ≠ [] ∨ children.all Child.isOver then [task] else []) ++
      Child.readyIn engine children

def Child.readyIn (engine : Engine) : List Child → List Nat
  | [] => []
  | child :: rest => child.ready engine ++ Child.readyIn engine rest

def Child.ready (engine : Engine) : Child → List Nat
  | .running _ process => process.ready engine process.serial
  | .refused _ | .ended .. | .cancelled _ => []

end

mutual

/-- The times that units of a process sleep until. -/
def Process.alarms : Process → List Nat
  | .mk _ _ activity => activity.alarms

def Activity.alarms : Activity → List Nat
  | .poised _ | .queued .. | .working .. => []
  | .asleep _ wakeAt _ => [wakeAt]
  | .calling _ _ root _ => root.alarms
  | .inPlace _ _ _ branch => branch.alarms
  | .forking _ _ _ children _ => Child.alarmsIn children

def Child.alarmsIn : List Child → List Nat
  | [] => []
  | child :: rest => child.alarms ++ Child.alarmsIn rest

def Child.alarms : Child → List Nat
  | .running _ process => process.alarms
  | .refused _ | .ended .. | .cancelled _ => []

end

/-! ## Giving up -/

/-- Gives a branch up, unless it is over. -/
def Child.cancel : Child → Child
  | .running entry _ => .cancelled entry
  | child => child

mutual

/-- Gives up all tasks started by a process. -/
def Process.cancelTasks : Process → Process
  | .mk serial walk activity => .mk serial walk activity.cancelTasks

def Activity.cancelTasks : Activity → Activity
  | .calling job run root next => .calling job run root.cancelTasks next
  | .inPlace anchor entry resume branch => .inPlace anchor entry resume branch.cancelTasks
  | .forking anchor resume toStart children completed =>
    .forking anchor resume toStart (children.map Child.cancel) completed
  | activity => activity

end

end Workflow
