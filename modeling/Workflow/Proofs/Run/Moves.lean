import Workflow.Process
import Workflow.Proofs.Around

/-!
# What one step can do

`Process.step` is a function that looks for the walk which moves and then works out what it does.
Here the result is taken apart once and for all. `Scene.Steps` has a rule for each thing that a walk
can do where it stands, with the guard under which it does it, and `Process.Moves` a rule for each
place in the tree where that can be. Invariants of processes are proved by induction on
`Process.Moves` and by cases on `Scene.Steps`; nobody else has to unfold the step function.

The joining of a branch that ran in place and that of branches which ran at the same time differ
only in where the result comes from (`Scene.close`).
-/

namespace Workflow

/-! ## What is below -/

/-- The processes of the branches that a walk waits for. -/
def Activity.Branches : Activity → Process → Prop
  | .inPlace _ _ _ branch, q => q = branch
  | .forking _ _ _ children _, q => ∃ entry, Child.running entry q ∈ children
  | .poised _, _ | .queued .., _ | .working .., _ | .asleep .., _ | .calling .., _ => False

/-- The processes that a walk waits for: its branches, or the flow that its unit runs. -/
def Activity.Runs : Activity → Process → Prop
  | .calling _ _ root _, q => q = root
  | activity, q => activity.Branches q

theorem Activity.Branches.runs {activity : Activity} {q : Process} (h : activity.Branches q) :
    activity.Runs q := by
  cases activity with
  | calling => exact h.elim
  | poised | queued | working | asleep | inPlace | forking => exact h

/-- The processes of which a process is made. -/
inductive Process.Has : Process → Process → Prop where
  | self (p : Process) : p.Has p
  | inside {serial : Nat} {walk : Walk} {activity : Activity} {q r : Process}
      (hruns : activity.Runs q) (h : q.Has r) : (Process.mk serial walk activity).Has r

namespace Child

variable {entry : String} {before after : List Child} {child' : Child} {branch branch' q : Process}

/-- Where a child has taken the place of another one, all other branches have been there before. -/
theorem running_of_replaced (h : ∃ entry, running entry q ∈ before ++ child' :: after) (child : Child) :
    (∃ entry, child' = running entry q) ∨ ∃ entry, running entry q ∈ before ++ child :: after := by
  obtain ⟨entry, hmem⟩ := h
  exact (mem_around.mp hmem).imp (fun heq => ⟨entry, heq⟩)
    fun hsibling => ⟨entry, mem_of_around hsibling child⟩

/-- A branch has moved. -/
theorem running_of_moved (h : ∃ other, running other q ∈ before ++ running entry branch' :: after)
    (branch : Process) :
    q = branch' ∨ ∃ other, running other q ∈ before ++ running entry branch :: after := by
  refine (running_of_replaced h (running entry branch)).imp_left ?_
  rintro ⟨_, heq⟩
  cases heq
  rfl

/-- A branch has ended. -/
theorem running_of_ended {failure : Option Failure}
    (h : ∃ other, running other q ∈ before ++ ended entry failure :: after) :
    ∃ other, running other q ∈ before ++ running entry branch :: after := by
  refine (running_of_replaced h (running entry branch)).resolve_left ?_
  rintro ⟨_, heq⟩
  cases heq

/-- One more branch has been started. -/
theorem running_of_started (h : ∃ other, running other q ∈ before ++ [running entry branch]) :
    q = branch ∨ ∃ other, running other q ∈ before := by
  obtain ⟨other, hmem⟩ := h
  rcases List.mem_append.mp hmem with hold | hnew
  · exact .inr ⟨other, hold⟩
  · cases List.mem_singleton.mp hnew
    exact .inl rfl

/-- One more branch has been refused. -/
theorem running_of_refused (h : ∃ other, running other q ∈ before ++ [refused entry]) :
    ∃ other, running other q ∈ before := by
  obtain ⟨other, hmem⟩ := h
  rcases List.mem_append.mp hmem with hold | hnew
  · exact ⟨other, hold⟩
  · cases List.mem_singleton.mp hnew

end Child

/-! ## Opening a flow -/

namespace Engine

variable {e e' : Engine} {flowId : String}

/-- A flow that cannot be opened leaves nothing behind but a plan in the cache. -/
theorem openFlow_error {failure : Failure} (h : e.openFlow flowId = (.error failure, e')) :
    ∃ plans, e' = { e with plans := plans } := by
  unfold openFlow at h
  split at h
  · cases h
    exact ⟨e.plans, rfl⟩
  · next expression _ =>
    have hcompile : (e.compile expression).2 =
        { e with plans := (e.plans.obtain expression).2 } := rfl
    split at h
    · next e1 heq =>
      cases h
      rw [heq] at hcompile
      exact ⟨_, hcompile⟩
    · next cached e1 heq =>
      rw [heq] at hcompile
      unfold openPlan at h
      split at h
      · cases h
        exact ⟨_, hcompile⟩
      · cases h

/-- A flow that can be opened is at its start, as a walk with a new number. -/
theorem openFlow_ok {root : Process} (h : e.openFlow flowId = (.ok root, e')) :
    ∃ plan plans, root = .ofPlan e.nextSerial plan false ∧
      e' = { e with plans := plans, nextSerial := e.nextSerial + 1 } := by
  unfold openFlow at h
  split at h
  · cases h
  · next expression _ =>
    have hcompile : (e.compile expression).2 =
        { e with plans := (e.plans.obtain expression).2 } := rfl
    split at h
    · cases h
    · next cached e1 heq =>
      rw [heq] at hcompile
      obtain rfl : e1 = _ := hcompile
      unfold openPlan at h
      split at h
      · cases h
      · cases h
        exact ⟨cached.plan, _, rfl, rfl⟩

end Engine

/-! ## Telling listeners -/

/-- What a walk remarks, as the journal has it. -/
def JournalEntry.remarks (task serial : Nat) (texts : List String) : List JournalEntry :=
  texts.map fun text => ⟨task, serial, .remark text⟩

/-- Remarks are written down one after another, and that is all. -/
theorem Engine.foldl_remark (e : Engine) (task serial : Nat) (texts : List String) :
    texts.foldl (fun e text => e.record task serial (.remark text)) e =
      { e with journal := e.journal ++ JournalEntry.remarks task serial texts } := by
  induction texts generalizing e with
  | nil => simp [JournalEntry.remarks]
  | cons text rest ih =>
    rw [List.foldl_cons, ih]
    simp [record, JournalEntry.remarks]

/-- Listeners that are told of a unit change the scope of the run and the listeners, and remark
something. -/
theorem Scene.announce_eq (s : Scene) (task serial : Nat) (job : Job) (moment : Moment)
    (failure : Option Failure) : ∃ event,
      let reception := s.engine.listeners.announce event s.run.scope
      s.announce task serial job moment failure = { s with
        run := { s.run with scope := reception.scope }
        engine := { s.engine with
          listeners := reception.listeners
          journal := s.engine.journal ++
            JournalEntry.remarks task serial reception.remarks } } := by
  unfold announce
  simp only [Engine.foldl_remark]
  exact ⟨_, rfl⟩

/-- A call fails, and this is what is said about it. -/
inductive Behavior.FailsWith : Behavior → Cause → Prop where
  | fail (cause : Cause) : FailsWith (.fail cause) cause
  | panic (payload : Option String) : FailsWith (.panic payload) (panicCause payload)

/-- A call comes to an end, in whatever way. -/
def Behavior.IsOver (behavior : Behavior) : Prop :=
  behavior = .done ∨ ∃ cause, behavior.FailsWith cause

/-! ## Joining -/

/-- Publishes what the branches of a group have completed, if none of them failed. -/
def RunState.publish (r : RunState) (result : Option Failure) (completed : List String) :
    RunState :=
  if result.isSome then r else { r with scope := r.scope.publish completed }

namespace Scene

/-- Ends a fork with its result. -/
def close (s : Scene) (task serial : Nat) (anchor : String) (resume : Resume)
    (result : Option Failure) (completed : List String) : Scene :=
  { s with run := s.run.publish result completed }.joined task serial anchor resume result

theorem join_eq_close (s : Scene) (task serial : Nat) (anchor : String) (resume : Resume)
    (children : List Child) (completed : List String) :
    s.join task serial anchor resume children completed =
      s.close task serial anchor resume (joinFailure? anchor children) completed := by
  unfold join
  split
  · next failure heq =>
    rw [heq]
    rfl
  · next heq =>
    rw [heq]
    rfl

/-- The result of a branch that has ended in its walk's place. -/
def branchFailure? (anchor entry : String) (branch : Process) : Option Failure :=
  branch.walk.failure.map (.branchFailed anchor entry)

theorem stepInPlace_eq_close {branch : Process} (s : Scene) (task serial : Nat)
    (anchor entry : String) (resume : Resume) (h : branch.isFinished = true) :
    s.stepInPlace task serial anchor entry resume branch =
      s.close task serial anchor resume (branchFailure? anchor entry branch) [entry] := by
  unfold stepInPlace branchFailure?
  rw [if_pos h]
  split
  · next failure heq =>
    rw [heq]
    rfl
  · next heq =>
    rw [heq]
    rfl

/-! ## Steps at a walk -/

/-- What a unit does in the middle of a call: what is left of the call, and the run and the engine
after it. -/
inductive Does (s : Scene) (task serial : Nat) (job : Job) :
    Behavior → Behavior → RunState → Engine → Prop where
  | access (change : Scope → Scope) (next : Scope → Behavior) :
    Does s task serial job (.access change next) (next s.run.scope)
      { s.run with scope := change s.run.scope } s.engine
  | signalRoute (target : String) (rest : Behavior) :
    Does s task serial job (.signalRoute target rest) rest
      { s.run with scope := s.run.scope.signalRoute job.unitId target } s.engine
  | signalFork (entries : List String) (rest : Behavior) :
    Does s task serial job (.signalFork entries rest) rest
      { s.run with scope := s.run.scope.signalFork job.unitId entries } s.engine
  | note (text : String) (rest : Behavior) :
    Does s task serial job (.note text rest) rest s.run
      (s.engine.record task serial (.remark text))
  | payload (change : List String → List String) (next : Option (List String) → Behavior) :
    Does s task serial job (.payload change next) (next s.run.context.payload)
      { s.run with
        context := { s.run.context with payload := s.run.context.payload.map change } } s.engine
  | viewPool (next : PoolView → Behavior) :
    Does s task serial job (.viewPool next) (next s.engine.pool.view) s.run s.engine
  | closePool (next : Bool → Behavior) :
    Does s task serial job (.closePool next) (next (s.engine.pool.inFlight = 0)) s.run
      { s.engine with pool := s.engine.pool.close }
  | addUnit (unitId : String) (unit : FlowUnit) (rest : Behavior) :
    Does s task serial job (.addUnit unitId unit rest) rest s.run
      { s.engine with registry := s.engine.registry.addUnit unitId unit }
  | addFlow (flowId expression : String) (rest : Behavior) :
    Does s task serial job (.addFlow flowId expression rest) rest s.run
      { s.engine with registry := s.engine.registry.addFlow flowId expression }
  | eraseUnit (unitId : String) (rest : Behavior) :
    Does s task serial job (.eraseUnit unitId rest) rest s.run
      { s.engine with registry := s.engine.registry.eraseUnit unitId }
  /-- The unit asks for a flow that cannot be opened. -/
  | noFlow (flowId : String) (next : RunSummary → Behavior) (plans : Plan.Cache) :
    Does s task serial job (.runFlow flowId next) (next ⟨.failed, []⟩) s.run
      { s.engine with nextScope := s.engine.nextScope + 1, plans := plans }

/-- What a walk does where it stands. -/
inductive Steps (s : Scene) (task serial : Nat) : Scene → Prop where
  | advance (h : s.activity = .poised .advance) :
    Steps s task serial (s.turn (s.walk.advance s.run.scope s.run.hasRun))
  /-- The unit is not there. -/
  | missing {u : String} {resume : Resume} (h : s.activity = .poised (.execute u resume))
      (hunit : s.engine.registry.unit? u = none) :
    Steps s task serial (s.unitEnded task serial u resume (some ⟨.unknownUnit u, false⟩))
  | queues {u : String} {unit : FlowUnit} {resume : Resume}
      (h : s.activity = .poised (.execute u resume))
      (hunit : s.engine.registry.unit? u = some unit) (hpooled : s.walk.pooled = true)
      (htake : s.engine.pool.take? = none) :
    Steps s task serial { s with
      activity := .queued u unit resume
      engine := { s.engine with pool := s.engine.pool.enqueue serial } }
  | begins {u : String} {unit : FlowUnit} {resume : Resume} {pool : Pool}
      (h : s.activity = .poised (.execute u resume))
      (hunit : s.engine.registry.unit? u = some unit)
      (hpool : if s.walk.pooled then s.engine.pool.take? = some pool else pool = s.engine.pool) :
    Steps s task serial ({ s with engine := { s.engine with pool := pool } }.beginUnit
      task serial u unit resume)
  /-- The unit has been handed a permit. -/
  | granted {u : String} {unit : FlowUnit} {resume : Resume}
      (h : s.activity = .queued u unit resume) (hgranted : s.engine.pool.isGranted serial = true) :
    Steps s task serial ({ s with engine := { s.engine with
      pool := s.engine.pool.accept serial } }.beginUnit task serial u unit resume)
  | does {job : Job} {behavior rest : Behavior} {run : RunState} {e : Engine}
      (h : s.activity = .working job behavior)
      (hdoes : s.Does task serial job behavior rest run e) :
    Steps s task serial { s with activity := .working job rest, run := run, engine := e }
  | sleeps {job : Job} {milliseconds : Nat} {rest : Behavior}
      (h : s.activity = .working job (.sleep milliseconds rest)) :
    Steps s task serial { s with activity := .asleep job (s.engine.clock + milliseconds) rest }
  | wakes {job : Job} {wakeAt : Nat} {rest : Behavior} (h : s.activity = .asleep job wakeAt rest)
      (hclock : wakeAt ≤ s.engine.clock) :
    Steps s task serial { s with activity := .working job rest }
  /-- The unit runs a flow. -/
  | opens {job : Job} {flowId : String} {next : RunSummary → Behavior} {plan : Plan}
      {plans : Plan.Cache} (h : s.activity = .working job (.runFlow flowId next)) :
    Steps s task serial { s with
      activity := .calling job ⟨{}, s.engine.nextScope, ∅, []⟩
        (.ofPlan s.engine.nextSerial plan false) next
      engine := { s.engine with
        nextScope := s.engine.nextScope + 1
        plans := plans
        nextSerial := s.engine.nextSerial + 1 } }
  /-- The first call has succeeded, and the unit counts as executed. -/
  | runs {job : Job} (h : s.activity = .working job .done) (hstage : job.stage = .before) :
    Steps s task serial
      (let told := s.announce task serial job .before none
       { told with run := { told.run with
          executed := told.run.executed ++ [(job.unitId, job.unit.name)] } }.call job .run
        (job.unit.run (s.run.view job.unitId)))
  | tidies {job : Job} (h : s.activity = .working job .done) (hstage : job.stage = .run) :
    Steps s task serial (s.call job .after (job.unit.afterRun (s.run.view job.unitId)))
  /-- All calls have succeeded. -/
  | ends {job : Job} (h : s.activity = .working job .done) (hstage : job.stage = .after) :
    Steps s task serial ((s.announce task serial job .after none).endUnit task serial job none)
  /-- A call has failed, and the unit is told so. -/
  | fails {job : Job} {behavior : Behavior} {cause : Cause}
      (h : s.activity = .working job behavior) (hfails : behavior.FailsWith cause)
      (hstage : ∀ failure, job.stage ≠ .onError failure) :
    Steps s task serial
      (let failure := Failure.unitFailed job.unitId (phase job.stage) cause
       s.call job (.onError failure) (job.unit.onError (s.run.view job.unitId) failure))
  /-- The unit has been told of its failure. How it took the news is ignored. -/
  | gaveUp {job : Job} {behavior : Behavior} {failure : Failure}
      (h : s.activity = .working job behavior) (hover : behavior.IsOver)
      (hstage : job.stage = .onError failure) :
    Steps s task serial ((s.announce task serial job .error (some failure)).endUnit task serial job
      (some ⟨failure, job.unit.tolerant⟩))
  | forksNone {anchor : String} {resume : Resume} (h : s.activity = .poised (.fork anchor [] resume)) :
    Steps s task serial ((s.record task serial (.forked anchor [])).joined task serial anchor resume
      none)
  /-- A single branch is run in place. -/
  | forksOne {anchor : String} {branch : Branch Plan} {resume : Resume}
      (h : s.activity = .poised (.fork anchor [branch] resume)) :
    Steps s task serial ({ s with
      activity := .inPlace anchor branch.entry resume
        (.ofPlan s.engine.nextSerial branch.plan s.walk.pooled)
      engine := { s.engine.record task serial (.forked anchor [branch.entry]) with
        nextSerial := s.engine.nextSerial + 1 } }.record task serial
          (.branchStarted branch.entry s.engine.nextSerial))
  | forks {anchor : String} {branches : List (Branch Plan)} {resume : Resume}
      (h : s.activity = .poised (.fork anchor branches resume)) (htwo : 2 ≤ branches.length) :
    Steps s task serial
      { s.record task serial (.forked anchor (branches.map Branch.entry)) with
        activity := .forking anchor resume branches [] [] }
  | starts {anchor : String} {resume : Resume} {branch : Branch Plan} {toStart : List (Branch Plan)}
      {children : List Child} {completed : List String}
      (h : s.activity = .forking anchor resume (branch :: toStart) children completed)
      (hopen : s.engine.pool.closed = false) :
    Steps s task serial ({ s with
      activity := .forking anchor resume toStart
        (children ++ [Child.running branch.entry (.ofPlan s.engine.nextSerial branch.plan true)])
        completed
      engine := { s.engine with
        pool := { s.engine.pool with inFlight := s.engine.pool.inFlight + 1 }
        nextSerial := s.engine.nextSerial + 1 } }.record task serial
          (.branchStarted branch.entry s.engine.nextSerial))
  | refuses {anchor : String} {resume : Resume} {branch : Branch Plan}
      {toStart : List (Branch Plan)} {children : List Child} {completed : List String}
      (h : s.activity = .forking anchor resume (branch :: toStart) children completed)
      (hclosed : s.engine.pool.closed = true) :
    Steps s task serial { s with
      activity := .forking anchor resume toStart (children ++ [Child.refused branch.entry]) completed }
  | joins {anchor : String} {resume : Resume} {children : List Child} {completed : List String}
      (h : s.activity = .forking anchor resume [] children completed)
      (hover : children.all Child.isOver = true) :
    Steps s task serial (s.close task serial anchor resume (joinFailure? anchor children) completed)

variable {s s' : Scene} {task serial : Nat}

theorem steps_execute {u : String} {resume : Resume}
    (h : s.activity = .poised (.execute u resume)) :
    s.Steps task serial (s.execute task serial u resume) := by
  unfold execute
  split
  · next hunit => exact .missing h hunit
  · next unit hunit =>
    split
    · next hpooled =>
      split
      · next pool htake => exact .begins h hunit (by rwa [if_pos hpooled])
      · next htake => exact .queues h hunit hpooled htake
    · next hpooled => exact .begins h hunit (by rw [if_neg hpooled])

theorem steps_fork {anchor : String} {branches : List (Branch Plan)} {resume : Resume}
    (h : s.activity = .poised (.fork anchor branches resume)) :
    s.Steps task serial (s.fork task serial anchor branches resume) := by
  unfold fork
  rcases branches with _ | ⟨branch, _ | ⟨next, rest⟩⟩
  · exact .forksNone h
  · exact .forksOne h
  · exact .forks h (by simp)

theorem steps_startBranch {anchor : String} {resume : Resume} {branch : Branch Plan}
    {toStart : List (Branch Plan)} {children : List Child} {completed : List String}
    (h : s.activity = .forking anchor resume (branch :: toStart) children completed) :
    s.Steps task serial
      (s.startBranch task serial anchor resume branch toStart children completed) := by
  unfold startBranch Pool.start?
  by_cases hclosed : s.engine.pool.closed = true
  · rw [if_pos hclosed]
    exact .refuses h hclosed
  · rw [if_neg hclosed]
    exact .starts h (Bool.not_eq_true _ ▸ hclosed)

theorem steps_succeed {job : Job} {behavior : Behavior} (h : s.activity = .working job behavior)
    (hdone : behavior = .done ∨ (∃ failure, job.stage = .onError failure) ∧ behavior.IsOver) :
    s.Steps task serial (s.succeed task serial job) := by
  unfold succeed
  split
  · next hstage =>
    rcases hdone with rfl | ⟨⟨failure, hfailure⟩, -⟩
    · exact .runs h hstage
    · cases hstage.symm.trans hfailure
  · next hstage =>
    rcases hdone with rfl | ⟨⟨failure, hfailure⟩, -⟩
    · exact .tidies h hstage
    · cases hstage.symm.trans hfailure
  · next hstage =>
    rcases hdone with rfl | ⟨⟨failure, hfailure⟩, -⟩
    · exact .ends h hstage
    · cases hstage.symm.trans hfailure
  · next failure hstage =>
    refine .gaveUp h ?_ hstage
    rcases hdone with rfl | ⟨-, hover⟩
    · exact .inl rfl
    · exact hover

theorem steps_failCall {job : Job} {behavior : Behavior} {cause : Cause}
    (h : s.activity = .working job behavior) (hfails : behavior.FailsWith cause) :
    s.Steps task serial (s.failCall task serial job cause) := by
  unfold failCall
  split
  · next failure hstage => exact steps_succeed h (.inr ⟨⟨failure, hstage⟩, .inr ⟨cause, hfails⟩⟩)
  · next hstage => exact .fails h hfails fun failure hfailure => hstage failure hfailure

theorem steps_runFlow {job : Job} {flowId : String} {next : RunSummary → Behavior}
    (h : s.activity = .working job (.runFlow flowId next)) :
    s.Steps task serial (s.runFlow job flowId next) := by
  unfold runFlow
  simp only
  split
  · next failure e' hopen =>
    obtain ⟨plans, rfl⟩ := Engine.openFlow_error hopen
    exact .does h (.noFlow flowId next plans)
  · next root e' hopen =>
    obtain ⟨plan, plans, rfl, rfl⟩ := Engine.openFlow_ok hopen
    exact .opens h

theorem steps_act {job : Job} {behavior : Behavior} (h : s.activity = .working job behavior) :
    s.Steps task serial (s.act task serial job behavior) := by
  cases behavior with
  | done => exact steps_succeed h (.inl rfl)
  | fail cause => exact steps_failCall h (.fail cause)
  | panic payload => exact steps_failCall h (.panic payload)
  | runFlow flowId next => exact steps_runFlow h
  | sleep milliseconds next => exact .sleeps h
  | access change next => exact .does h (.access change next)
  | signalRoute target next => exact .does h (.signalRoute target next)
  | signalFork entries next => exact .does h (.signalFork entries next)
  | note text next => exact .does h (.note text next)
  | payload change next => exact .does h (.payload change next)
  | viewPool next => exact .does h (.viewPool next)
  | closePool next => exact .does h (.closePool next)
  | addUnit unitId unit next => exact .does h (.addUnit unitId unit next)
  | addFlow flowId expression next => exact .does h (.addFlow flowId expression next)
  | eraseUnit unitId next => exact .does h (.eraseUnit unitId next)

/-- The rules cover all that a walk can do where it stands. -/
theorem steps_of_stepHere (h : s.stepHere task serial = some s') : s.Steps task serial s' := by
  unfold stepHere at h
  split at h
  · next hactivity =>
    cases h
    exact .advance hactivity
  · next hactivity =>
    cases h
    exact steps_execute hactivity
  · next hactivity =>
    cases h
    exact steps_fork hactivity
  · cases h
  · next hactivity =>
    split at h
    · next hgranted =>
      cases h
      exact .granted hactivity hgranted
    · cases h
  · next hactivity =>
    cases h
    exact steps_act hactivity
  · next hactivity =>
    split at h
    · next hclock =>
      cases h
      exact .wakes hactivity hclock
    · cases h
  · next hactivity =>
    cases h
    exact steps_startBranch hactivity
  · next hactivity =>
    split at h
    · next hover =>
      cases h
      rw [join_eq_close]
      exact .joins hactivity hover
    · cases h
  all_goals cases h

end Scene

/-! ## Steps in a tree -/

/-- A walk in its surroundings. -/
structure Site where
  process : Process
  /-- The state of its run. -/
  run : RunState
  /-- How many flows that units run are around it. -/
  depth : Nat
  /-- The walks around it in its run, from outside in, and itself last. -/
  walks : List Nat

namespace Site

/-- A walk, seen from itself. -/
def here (p : Process) (run : RunState) : Site := ⟨p, run, 0, [p.serial]⟩

/-- A walk in a branch, seen from the walk that waits for the branch. -/
def within (serial : Nat) (s : Site) : Site :=
  if s.depth = 0 then { s with walks := serial :: s.walks } else s

/-- A walk in a flow, seen from the walk whose unit runs the flow. -/
def called (s : Site) : Site := { s with depth := s.depth + 1 }

end Site

/-- The task `who` does one thing, somewhere in a process that belongs to the task `task`. What runs
below a walk in the same task moves in the place of the walk, and what runs in a branch of a fork is
of another task. The site is where the thing is done. -/
inductive Process.Moves (who : Nat) :
    Site → Nat → Process → RunState → Engine → Process → RunState → Engine → Prop where
  | here {serial : Nat} {walk : Walk} {activity : Activity} {run : RunState} {e : Engine}
      {s : Scene} (h : Scene.Steps ⟨walk, activity, run, e⟩ who serial s) :
    Moves who (.here (.mk serial walk activity) run) who (.mk serial walk activity) run e
      (.mk serial s.walk s.activity) s.run s.engine
  | called {task serial : Nat} {walk : Walk} {job : Job} {inner inner' run : RunState}
      {root root' : Process} {next : RunSummary → Behavior} {e e' : Engine} {site : Site}
      (h : Moves who site task root inner e root' inner' e') (hrunning : root'.isFinished = false) :
    Moves who site.called task (.mk serial walk (.calling job inner root next)) run e
      (.mk serial walk (.calling job inner' root' next)) run e'
  /-- The flow that a unit runs comes to its end, and the unit goes on. -/
  | returned {task serial : Nat} {walk : Walk} {job : Job} {inner inner' run : RunState}
      {root root' : Process} {next : RunSummary → Behavior} {e e' : Engine} {site : Site}
      (h : Moves who site task root inner e root' inner' e') (hfinished : root'.isFinished = true) :
    Moves who site.called task (.mk serial walk (.calling job inner root next)) run e
      (.mk serial walk (.working job (next ⟨root'.status, inner'.unitNames⟩))) run e'
  | inPlace {task serial : Nat} {walk : Walk} {anchor entry : String} {resume : Resume}
      {branch branch' : Process} {run run' : RunState} {e e' : Engine} {site : Site}
      (h : Moves who site task branch run e branch' run' e')
      (hrunning : branch'.isFinished = false) :
    Moves who (site.within serial) task (.mk serial walk (.inPlace anchor entry resume branch)) run
      e (.mk serial walk (.inPlace anchor entry resume branch')) run' e'
  /-- The branch in a walk's place comes to its end, and the walk goes on. -/
  | inPlaceEnded {task serial : Nat} {walk : Walk} {anchor entry : String} {resume : Resume}
      {branch branch' : Process} {run run' : RunState} {e e' : Engine} {s : Scene} {site : Site}
      (h : Moves who site task branch run e branch' run' e')
      (hfinished : branch'.isFinished = true)
      (hclose : s = Scene.close ⟨walk, .inPlace anchor entry resume branch, run', e'⟩ task serial
        anchor resume (Scene.branchFailure? anchor entry branch') [entry]) :
    Moves who (site.within serial) task (.mk serial walk (.inPlace anchor entry resume branch)) run
      e (.mk serial s.walk s.activity) s.run s.engine
  | child {task serial : Nat} {walk : Walk} {anchor entry : String} {resume : Resume}
      {toStart : List (Branch Plan)} {before after : List Child} {completed : List String}
      {branch branch' : Process} {run run' : RunState} {e e' : Engine} {site : Site}
      (h : Moves who site branch.serial branch run e branch' run' e')
      (hrunning : branch'.isFinished = false) (htask : who ≠ task) :
    Moves who (site.within serial) task
      (.mk serial walk (.forking anchor resume toStart (before ++ .running entry branch :: after)
        completed)) run e
      (.mk serial walk (.forking anchor resume toStart (before ++ .running entry branch' :: after)
        completed)) run' e'
  /-- A branch of a fork comes to its end, and the pool counts one task less. -/
  | childEnded {task serial : Nat} {walk : Walk} {anchor entry : String} {resume : Resume}
      {toStart : List (Branch Plan)} {before after : List Child} {completed completed' : List String}
      {branch branch' : Process} {run run' : RunState} {e e' : Engine} {site : Site}
      (h : Moves who site branch.serial branch run e branch' run' e')
      (hfinished : branch'.isFinished = true) (htask : who ≠ task)
      (hcompleted : completed' = completed ++
        if branch'.walk.failure.isNone then [entry] else []) :
    Moves who (site.within serial) task
      (.mk serial walk (.forking anchor resume toStart (before ++ .running entry branch :: after)
        completed)) run e
      (.mk serial walk (.forking anchor resume toStart
        (before ++ .ended entry branch'.walk.failure :: after) completed')) run'
      { e' with pool := e'.pool.finish }

/-! ## From the step function to the rules -/

/-- A step among the branches of a fork: one branch has moved, and perhaps to its end. -/
def Child.MovesIn (who : Nat) (children children' : List Child) (ended : List String)
    (run run' : RunState) (e e' : Engine) : Prop :=
  ∃ before entry branch branch' after e₁ site, children = before ++ .running entry branch :: after ∧
    branch.Moves who site branch.serial run e branch' run' e₁ ∧
    if branch'.isFinished then
      children' = before ++ .ended entry branch'.walk.failure :: after ∧
        ended = (if branch'.walk.failure.isNone then [entry] else []) ∧
        e' = { e₁ with pool := e₁.pool.finish }
    else children' = before ++ .running entry branch' :: after ∧ ended = [] ∧ e' = e₁

mutual

/-- The rules cover all that a task can do in a process. -/
theorem Process.moves_of_step {who task : Nat} {p p' : Process} {run run' : RunState}
    {e e' : Engine} (h : p.step who task run e = some (p', run', e')) :
    ∃ site, p.Moves who site task run e p' run' e' := by
  obtain ⟨serial, walk, activity⟩ := p
  rw [Process.step, Option.map_eq_some_iff] at h
  obtain ⟨s, hs, heq⟩ := h
  cases heq
  exact Activity.moves_of_step hs

theorem Activity.moves_of_step {who task serial : Nat} {walk : Walk} {activity : Activity}
    {run : RunState} {e : Engine} {s : Scene}
    (h : activity.step who task serial walk run e = some s) :
    ∃ site, (Process.mk serial walk activity).Moves who site task run e
      (.mk serial s.walk s.activity) s.run s.engine := by
  cases activity with
  | calling job inner root next =>
    rw [Activity.step, Option.map_eq_some_iff] at h
    obtain ⟨⟨root', inner', e'⟩, hroot, rfl⟩ := h
    obtain ⟨site, hmoves⟩ := Process.moves_of_step hroot
    refine ⟨site.called, ?_⟩
    simp only [Scene.stepCalled]
    split
    · next hfinished => exact .returned hmoves hfinished
    · next hfinished => exact .called hmoves (Bool.not_eq_true _ ▸ hfinished)
  | inPlace anchor entry resume branch =>
    rw [Activity.step, Option.map_eq_some_iff] at h
    obtain ⟨⟨branch', run', e'⟩, hbranch, rfl⟩ := h
    obtain ⟨site, hmoves⟩ := Process.moves_of_step hbranch
    refine ⟨site.within serial, ?_⟩
    by_cases hfinished : branch'.isFinished = true
    · exact .inPlaceEnded hmoves hfinished (Scene.stepInPlace_eq_close _ _ _ _ _ _ hfinished)
    · have hrunning : branch'.isFinished = false := Bool.not_eq_true _ ▸ hfinished
      simp only [Scene.stepInPlace, hrunning]
      exact .inPlace hmoves hrunning
  | forking anchor resume toStart children completed =>
    rw [Activity.step] at h
    split at h
    · next hwho =>
      subst hwho
      exact ⟨_, .here (Scene.steps_of_stepHere h)⟩
    -- the task is not that of the walk which waits, so it is in one of the branches
    · next hwho =>
      rw [Option.map_eq_some_iff] at h
      obtain ⟨⟨children', ended, run', e'⟩, hchildren, rfl⟩ := h
      obtain ⟨before, entry, branch, branch', after, e₁, site, rfl, hmoves, hrest⟩ :=
        Child.movesIn_of_stepIn hchildren
      refine ⟨site.within serial, ?_⟩
      split at hrest
      · next hfinished =>
        obtain ⟨rfl, rfl, rfl⟩ := hrest
        exact .childEnded hmoves hfinished hwho rfl
      · next hfinished =>
        obtain ⟨rfl, rfl, rfl⟩ := hrest
        simp only [List.append_nil]
        exact .child hmoves (Bool.not_eq_true _ ▸ hfinished) hwho
  | poised | queued | working | asleep =>
    rw [Activity.step] at h
    · split at h
      · next hwho =>
        subst hwho
        exact ⟨_, .here (Scene.steps_of_stepHere h)⟩
      · cases h
    all_goals simp

theorem Child.movesIn_of_stepIn {who : Nat} {children children' : List Child} {ended : List String}
    {run run' : RunState} {e e' : Engine}
    (h : Child.stepIn who children run e = some (children', ended, run', e')) :
    Child.MovesIn who children children' ended run run' e e' := by
  cases children with
  | nil => cases h
  | cons child rest =>
    rw [Child.stepIn] at h
    split at h
    · next child' ended' run₁ e₁ hchild =>
      cases h
      cases child with
      | refused | ended | cancelled => cases hchild
      | running entry branch =>
        rw [Child.step, Option.map_eq_some_iff] at hchild
        obtain ⟨⟨branch', run₁, e₁⟩, hbranch, heq⟩ := hchild
        obtain ⟨site, hmoves⟩ := Process.moves_of_step hbranch
        refine ⟨[], entry, branch, branch', rest, e₁, site, rfl, ?_, ?_⟩
        · simp only at heq
          split at heq <;> cases heq <;> exact hmoves
        · simp only at heq
          split at heq <;> cases heq
          · next hfinished =>
            rw [if_pos hfinished]
            exact ⟨rfl, rfl, rfl⟩
          · next hfinished =>
            rw [if_neg hfinished]
            exact ⟨rfl, rfl, rfl⟩
    -- the first branch does not have the task, and stands before the one that moves
    · rw [Option.map_eq_some_iff] at h
      obtain ⟨⟨rest', ended', run₁, e₁⟩, hrest, heq⟩ := h
      cases heq
      obtain ⟨before, entry, branch, branch', after, e₁, site, rfl, hmoves, hend⟩ :=
        Child.movesIn_of_stepIn hrest
      refine ⟨child :: before, entry, branch, branch', after, e₁, site, rfl, hmoves, ?_⟩
      split at hend
      · next hfinished =>
        obtain ⟨rfl, hended, he⟩ := hend
        rw [if_pos hfinished]
        exact ⟨rfl, hended, he⟩
      · next hfinished =>
        obtain ⟨rfl, hended, he⟩ := hend
        rw [if_neg hfinished]
        exact ⟨rfl, hended, he⟩

end

theorem Process.mem_children (before after : List Child) (entry : String) (q : Process) :
    Child.running entry q ∈ before ++ .running entry q :: after := by simp

/-- A process that has finished is a walk that does nothing any more. -/
theorem Process.exists_of_isFinished {p : Process} (h : p.isFinished = true) :
    ∃ serial walk, p = .mk serial walk (.poised .finish) := by
  unfold isFinished at h
  split at h
  · exact ⟨_, _, rfl⟩
  · cases h

/-- A process keeps its number. -/
theorem Process.Moves.serial {who task : Nat} {p p' : Process} {run run' : RunState}
    {e e' : Engine} {site : Site} (h : p.Moves who site task run e p' run' e') :
    p'.serial = p.serial := by
  cases h <;> rfl

end Workflow
