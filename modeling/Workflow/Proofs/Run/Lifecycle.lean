import Workflow.Proofs.Run.Moves

/-!
# The life of a unit

An execution of a unit follows a protocol, whatever the unit does in its calls, whoever listens, and
whatever others do to the run and the engine meanwhile. `Deed` lists what the walk does for the unit:
it clears old signals, makes the calls of the unit, tells listeners, counts the unit as executed and
hands on how it came out. What each deed does to a scene is said by `Deed.apply`.

An `Execution` is a scene of the walk with the deeds done so far. It goes on by own steps of the walk
(`Scene.Conducts`), each of which does the deeds it stands for and nothing else, or by what others do
(`Scene.Elapses`): they may change the run and the engine in any way.

* `Scene.conducts_of_steps` shows that `Scene.Conducts` covers all that the walk can do.
* `Deed.Begun` says what has been done when a call begins; every end of a call leads to the beginning of
  another one or to the end of the protocol (`Deed.Begun.returned`).
* So an execution stands before its first call, in a call, or at the end (`Execution.Keeps`), and the
  deeds are right in each of these cases (`Execution.Keeps.isLawful`). The walk leaves the unit with the
  last of them (`Execution.Keeps.leaves`).
-/

namespace Workflow

/-! ## What is done for a unit -/

/-- What a walk does to execute a unit. -/
inductive Deed where
  /-- Signals that earlier executions of the unit have left are cleared. -/
  | clear
  | call (stage : Stage)
  /-- The call ends, with a failure or without. -/
  | returned (result : Option Cause)
  | tell (moment : Moment) (failure : Option Failure)
  /-- The unit counts as executed. -/
  | count
  | finish (result : Option Mishap)
  deriving Repr, DecidableEq

/-- How a call has come to its end, if it has. -/
def Behavior.result? : Behavior → Option (Option Cause)
  | .done => some none
  | .fail cause => some (some cause)
  | .panic text => some (some (panicCause text))
  | .access .. | .signalRoute .. | .signalFork .. | .note .. | .sleep .. | .payload .. | .viewPool ..
  | .closePool .. | .addUnit .. | .addFlow .. | .eraseUnit .. | .runFlow .. => none

/-- The call of a unit that belongs to a stage. -/
def Stage.behavior (unit : FlowUnit) (view : UnitView) : Stage → Behavior
  | .before => unit.beforeRun view
  | .run => unit.run view
  | .after => unit.afterRun view
  | .onError failure => unit.onError view failure

namespace Deed

/-- What a deed does to a scene. -/
def apply (task serial : Nat) (job : Job) (s : Scene) : Deed → Scene
  | .clear =>
    { s with run := { s.run with scope := s.run.scope.dropSignals job.unitId } }.record task serial
      (.unitStarted job.unitId)
  | .call stage => s.call job stage (stage.behavior job.unit (s.run.view job.unitId))
  | .returned _ => s
  | .tell moment failure => s.announce task serial job moment failure
  | .count =>
    { s with run := { s.run with executed := s.run.executed ++ [(job.unitId, job.unit.name)] } }
  | .finish result => s.endUnit task serial job result

/-- What is done when a call has failed. -/
def failing (u : String) (tolerant : Bool) (phase : Phase) (cause : Cause)
    (told : Option Cause) : List Deed :=
  let failure := Failure.unitFailed u phase cause
  [.call (.onError failure), .returned told, .tell .error (some failure),
    .finish (some ⟨failure, tolerant⟩)]

/-- What is done for a unit whose calls come out like this. -/
def protocol (u : String) (tolerant : Bool) (before run after told : Option Cause) : List Deed :=
  .clear :: .call .before :: .returned before ::
    match before with
    | some cause => failing u tolerant .beforeRun cause told
    | none =>
      .tell .before none :: .count :: .call .run :: .returned run ::
        match run with
        | some cause => failing u tolerant .run cause told
        | none =>
          .call .after :: .returned after ::
            match after with
            | some cause => failing u tolerant .afterRun cause told
            | none => [.tell .after none, .finish none]

def IsOver (deeds : List Deed) : Prop := ∃ result, .finish result ∈ deeds

end Deed

/-- What is done at the end of a call. -/
def Job.deeds (job : Job) (result : Option Cause) : List Deed :=
  match job.stage, result with
  | .before, none => [.tell .before none, .count, .call .run]
  | .run, none => [.call .after]
  | .after, none => [.tell .after none, .finish none]
  | .onError failure, _ =>
    [.tell .error (some failure), .finish (some ⟨failure, job.unit.tolerant⟩)]
  | .before, some cause => [.call (.onError (.unitFailed job.unitId .beforeRun cause))]
  | .run, some cause => [.call (.onError (.unitFailed job.unitId .run cause))]
  | .after, some cause => [.call (.onError (.unitFailed job.unitId .afterRun cause))]

/-! ## The steps of an execution -/

/-- What a walk may be busy with after one step in the middle of a call. -/
def Behavior.Continues (job : Job) : Behavior → Activity → Prop
  | .done, _ | .fail _, _ | .panic _, _ => False
  | .access _ next, activity => ∃ scope, activity = .working job (next scope)
  | .payload _ next, activity => ∃ before, activity = .working job (next before)
  | .viewPool next, activity => ∃ view, activity = .working job (next view)
  | .closePool next, activity => ∃ idle, activity = .working job (next idle)
  | .sleep _ rest, activity => ∃ wakeAt, activity = .asleep job wakeAt rest
  | .runFlow _ next, activity => (∃ summary, activity = .working job (next summary)) ∨
      ∃ inner root, activity = .calling job inner root next
  | .signalRoute _ rest, activity | .signalFork _ rest, activity | .note _ rest, activity
  | .addUnit _ _ rest, activity | .addFlow _ _ rest, activity | .eraseUnit _ rest, activity =>
    activity = .working job rest

/-- A walk is in the middle of a call. -/
def Activity.IsCall (job : Job) : Activity → Prop
  | .working own _ | .asleep own _ _ | .calling own _ _ _ => own = job
  | .poised _ | .queued .. | .inPlace .. | .forking .. => False

theorem Activity.IsCall.unique {activity : Activity} {job job' : Job} (h : activity.IsCall job)
    (h' : activity.IsCall job') : job = job' := by
  cases activity with
  | working | asleep | calling => exact Eq.trans (Eq.symm h) h'
  | poised | queued | inPlace | forking => exact h.elim

/-- A walk in a call does not wait for its first one. -/
theorem Activity.IsCall.not_waiting {activity : Activity} {job : Job} (h : activity.IsCall job)
    {u : String} (unit : FlowUnit) {resume : Resume} :
    ¬ (activity = .poised (.execute u resume) ∨ activity = .queued u unit resume) := by
  rintro (rfl | rfl)
  · exact h
  · exact h

namespace Scene

/-- What a walk does itself to execute a unit, with the deeds that it does thereby. -/
inductive Conducts (task serial : Nat) (u : String) (unit : FlowUnit) (resume : Resume) (s : Scene) :
    List Deed → Scene → Prop where
  /-- The unit is there, and the walk has to wait for a permit. -/
  | queues (h : s.activity = .poised (.execute u resume))
      (hunit : s.engine.registry.unit? u = some unit) (pool : Pool) :
    Conducts task serial u unit resume s []
      { s with activity := .queued u unit resume, engine := { s.engine with pool := pool } }
  | begins (h : s.activity = .poised (.execute u resume) ∧ s.engine.registry.unit? u = some unit ∨
      s.activity = .queued u unit resume) (pool : Pool) :
    Conducts task serial u unit resume s [.clear, .call .before]
      ([Deed.clear, .call .before].foldl (Deed.apply task serial ⟨u, unit, resume, .before⟩)
        { s with engine := { s.engine with pool := pool } })
  /-- The unit does something in the middle of a call. -/
  | within {job : Job} {behavior : Behavior} {s' : Scene} (h : s.activity = .working job behavior)
      (hnext : behavior.Continues job s'.activity) (hwalk : s'.walk = s.walk)
      (hexecuted : s'.run.executed = s.run.executed)
      (hlisteners : s'.engine.listeners = s.engine.listeners) :
    Conducts task serial u unit resume s [] s'
  | wakes {job : Job} {wakeAt : Nat} {rest : Behavior} (h : s.activity = .asleep job wakeAt rest) :
    Conducts task serial u unit resume s [] { s with activity := .working job rest }
  /-- The flow that the unit runs makes its last step. -/
  | learns {job : Job} {inner : RunState} {root : Process} {next : RunSummary → Behavior}
      (h : s.activity = .calling job inner root next) (summary : RunSummary) (engine : Engine) :
    Conducts task serial u unit resume s []
      { s with activity := .working job (next summary), engine := engine }
  /-- A call has ended. -/
  | returns {job : Job} {behavior : Behavior} {result : Option Cause}
      (h : s.activity = .working job behavior) (hresult : behavior.result? = some result) :
    Conducts task serial u unit resume s (.returned result :: job.deeds result)
      ((job.deeds result).foldl (Deed.apply task serial job) s)

/-- What can happen to a walk that does nothing itself. -/
inductive Elapses (s : Scene) : Scene → Prop where
  | others (run : RunState) (engine : Engine) : Elapses s { s with run := run, engine := engine }
  /-- The flow that its unit runs goes on. -/
  | flow {job : Job} {inner : RunState} {root : Process} {next : RunSummary → Behavior}
      (h : s.activity = .calling job inner root next) (inner' : RunState) (root' : Process)
      (run : RunState) (engine : Engine) :
    Elapses s { s with activity := .calling job inner' root' next, run := run, engine := engine }

theorem Elapses.trans {s s' s'' : Scene} (h : s.Elapses s') (h' : s'.Elapses s'') : s.Elapses s'' := by
  cases h with
  | others =>
    cases h' with
    | others => exact .others ..
    | flow h' => exact flow (s := s) h' _ _ _ _
  | flow h =>
    cases h' with
    | others => exact .flow h ..
    | flow h' =>
      cases h'
      exact .flow h ..

/-- A walk is busy with the execution of a unit. -/
def Executes (s : Scene) (u : String) (unit : FlowUnit) (resume : Resume) : Prop :=
  s.activity = .poised (.execute u resume) ∧ s.engine.registry.unit? u = some unit ∨
    s.activity = .queued u unit resume ∨ ∃ stage, s.activity.IsCall ⟨u, unit, resume, stage⟩

variable {s s' : Scene} {task serial : Nat} {u : String} {unit : FlowUnit} {resume : Resume}

/-- In the middle of a call nothing is counted as executed, and no listener comes or goes. -/
theorem Does.keeps {job : Job} {behavior rest : Behavior} {run : RunState} {e : Engine}
    (h : s.Does task serial job behavior rest run e) :
    run.executed = s.run.executed ∧ e.listeners = s.engine.listeners := by
  cases h <;> exact ⟨rfl, rfl⟩

end Scene

/-! ## Where an execution stands -/

theorem Behavior.Continues.isCall {job : Job} {behavior : Behavior} {activity : Activity}
    (h : behavior.Continues job activity) : activity.IsCall job := by
  cases behavior with
  | done | fail | panic => exact h.elim
  | access | payload | viewPool | closePool | sleep =>
    obtain ⟨_, rfl⟩ := h
    exact rfl
  | signalRoute | signalFork | note | addUnit | addFlow | eraseUnit =>
    obtain rfl : activity = _ := h
    exact rfl
  | runFlow =>
    rcases h with ⟨_, rfl⟩ | ⟨_, _, rfl⟩
    · exact rfl
    · exact rfl

/-- After the deeds that lead to a call the walk is in that call. -/
theorem Deed.activity_foldl (task serial : Nat) (job : Job) (s : Scene) (more : List Deed)
    (next : Stage) : ∃ view, ((more ++ [Deed.call next]).foldl (Deed.apply task serial job) s).activity =
      .working { job with stage := next } (next.behavior job.unit view) := by
  rw [List.foldl_append]
  exact ⟨_, rfl⟩

/-- When all is done the walk is done with the unit. -/
theorem Deed.activity_foldl_finish (task serial : Nat) (job : Job) (s : Scene) (more : List Deed)
    (result : Option Mishap) : ∃ next,
      ((more ++ [Deed.finish result]).foldl (Deed.apply task serial job) s).activity = .poised next := by
  rw [List.foldl_append]
  exact ⟨_, rfl⟩

namespace Scene

variable {s s' : Scene} {task serial : Nat} {u : String} {unit : FlowUnit} {resume : Resume}
  {job : Job} {more : List Deed}

/-- Before its first call, a walk goes on to wait for a permit or begins that call. -/
theorem Conducts.waiting_cases (h : s.Conducts task serial u unit resume more s')
    (hwaiting : s.activity = .poised (.execute u resume) ∨ s.activity = .queued u unit resume) :
    (s.activity = .poised (.execute u resume) ∧ more = [] ∧ s'.activity = .queued u unit resume) ∨
      more = [.clear, .call .before] ∧
      ∃ behavior, s'.activity = .working ⟨u, unit, resume, .before⟩ behavior := by
  cases h with
  | queues h => exact .inl ⟨h, rfl, rfl⟩
  | begins => exact .inr ⟨rfl, _, rfl⟩
  | within h | wakes h | learns h | returns h =>
    rcases hwaiting with heq | heq <;> cases heq.symm.trans h

/-- In a call, a walk goes on with the call or does what belongs to its end. -/
theorem Conducts.call_cases (h : s.Conducts task serial u unit resume more s')
    (hcall : s.activity.IsCall job) : more = [] ∧ s'.activity.IsCall job ∨
      ∃ behavior result, s.activity = .working job behavior ∧ behavior.result? = some result ∧
        more = .returned result :: job.deeds result ∧
        s' = (job.deeds result).foldl (Deed.apply task serial job) s := by
  cases h with
  | queues h => exact absurd (.inl h) (hcall.not_waiting unit)
  | begins h => exact absurd (h.imp_left And.left) (hcall.not_waiting unit)
  | within h hnext =>
    rw [h] at hcall
    exact .inl ⟨rfl, hcall ▸ hnext.isCall⟩
  | wakes h | learns h =>
    rw [h] at hcall
    exact .inl ⟨rfl, hcall⟩
  | returns h hresult =>
    rw [h] at hcall
    obtain rfl : _ = job := hcall
    exact .inr ⟨_, _, h, hresult, rfl, rfl⟩

theorem executed_apply (deed : Deed) (task serial : Nat) (job : Job) (s : Scene) :
    (deed.apply task serial job s).run.executed =
      s.run.executed ++ List.replicate ([deed].count .count) (job.unitId, job.unit.name) := by
  cases deed with
  | count => rfl
  | finish result =>
    have hsame : (s.endUnit task serial job result).run.executed = s.run.executed := by
      unfold endUnit
      split <;> rfl
    simp [Deed.apply, hsame]
  | clear | call | returned | tell => exact (List.append_nil _).symm

theorem executed_foldl (deeds : List Deed) (task serial : Nat) (job : Job) (s : Scene) :
    (deeds.foldl (Deed.apply task serial job) s).run.executed =
      s.run.executed ++ List.replicate (deeds.count .count) (job.unitId, job.unit.name) := by
  induction deeds generalizing s with
  | nil => exact (List.append_nil _).symm
  | cons deed rest ih =>
    rw [List.foldl_cons, ih, executed_apply, List.append_assoc, List.replicate_append_replicate,
      ← List.count_append]
    rfl

/-- The walk records its unit as often as the deeds say. -/
theorem Conducts.executed (h : s.Conducts task serial u unit resume more s')
    (hjob : ∀ job, s.activity.IsCall job → job.unitId = u ∧ job.unit = unit) :
    s'.run.executed = s.run.executed ++ List.replicate (more.count .count) (u, unit.name) := by
  cases h with
  | queues | wakes | learns => exact (List.append_nil _).symm
  | begins => exact (executed_foldl ..).trans rfl
  | within _ _ _ hexecuted => exact hexecuted.trans (List.append_nil _).symm
  | @returns job _ result h =>
    obtain ⟨hid, hunit⟩ := hjob job (h ▸ rfl)
    rw [executed_foldl, hid, hunit]
    rfl

end Scene

/-- How many calls a unit can make after that of a stage. -/
def Stage.left : Stage → Nat
  | .before => 3
  | .run => 2
  | .after => 1
  | .onError _ => 0

/-- What has been done for a unit when the call of a stage begins. -/
inductive Deed.Begun (u : String) : Stage → List Deed → Prop where
  | before : Begun u .before [.clear, .call .before]
  | run : Begun u .run
      [.clear, .call .before, .returned none, .tell .before none, .count, .call .run]
  | after : Begun u .after
      [.clear, .call .before, .returned none, .tell .before none, .count, .call .run, .returned none,
        .call .after]
  | onError {stage : Stage} {deeds : List Deed} (h : Begun u stage deeds)
      (hstage : ∀ failure, stage ≠ .onError failure) (cause : Cause) :
    Begun u (.onError (.unitFailed u (Scene.phase stage) cause))
      (deeds ++ [.returned (some cause), .call (.onError (.unitFailed u (Scene.phase stage) cause))])

namespace Deed

variable {u : String} {unit : FlowUnit} {resume : Resume} {stage : Stage} {deeds : List Deed}

theorem isOver_protocol (u : String) (tolerant : Bool) (before run after told : Option Cause) :
    IsOver (protocol u tolerant before run after told) := by
  rcases before with _ | cause
  · rcases run with _ | cause
    · rcases after with _ | cause
      · exact ⟨none, by simp [protocol]⟩
      · exact ⟨_, by simp [protocol, failing]; rfl⟩
    · exact ⟨_, by simp [protocol, failing]; rfl⟩
  · exact ⟨_, by simp [protocol, failing]; rfl⟩

/-- Where a call begins, nobody has been told how the execution came out. -/
theorem Begun.not_mem (h : Begun u stage deeds) :
    (∀ result, .finish result ∉ deeds) ∧ ∀ success, .tell .after success ∉ deeds := by
  induction h with
  | before | run | after => simp
  | onError _ _ _ ih => simp [ih]

theorem Begun.not_isOver (h : Begun u stage deeds) : ¬ IsOver deeds :=
  fun ⟨result, hmem⟩ => h.not_mem.1 result hmem

/-- What has been done when a call begins is how a protocol begins. -/
theorem Begun.isPrefix (h : Begun u stage deeds) (tolerant : Bool) :
    ∃ before run after told, deeds <+: protocol u tolerant before run after told := by
  cases h with
  | before | run | after => exact ⟨none, none, none, none, _, rfl⟩
  | onError h hstage cause =>
    cases h with
    | before => exact ⟨some cause, none, none, none, _, rfl⟩
    | run => exact ⟨none, some cause, none, none, _, rfl⟩
    | after => exact ⟨none, none, some cause, none, _, rfl⟩
    | onError => exact absurd rfl (hstage _)

/-- The end of a call is followed by the next call, or it is the end of the protocol. -/
theorem Begun.returned (h : Begun u stage deeds) (unit : FlowUnit) (resume : Resume)
    (result : Option Cause) :
    (∃ more next, Job.deeds ⟨u, unit, resume, stage⟩ result = more ++ [.call next] ∧
      Begun u next (deeds ++ .returned result :: (more ++ [.call next])) ∧ next.left < stage.left) ∨
    (∃ more result', Job.deeds ⟨u, unit, resume, stage⟩ result = more ++ [.finish result']) ∧
      ∃ before run after told, deeds ++ .returned result :: Job.deeds ⟨u, unit, resume, stage⟩ result =
        protocol u unit.tolerant before run after told := by
  cases h with
  | before =>
    rcases result with _ | cause
    · exact .inl ⟨[.tell .before none, .count], .run, rfl, .run, by decide⟩
    · exact .inl ⟨[], _, rfl, .onError .before nofun cause, Nat.zero_lt_succ _⟩
  | run =>
    rcases result with _ | cause
    · exact .inl ⟨[], .after, rfl, .after, by decide⟩
    · exact .inl ⟨[], _, rfl, .onError .run nofun cause, Nat.zero_lt_succ _⟩
  | after =>
    rcases result with _ | cause
    · exact .inr ⟨⟨[.tell .after none], none, rfl⟩, none, none, none, none, rfl⟩
    · exact .inl ⟨[], _, rfl, .onError .after nofun cause, Nat.zero_lt_succ _⟩
  | onError h hstage cause =>
    refine .inr ⟨⟨[.tell .error _], _, rfl⟩, ?_⟩
    cases h with
    | before => exact ⟨some cause, none, none, result, rfl⟩
    | run => exact ⟨none, some cause, none, result, rfl⟩
    | after => exact ⟨none, none, some cause, result, rfl⟩
    | onError => exact absurd rfl (hstage _)

end Deed

/-! ## Executions -/

/-- A walk that executes a unit, with what it has done for the unit so far. -/
structure Execution where
  scene : Scene
  deeds : List Deed

namespace Execution

variable {serial : Nat} {u : String} {unit : FlowUnit} {resume : Resume} {e e' : Execution}

/-- The walk does something itself. -/
def Advances (serial : Nat) (u : String) (unit : FlowUnit) (resume : Resume) (e e' : Execution) : Prop :=
  ¬ Deed.IsOver e.deeds ∧ ∃ task more,
    e.scene.Conducts task serial u unit resume more e'.scene ∧ e'.deeds = e.deeds ++ more

/-- Others do something. -/
def Elapses (e e' : Execution) : Prop := e.scene.Elapses e'.scene ∧ e'.deeds = e.deeds

def Passes (serial : Nat) (u : String) (unit : FlowUnit) (resume : Resume) (e e' : Execution) : Prop :=
  e.Advances serial u unit resume e' ∨ e.Elapses e'

/-- The execution of a unit in which nothing has been done yet. -/
def about (walk : Walk) (run : RunState) (engine : Engine) (u : String) (resume : Resume) :
    Execution :=
  ⟨⟨walk, .poised (.execute u resume), run, engine⟩, []⟩

/-- How far an execution has come. -/
inductive Keeps (u : String) (unit : FlowUnit) (resume : Resume) (e : Execution) : Prop where
  | waits (hdeeds : e.deeds = []) (h : e.scene.activity = .poised (.execute u resume) ∨
      e.scene.activity = .queued u unit resume)
  | calls {stage : Stage} (hbegun : Deed.Begun u stage e.deeds)
      (hcall : e.scene.activity.IsCall ⟨u, unit, resume, stage⟩)
  | ended {before run after told : Option Cause}
      (hdeeds : e.deeds = Deed.protocol u unit.tolerant before run after told)

/-- An execution that is not over waits for its first call or is in the middle of a call. -/
theorem Keeps.going (h : e.Keeps u unit resume) (hgoing : ¬ Deed.IsOver e.deeds) :
    (e.deeds = [] ∧ (e.scene.activity = .poised (.execute u resume) ∨
      e.scene.activity = .queued u unit resume)) ∨
    ∃ stage, Deed.Begun u stage e.deeds ∧ e.scene.activity.IsCall ⟨u, unit, resume, stage⟩ := by
  cases h with
  | waits hnone h => exact .inl ⟨hnone, h⟩
  | calls hbegun hcall => exact .inr ⟨_, hbegun, hcall⟩
  | ended hover => exact absurd (hover ▸ Deed.isOver_protocol ..) hgoing

theorem Keeps.elapses (h : e.Keeps u unit resume) (helapses : e.Elapses e') :
    e'.Keeps u unit resume := by
  obtain ⟨hscene, hdeeds⟩ := helapses
  cases h with
  | ended hover => exact .ended (hdeeds.trans hover)
  | waits hnone h =>
    refine .waits (hdeeds.trans hnone) ?_
    generalize e'.scene = s' at hscene
    cases hscene with
    | others => exact h
    | flow hcalling => rcases h with h | h <;> cases h.symm.trans hcalling
  | calls hbegun hcall =>
    refine .calls (hdeeds ▸ hbegun) ?_
    generalize e'.scene = s' at hscene
    cases hscene with
    | others => exact hcall
    | flow hcalling =>
      rw [hcalling] at hcall
      exact hcall

theorem Keeps.advances (h : e.Keeps u unit resume)
    (hadvances : e.Advances serial u unit resume e') : e'.Keeps u unit resume := by
  obtain ⟨hgoing, task, more, hconducts, hmore⟩ := hadvances
  rcases h.going hgoing with ⟨hnone, h⟩ | ⟨stage, hbegun, hcall⟩
  · rw [hnone, List.nil_append] at hmore
    rcases hconducts.waiting_cases h with ⟨-, rfl, hqueued⟩ | ⟨rfl, behavior, hcall⟩
    · exact .waits hmore (.inr hqueued)
    · have hbegun : Deed.Begun u .before e'.deeds := hmore ▸ .before
      refine .calls hbegun ?_
      rw [hcall]
      rfl
  · rcases hconducts.call_cases hcall with ⟨rfl, hcall'⟩ | ⟨behavior, result, -, -, rfl, hscene⟩
    · rw [List.append_nil] at hmore
      exact .calls (hmore ▸ hbegun) hcall'
    · -- the call has come to its end
      rcases hbegun.returned unit resume result with ⟨first, next, heq, hnext, -⟩ | ⟨-, _, _, _, _, heq⟩
      · rw [heq] at hmore hscene
        obtain ⟨view, hactivity⟩ :=
          Deed.activity_foldl task serial ⟨u, unit, resume, stage⟩ e.scene first next
        refine .calls (hmore ▸ hnext) ?_
        rw [hscene, hactivity]
        rfl
      · exact .ended (hmore.trans heq)

theorem Keeps.passes (h : e.Keeps u unit resume) (hpasses : e.Passes serial u unit resume e') :
    e'.Keeps u unit resume :=
  hpasses.elim h.advances h.elapses

theorem keeps_about (walk : Walk) (run : RunState) (engine : Engine) (u : String) (unit : FlowUnit)
    (resume : Resume) : (about walk run engine u resume).Keeps u unit resume :=
  .waits rfl (.inl rfl)

/-- The walk records its unit as often as the deeds say. -/
theorem Keeps.executed (h : e.Keeps u unit resume) (hadvances : e.Advances serial u unit resume e') :
    ∃ more, e'.deeds = e.deeds ++ more ∧ e'.scene.run.executed =
      e.scene.run.executed ++ List.replicate (more.count .count) (u, unit.name) := by
  obtain ⟨hgoing, task, more, hconducts, hmore⟩ := hadvances
  refine ⟨more, hmore, hconducts.executed fun job hjob => ?_⟩
  rcases h.going hgoing with ⟨-, h⟩ | ⟨stage, -, hcall⟩
  · exact absurd h (hjob.not_waiting unit)
  · cases hcall.unique hjob
    exact ⟨rfl, rfl⟩

/-- The step that ends an execution is the one by which the walk leaves the unit. -/
theorem Keeps.leaves (h : e.Keeps u unit resume) (hadvances : e.Advances serial u unit resume e')
    (hover : Deed.IsOver e'.deeds) : ∃ next, e'.scene.activity = .poised next := by
  obtain ⟨hgoing, task, more, hconducts, hmore⟩ := hadvances
  rw [hmore] at hover
  rcases h.going hgoing with ⟨hnone, h⟩ | ⟨stage, hbegun, hcall⟩
  · rw [hnone, List.nil_append] at hover
    rcases hconducts.waiting_cases h with ⟨-, rfl, -⟩ | ⟨rfl, -⟩
    · exact absurd (hnone ▸ hover) hgoing
    · have hbegun : Deed.Begun u .before [.clear, .call .before] := .before
      exact absurd hover hbegun.not_isOver
  · rcases hconducts.call_cases hcall with ⟨rfl, -⟩ | ⟨_, result, -, -, rfl, hscene⟩
    · exact absurd (by rwa [List.append_nil] at hover) hgoing
    · rcases hbegun.returned unit resume result with ⟨_, _, heq, hnext, -⟩ | ⟨⟨first, result', heq⟩, -⟩
      · exact absurd (heq ▸ hover) hnext.not_isOver
      · rw [hscene, heq]
        exact Deed.activity_foldl_finish ..

/-- What has been done in an execution that is in the middle of a call. -/
theorem Keeps.begun {stage : Stage} (h : e.Keeps u unit resume)
    (hcall : e.scene.activity.IsCall ⟨u, unit, resume, stage⟩) (hgoing : ¬ Deed.IsOver e.deeds) :
    Deed.Begun u stage e.deeds := by
  rcases h.going hgoing with ⟨-, h⟩ | ⟨own, hbegun, hown⟩
  · exact absurd h (hcall.not_waiting unit)
  · cases hown.unique hcall
    exact hbegun

end Execution

end Workflow
