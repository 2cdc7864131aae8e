import Workflow.Executor

/-!
# Histories

A history of an executor is a list of moves, each with the executor that made it. Nothing is asked
of the order in which tasks move, of the time that passes in between, or of what else is launched or
shut down meanwhile: a statement about all histories is a statement about all schedules.

What a property has to do to hold along a history is said once, in `History.invariant`.
`Executor.follow` makes given moves one after another, so that a history can be written down.
-/

namespace Workflow

/-- The ways in which an executor moves. -/
inductive Move where
  /-- A task does one thing. -/
  | step (who : Nat)
  | wait (milliseconds : Nat)
  | launch (request : Request) (context : Context)
  | beginShutdown
  | settleShutdown

namespace Executor

/-- The executor after a move, unless the move is that of a task which has to wait. -/
def move (x : Executor) : Move → Option Executor
  | .step who => x.step who
  | .wait milliseconds => some (x.wait milliseconds)
  | .launch request context => some (x.launch request context).2
  | .beginShutdown => some x.beginShutdown
  | .settleShutdown => some x.settleShutdown

/-- The move ends a shutdown at its deadline, so that the branches which are left are given up. -/
def GivesUpBy (x : Executor) (m : Move) : Prop :=
  m = .settleShutdown ∧ ∃ deadline, x.shutdown = .draining deadline ∧
    x.engine.pool.inFlight ≠ 0 ∧ deadline ≤ x.engine.clock

/-- The moves that lead from one executor to another, each with the executor before it. -/
inductive History (start : Executor) : List (Executor × Move) → Executor → Prop where
  | start : History start [] start
  | move {past : List (Executor × Move)} {x y : Executor} {m : Move} (h : History start past x)
      (hmove : x.move m = some y) : History start (past ++ [(x, m)]) y

namespace History

variable {start last x y z : Executor} {past more : List (Executor × Move)} {m : Move}

/-- What holds at the start and is kept by every move holds all along. -/
theorem invariant {P : Executor → Prop} (h : start.History past last) (hstart : P start)
    (hmove : ∀ x m y, (x, m) ∈ past → P x → x.move m = some y → P y) : P last := by
  induction h with
  | start => exact hstart
  | @move past x y m _ hxy ih =>
    have hx : P x := ih fun x m y hmem => hmove x m y (List.mem_append_left _ hmem)
    exact hmove x m y (by simp) hx hxy

theorem trans (h : x.History past y) (h' : y.History more z) : x.History (past ++ more) z := by
  induction h' with
  | start => rwa [List.append_nil]
  | move _ hmove ih =>
    rw [← List.append_assoc]
    exact ih.move hmove

/-- Every executor that made a move has a history of its own, and so has what follows it. -/
theorem split (h : start.History past last) (hmem : (x, m) ∈ past) :
    ∃ before after y, past = before ++ (x, m) :: after ∧ start.History before x ∧
      x.move m = some y ∧ y.History after last := by
  induction h with
  | start => cases hmem
  | @move past z last m' hpast hmove ih =>
    rcases List.mem_append.mp hmem with hmem | hmem
    · obtain ⟨before, after, y, rfl, hbefore, hx, hafter⟩ := ih hmem
      exact ⟨before, after ++ [(z, m')], y, by simp, hbefore, hx, hafter.move hmove⟩
    · cases List.mem_singleton.mp hmem
      exact ⟨past, [], last, rfl, hpast, hmove, .start⟩

end History

/-- Makes moves one after another, leaving out those that cannot be made. -/
def follow (x : Executor) : List Move → List (Executor × Move) × Executor
  | [] => ([], x)
  | m :: rest =>
    match x.move m with
    | none => x.follow rest
    | some y => ((x, m) :: (y.follow rest).1, (y.follow rest).2)

theorem history_follow (x : Executor) (moves : List Move) :
    x.History (x.follow moves).1 (x.follow moves).2 := by
  induction moves generalizing x with
  | nil => exact .start
  | cons m rest ih =>
    unfold follow
    rcases hmove : x.move m with _ | y
    · exact ih x
    · exact (History.start.move hmove).trans (ih y)

theorem move_eq_follow {x : Executor} {m : Move} (h : (x.move m).isSome = true) :
    x.move m = some (x.follow [m]).2 := by
  obtain ⟨y, hmove⟩ := Option.isSome_iff_exists.mp h
  rw [follow, hmove]
  rfl

theorem mem_follow {x y : Executor} {m : Move} {moves : List Move} (h : (y, m) ∈ (x.follow moves).1) :
    m ∈ moves := by
  induction moves generalizing x with
  | nil => cases h
  | cons first rest ih =>
    unfold follow at h
    rcases hmove : x.move first with _ | next
    · rw [hmove] at h
      exact List.mem_cons_of_mem _ (ih h)
    · rw [hmove] at h
      rcases List.mem_cons.mp h with heq | h
      · cases heq
        exact List.mem_cons_self
      · exact List.mem_cons_of_mem _ (ih h)

/-! ## The runs of an executor -/

section

variable {x y : Executor} {who : Nat}

/-- An executor that has just been built has no runs. -/
theorem eq_of_build {config : Config} {registry : Registry} {listeners : Listeners}
    (h : build config registry listeners = .ok x) :
    x = { engine := .start config registry listeners } := by
  unfold build at h
  split at h <;> cases h
  rfl

theorem exists_stepRuns {e e' : Engine} {runs runs' : List Run}
    (h : stepRuns who e runs = some (runs', e')) :
    ∃ before run after root state, runs = before ++ run :: after ∧
      run.root.step who run.root.serial run.state e = some (root, state, e') ∧
      runs' = before ++ ⟨state, root⟩ :: after := by
  induction runs generalizing runs' with
  | nil => cases h
  | cons run rest ih =>
    rw [stepRuns] at h
    split at h
    · next root state engine hroot =>
      cases h
      exact ⟨[], run, rest, root, state, rfl, hroot, rfl⟩
    · rw [Option.map_eq_some_iff] at h
      obtain ⟨⟨rest', engine⟩, hrest, heq⟩ := h
      cases heq
      obtain ⟨before, own, after, root, state, rfl, hroot, rfl⟩ := ih hrest
      exact ⟨run :: before, own, after, root, state, rfl, hroot, rfl⟩

/-- A step of an executor is a step of one of its runs. -/
theorem exists_step (h : x.step who = some y) :
    ∃ before run after root state e', x.runs = before ++ run :: after ∧
      run.root.step who run.root.serial run.state x.engine = some (root, state, e') ∧
      y = { x with runs := before ++ ⟨state, root⟩ :: after, engine := e' } := by
  rw [Executor.step, Option.map_eq_some_iff] at h
  obtain ⟨⟨runs, e'⟩, hruns, rfl⟩ := h
  obtain ⟨before, run, after, root, state, hbefore, hroot, rfl⟩ := exists_stepRuns hruns
  exact ⟨before, run, after, root, state, e', hbefore, hroot, rfl⟩

end

end Executor

/-! ## Executors to try things on -/

/-- A unit that does something when it runs, and nothing before and after. -/
def FlowUnit.doing (name : String) (work : Behavior) : FlowUnit where
  name := name
  kind := ""
  tolerant := false
  beforeRun := fun _ => .done
  run := fun _ => work
  afterRun := fun _ => .done
  onError := fun _ _ => .done

/-- An executor with such units under their own names. -/
def Executor.doing (units : List (String × Behavior)) : Executor where
  engine := .start {} (units.foldl (fun r u => r.addUnit u.1 (.doing u.1 u.2)) {}) {}

theorem Executor.build_doing (units : List (String × Behavior)) :
    build {} (units.foldl (fun r u => r.addUnit u.1 (.doing u.1 u.2)) {}) {} = .ok (doing units) :=
  rfl

end Workflow
