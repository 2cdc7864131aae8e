import Workflow.Proofs.Run.Sites

/-!
# Customs of units

Much of what is known of a run is known because all units keep to something: they signal only what
they may, they leave some keys of the scope alone, they do not look at the pool. A `Custom` is what
all of this has in common. A unit that keeps to it does so in all its calls, a call goes on doing so
whatever it reads, and the units that it adds keep to it as well. So nobody ever departs from a custom,
whatever a task does (`Process.Moves.observes`) and however an executor moves
(`Executor.Observes.move`).
-/

namespace Workflow

/-- All units that are registered have a property. -/
def Registry.All (property : FlowUnit → Prop) (r : Registry) : Prop :=
  ∀ u unit, r.unit? u = some unit → property unit

/-- Something that units keep to in all their calls. -/
structure Custom where
  unit : FlowUnit → Prop
  call : Behavior → Prop
  before {u : FlowUnit} (h : unit u) (view : UnitView) : call (u.beforeRun view)
  run {u : FlowUnit} (h : unit u) (view : UnitView) : call (u.run view)
  after {u : FlowUnit} (h : unit u) (view : UnitView) : call (u.afterRun view)
  error {u : FlowUnit} (h : unit u) (view : UnitView) (failure : Failure) :
    call (u.onError view failure)
  does {s : Scene} {task serial : Nat} {job : Job} {behavior rest : Behavior} {run : RunState}
      {e : Engine} (h : s.Does task serial job behavior rest run e) (hcall : call behavior)
      (hunits : s.engine.registry.All unit) : call rest ∧ e.registry.All unit
  sleep {milliseconds : Nat} {next : Behavior} (h : call (.sleep milliseconds next)) : call next
  runFlow {flowId : String} {next : RunSummary → Behavior} (h : call (.runFlow flowId next))
    (summary : RunSummary) : call (next summary)

/-- What a walk is busy with keeps to a custom. -/
def Activity.Observes (custom : Custom) : Activity → Prop
  | .poised _ | .inPlace .. | .forking .. => True
  | .queued _ unit _ => custom.unit unit
  | .working job rest | .asleep job _ rest => custom.unit job.unit ∧ custom.call rest
  | .calling job _ _ next => custom.unit job.unit ∧ ∀ summary, custom.call (next summary)

inductive Process.Observes (custom : Custom) : Process → Prop where
  | mk {serial : Nat} {walk : Walk} {activity : Activity} (own : activity.Observes custom)
      (inside : ∀ q, activity.Runs q → Observes custom q) : Observes custom (.mk serial walk activity)

namespace Registry.All

variable {property : FlowUnit → Prop} {r : Registry}

theorem addUnit (h : r.All property) (u : String) {unit : FlowUnit} (hunit : property unit) :
    (r.addUnit u unit).All property := by
  intro v found hfound
  rw [unit?, Registry.addUnit, Table.get?_insert] at hfound
  split at hfound
  · cases hfound
    exact hunit
  · exact h v found hfound

theorem eraseUnit (h : r.All property) (u : String) : (r.eraseUnit u).All property := by
  intro v found hfound
  rw [unit?, Registry.eraseUnit, Table.get?_erase] at hfound
  split at hfound
  · cases hfound
  · exact h v found hfound

theorem foldl_addUnit {α : Type} {units : List α} (h : r.All property) (name : α → String)
    (unit : α → FlowUnit) (hunits : ∀ a ∈ units, property (unit a)) :
    (units.foldl (fun r a => r.addUnit (name a) (unit a)) r).All property := by
  induction units generalizing r with
  | nil => exact h
  | cons a rest ih =>
    exact ih (h.addUnit (name a) (hunits a List.mem_cons_self))
      fun b hb => hunits b (List.mem_cons_of_mem _ hb)

end Registry.All

namespace Process

variable {custom : Custom} {p q : Process} {serial : Nat} {walk : Walk}

theorem observes_poised (next : Intent) : (mk serial walk (.poised next)).Observes custom :=
  .mk trivial fun _ hruns => hruns.elim

theorem observes_working {job : Job} {rest : Behavior} (hunit : custom.unit job.unit)
    (hcall : custom.call rest) : (mk serial walk (.working job rest)).Observes custom :=
  .mk ⟨hunit, hcall⟩ fun _ hruns => hruns.elim

theorem Observes.of_runs {activity : Activity} (h : (Process.mk serial walk activity).Observes custom)
    (hruns : activity.Runs q) : q.Observes custom := by
  obtain ⟨-, hinside⟩ := h
  exact hinside q hruns

/-- Giving up tasks leaves nobody who has not been there before. -/
theorem Observes.cancelTasks (h : p.Observes custom) : p.cancelTasks.Observes custom := by
  induction h with
  | @mk serial walk activity own inside ih =>
    cases activity with
    | poised | queued | working | asleep => exact .mk own inside
    | calling job run root next =>
      refine .mk own fun q hruns => ?_
      cases hruns
      exact ih _ rfl
    | inPlace anchor entry resume branch =>
      refine .mk trivial fun q hruns => ?_
      cases hruns
      exact ih _ rfl
    | forking anchor resume toStart children completed =>
      refine .mk trivial fun q hruns => ?_
      obtain ⟨entry, hmem⟩ := hruns
      exact absurd hmem Child.not_running_cancel

end Process

/-! ## One step at one walk -/

namespace Scene

variable {custom : Custom} {s s' : Scene} {task serial : Nat}

theorem units_announce (hunits : s.engine.registry.All custom.unit) (task serial : Nat) (job : Job)
    (moment : Moment) (failure : Option Failure) :
    (s.announce task serial job moment failure).engine.registry.All custom.unit := by
  obtain ⟨event, heq⟩ := s.announce_eq task serial job moment failure
  rw [heq]
  exact hunits

/-- The end of a unit leaves a walk that knows what to do next. -/
theorem observes_endUnit (hunits : s.engine.registry.All custom.unit) (task serial : Nat) (job : Job)
    (result : Option Mishap) :
    ((s.endUnit task serial job result).process serial).Observes custom ∧
      (s.endUnit task serial job result).engine.registry.All custom.unit := by
  rw [endUnit_eq]
  exact ⟨Process.observes_poised _, hunits⟩

/-- What a walk does where it stands leaves everybody keeping to the custom. -/
theorem Steps.observes (h : s.Steps task serial s') (hprocess : (s.process serial).Observes custom)
    (hunits : s.engine.registry.All custom.unit) :
    (s'.process serial).Observes custom ∧ s'.engine.registry.All custom.unit := by
  obtain ⟨hown, hinside⟩ := hprocess
  have hruns : ∀ q, s'.activity.Runs q → q.Observes custom := by
    intro q hruns
    -- a branch that has just been started has done nothing yet
    rcases h.runs_cases hruns with ⟨hold, -⟩ | ⟨plan, pooled, rfl⟩
    · exact hinside q hold.runs
    · exact Process.observes_poised _
  cases h with
  | advance | missing | forksNone | joins => exact ⟨Process.observes_poised _, hunits⟩
  | queues _ hunit => exact ⟨.mk (hunits _ _ hunit) fun _ hruns => hruns.elim, hunits⟩
  | begins _ hunit =>
    have hobserves := hunits _ _ hunit
    exact ⟨Process.observes_working hobserves (custom.before hobserves _), hunits⟩
  | granted h =>
    rw [h] at hown
    exact ⟨Process.observes_working hown (custom.before hown _), hunits⟩
  | does h hdoes =>
    rw [h] at hown
    obtain ⟨hrest, hadded⟩ := custom.does hdoes hown.2 hunits
    exact ⟨Process.observes_working hown.1 hrest, hadded⟩
  | sleeps h =>
    rw [h] at hown
    exact ⟨.mk ⟨hown.1, custom.sleep hown.2⟩ fun _ hruns => hruns.elim, hunits⟩
  | wakes h =>
    rw [h] at hown
    exact ⟨Process.observes_working hown.1 hown.2, hunits⟩
  | opens h =>
    rw [h] at hown
    exact ⟨.mk ⟨hown.1, custom.runFlow hown.2⟩ hruns, hunits⟩
  | runs h =>
    rw [h] at hown
    exact ⟨Process.observes_working hown.1 (custom.run hown.1 _),
      units_announce hunits task serial _ .before none⟩
  | tidies h =>
    rw [h] at hown
    exact ⟨Process.observes_working hown.1 (custom.after hown.1 _), hunits⟩
  | fails h =>
    rw [h] at hown
    exact ⟨Process.observes_working hown.1 (custom.error hown.1 _ _), hunits⟩
  | ends | gaveUp =>
    exact observes_endUnit (units_announce hunits task serial _ _ _) task serial _ _
  | forksOne | forks | starts | refuses => exact ⟨.mk trivial hruns, hunits⟩

/-- What listeners are known to be however they are told of units, they go on to be. -/
theorem Steps.listeners {P : Listeners → Prop}
    (hannounce : ∀ l event scope, P l → P (l.announce event scope).listeners)
    (h : s.Steps task serial s') (hlisteners : P s.engine.listeners) : P s'.engine.listeners := by
  have htold : ∀ (job : Job) moment failure,
      P (s.announce task serial job moment failure).engine.listeners := by
    intro job moment failure
    obtain ⟨event, heq⟩ := s.announce_eq task serial job moment failure
    rw [heq]
    exact hannounce _ event s.run.scope hlisteners
  cases h with
  | does _ hdoes => cases hdoes <;> exact hlisteners
  | runs => exact htold ..
  | ends | gaveUp =>
    rw [endUnit_eq]
    exact htold ..
  | advance | missing | queues | begins | granted | sleeps | wakes | opens | tidies | fails | forksNone
  | forksOne | forks | starts | refuses | joins => exact hlisteners

end Scene

/-! ## Steps in a tree -/

namespace Process

variable {custom : Custom} {who task : Nat} {p p' : Process} {run run' : RunState} {e e' : Engine}
  {site : Site}

/-- Whatever a task does, everybody goes on keeping to the custom. -/
theorem Moves.observes (h : p.Moves who site task run e p' run' e') (hprocess : p.Observes custom)
    (hunits : e.registry.All custom.unit) : p'.Observes custom ∧ e'.registry.All custom.unit := by
  induction h with
  | here h => exact h.observes hprocess hunits
  | called _ _ ih =>
    obtain ⟨hown, hinside⟩ := hprocess
    obtain ⟨hroot, he⟩ := ih (hinside _ rfl) hunits
    refine ⟨.mk hown fun q hruns => ?_, he⟩
    cases hruns
    exact hroot
  | returned _ _ ih =>
    obtain ⟨hown, hinside⟩ := hprocess
    exact ⟨observes_working hown.1 (hown.2 _), (ih (hinside _ rfl) hunits).2⟩
  | inPlace _ _ ih =>
    obtain ⟨hbranch, he⟩ := ih (hprocess.of_runs rfl) hunits
    refine ⟨.mk trivial fun q hruns => ?_, he⟩
    cases hruns
    exact hbranch
  | inPlaceEnded _ _ hclose ih =>
    subst hclose
    exact ⟨observes_poised _, (ih (hprocess.of_runs rfl) hunits).2⟩
  | @child _ _ _ _ entry _ _ _ _ _ branch _ _ _ _ _ _ _ _ _ ih =>
    obtain ⟨-, hinside⟩ := hprocess
    obtain ⟨hbranch, he⟩ := ih (hinside branch ⟨entry, by simp⟩) hunits
    refine ⟨.mk trivial fun q hruns => ?_, he⟩
    -- the branch has moved, and all others are where they were
    rcases Child.running_of_moved hruns branch with rfl | hold
    · exact hbranch
    · exact hinside q hold
  | @childEnded _ _ _ _ entry _ _ _ _ _ _ branch _ _ _ _ _ _ _ _ _ _ ih =>
    obtain ⟨-, hinside⟩ := hprocess
    refine ⟨.mk trivial fun q hruns => ?_, (ih (hinside branch ⟨entry, by simp⟩) hunits).2⟩
    exact hinside q (Child.running_of_ended hruns)

theorem Moves.listeners {P : Listeners → Prop}
    (hannounce : ∀ l event scope, P l → P (l.announce event scope).listeners)
    (h : p.Moves who site task run e p' run' e') (hlisteners : P e.listeners) : P e'.listeners := by
  induction h with
  | here h => exact h.listeners hannounce hlisteners
  | called _ _ ih | returned _ _ ih | inPlace _ _ ih | child _ _ _ ih | childEnded _ _ _ _ ih =>
    exact ih hlisteners
  | inPlaceEnded _ _ hclose ih =>
    subst hclose
    exact ih hlisteners

end Process

/-! ## Executors -/

namespace Executor

variable {custom : Custom} {x y : Executor} {m : Move}

/-- All units that are registered, and all that are at work, keep to a custom. -/
structure Observes (custom : Custom) (x : Executor) : Prop where
  units : x.engine.registry.All custom.unit
  runs : ∀ run ∈ x.runs, run.root.Observes custom

theorem Observes.move (h : x.Observes custom) (hmove : x.move m = some y) : y.Observes custom := by
  refine ⟨?_, fun own hown => ?_⟩
  · rcases engine_cases hmove with
      ⟨who, run, site, root, state, rfl, hrun, hmoves⟩ | ⟨hregistry, -⟩
    · exact (hmoves.observes (h.runs run hrun) h.units).2
    · rw [hregistry]
      exact h.units
  · cases comesBy hmove hown with
    | stays hrun => exact h.runs own hrun
    | moves _ hrun hmoves =>
      exact (hmoves.observes (h.runs _ (List.mem_of_getElem? hrun)) h.units).1
    | launched hlaunched => cases hlaunched <;> exact Process.observes_poised _
    | givesUp hrun => exact (h.runs _ hrun).cancelTasks

theorem listeners_move {P : Listeners → Prop}
    (hannounce : ∀ l event scope, P l → P (l.announce event scope).listeners)
    (hmove : x.move m = some y) (hlisteners : P x.engine.listeners) : P y.engine.listeners := by
  rcases engine_cases hmove with ⟨who, run, site, root, state, rfl, hrun, hmoves⟩ | ⟨-, hsame⟩
  · exact hmoves.listeners hannounce hlisteners
  · rw [hsame]
    exact hlisteners

end Executor

end Workflow
