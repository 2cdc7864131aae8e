import Workflow.Proofs.Run.Apart
import Workflow.Proofs.Run.Landings

/-!
# Forks of one branch

A fork of one branch runs it in the place of its walk, where a larger fork starts each of its branches
as a task and joins them. `Scene.forkApart` does the latter for any number of branches. For one branch
both come out in the same ways (`Scene.joins_iff_forkApart`): in whatever order the tasks below the walk
move, there is an order for the other side in which the same happens, and the fork joins with the same
result, the same scope and the same units executed.

The two sides go abreast (`Scene.Abreast`): the one in a task of its own has to start the branch first
and to join it at the end, and in between each step on one side is a step on the other.
-/

namespace Workflow

/-! ## Permits while a branch runs -/

/-- Nobody has anything of the pool. -/
structure Pool.IsIdle (p : Pool) : Prop where
  size : 0 < p.size
  balanced : p.Balanced []

/-- Where no branch is in flight, the pool is idle. -/
theorem Executor.Agrees.isIdle {x : Executor} {size : Nat} (h : x.Agrees size) (hsize : 0 < size)
    (htasks : x.tasks = []) : x.engine.pool.IsIdle := by
  refine ⟨h.size ▸ hsize, ?_⟩
  have hbalanced := h.balanced
  rwa [stakes_eq_posts h.staffed, posts_of_tasks htasks] at hbalanced

theorem Engine.Beside.after {lent : Nat} {e e' : Engine} (h : e.Beside lent e') (milliseconds : Nat) :
    (e.after milliseconds).Beside lent (e'.after milliseconds) :=
  ⟨h.registry, h.listeners, h.plans, h.pool, congrArg (· + milliseconds) h.clock, h.serial, h.scope,
    h.events⟩

theorem Pool.Balanced.hasRoom {p : Pool} (h : p.Balanced []) (hsize : 0 < p.size) : p.HasRoom := by
  have hline := h.line
  rw [List.filterMap_nil, List.perm_nil, List.append_eq_nil_iff] at hline
  have hpermits := h.permits
  rw [hline.2, List.count_nil, List.length_nil] at hpermits
  exact ⟨hline.1, by omega⟩

/-- What holds of a process in the task `task` while it runs in the place of a walk. -/
structure Process.Sits (task : Nat) (pooled : Bool) (p : Process) (e : Engine) : Prop where
  fits : p.Fits
  staffed : p.Staffed pooled
  blind : p.Blind
  registry : e.registry.Blind
  outside : task < p.serial
  known : p.serial < e.nextSerial
  younger : ∀ w ∈ p.tasks, p.serial < w
  /-- If its walk needs no permits, those of the pool are for the groups inside it. -/
  permits : pooled = false → 0 < e.pool.size ∧ e.pool.Balanced p.stakes

namespace Process.Sits

variable {task who : Nat} {pooled : Bool} {p p' : Process} {run run' : RunState} {e e' : Engine}

theorem step (h : p.Sits task pooled e) (hstep : p.step who task run e = some (p', run', e')) :
    p'.Sits task pooled e' := by
  obtain ⟨site, hmoves⟩ := Process.moves_of_step hstep
  obtain ⟨hblind, hregistry⟩ := hmoves.blind h.blind h.registry
  have hnext : e.nextSerial ≤ e'.nextSerial :=
    Ledger.next_le_of_ops (hmoves.books h.fits none [] [])
  constructor
  case fits =>
    exact hmoves.fits h.fits
  case staffed =>
    exact hmoves.staffed h.fits h.staffed
  case blind =>
    exact hblind
  case registry =>
    exact hregistry
  case outside =>
    rw [hmoves.serial]
    exact h.outside
  case known =>
    rw [hmoves.serial]
    exact Nat.lt_of_lt_of_le h.known hnext
  case younger =>
    intro w hw
    rw [hmoves.serial]
    rcases hmoves.tasks_cases hw with hold | ⟨rfl, -⟩
    · exact h.younger w hold
    · exact h.known
  case permits =>
    intro hpooled
    obtain ⟨hsize, hbalanced⟩ := h.permits hpooled
    obtain ⟨hsame, hexchanges⟩ := Process.step_exchanges hstep
    have hbalanced' := hexchanges [] (by rwa [List.append_nil])
    rw [List.append_nil] at hbalanced'
    exact ⟨hsame ▸ hsize, hbalanced'⟩

/-- Time may pass. -/
theorem after (h : p.Sits task pooled e) (milliseconds : Nat) :
    p.Sits task pooled (e.after milliseconds) :=
  ⟨h.fits, h.staffed, h.blind, h.registry, h.outside, h.known, h.younger, h.permits⟩

/-- Permits make no difference to it in a task of its own. -/
theorem free (h : p.Sits task pooled e) (hforeign : pooled = false → p.foreign = [])
    (hown : (!pooled) = true) :
    p.Staffed false ∧ p.foreign = [] ∧ (p.tasks = [] → e.pool.HasRoom) := by
  obtain rfl : pooled = false := by simpa using hown
  obtain ⟨hsize, hbalanced⟩ := h.permits rfl
  refine ⟨h.staffed, hforeign rfl, fun htasks => ?_⟩
  rw [Process.stakes_eq_posts p h.staffed, Process.posts_of_tasks p htasks] at hbalanced
  exact hbalanced.hasRoom hsize

end Process.Sits

/-! ## Two ways to fork -/

/-- A walk waits for branches. -/
def Activity.waits : Activity → Bool
  | .inPlace .. | .forking .. => true
  | .poised _ | .queued .. | .working .. | .asleep .. | .calling .. => false

namespace Scene

/-- Forks branches, each as a task of its own, however many there are. -/
def forkApart (s : Scene) (task serial : Nat) (anchor : String) (branches : List (Branch Plan))
    (resume : Resume) : Scene :=
  { s.record task serial (.forked anchor (branches.map Branch.entry)) with
    activity := .forking anchor resume branches [] [] }

/-- That is how all forks are done but the smallest ones. -/
theorem fork_eq_forkApart (s : Scene) (task serial : Nat) (anchor : String)
    {branches : List (Branch Plan)} (resume : Resume) (h : 2 ≤ branches.length) :
    s.fork task serial anchor branches resume = s.forkApart task serial anchor branches resume := by
  match branches, h with
  | _ :: _ :: _, _ => rfl

/-- What can happen at a walk that waits for branches: a task does something below it or at it, or time
passes. Where the walk needs no permits, no branch of another run is in flight meanwhile. -/
inductive Moves (task serial : Nat) : Scene → Scene → Prop where
  | step {s t : Scene} {who : Nat} (hwaits : s.activity.waits = true)
      (hforeign : s.walk.pooled = false → s.activity.foreign = [])
      (hstep : s.activity.step who task serial s.walk s.run s.engine = some t) : Moves task serial s t
  | wait (s : Scene) (milliseconds : Nat) :
    Moves task serial s { s with engine := s.engine.after milliseconds }

/-- How a fork has come out. -/
structure Joint where
  result : Option Failure
  /-- The walk that has joined, and what it does next. -/
  walk : Walk
  next : Intent
  /-- The run with its scope and the units executed. -/
  run : RunState
  /-- What has been written down by then, but for the tasks. -/
  events : List (Nat × Occurrence)

/-- A walk that waits for branches can come to join them in this way. -/
def Joins (task serial : Nat) (anchor : String) (s : Scene) (j : Joint) : Prop :=
  ∃ t, Relation.ReflTransGen (Moves task serial) s t ∧ t.walk = j.walk ∧ t.activity = .poised j.next ∧
    t.run = j.run ∧ t.engine.events = j.events ∧
    j.events.getLast? = some (serial, .joined anchor j.result)

/-! ## Side by side -/

section

variable (task serial : Nat) (walk : Walk) (anchor entry : String) (resume : Resume)

/-- How a walk that waits for a branch in its place stands beside the same walk when the branch is a task
of its own. -/
inductive Abreast : Scene → Scene → Prop where
  /-- The task has not been started. -/
  | starting {branch : Branch Plan} {run : RunState} {e e' : Engine} (hentry : branch.entry = entry)
      (hopen : e'.pool.closed = false)
      (hbeside : e.Beside 0 (Engine.record { e' with
        pool := { e'.pool with inFlight := e'.pool.inFlight + 1 }
        nextSerial := e'.nextSerial + 1 } task serial (.branchStarted branch.entry e'.nextSerial)))
      (hsits : (Process.ofPlan e'.nextSerial branch.plan walk.pooled).Sits task walk.pooled e) :
    Abreast
      ⟨walk, .inPlace anchor entry resume (.ofPlan e'.nextSerial branch.plan walk.pooled), run, e⟩
      ⟨walk, .forking anchor resume [branch] [] [], run, e'⟩
  | running {p : Process} {run : RunState} {e e' : Engine} (hbeside : e.Beside (p.lent !walk.pooled) e')
      (hsits : p.Sits task walk.pooled e) :
    Abreast ⟨walk, .inPlace anchor entry resume p, run, e⟩
      ⟨walk, .forking anchor resume [] [.running entry (p.apart !walk.pooled)] [], run, e'⟩
  /-- The task is over, and has not been joined. -/
  | ended {run : RunState} {e e' : Engine} (activity : Activity) (failure : Option Failure)
      (hbeside : e.Beside 0 e') :
    Abreast
      (close ⟨walk, activity, run, e⟩ task serial anchor resume
        (failure.map (.branchFailed anchor entry)) [entry])
      ⟨walk, .forking anchor resume [] [.ended entry failure] (if failure.isNone then [entry] else []),
        run, e'⟩
  | joined {walk : Walk} {next : Intent} {run : RunState} {e e' : Engine} (hevents : e'.events = e.events) :
    Abreast ⟨walk, .poised next, run, e⟩ ⟨walk, .poised next, run, e'⟩

end

variable {task serial : Nat} {walk : Walk} {anchor entry : String} {resume : Resume}

/-- A step among the branches of a fork that has one. -/
theorem step_only {who : Nat} (hwho : who ≠ task) (q : Process) (run : RunState) (e : Engine) :
    (Activity.forking anchor resume [] [.running entry q] []).step who task serial walk run e =
      (q.step who q.serial run e).map fun (q, run, e) =>
        if q.isFinished then
          ⟨walk, .forking anchor resume [] [.ended entry q.walk.failure]
            (if q.walk.failure.isNone then [entry] else []), run, { e with pool := e.pool.finish }⟩
        else ⟨walk, .forking anchor resume [] [.running entry q] [], run, e⟩ := by
  rw [Activity.step, if_neg hwho, Child.stepIn, Child.step]
  rcases q.step who q.serial run e with _ | ⟨q, run, e⟩
  · rfl
  · simp only [Option.map_some]
    split <;> rfl

/-- While the branch runs, a step on one side is a step on the other. -/
theorem rel_running (serial : Nat) (anchor entry : String) (resume : Resume) (run : RunState)
    {p : Process} {who who' : Nat} {e e' : Engine}
    (hbeside : e.Beside (p.lent !walk.pooled) e') (hsits : p.Sits task walk.pooled e)
    (hforeign : walk.pooled = false → p.foreign = []) (hwho : SameTask task p.serial who who')
    (htask : who' ≠ task) :
    Option.Rel (Abreast task serial walk anchor entry resume)
      ((Activity.inPlace anchor entry resume p).step who task serial walk run e)
      ((Activity.forking anchor resume [] [.running entry (p.apart !walk.pooled)] []).step who' task serial
        walk run e') := by
  have hsame := Process.step_apart hwho run hsits.blind hbeside (hsits.free hforeign)
  rw [Activity.step, step_only htask, Process.serial_apart]
  rcases hstep : p.step who task run e with _ | ⟨q, run, e⟩
  · rw [eq_none_of_rel hsame hstep]
    exact .none
  · have hsits := hsits.step hstep
    obtain ⟨⟨_, _, e'⟩, hstep', rfl, rfl, hbeside⟩ := exists_of_rel hsame hstep
    rw [hstep']
    refine .some ?_
    simp only [Process.isFinished_apart, Process.walk_apart, Walk.failure_apart]
    rcases hfinished : q.isFinished with _ | _
    · simp only [Scene.stepInPlace, hfinished, Bool.false_eq_true, if_false]
      exact .running hbeside hsits
    · rw [q.lent_of_isFinished _ hfinished] at hbeside
      rw [stepInPlace_eq_close _ _ _ _ _ _ hfinished, if_pos rfl]
      obtain ⟨hclosed, hwaiting, hgranted, havailable⟩ := hbeside.pool
      exact .ended _ q.walk.failure (hbeside.withPool (p := e.pool) ⟨hclosed, hwaiting, hgranted, havailable⟩)

/-- What the walk itself does there: it starts the task of the branch. -/
theorem step_start {branch : Branch Plan} {run : RunState} {e' : Engine}
    (hopen : e'.pool.closed = false) :
    (Activity.forking anchor resume [branch] [] []).step task task serial walk run e' =
      some ⟨walk, .forking anchor resume [] [.running branch.entry
          ((Process.ofPlan e'.nextSerial branch.plan walk.pooled).apart !walk.pooled)] [], run,
        Engine.record { e' with
          pool := { e'.pool with inFlight := e'.pool.inFlight + 1 }
          nextSerial := e'.nextSerial + 1 } task serial (.branchStarted branch.entry e'.nextSerial)⟩ := by
  have hstart : e'.pool.start? = some { e'.pool with inFlight := e'.pool.inFlight + 1 } := by
    simp only [Pool.start?, hopen, Bool.false_eq_true, if_false]
  have hpooled : (Process.ofPlan e'.nextSerial branch.plan walk.pooled).apart (!walk.pooled) =
      .ofPlan e'.nextSerial branch.plan true := by
    show Process.mk _ { plan := branch.plan, pooled := walk.pooled || !walk.pooled } _ = _
    rw [Bool.or_not_self]
    rfl
  rw [Activity.step, if_pos rfl, hpooled]
  show some (Scene.startBranch _ task serial anchor resume branch [] [] []) = _
  unfold Scene.startBranch
  simp only [hstart]
  rfl

/-- And in the end it joins the branch. -/
theorem step_join {failure : Option Failure} {run : RunState} {e' : Engine} {completed : List String} :
    (Activity.forking anchor resume [] [.ended entry failure] completed).step task task serial walk run e' =
      some (close ⟨walk, .forking anchor resume [] [.ended entry failure] completed, run, e'⟩ task serial
        anchor resume (failure.map (.branchFailed anchor entry)) completed) := by
  have hfailure : joinFailure? anchor [.ended entry failure] = failure.map (.branchFailed anchor entry) := by
    cases failure <;> rfl
  rw [Activity.step, if_pos rfl, ← hfailure, ← join_eq_close]
  rfl

theorem foreign_only (q : Process) :
    (Activity.forking anchor resume [] [.running entry q] []).foreign = q.foreign :=
  List.append_nil _

/-- What the branch does in its walk's place it can do in its task. -/
theorem exists_apart {t : Scene} {p : Process} {who : Nat} {run : RunState} {e e' : Engine}
    (hbeside : e.Beside (p.lent !walk.pooled) e') (hsits : p.Sits task walk.pooled e)
    (hforeign : walk.pooled = false → p.foreign = [])
    (hstep : (Activity.inPlace anchor entry resume p).step who task serial walk run e = some t) :
    ∃ t', Moves task serial
        ⟨walk, .forking anchor resume [] [.running entry (p.apart !walk.pooled)] [], run, e'⟩ t' ∧
      Abreast task serial walk anchor entry resume t t' := by
  obtain ⟨who', hwho, htask⟩ : ∃ who', SameTask task p.serial who who' ∧ who' ≠ task := by
    by_cases heq : who = task
    · exact ⟨p.serial, .inl ⟨heq, rfl⟩, Nat.ne_of_gt hsits.outside⟩
    · refine ⟨who, .inr ⟨heq, ?_, rfl⟩, heq⟩
      -- the number of the branch is that of no task there
      rintro rfl
      rw [Activity.step, Option.map_eq_some_iff] at hstep
      obtain ⟨⟨q, run', e₁⟩, hstep, -⟩ := hstep
      obtain ⟨site, hmoves⟩ := Process.moves_of_step hstep
      exact Nat.lt_irrefl _ (hsits.younger _ (hmoves.at.1.mem_tasks.resolve_left heq))
  have hsame := rel_running serial anchor entry resume run hbeside hsits hforeign hwho htask
  obtain ⟨t', hstep', habreast⟩ := exists_of_rel hsame hstep
  refine ⟨t', .step rfl (fun hpooled => ?_) hstep', habreast⟩
  rw [foreign_only, Process.foreign_apart]
  exact hforeign hpooled

/-- What the branch does in its task it can do in its walk's place. -/
theorem exists_inPlace {t' : Scene} {p : Process} {who' : Nat} {run : RunState} {e e' : Engine}
    (hbeside : e.Beside (p.lent !walk.pooled) e') (hsits : p.Sits task walk.pooled e)
    (hforeign : walk.pooled = false → p.foreign = [])
    (hstep : (Activity.forking anchor resume [] [.running entry (p.apart !walk.pooled)] []).step who' task
      serial walk run e' = some t') :
    ∃ t, Moves task serial ⟨walk, .inPlace anchor entry resume p, run, e⟩ t ∧
      Abreast task serial walk anchor entry resume t t' := by
  have htask : who' ≠ task := by
    rintro rfl
    rw [Activity.step, if_pos rfl] at hstep
    cases hstep
  obtain ⟨who, hwho⟩ : ∃ who, SameTask task p.serial who who' := by
    by_cases heq : who' = p.serial
    · exact ⟨task, .inl ⟨rfl, heq⟩⟩
    · exact ⟨who', .inr ⟨htask, heq, rfl⟩⟩
  have hsame := rel_running serial anchor entry resume run hbeside hsits hforeign hwho htask
  rw [hstep] at hsame
  generalize hstep' : Activity.step who task serial walk _ run e = answer at hsame
  cases hsame with
  | some habreast => exact ⟨_, .step rfl hforeign hstep', habreast⟩

namespace Abreast

variable {s s' t t' : Scene}

/-- Time passes on both sides. -/
theorem after (h : Abreast task serial walk anchor entry resume s s') (milliseconds : Nat) :
    Abreast task serial walk anchor entry resume
      { s with engine := s.engine.after milliseconds }
      { s' with engine := s'.engine.after milliseconds } := by
  cases h with
  | @starting _ _ _ e' hentry hopen hbeside hsits =>
    have hopen : (e'.after milliseconds).pool.closed = false := hopen
    exact .starting hentry hopen (hbeside.after milliseconds) (hsits.after milliseconds)
  | running hbeside hsits => exact .running (hbeside.after milliseconds) (hsits.after milliseconds)
  | ended activity failure hbeside => exact .ended activity failure (hbeside.after milliseconds)
  | joined hevents => exact .joined hevents

/-- Whoever joins the branch where it was a task finds what the other side has found. -/
theorem close {activity activity' : Activity} {run : RunState} {e e' : Engine} (failure : Option Failure)
    (hbeside : e.Beside 0 e') :
    Abreast task serial walk anchor entry resume
      (Scene.close ⟨walk, activity, run, e⟩ task serial anchor resume
        (failure.map (.branchFailed anchor entry)) [entry])
      (Scene.close ⟨walk, activity', run, e'⟩ task serial anchor resume
        (failure.map (.branchFailed anchor entry)) (if failure.isNone then [entry] else [])) := by
  have hevents := (hbeside.record task task serial (o := .joined anchor
    (failure.map (.branchFailed anchor entry))) rfl).events
  cases failure with
  | none => exact .joined hevents
  | some failure => exact .joined hevents

/-- What happens where the branch runs in place happens to its task as well. -/
theorem moves (h : Abreast task serial walk anchor entry resume s s') (hmove : Moves task serial s t) :
    ∃ t', Relation.ReflTransGen (Moves task serial) s' t' ∧
      Abreast task serial walk anchor entry resume t t' := by
  cases hmove with
  | wait milliseconds => exact ⟨_, .single (.wait s' milliseconds), h.after milliseconds⟩
  | step hwaits hforeign hstep =>
    cases h with
    | @starting branch run e e' hentry hopen hbeside hsits =>
      subst hentry
      have hlent : (Process.ofPlan e'.nextSerial branch.plan walk.pooled).lent (!walk.pooled) = 0 := rfl
      obtain ⟨t', hmove, habreast⟩ := exists_apart (hlent ▸ hbeside) hsits (fun _ => rfl) hstep
      have hstart : Moves task serial ⟨walk, .forking anchor resume [branch] [] [], run, e'⟩ _ :=
        .step rfl (fun _ => rfl) (step_start hopen)
      exact ⟨t', (Relation.ReflTransGen.single hstart).tail hmove, habreast⟩
    | running hbeside hsits =>
      obtain ⟨t', hmove, habreast⟩ := exists_apart hbeside hsits hforeign hstep
      exact ⟨t', .single hmove, habreast⟩
    | ended => cases hwaits
    | joined => cases hwaits

/-- What happens where the branch is a task happens where it runs in place as well, but for the start of
the task and the joining. -/
theorem moves_back (h : Abreast task serial walk anchor entry resume s s')
    (hmove : Moves task serial s' t') :
    ∃ t, Relation.ReflTransGen (Moves task serial) s t ∧
      Abreast task serial walk anchor entry resume t t' := by
  cases hmove with
  | wait milliseconds => exact ⟨_, .single (.wait s milliseconds), h.after milliseconds⟩
  | @step _ who hwaits hforeign hstep =>
    cases h with
    | starting hentry hopen hbeside hsits =>
      subst hentry
      by_cases htask : who = task
      · subst htask
        obtain rfl := Option.some.inj ((step_start hopen).symm.trans hstep)
        exact ⟨_, .refl, .running hbeside hsits⟩
      · rw [Activity.step, if_neg htask] at hstep
        cases hstep
    | running hbeside hsits =>
      have hinside : walk.pooled = false → Process.foreign _ = [] := fun hpooled => by
        have hnone := hforeign hpooled
        rwa [foreign_only, Process.foreign_apart] at hnone
      obtain ⟨t, hmove, habreast⟩ := exists_inPlace hbeside hsits hinside hstep
      exact ⟨t, .single hmove, habreast⟩
    | ended _ failure hbeside =>
      by_cases htask : who = task
      · subst htask
        obtain rfl := Option.some.inj (step_join.symm.trans hstep)
        exact ⟨_, .refl, .close failure hbeside⟩
      · rw [Activity.step, if_neg htask] at hstep
        cases hstep
    | joined => cases hwaits

/-- However long it goes on. -/
theorem follows (h : Abreast task serial walk anchor entry resume s s')
    (hmoves : Relation.ReflTransGen (Moves task serial) s t) :
    ∃ t', Relation.ReflTransGen (Moves task serial) s' t' ∧
      Abreast task serial walk anchor entry resume t t' := by
  induction hmoves with
  | refl => exact ⟨s', .refl, h⟩
  | tail _ hmove ih =>
    obtain ⟨u', hmoves', habreast⟩ := ih
    obtain ⟨t', hmove', habreast⟩ := habreast.moves hmove
    exact ⟨t', hmoves'.trans hmove', habreast⟩

theorem follows_back (h : Abreast task serial walk anchor entry resume s s')
    (hmoves : Relation.ReflTransGen (Moves task serial) s' t') :
    ∃ t, Relation.ReflTransGen (Moves task serial) s t ∧
      Abreast task serial walk anchor entry resume t t' := by
  induction hmoves with
  | refl => exact ⟨s, .refl, h⟩
  | tail _ hmove ih =>
    obtain ⟨u, hmoves, habreast⟩ := ih
    obtain ⟨t, hmove', habreast⟩ := habreast.moves_back hmove
    exact ⟨t, hmoves.trans hmove', habreast⟩

/-- Where the branch in place has been joined, its task can be joined. -/
theorem exists_joined {next : Intent} (h : Abreast task serial walk anchor entry resume s s')
    (hpoised : s.activity = .poised next) :
    ∃ t', Relation.ReflTransGen (Moves task serial) s' t' ∧ t'.activity = .poised next ∧
      Abreast task serial walk anchor entry resume s t' := by
  cases h with
  | starting | running => cases hpoised
  | ended activity failure hbeside =>
    refine ⟨_, .single (.step rfl (fun _ => rfl) step_join), ?_, .close failure hbeside⟩
    rw [← hpoised]
    cases failure <;> rfl
  | joined hevents => exact ⟨_, .refl, hpoised, .joined hevents⟩

/-- Two walks that have joined stand alike. -/
theorem eq_of_poised {next : Intent} (h : Abreast task serial walk anchor entry resume s s')
    (hpoised : s'.activity = .poised next) :
    s'.walk = s.walk ∧ s'.activity = s.activity ∧ s'.run = s.run ∧
      s'.engine.events = s.engine.events := by
  cases h with
  | starting | running | ended => cases hpoised
  | joined hevents => exact ⟨rfl, rfl, rfl, hevents⟩

end Abreast

/-- The walk that forks one branch stands abreast with itself. -/
theorem abreast_fork (s : Scene) (task serial : Nat) (anchor : String) (branch : Branch Plan)
    (resume : Resume) (hopen : s.engine.pool.closed = false)
    (hidle : s.walk.pooled = false → s.engine.pool.IsIdle) (hblind : s.engine.registry.Blind)
    (htask : task < s.engine.nextSerial) :
    Abreast task serial s.walk anchor branch.entry resume
      (s.fork task serial anchor [branch] resume) (s.forkApart task serial anchor [branch] resume) := by
  have hsits : (Process.ofPlan s.engine.nextSerial branch.plan s.walk.pooled).Sits task s.walk.pooled
      (s.fork task serial anchor [branch] resume).engine := by
    refine ⟨Process.fits_ofPlan .., Process.staffed_ofPlan .., Process.blind_poised .., hblind, htask,
      Nat.lt_succ_self _, nofun, fun hpooled => ?_⟩
    exact ⟨(hidle hpooled).size, (hidle hpooled).balanced⟩
  have hopen : (s.forkApart task serial anchor [branch] resume).engine.pool.closed = false := hopen
  refine .starting rfl hopen ?_ hsits
  exact ⟨rfl, rfl, rfl, ⟨rfl, rfl, rfl, rfl⟩, rfl, rfl, rfl, rfl⟩

/-- A fork of one branch, which runs it in place, comes out in the same ways as one that starts it as a
task and joins it, as all larger forks do: with the same result, the same scope in which it has published
the branch or not, the same units executed, and the walk at the same point. The plan of the branch, the
run and its scope may be any, and so may the units and the order in which tasks move, as long as no unit
looks at the pool, which is open, and no other branch is in flight: none at the fork, if its walk is not
itself that of a branch, and none later of a flow that a unit runs. Such branches would have to do with one
permit less beside the task, whose unit keeps its own while it runs the flow. -/
theorem joins_iff_forkApart (s : Scene) (task serial : Nat) (anchor : String) (resume : Resume)
    (hopen : s.engine.pool.closed = false) (hidle : s.walk.pooled = false → s.engine.pool.IsIdle)
    (hblind : s.engine.registry.Blind) (htask : task < s.engine.nextSerial) :
    (∀ branches : List (Branch Plan), 2 ≤ branches.length →
      s.fork task serial anchor branches resume = s.forkApart task serial anchor branches resume) ∧
    ∀ (branch : Branch Plan) (j : Joint),
      (s.fork task serial anchor [branch] resume).Joins task serial anchor j ↔
        (s.forkApart task serial anchor [branch] resume).Joins task serial anchor j := by
  refine ⟨fun branches => s.fork_eq_forkApart task serial anchor resume, fun branch j => ?_⟩
  have hstart := s.abreast_fork task serial anchor branch resume hopen hidle hblind htask
  constructor
  · rintro ⟨t, hmoves, hwalk, hpoised, hrun, hevents, hresult⟩
    obtain ⟨u', hmoves', habreast⟩ := hstart.follows hmoves
    obtain ⟨t', hjoin, hpoised', habreast⟩ := habreast.exists_joined hpoised
    obtain ⟨hwalk', -, hrun', hevents'⟩ := habreast.eq_of_poised hpoised'
    exact ⟨t', hmoves'.trans hjoin, hwalk'.trans hwalk, hpoised', hrun'.trans hrun,
      hevents'.trans hevents, hresult⟩
  · rintro ⟨t', hmoves', hwalk, hpoised, hrun, hevents, hresult⟩
    obtain ⟨t, hmoves, habreast⟩ := hstart.follows_back hmoves'
    obtain ⟨hwalk', hactivity, hrun', hevents'⟩ := habreast.eq_of_poised hpoised
    exact ⟨t, hmoves, hwalk'.symm.trans hwalk, hactivity.symm.trans hpoised, hrun'.symm.trans hrun,
      hevents'.symm.trans hevents, hresult⟩

/-- Who does something next, and next, at a walk that waits for branches. -/
def movedBy (task serial : Nat) : List Nat → Scene → Option Scene
  | [], s => some s
  | who :: rest, s =>
    if s.activity.waits && (s.walk.pooled || s.activity.foreign.isEmpty) then
      (s.activity.step who task serial s.walk s.run s.engine).bind (movedBy task serial rest)
    else none

theorem moves_of_movedBy {task serial : Nat} {whos : List Nat} {s t : Scene}
    (h : s.movedBy task serial whos = some t) : Relation.ReflTransGen (Moves task serial) s t := by
  induction whos generalizing s with
  | nil =>
    cases h
    exact .refl
  | cons who rest ih =>
    rw [movedBy] at h
    split at h
    case isFalse => cases h
    case isTrue hmay =>
      obtain ⟨u, hstep, hrest⟩ := Option.bind_eq_some_iff.1 h
      rw [Bool.and_eq_true] at hmay
      refine .head (.step hmay.1 (fun hpooled => ?_) hstep) (ih hrest)
      simpa [hpooled] using hmay.2

theorem joins_of_movedBy {task serial : Nat} {anchor : String} {whos : List Nat} {s t : Scene}
    {result : Option Failure} (h : s.movedBy task serial whos = some t)
    (hfinished : (Process.mk serial t.walk t.activity).isFinished = true)
    (hlast : t.engine.events.getLast? = some (serial, .joined anchor result)) :
    s.Joins task serial anchor ⟨result, t.walk, .finish, t.run, t.engine.events⟩ := by
  exact ⟨t, moves_of_movedBy h, rfl, Process.activity_of_isFinished hfinished, rfl, rfl, hlast⟩

/-- Three units, of which the last one fails. -/
def threeUnits : Executor := .doing [("a", .done), ("b", .done), ("c", .fail ⟨"broken", []⟩)]

/-- A walk of a run that has just begun. -/
def beginning : Scene where
  walk := { plan := {}, pooled := false }
  activity := .poised .finish
  run := { context := {}, scopeId := 0 }
  engine := { threeUnits.engine with nextSerial := 1 }

/-- It comes to a group in which that unit is. -/
def oneBranch : Branch Plan :=
  ⟨"a", (Node.compile? (.sequence [.unit "a", .parallel [.unit "b", .unit "c"]])).getD {}⟩

/-- The branch has been forked in place, and the group in it has failed. -/
def failedBranch : Option Scene :=
  (beginning.fork 0 0 "x" [oneBranch] .detourFork).movedBy 0 0
    (List.replicate 8 0 ++ List.replicate 6 2 ++ List.replicate 5 3 ++ [0])

/-- A group fails inside the only branch of a fork, behind a unit of that branch. The branch fails with it
in place and as a task, and the units before the failure have been executed. -/
theorem joins_iff_forkApart_nested : ∃ (s : Scene) (branch : Branch Plan) (j : Joint),
    s.engine.pool.closed = false ∧ s.walk.pooled = false ∧ s.engine.pool.IsIdle ∧
      s.engine.registry.Blind ∧ 0 < s.engine.nextSerial ∧
      (s.fork 0 0 "x" [branch] .detourFork).Joins 0 0 "x" j ∧
      (s.forkApart 0 0 "x" [branch] .detourFork).Joins 0 0 "x" j ∧
      j.result = some (.branchFailed "x" "a"
        (.branchFailed "a" "c" (.unitFailed "c" .run ⟨"broken", []⟩))) ∧
      j.run.unitNames = ["a", "b", "c"] ∧ j.run.scope.completed = [] := by
  have hidle : beginning.engine.pool.IsIdle :=
    (Executor.agrees_build (x := threeUnits) (Executor.build_doing _)).isIdle (by decide) rfl
  have hblind : beginning.engine.registry.Blind := by
    have hnone : Registry.Blind {} := fun _ _ => nofun
    exact ((hnone.addUnit _ (FlowUnit.blind_doing .done _)).addUnit _
      (FlowUnit.blind_doing .done _)).addUnit _ (FlowUnit.blind_doing (.fail _) _)
  have hcomes : failedBranch.map (fun t => ((Process.mk 0 t.walk t.activity).isFinished,
      t.engine.events.getLast?, t.run.unitNames, t.run.scope.completed)) = some (true,
        some (0, .joined "x" (some (.branchFailed "x" "a"
          (.branchFailed "a" "c" (.unitFailed "c" .run ⟨"broken", []⟩))))), ["a", "b", "c"], []) := by
    decide +kernel
  obtain ⟨t, hmoved, htold⟩ := Option.map_eq_some_iff.1 hcomes
  simp only [Prod.mk.injEq] at htold
  obtain ⟨hfinished, hlast, hnames, hcompleted⟩ := htold
  have hjoins := joins_of_movedBy hmoved hfinished hlast
  have hagree := (joins_iff_forkApart beginning 0 0 "x" .detourFork rfl (fun _ => hidle) hblind
    (by decide)).2 oneBranch
  exact ⟨beginning, oneBranch, _, rfl, rfl, hidle, hblind, by decide, hjoins, (hagree _).1 hjoins, rfl,
    hnames, hcompleted⟩

end Scene

end Workflow
