import Workflow.Proofs.Run.Allowance
import Workflow.Proofs.Run.Staffing

/-!
# Courses

A `Course` is what happens to an executor move after move, without end. It is fair if a task that
need not wait, from some moment on, makes a step at some later moment (`Course.IsFair`). Whether units
come to their end is for the units to see to (`Course.UnitsReturn`).

The line at the pool is served in order: by a move, whoever holds a permit keeps it and nobody is
overtaken, or the first in line is handed one, or all are given up (`Executor.line_move`). So in a
fair course in which units return nobody waits for a permit for good (`Course.not_queued`): the walks
that hold the permits come to the end of their units one after another.
-/

namespace Workflow

/-! ## Tasks that need not wait -/

section

variable {who task : Nat} {p : Process} {run : RunState} {e : Engine} {site : Site}

theorem Child.isSome_stepIn {children : List Child} {child : Child} (hmem : child ∈ children)
    (h : (child.step who run e).isSome = true) : (stepIn who children run e).isSome = true := by
  induction children with
  | nil => cases hmem
  | cons first rest ih =>
    rw [stepIn]
    split
    · rfl
    · next hnone =>
      rw [Option.isSome_map]
      rcases List.mem_cons.mp hmem with rfl | hmem
      · rw [hnone] at h
        cases h
      · exact ih hmem

/-- A walk that does something itself does it in the task of its process. -/
theorem Process.step_here {serial : Nat} {walk : Walk} {activity : Activity} {s : Scene}
    (hhere : Scene.stepHere ⟨walk, activity, run, e⟩ task serial = some s) :
    (mk serial walk activity).step task task run e =
      some (mk serial s.walk s.activity, s.run, s.engine) := by
  rw [step]
  cases activity with
  | calling | inPlace => cases hhere
  | poised | queued | working | asleep | forking =>
    rw [Activity.step, if_pos rfl]
    · exact congrArg (Option.map fun s : Scene => (mk serial s.walk s.activity, s.run, s.engine)) hhere
    all_goals simp

/-- A task whose walk need not wait can make a step. -/
theorem Process.At.isSome_step (h : p.At who task run site)
    (hnodup : (task :: p.activity.serials).Nodup)
    (hhere : (Scene.stepHere ⟨site.process.walk, site.process.activity, site.run, e⟩ who
      site.process.serial).isSome = true) : (p.step who task run e).isSome = true := by
  induction h with
  | @here p run =>
    obtain ⟨s, hs⟩ := Option.isSome_iff_exists.mp hhere
    obtain ⟨serial, walk, activity⟩ := p
    exact Option.isSome_of_eq_some (step_here hs)
  | called h ih =>
    rw [Process.step, Option.isSome_map, Activity.step, Option.isSome_map]
    exact ih (nodup_activity hnodup) hhere
  | inPlace h ih =>
    rw [Site.process_within, Site.run_within] at hhere
    rw [Process.step, Option.isSome_map, Activity.step, Option.isSome_map]
    exact ih (nodup_activity hnodup) hhere
  | child hmem h ih =>
    obtain ⟨hne, hbranch⟩ := h.ne_task hmem hnodup
    rw [Site.process_within, Site.run_within] at hhere
    rw [Process.step, Option.isSome_map, Activity.step, if_neg hne, Option.isSome_map]
    refine Child.isSome_stepIn hmem ?_
    rw [Child.step, Option.isSome_map]
    exact ih hbranch hhere

theorem Executor.At.isSome_step {x : Executor} {i : Nat} (h : x.At i who site)
    (hnumbered : x.ledger.Numbered)
    (hhere : (Scene.stepHere ⟨site.process.walk, site.process.activity, site.run, x.engine⟩ who
      site.process.serial).isSome = true) : (x.step who).isSome = true := by
  obtain ⟨run, hrun, hat⟩ := h
  have hsome := hat.isSome_step (nodup_root hnumbered hrun) hhere
  by_contra hnone
  rw [Option.not_isSome_iff_eq_none] at hnone
  rw [stepRuns_eq_none (Option.map_eq_none_iff.mp hnone) (List.mem_of_getElem? hrun)] at hsome
  cases hsome

/-- A process whose walk has not come to its end has not finished. -/
theorem Process.isFinished_eq_false (h : p.activity ≠ .poised .finish) : p.isFinished = false :=
  Bool.eq_false_iff.mpr fun hfinished => h (activity_of_isFinished hfinished)

/-- In a process that has finished there is no walk that has not. -/
theorem Process.not_at_of_isFinished (hfinished : p.isFinished = true)
    (hrunning : site.process.isFinished = false) : ¬ p.At who task run site := by
  intro hat
  rw [has_of_isFinished hat.has hfinished, hfinished] at hrunning
  cases hrunning

/-- Which task a walk belongs to does not depend on the state of the run. -/
theorem Process.At.any_run (h : p.At who task run site) (run' : RunState) :
    ∃ site', p.At who task run' site' ∧ site'.process = site.process := by
  induction h with
  | here => exact ⟨_, .here, rfl⟩
  | called h => exact ⟨_, .called h, rfl⟩
  | inPlace h ih =>
    obtain ⟨inner, hat, heq⟩ := ih
    exact ⟨_, .inPlace hat, by rw [Site.process_within, Site.process_within, heq]⟩
  | child hmem h ih =>
    obtain ⟨inner, hat, heq⟩ := ih
    exact ⟨_, .child hmem hat, by rw [Site.process_within, Site.process_within, heq]⟩

/-- A walk that waits for nothing below it stays where it is when another task does something. -/
theorem Process.Moves.at_of_alone {who' : Nat} {p' : Process} {run' : RunState} {e' : Engine}
    {moved : Site} (h : p.Moves who' moved task run e p' run' e') (hat : p.At who task run site)
    (halone : ∀ r, ¬ site.process.activity.Runs r) (hunfinished : site.process.isFinished = false)
    (hne : who' ≠ who) :
    ∃ site', p'.At who task run' site' ∧ site'.process = site.process := by
  -- The other task moves elsewhere: above the walk, where it can only start or refuse branches, in
  -- a branch next to it, or further inside, where the hypothesis applies. Nothing that the walk is
  -- in can end, as the walk has not.
  induction h generalizing who site with
  | here h =>
    cases hat with
    | here => exact absurd rfl hne
    | called | inPlace => exact h.isOwn.elim
    | child hmem hat =>
      rw [Site.process_within]
      cases h with
      | starts heq | refuses heq =>
        cases heq
        exact ⟨_, .child (List.mem_append_left _ hmem) hat, Site.process_within ..⟩
      | joins heq hover =>
        cases heq
        -- a branch that still runs keeps its fork from being joined
        cases List.all_eq_true.mp hover _ hmem
      | advance heq | missing heq | queues heq | begins heq | granted heq | does heq | sleeps heq
      | wakes heq | opens heq | runs heq | tidies heq | ends heq | fails heq | gaveUp heq
      | forksNone heq | forksOne heq | forks heq => cases heq
  | called h hrunning ih =>
    cases hat with
    | here => exact absurd rfl (halone _)
    | called hat =>
      obtain ⟨inner, hat', heq⟩ := ih hat halone hunfinished hne
      exact ⟨inner.called, .called hat', heq⟩
  | returned h hfinished ih =>
    cases hat with
    | here => exact absurd rfl (halone _)
    | called hat =>
      obtain ⟨inner, hat', heq⟩ := ih hat halone hunfinished hne
      exact (not_at_of_isFinished hfinished (heq ▸ hunfinished) hat').elim
  | @inPlace task serial walk anchor entry resume branch branch' run run' e e' moved h hrunning ih =>
    cases hat with
    | here => exact absurd rfl (halone _)
    | inPlace hat =>
      rw [Site.process_within] at halone hunfinished ⊢
      obtain ⟨inner, hat', heq⟩ := ih hat halone hunfinished hne
      exact ⟨inner.within serial, .inPlace hat', by rw [Site.process_within, heq]⟩
  | inPlaceEnded h hfinished hclose ih =>
    cases hat with
    | here => exact absurd rfl (halone _)
    | inPlace hat =>
      rw [Site.process_within] at halone hunfinished
      obtain ⟨inner, hat', heq⟩ := ih hat halone hunfinished hne
      exact (not_at_of_isFinished hfinished (heq ▸ hunfinished) hat').elim
  | child h hrunning htask ih =>
    cases hat with
    | here => exact absurd ⟨_, mem_children ..⟩ (halone _)
    | child hmem hat =>
      rw [Site.process_within] at halone hunfinished ⊢
      rcases mem_around.mp hmem with heq | hsibling
      · cases heq
        obtain ⟨inner, hat', heq⟩ := ih hat halone hunfinished hne
        rw [← h.serial] at hat'
        exact ⟨_, .child (mem_children ..) hat', by rw [Site.process_within, heq]⟩
      · obtain ⟨inner, hat', heq⟩ := hat.any_run _
        exact ⟨_, .child (mem_of_around hsibling _) hat', by rw [Site.process_within, heq]⟩
  | childEnded h hfinished htask hcompleted ih =>
    cases hat with
    | here => exact absurd ⟨_, mem_children ..⟩ (halone _)
    | child hmem hat =>
      rw [Site.process_within] at halone hunfinished ⊢
      rcases mem_around.mp hmem with heq | hsibling
      · cases heq
        obtain ⟨inner, hat', heq⟩ := ih hat halone hunfinished hne
        exact (not_at_of_isFinished hfinished (heq ▸ hunfinished) hat').elim
      · obtain ⟨inner, hat', heq⟩ := hat.any_run _
        exact ⟨_, .child (mem_of_around hsibling _) hat', by rw [Site.process_within, heq]⟩

end

/-! ## The line at the pool -/

/-- What happens between two states of a pool and of the walks that are in the middle of units, each
with a permit. Who has been handed a permit goes on with it. The first in line is handed one, or all
keep what they have, and whoever comes to the line stands behind. -/
structure Pool.Serves (p : Pool) (working : List Nat) (p' : Pool) (working' : List Nat) : Prop where
  granted : ∀ w ∈ p.granted, w ∈ p'.granted ∨ w ∈ working'
  line : p'.waiting = p.waiting.tail ∨
    (∃ more, p'.waiting = p.waiting ++ more) ∧ working ⊆ working'

namespace Pool

variable {p p' : Pool} {working working' : List Nat}

theorem serves_of_eq (hwaiting : p'.waiting = p.waiting) (hgranted : p'.granted = p.granted)
    (hworking : working ⊆ working') : p.Serves working p' working' :=
  ⟨fun _ hw => .inl (hgranted ▸ hw), .inr ⟨⟨[], by rw [hwaiting, List.append_nil]⟩, hworking⟩⟩

/-- Others keep what they have. -/
theorem Serves.around (h : p.Serves working p' working') (before after : List Nat) :
    p.Serves (before ++ working ++ after) p' (before ++ working' ++ after) := by
  refine ⟨fun w hw => ?_, h.line.imp id fun ⟨hwaiting, hworking⟩ => ⟨hwaiting, fun w hw => ?_⟩⟩
  · exact (h.granted w hw).imp id fun hin => List.mem_append_left _ (List.mem_append_right _ hin)
  · simp only [List.mem_append] at hw ⊢
    exact hw.imp (Or.imp_right fun hin => hworking hin) id

/-- Whatever leaves the line and the permits as they are. -/
theorem Serves.of_pool {p'' : Pool} (h : p.Serves working p' working')
    (hwaiting : p''.waiting = p'.waiting) (hgranted : p''.granted = p'.granted) :
    p.Serves working p'' working' := by
  refine ⟨?_, ?_⟩
  · rw [hgranted]
    exact h.granted
  · rw [hwaiting]
    exact h.line

/-- Who stays in line is not overtaken, and comes nearer to its head when the first is handed a
permit. -/
theorem Serves.idxOf_le {w : Nat} (h : p.Serves working p' working') (hnodup : p.waiting.Nodup)
    (hin : w ∈ p.waiting) (hin' : w ∈ p'.waiting) :
    p'.waiting.idxOf w ≤ p.waiting.idxOf w ∧
      (p'.waiting = p.waiting.tail → p'.waiting.idxOf w < p.waiting.idxOf w) := by
  have hserved : p'.waiting = p.waiting.tail → p'.waiting.idxOf w < p.waiting.idxOf w := by
    intro htail
    rw [htail] at hin' ⊢
    rcases hwaiting : p.waiting with _ | ⟨first, rest⟩
    · rw [hwaiting] at hin
      cases hin
    · rw [hwaiting] at hnodup hin'
      have hne : first ≠ w := by
        rintro rfl
        exact (List.nodup_cons.mp hnodup).1 hin'
      rw [List.tail_cons, List.idxOf_cons_ne _ hne]
      exact Nat.lt_succ_self _
  refine ⟨?_, hserved⟩
  rcases h.line with htail | ⟨⟨more, hmore⟩, -⟩
  · exact Nat.le_of_lt (hserved htail)
  · rw [hmore, List.idxOf_append_of_mem hin]

theorem serves_release (p : Pool) (working working' : List Nat) :
    p.Serves working p.release working' := by
  obtain ⟨size, available, waiting, granted, inFlight, closed⟩ := p
  cases waiting with
  | nil => exact ⟨fun _ hw => .inl hw, .inl rfl⟩
  | cons first rest => exact ⟨fun _ hw => .inl (List.mem_append_left _ hw), .inl rfl⟩

end Pool

/-- The walks of a process that are in the middle of a unit on a branch. -/
def Process.working (onBranch : Bool) (p : Process) : List Nat :=
  ((p.posts onBranch).filter Post.begun).map Post.walk

/-- The walks in the branches of a fork that are in the middle of a unit. -/
def Child.workingIn (children : List Child) : List Nat :=
  ((postsIn children).filter Post.begun).map Post.walk

theorem Child.workingIn_append (children more : List Child) :
    workingIn (children ++ more) = workingIn children ++ workingIn more := by
  induction children with
  | nil => rfl
  | cons child rest ih =>
    have hcons : ∀ others, workingIn (child :: others) =
        ((child.posts).filter Post.begun).map Post.walk ++ workingIn others := by
      intro others
      rw [workingIn, postsIn, List.filter_append, List.map_append, workingIn]
    rw [List.cons_append, hcons, hcons, ih, List.append_assoc]

theorem Child.workingIn_middle (before after : List Child) (entry : String) (branch : Process) :
    workingIn (before ++ .running entry branch :: after) =
      workingIn before ++ branch.working true ++ workingIn after := by
  rw [workingIn_append, List.append_assoc]
  congr 1
  rw [workingIn, postsIn, List.filter_append, List.map_append]
  rfl

theorem Process.working_of_isFinished {p : Process} (onBranch : Bool) (h : p.isFinished = true) :
    p.working onBranch = [] := by
  obtain ⟨serial, walk, rfl⟩ := exists_of_isFinished h
  rfl

/-- A walk on a branch is in the middle of a unit that runs a flow, and so are walks in that flow. -/
theorem Process.working_calling (onBranch : Bool) (serial : Nat) (walk : Walk) (job : Job)
    (inner : RunState) (root : Process) (next : RunSummary → Behavior) :
    (mk serial walk (.calling job inner root next)).working onBranch =
      (if onBranch then [serial] else []) ++ root.working false := by
  rw [working, posts, Activity.posts, List.filter_append, List.map_append]
  cases onBranch <;> rfl

namespace Scene

variable {s s' : Scene} {task serial : Nat} {onBranch : Bool}

/-- At the end of a unit the first in line is handed the permit of the unit, if it had one. -/
theorem serves_endUnit (job : Job) {working : List Nat} (hpooled : s.walk.pooled = onBranch)
    (hworking : onBranch = false → working = []) (task serial : Nat) (moment : Moment)
    (failure : Option Failure) (result : Option Mishap) (working' : List Nat) :
    s.engine.pool.Serves working
      ((s.announce task serial job moment failure).endUnit task serial job result).engine.pool
      working' := by
  rw [endUnit_eq, pool_announce]
  show s.engine.pool.Serves working
    (if s.walk.pooled then s.engine.pool.release else s.engine.pool) working'
  cases onBranch with
  | true =>
    rw [if_pos hpooled]
    exact s.engine.pool.serves_release working working'
  | false =>
    rw [if_neg (by rw [hpooled]; simp), hworking rfl]
    exact Pool.serves_of_eq rfl rfl (List.nil_subset _)

theorem Does.line {job : Job} {behavior rest : Behavior} {run : RunState} {e : Engine}
    (h : s.Does task serial job behavior rest run e) :
    e.pool.waiting = s.engine.pool.waiting ∧ e.pool.granted = s.engine.pool.granted := by
  cases h <;> exact ⟨rfl, rfl⟩

/-- By a step of a walk the first in line is handed a permit, or all keep what they have. -/
theorem Steps.serves (h : s.Steps task serial s') (hstaffed : (s.process serial).Staffed onBranch) :
    s.engine.pool.Serves ((s.process serial).working onBranch) s'.engine.pool
      ((s'.process serial).working onBranch) := by
  obtain ⟨hpooled, hqueued, -, -⟩ := hstaffed
  have hidle : ∀ next, s.activity = .poised next → (s.process serial).working onBranch = [] := by
    intro next h
    rw [Scene.process, h]
    rfl
  have hends : ∀ job rest, s.activity = .working job rest → onBranch = false →
      (s.process serial).working onBranch = [] := by
    rintro job rest h rfl
    rw [Scene.process, h]
    rfl
  -- what a unit does in the middle of its calls
  have hstays : ∀ {job rest}, s.activity = .working job rest → ∀ {job' rest'},
      s'.activity = .working job' rest' → (s.process serial).working onBranch ⊆
        (s'.process serial).working onBranch := by
    intro job rest h job' rest' h'
    rw [Scene.process, Scene.process, h, h']
    cases onBranch <;> exact List.Subset.refl _
  cases h with
  | advance h | missing h | forksNone h | forksOne h | forks h =>
    rw [hidle _ h]
    exact Pool.serves_of_eq rfl rfl (List.nil_subset _)
  | queues h =>
    rw [hidle _ h]
    exact ⟨fun _ hw => .inl hw, .inr ⟨⟨[serial], rfl⟩, List.nil_subset _⟩⟩
  | @begins _ _ _ pool h hunit hpool =>
    rw [hidle _ h]
    have hline : pool.waiting = s.engine.pool.waiting ∧ pool.granted = s.engine.pool.granted := by
      split at hpool
      · unfold Pool.take? at hpool
        split at hpool
        · cases hpool
        · cases hpool
          exact ⟨rfl, rfl⟩
      · rw [hpool]
        exact ⟨rfl, rfl⟩
    exact Pool.serves_of_eq hline.1 hline.2 (List.nil_subset _)
  | @granted u unit resume h hgranted =>
    obtain rfl := hqueued u unit resume h
    have hnone : (s.process serial).working true = [] := by
      rw [Scene.process, h]
      rfl
    rw [hnone]
    refine ⟨fun w hw => ?_, .inr ⟨⟨[], (List.append_nil _).symm⟩, List.nil_subset _⟩⟩
    by_cases heq : w = serial
    · exact .inr (List.mem_singleton.mpr heq)
    · exact .inl ((List.mem_erase_of_ne heq).mpr hw)
  | does h hdoes => exact Pool.serves_of_eq hdoes.line.1 hdoes.line.2 (hstays h rfl)
  | tidies h => exact Pool.serves_of_eq rfl rfl (hstays h rfl)
  | fails h => exact Pool.serves_of_eq rfl rfl (hstays h rfl)
  | @runs job h =>
    have hpool := pool_announce s task serial job .before none
    exact Pool.serves_of_eq (congrArg Pool.waiting hpool) (congrArg Pool.granted hpool) (hstays h rfl)
  | sleeps h | wakes h | opens h =>
    refine Pool.serves_of_eq rfl rfl ?_
    rw [Scene.process, Scene.process, h]
    cases onBranch <;> exact List.Subset.refl _
  | ends h | gaveUp h =>
    exact serves_endUnit _ hpooled (hends _ _ h) ..
  | @starts anchor resume branch toStart children completed h =>
    refine Pool.serves_of_eq rfl rfl ?_
    rw [Scene.process, h]
    show Child.workingIn children ⊆ Child.workingIn (children ++ _)
    rw [Child.workingIn_append]
    exact List.subset_append_left _ _
  | @refuses anchor resume branch toStart children completed h =>
    refine Pool.serves_of_eq rfl rfl ?_
    rw [Scene.process, h]
    show Child.workingIn children ⊆ Child.workingIn (children ++ _)
    rw [Child.workingIn_append]
    exact List.subset_append_left _ _
  | @joins anchor resume children completed h hover =>
    have hnone : (s.process serial).working onBranch = [] := by
      rw [Scene.process, h]
      show Child.workingIn children = []
      rw [Child.workingIn, Child.postsIn_of_tasksIn children (Child.tasksIn_of_over hover)]
      rfl
    rw [hnone]
    exact Pool.serves_of_eq rfl rfl (List.nil_subset _)

end Scene

/-- By a step of a task the first in line is handed a permit, or all keep what they have. -/
theorem Process.Moves.serves {who task : Nat} {p p' : Process} {run run' : RunState} {e e' : Engine}
    {site : Site} {onBranch : Bool} (h : p.Moves who site task run e p' run' e')
    (hstaffed : p.Staffed onBranch) :
    e.pool.Serves (p.working onBranch) e'.pool (p'.working onBranch) := by
  -- What the other walks hold stands around what the part that moves holds, on both sides.
  induction h generalizing onBranch with
  | here h => exact h.serves hstaffed
  | @called _ serial _ _ _ _ _ _ _ _ _ _ _ h hrunning ih =>
    obtain ⟨-, -, -, hinside⟩ := hstaffed
    have hroot := (ih (hinside _ rfl)).around (if onBranch then [serial] else []) []
    rw [List.append_nil, List.append_nil] at hroot
    rw [working_calling, working_calling]
    exact hroot
  | @returned _ serial _ _ _ _ _ _ _ _ _ _ _ h hfinished ih =>
    obtain ⟨-, -, -, hinside⟩ := hstaffed
    have hroot := (ih (hinside _ rfl)).around (if onBranch then [serial] else []) []
    rw [working_of_isFinished _ hfinished, List.append_nil, List.append_nil, List.append_nil] at hroot
    rw [working_calling]
    cases onBranch <;> exact hroot
  | inPlace h hrunning ih =>
    obtain ⟨-, -, -, hinside⟩ := hstaffed
    exact ih (hinside _ rfl)
  | inPlaceEnded h hfinished hclose ih =>
    obtain ⟨-, -, -, hinside⟩ := hstaffed
    have hbranch := ih (hinside _ rfl)
    rw [working_of_isFinished _ hfinished] at hbranch
    subst hclose
    exact hbranch
  | @child _ _ _ _ entry _ _ before after _ branch branch' _ _ _ _ _ h hrunning htask ih =>
    obtain ⟨-, -, -, hinside⟩ := hstaffed
    have hbranch : Staffed true branch := hinside branch ⟨entry, mem_children ..⟩
    have hserves := (ih hbranch).around (Child.workingIn before) (Child.workingIn after)
    rw [← Child.workingIn_middle before after entry, ← Child.workingIn_middle before after entry]
      at hserves
    exact hserves
  | @childEnded _ _ _ _ entry _ _ before after _ _ branch branch' _ _ _ _ _ h hfinished htask _ ih =>
    obtain ⟨-, -, -, hinside⟩ := hstaffed
    have hbranch : Staffed true branch := hinside branch ⟨entry, mem_children ..⟩
    have hserves := (ih hbranch).around (Child.workingIn before) (Child.workingIn after)
    rw [← Child.workingIn_middle before after entry, working_of_isFinished _ hfinished,
      List.append_nil] at hserves
    have hended : Child.workingIn (before ++ .ended entry branch'.walk.failure :: after) =
        Child.workingIn before ++ Child.workingIn after := by
      rw [Child.workingIn_append]
      rfl
    rw [← hended] at hserves
    exact hserves.of_pool rfl rfl

/-- A walk that goes on with the permit that it has been handed. -/
theorem Process.Moves.accepts {who task : Nat} {p p' : Process} {run run' : RunState} {e e' : Engine}
    {site : Site} {u : String} {unit : FlowUnit} {resume : Resume}
    (h : p.Moves who site task run e p' run' e')
    (hqueued : site.process.activity = .queued u unit resume) :
    e'.pool.granted = e.pool.granted.erase site.process.serial := by
  induction h with
  | here h =>
    cases h with
    | granted => rfl
    | advance heq | missing heq | queues heq | begins heq | does heq | sleeps heq | wakes heq
    | opens heq | runs heq | tidies heq | ends heq | fails heq | gaveUp heq | forksNone heq
    | forksOne heq | forks heq | starts heq | refuses heq | joins heq => cases hqueued.symm.trans heq
  | called _ _ ih | returned _ _ ih => exact ih hqueued
  | inPlaceEnded _ _ hclose ih =>
    rw [Site.process_within] at hqueued ⊢
    subst hclose
    exact ih hqueued
  | inPlace _ _ ih | child _ _ _ ih | childEnded _ _ _ _ ih =>
    rw [Site.process_within] at hqueued ⊢
    exact ih hqueued

theorem Child.mem_postsIn {post : Post} {children : List Child} : post ∈ postsIn children ↔
    ∃ entry branch, .running entry branch ∈ children ∧ post ∈ branch.posts true := by
  induction children with
  | nil => simp [postsIn]
  | cons child rest ih =>
    rw [postsIn, List.mem_append, ih]
    constructor
    · rintro (h | ⟨entry, branch, hmem, hin⟩)
      · cases child with
        | running entry branch => exact ⟨entry, branch, List.mem_cons_self, h⟩
        | refused | ended | cancelled => cases h
      · exact ⟨entry, branch, List.mem_cons_of_mem _ hmem, hin⟩
    · rintro ⟨entry, branch, hmem, hin⟩
      rcases List.mem_cons.mp hmem with rfl | hmem
      · exact .inl hin
      · exact .inr ⟨entry, branch, hmem, hin⟩

/-- Who waits for a permit stands somewhere in the process. -/
theorem Process.exists_queued {p : Process} {post : Post} (task : Nat) (run : RunState)
    (onBranch : Bool) (h : post ∈ p.posts onBranch) (hwaits : post.begun = false) :
    ∃ who site, p.At who task run site ∧ site.process.serial = post.walk ∧
      ∃ u unit resume, site.process.activity = .queued u unit resume := by
  induction p using Process.induction_runs generalizing task run onBranch with
  | h serial walk activity ih =>
    cases activity with
    | poised => cases h
    | queued u unit resume =>
      rw [posts, Activity.posts] at h
      split at h
      · obtain rfl := List.mem_singleton.mp h
        exact ⟨task, _, .here, rfl, u, unit, resume, rfl⟩
      · cases h
    -- in the middle of a unit a walk holds its permit
    | working | asleep =>
      rw [posts, Activity.posts] at h
      split at h
      · obtain rfl := List.mem_singleton.mp h
        cases hwaits
      · cases h
    | calling job inner root next =>
      rcases List.mem_append.mp h with h | h
      · split at h
        · obtain rfl := List.mem_singleton.mp h
          cases hwaits
        · cases h
      · obtain ⟨who, site, hat, hqueued⟩ := ih root rfl task inner false h
        exact ⟨who, _, .called hat, hqueued⟩
    | inPlace anchor entry resume branch =>
      obtain ⟨who, site, hat, hqueued⟩ := ih branch rfl task run onBranch h
      exact ⟨who, _, .inPlace hat, by rwa [Site.process_within]⟩
    | forking anchor resume toStart children completed =>
      obtain ⟨entry, branch, hmem, hin⟩ := Child.mem_postsIn.mp h
      obtain ⟨who, site, hat, hqueued⟩ := ih branch ⟨entry, hmem⟩ branch.serial run true hin
      exact ⟨who, _, .child hmem hat, by rwa [Site.process_within]⟩

namespace Executor

variable {x y : Executor} {m : Move} {size : Nat}

/-- The walks that are in the middle of a unit with a permit. -/
def working (x : Executor) : List Nat := x.lifecycles.map Post.walk

theorem working_eq_flatMap (x : Executor) :
    x.working = x.runs.flatMap fun run => run.root.working false := by
  rw [working, lifecycles, posts, List.filter_flatMap, List.map_flatMap]
  rfl

/-- When the branches are given up, all who wait for a permit are gone with them. -/
theorem queue_of_givesUp (hgives : x.GivesUpBy m) (hmove : x.move m = some y) : y.queue = [] := by
  obtain ⟨rfl, deadline, hshutdown, hflight, hclock⟩ := hgives
  cases hmove
  have hposts : x.settleShutdown.posts = [] := by
    rw [settleShutdown, hshutdown]
    simp only
    rw [if_neg hflight, if_pos hclock, posts, List.flatMap_eq_nil_iff]
    intro own hown
    obtain ⟨run, hrun, rfl⟩ := List.mem_map.mp hown
    exact Process.posts_of_tasks _ (Process.tasks_cancelTasks run.root)
  rw [queue, hposts]
  rfl

/-- By a move the first in line is handed a permit, or all keep what they have, or all are given
up. -/
theorem line_move (h : x.Agrees size) (hmove : x.move m = some y) :
    x.engine.pool.Serves x.working y.engine.pool y.working ∨ y.queue = [] := by
  cases m with
  | step who =>
    left
    obtain ⟨before, run, after, root, state, e', hruns, hstep, rfl⟩ := exists_step hmove
    obtain ⟨site, hmoves⟩ := Process.moves_of_step hstep
    have hserves := (hmoves.serves (h.staffed run (by simp [hruns]))).around
      (before.flatMap fun run => run.root.working false)
      (after.flatMap fun run => run.root.working false)
    rw [working_eq_flatMap, working_eq_flatMap, hruns]
    simp only [List.flatMap_append, List.flatMap_cons, ← List.append_assoc]
    exact hserves
  | wait | beginShutdown =>
    cases hmove
    exact .inl (Pool.serves_of_eq rfl rfl (List.Subset.refl _))
  | launch request context =>
    cases hmove
    rcases x.launch_cases request context with
      ⟨outcome, plans, hlaunch⟩ | ⟨root, plans, hroot, hlaunch⟩
    · rw [hlaunch]
      exact .inl (Pool.serves_of_eq rfl rfl (List.Subset.refl _))
    · rw [hlaunch]
      refine .inl (Pool.serves_of_eq rfl rfl ?_)
      rw [working_eq_flatMap, working_eq_flatMap, List.flatMap_append]
      exact List.subset_append_left _ _
  | settleShutdown =>
    rcases x.settleShutdown_cases with ⟨shutdown, heq⟩ | ⟨hgives, -⟩
    · cases hmove
      rw [heq]
      exact .inl (Pool.serves_of_eq rfl rfl (List.Subset.refl _))
    · exact .inr (queue_of_givesUp hgives hmove)

theorem Agrees.perm_queue (h : x.Agrees size) :
    (x.engine.pool.waiting ++ x.engine.pool.granted).Perm x.queue := by
  have hline := h.balanced.line
  rwa [stakes_eq_posts h.staffed, filterMap_stake_eq_map] at hline

/-- Where a walk waits for a permit, or has been handed one and has not gone on. -/
theorem exists_queued {w : Nat} (h : w ∈ x.queue) :
    ∃ i who site, x.At i who site ∧ site.process.serial = w ∧
      ∃ u unit resume, site.process.activity = .queued u unit resume := by
  obtain ⟨post, hpost, rfl⟩ := List.mem_map.mp h
  obtain ⟨hpost, hwaits⟩ := List.mem_filter.mp hpost
  obtain ⟨run, hrun, hpost⟩ := List.mem_flatMap.mp hpost
  obtain ⟨i, hi⟩ := List.getElem?_of_mem hrun
  obtain ⟨who, site, hat, hqueued⟩ := Process.exists_queued run.root.serial run.state false hpost
    (by simpa using hwaits)
  exact ⟨i, who, site, ⟨run, hi, hat⟩, hqueued⟩

/-- Who is in the middle of a unit with a permit. -/
theorem exists_of_working {w : Nat} (h : w ∈ x.working) :
    ∃ q, x.Has q ∧ q.serial = w ∧ q.activity.IsAtWork := by
  obtain ⟨post, hpost, rfl⟩ := List.mem_map.mp h
  obtain ⟨hpost, hbegun⟩ := List.mem_filter.mp hpost
  obtain ⟨run, hrun, hpost⟩ := List.mem_flatMap.mp hpost
  obtain ⟨q, hhas, hserial, hpursuit⟩ := Process.exists_of_mem_posts false run.root hpost
  refine ⟨q, ⟨run, hrun, hhas⟩, hserial, ?_⟩
  rw [if_pos hbegun] at hpursuit
  obtain ⟨serial, walk, activity⟩ := q
  cases activity with
  | working | asleep | calling => trivial
  | poised | queued | inPlace | forking => cases hpursuit

/-- While somebody waits, somebody else holds a permit. -/
theorem Agrees.exists_holder (h : x.Agrees size) (hsize : 0 < size)
    (hwaiting : x.engine.pool.waiting ≠ []) : ∃ v, v ∈ x.working ∨ v ∈ x.engine.pool.granted := by
  have hpermits := h.balanced.permits
  rw [h.balanced.busy hwaiting, stakes_eq_posts h.staffed, count_stake_eq_length, h.size] at hpermits
  rcases hgranted : x.engine.pool.granted with _ | ⟨v, rest⟩
  · rw [hgranted, List.length_nil] at hpermits
    have hsome : x.working ≠ [] := by
      intro hnone
      have hlength := congrArg List.length hnone
      rw [working, lifecycles, List.length_map, List.length_nil] at hlength
      omega
    obtain ⟨v, hv⟩ := List.exists_mem_of_ne_nil _ hsome
    exact ⟨v, .inl hv⟩
  · exact ⟨v, .inr List.mem_cons_self⟩

end Executor

/-! ## Courses -/

/-- What happens to an executor, move after move and without end. -/
structure Course where
  executor : Nat → Executor
  move : Nat → Move
  moves : ∀ n, (executor n).move (move n) = some (executor (n + 1))

namespace Course

/-- A task that need not wait, from some moment on, makes a step at some later moment. -/
def IsFair (c : Course) : Prop :=
  ∀ n who, (∀ k, n ≤ k → ((c.executor k).step who).isSome = true) →
    ∃ k, n ≤ k ∧ c.move k = .step who

/-- A unit that a walk is in the middle of comes to its end at some later moment, or its walk is given
up. -/
def UnitsReturn (c : Course) : Prop :=
  ∀ n q, (c.executor n).Has q → q.activity.IsAtWork →
    ∃ k, n ≤ k ∧ ∀ r, (c.executor k).Has r → r.serial = q.serial → ¬ r.activity.IsAtWork

variable {c : Course} {size : Nat}

theorem agrees (h : (c.executor 0).Agrees size) (n : Nat) : (c.executor n).Agrees size := by
  induction n with
  | zero => exact h
  | succ n ih => exact ih.move (c.moves n)

/-- A walk that has been handed a permit goes on with it. -/
theorem not_granted (hfair : c.IsFair) (hagrees : (c.executor 0).Agrees size) (n w : Nat) :
    ¬ ∀ k, n ≤ k → w ∈ (c.executor k).engine.pool.granted := by
  intro hgranted
  have hagrees := agrees hagrees
  have hqueue : ∀ k, n ≤ k → w ∈ (c.executor k).queue := fun k hk =>
    (hagrees k).perm_queue.subset (List.mem_append_right _ (hgranted k hk))
  obtain ⟨i, who, site, hat, hserial, u, unit, resume, hqueued⟩ :=
    Executor.exists_queued (hqueue n (Nat.le_refl n))
  -- the walk does not go on, for then it would have been handed its permit no longer
  have hstays : ∀ k, n ≤ k → ∀ (run : Run) (moved : Site) (task : Nat) (run' : Run),
      run.root.Moves task moved run.root.serial run.state (c.executor k).engine run'.root run'.state
        (c.executor (k + 1)).engine → moved.process ≠ site.process := by
    intro k hk run moved task run' hmoves hsame
    have hnodup := (hagrees k).nodup.of_append_left.of_append_right
    have hin := hgranted (k + 1) (Nat.le_succ_of_le hk)
    rw [hmoves.accepts (hsame ▸ hqueued), hsame, hserial] at hin
    exact hnodup.not_mem_erase hin
  have hthere : ∀ j, ∃ site', (c.executor (n + j)).At i who site' ∧ site'.process = site.process := by
    intro j
    induction j with
    | zero => exact ⟨site, hat, rfl⟩
    | succ j ih =>
      obtain ⟨site', ⟨run, hrun, hat'⟩, heq⟩ := ih
      obtain ⟨run', hrun', haffects⟩ :=
        Executor.affected (hagrees (n + j)).numbered (c.moves (n + j)) hrun
      cases haffects with
      | others => exact ⟨site', ⟨run, hrun', hat'⟩, heq⟩
      | @step task moved _ _ hmoves =>
        have hactivity : site'.process.activity = .queued u unit resume := heq ▸ hqueued
        have hne : task ≠ who := by
          rintro rfl
          have hmoved := hat'.unique (Executor.nodup_root (hagrees (n + j)).numbered hrun)
            (by rw [hactivity]; trivial) hmoves.at.1 hmoves.at.2
          exact hstays (n + j) (Nat.le_add_right n j) run moved task run' hmoves (hmoved ▸ heq)
        obtain ⟨site'', hat'', heq'⟩ := hmoves.at_of_alone hat' (by rw [hactivity]; exact fun _ => id)
          (Process.isFinished_eq_false (by rw [hactivity]; nofun)) hne
        rw [← hmoves.serial] at hat''
        exact ⟨site'', ⟨run', hrun', hat''⟩, heq'.trans heq⟩
      | givesUp hgives =>
        have hin := hqueue (n + (j + 1)) (Nat.le_add_right n _)
        rw [← Nat.add_assoc, Executor.queue_of_givesUp hgives (c.moves (n + j))] at hin
        cases hin
  -- it need not wait, so that it goes on all the same
  have hready : ∀ k, n ≤ k → ((c.executor k).step who).isSome = true := by
    intro k hk
    obtain ⟨j, rfl⟩ := Nat.exists_eq_add_of_le hk
    obtain ⟨site', hat', heq⟩ := hthere j
    refine hat'.isSome_step (hagrees (n + j)).numbered ?_
    have hin : (c.executor (n + j)).engine.pool.isGranted w = true :=
      List.contains_iff_mem.mpr (hgranted (n + j) hk)
    rw [heq, Scene.stepHere, hqueued, hserial]
    simp only
    rw [if_pos hin]
    rfl
  obtain ⟨k, hk, hmove⟩ := hfair n who hready
  obtain ⟨j, rfl⟩ := Nat.exists_eq_add_of_le hk
  obtain ⟨site', hat', heq⟩ := hthere j
  obtain ⟨run, hrun, -⟩ := id hat'
  have hstep := c.moves (n + j)
  rw [hmove] at hstep
  obtain ⟨run', -, haffects⟩ := Executor.affected (hagrees (n + j)).numbered hstep hrun
  have hown : site'.process.activity.IsOwn := by
    rw [heq, hqueued]
    trivial
  exact hstays (n + j) hk run site' who run'
    (haffects.site_eq (hagrees (n + j)).numbered hrun hat' hown) heq

/-- Nobody is in the middle of a unit for good. -/
theorem not_working (hreturn : c.UnitsReturn) (n w : Nat) :
    ¬ ∀ k, n ≤ k → w ∈ (c.executor k).working := by
  intro hworking
  obtain ⟨q, hhas, hserial, hwork⟩ := Executor.exists_of_working (hworking n (Nat.le_refl n))
  obtain ⟨k, hk, hover⟩ := hreturn n q hhas hwork
  obtain ⟨r, hhas', hserial', hwork'⟩ := Executor.exists_of_working (hworking k hk)
  exact hover r hhas' (hserial'.trans hserial.symm) hwork'

/-- Nobody stands in line for good: whoever has a permit comes to the end of the unit, and then the
first in line is handed the permit. -/
theorem not_waiting (hfair : c.IsFair) (hreturn : c.UnitsReturn) (hagrees : (c.executor 0).Agrees size)
    (hsize : 0 < size) (w n : Nat) :
    ¬ ∀ k, n ≤ k → w ∈ (c.executor k).engine.pool.waiting := by
  have hall := agrees hagrees
  -- the number of walks before it in the line goes down
  induction hahead : (c.executor n).engine.pool.waiting.idxOf w using Nat.strong_induction_on
    generalizing n with
  | h ahead ih =>
    intro hwaiting
    have hserves : ∀ k, n ≤ k → (c.executor k).engine.pool.Serves (c.executor k).working
        (c.executor (k + 1)).engine.pool (c.executor (k + 1)).working := by
      intro k hk
      refine (Executor.line_move (hall k) (c.moves k)).resolve_right fun hnone => ?_
      have hin := (hall (k + 1)).perm_queue.subset
        (List.mem_append_left _ (hwaiting (k + 1) (Nat.le_succ_of_le hk)))
      rw [hnone] at hin
      cases hin
    have hcloser : ∀ k, n ≤ k → _ := fun k hk =>
      (hserves k hk).idxOf_le (hall k).nodup.of_append_right (hwaiting k hk)
        (hwaiting (k + 1) (Nat.le_succ_of_le hk))
    have hbefore : ∀ k, n ≤ k → (c.executor k).engine.pool.waiting.idxOf w ≤ ahead := by
      intro k hk
      induction k, hk using Nat.le_induction with
      | base => exact Nat.le_of_eq hahead
      | succ k hk ih => exact Nat.le_trans (hcloser k hk).1 ih
    by_cases hserved : ∃ k, n ≤ k ∧
        (c.executor (k + 1)).engine.pool.waiting = (c.executor k).engine.pool.waiting.tail
    · obtain ⟨k, hk, htail⟩ := hserved
      exact ih _ (Nat.lt_of_lt_of_le ((hcloser k hk).2 htail) (hbefore k hk)) (k + 1) rfl
        fun j hj => hwaiting j (Nat.le_trans hk (Nat.le_of_succ_le hj))
    · -- then whoever has a permit keeps it
      have hkeeps : ∀ k, n ≤ k → (c.executor k).working ⊆ (c.executor (k + 1)).working := fun k hk =>
        ((hserves k hk).line.resolve_left fun htail => hserved ⟨k, hk, htail⟩).2
      have hworking : ∀ k v, n ≤ k → v ∉ (c.executor k).working := by
        intro k v hk hv
        refine not_working hreturn k v fun j hj => ?_
        induction j, hj using Nat.le_induction with
        | base => exact hv
        | succ j hj ih => exact hkeeps j (Nat.le_trans hk hj) ih
      obtain ⟨v, hv⟩ := (hall n).exists_holder hsize (List.ne_nil_of_mem (hwaiting n (Nat.le_refl n)))
      have hgranted := hv.resolve_left (hworking n v (Nat.le_refl n))
      refine not_granted hfair hagrees n v fun k hk => ?_
      induction k, hk using Nat.le_induction with
      | base => exact hgranted
      | succ k hk ih =>
        exact ((hserves k hk).granted v ih).resolve_right (hworking (k + 1) v (Nat.le_succ_of_le hk))

/-- In a fair course in which units return, nobody waits for a permit for good. -/
theorem not_queued (hfair : c.IsFair) (hreturn : c.UnitsReturn) (hagrees : (c.executor 0).Agrees size)
    (hsize : 0 < size) (w n : Nat) : ¬ ∀ k, n ≤ k → w ∈ (c.executor k).queue := by
  intro hqueue
  have hall := agrees hagrees
  have hline : ∀ k, n ≤ k → w ∈ (c.executor k).engine.pool.waiting ∨
      w ∈ (c.executor k).engine.pool.granted := fun k hk =>
    List.mem_append.mp ((hall k).perm_queue.mem_iff.mpr (hqueue k hk))
  by_cases hgranted : ∃ k, n ≤ k ∧ w ∈ (c.executor k).engine.pool.granted
  · obtain ⟨k, hk, hgranted⟩ := hgranted
    refine not_granted hfair hagrees k w fun j hj => ?_
    induction j, hj using Nat.le_induction with
    | base => exact hgranted
    | succ j hj ih =>
      have hlater : n ≤ j + 1 := Nat.le_trans hk (Nat.le_succ_of_le hj)
      rcases Executor.line_move (hall j) (c.moves j) with hserves | hnone
      · refine (hserves.granted w ih).resolve_right fun hworking => ?_
        -- nobody waits who is in the middle of a unit
        have hnodup := (hall (j + 1)).nodup
        rw [Executor.holders, List.append_assoc] at hnodup
        refine List.disjoint_of_nodup_append hnodup hworking ?_
        exact List.mem_append.mpr (hline (j + 1) hlater).symm
      · have hin := hqueue (j + 1) hlater
        rw [hnone] at hin
        cases hin
  · exact not_waiting hfair hreturn hagrees hsize w n fun k hk =>
      (hline k hk).resolve_right fun hin => hgranted ⟨k, hk, hin⟩

end Course

end Workflow
