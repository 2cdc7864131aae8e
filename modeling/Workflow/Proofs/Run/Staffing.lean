import Mathlib.Data.List.Flatten
import Workflow.Proofs.Run.Sites
import Workflow.Proofs.Run.Standstill

/-!
# Who holds the permits

A branch of a fork is a task of the pool, and the walks in it need a permit for every unit. Which
walks these are can be seen from where they stand in the tree: those of a task of the pool, and of
branches that run in place in such a task, but not those of a flow that a unit runs.
`Process.posts` lists the units that these walks execute or wait to execute, `Process.tasks` the
tasks themselves.

`Executor.History.staffed_pool` says how the permits are distributed after any history: each is available,
or handed over, or held by one such unit in progress.
-/

namespace Workflow

/-! ## Units on branches -/

/-- A unit that a walk on a branch executes. -/
structure Post where
  walk : Nat
  unitId : String
  /-- Its first call has begun. Before that, the walk waits for a permit. -/
  begun : Bool
  deriving DecidableEq

def Post.stake (post : Post) : Stake := if post.begun then .permit else .place post.walk true

mutual

/-- The units that walks on branches execute. `onBranch` tells whether the process itself is one. -/
def Process.posts (onBranch : Bool) : Process → List Post
  | .mk serial _ activity => activity.posts onBranch serial

def Activity.posts (onBranch : Bool) (serial : Nat) : Activity → List Post
  | .poised _ => []
  | .queued u _ _ => if onBranch then [⟨serial, u, false⟩] else []
  | .working job _ | .asleep job _ _ => if onBranch then [⟨serial, job.unitId, true⟩] else []
  | .calling job _ root _ =>
    (if onBranch then [⟨serial, job.unitId, true⟩] else []) ++ root.posts false
  | .inPlace _ _ _ branch => branch.posts onBranch
  | .forking _ _ _ children _ => Child.postsIn children

def Child.postsIn : List Child → List Post
  | [] => []
  | child :: rest => child.posts ++ Child.postsIn rest

def Child.posts : Child → List Post
  | .running _ process => process.posts true
  | .refused _ | .ended .. | .cancelled _ => []

end

mutual

/-- The branches in a process that are tasks of the pool. -/
def Process.tasks : Process → List Nat
  | .mk _ _ activity => activity.tasks

def Activity.tasks : Activity → List Nat
  | .poised _ | .queued .. | .working .. | .asleep .. => []
  | .calling _ _ root _ => root.tasks
  | .inPlace _ _ _ branch => branch.tasks
  | .forking _ _ _ children _ => Child.tasksIn children

def Child.tasksIn : List Child → List Nat
  | [] => []
  | child :: rest => child.tasks ++ Child.tasksIn rest

def Child.tasks : Child → List Nat
  | .running _ process => process.serial :: process.tasks
  | .refused _ | .ended .. | .cancelled _ => []

end

namespace Child

theorem tasksIn_append (children more : List Child) :
    tasksIn (children ++ more) = tasksIn children ++ tasksIn more := by
  induction children with
  | nil => rfl
  | cons child rest ih => rw [List.cons_append, tasksIn, tasksIn, ih, List.append_assoc]

theorem tasksIn_of_over {children : List Child} (h : children.all isOver = true) :
    tasksIn children = [] := by
  induction children with
  | nil => rfl
  | cons child rest ih =>
    rw [List.all_cons, Bool.and_eq_true] at h
    rw [tasksIn, ih h.2, List.append_nil]
    cases child with
    | running => exact absurd h.1 (by simp [isOver])
    | refused | ended | cancelled => rfl

end Child

/-- Walks that have finished have no branches. -/
theorem Process.tasks_of_isFinished {p : Process} (h : p.isFinished = true) : p.tasks = [] := by
  obtain ⟨serial, walk, rfl⟩ := exists_of_isFinished h
  rfl

mutual

/-- Outside branches no unit needs a permit. -/
theorem Process.posts_of_tasks : (p : Process) → p.tasks = [] → p.posts false = []
  | .mk serial _ activity, h => Activity.posts_of_tasks serial activity h

theorem Activity.posts_of_tasks (serial : Nat) :
    (activity : Activity) → activity.tasks = [] → activity.posts false serial = []
  | .poised _, _ | .queued .., _ | .working .., _ | .asleep .., _ => rfl
  | .calling _ _ root _, h => Process.posts_of_tasks root h
  | .inPlace _ _ _ branch, h => Process.posts_of_tasks branch h
  | .forking _ _ _ children _, h => Child.postsIn_of_tasksIn children h

theorem Child.postsIn_of_tasksIn :
    (children : List Child) → Child.tasksIn children = [] → Child.postsIn children = []
  | [], _ => rfl
  | child :: rest, h => by
    obtain ⟨hchild, hrest⟩ := List.append_eq_nil_iff.mp h
    rw [Child.postsIn, Child.postsIn_of_tasksIn rest hrest, List.append_nil]
    cases child with
    | running => cases hchild
    | refused | ended | cancelled => rfl

end

mutual

/-- A walk executes one unit at a time. -/
theorem Process.posts_sublist (onBranch : Bool) :
    (p : Process) → ((p.posts onBranch).map Post.walk).Sublist p.serials
  | .mk serial _ activity => by
    match activity with
    | .poised _ => exact List.nil_sublist _
    | .queued .. | .working .. | .asleep .. =>
      cases onBranch
      · exact List.nil_sublist _
      · exact .refl _
    | .calling job _ root _ =>
      have hroot := Process.posts_sublist false root
      cases onBranch
      · exact hroot.cons serial
      · exact hroot.cons_cons serial
    | .inPlace _ _ _ branch => exact (Process.posts_sublist onBranch branch).cons serial
    | .forking _ _ _ children _ => exact (Child.postsIn_sublist children).cons serial

theorem Child.postsIn_sublist :
    (children : List Child) →
      ((Child.postsIn children).map Post.walk).Sublist (Child.serialsIn children)
  | [] => .refl _
  | child :: rest => by
    rw [Child.postsIn, Child.serialsIn, List.map_append]
    refine List.Sublist.append ?_ (Child.postsIn_sublist rest)
    match child with
    | .running _ process => exact Process.posts_sublist true process
    | .refused _ | .ended .. | .cancelled _ => exact List.nil_sublist _

end

mutual

/-- A post is that of a walk in the process, which is in the middle of the unit or about to begin
it. -/
theorem Process.exists_of_mem_posts {post : Post} (onBranch : Bool) :
    (p : Process) → post ∈ p.posts onBranch → ∃ q, p.Has q ∧ q.serial = post.walk ∧
      q.activity.pursuit = if post.begun then .unit post.unitId else .idle
  | .mk serial walk activity, h => by
    match activity, h with
    | .queued .., h | .working .., h | .asleep .., h =>
      rw [Process.posts, Activity.posts] at h
      split at h
      · cases List.mem_singleton.mp h
        exact ⟨_, .self _, rfl, rfl⟩
      · cases h
    | .calling job inner root next, h =>
      rcases List.mem_append.mp h with h | h
      · split at h
        · cases List.mem_singleton.mp h
          exact ⟨_, .self _, rfl, rfl⟩
        · cases h
      · obtain ⟨q, hhas, hq⟩ := Process.exists_of_mem_posts false root h
        exact ⟨q, .inside rfl hhas, hq⟩
    | .inPlace anchor entry resume branch, h =>
      obtain ⟨q, hhas, hq⟩ := Process.exists_of_mem_posts onBranch branch h
      exact ⟨q, .inside rfl hhas, hq⟩
    | .forking anchor resume toStart children completed, h =>
      obtain ⟨entry, r, hmem, q, hhas, hq⟩ := Child.exists_of_mem_postsIn children h
      exact ⟨q, .inside ⟨entry, hmem⟩ hhas, hq⟩

theorem Child.exists_of_mem_postsIn {post : Post} :
    (children : List Child) → post ∈ Child.postsIn children →
      ∃ entry r, Child.running entry r ∈ children ∧ ∃ q, r.Has q ∧ q.serial = post.walk ∧
        q.activity.pursuit = if post.begun then .unit post.unitId else .idle
  | [], h => by cases h
  | child :: rest, h => by
    rcases List.mem_append.mp h with h | h
    · match child, h with
      | .running entry r, h =>
        exact ⟨entry, r, List.mem_cons_self, Process.exists_of_mem_posts true r h⟩
    · obtain ⟨entry, r, hmem, hq⟩ := Child.exists_of_mem_postsIn rest h
      exact ⟨entry, r, List.mem_cons_of_mem _ hmem, hq⟩

end

/-! ## Permits where they are needed -/

/-- Whether what a walk waits for is on a branch. -/
def Activity.staffs (onBranch : Bool) : Activity → Bool
  | .calling .. => false
  | .forking .. => true
  | .poised _ | .queued .. | .working .. | .asleep .. | .inPlace .. => onBranch

/-- The walks on branches need permits and no others do, only they wait for one, and what a walk
waits for has not finished. -/
inductive Process.Staffed : Bool → Process → Prop where
  | mk {onBranch : Bool} {serial : Nat} {walk : Walk} {activity : Activity}
      (pooled : walk.pooled = onBranch)
      (queued : ∀ u unit resume, activity = .queued u unit resume → onBranch = true)
      (running : ∀ q, activity.Runs q → q.isFinished = false)
      (inside : ∀ q, activity.Runs q → q.Staffed (activity.staffs onBranch)) :
    Staffed onBranch (.mk serial walk activity)

namespace Process

variable {onBranch : Bool} {serial : Nat} {walk : Walk}

theorem staffed_poised (hpooled : walk.pooled = onBranch) (next : Intent) :
    (mk serial walk (.poised next)).Staffed onBranch :=
  .mk hpooled (fun _ _ _ heq => by cases heq) (fun _ h => h.elim) (fun _ h => h.elim)

theorem staffed_ofPlan (serial : Nat) (plan : Plan) (onBranch : Bool) :
    (ofPlan serial plan onBranch).Staffed onBranch := by
  refine staffed_poised ?_ _
  rfl

theorem staffed_ofUnit (serial : Nat) (u : String) : (ofUnit serial u).Staffed false := by
  refine staffed_poised ?_ _
  rfl

end Process

mutual

/-- What a process has of the pool are the permits and the places of its posts. -/
theorem Process.stakes_eq_posts {onBranch : Bool} :
    (p : Process) → p.Staffed onBranch → p.stakes = (p.posts onBranch).map Post.stake
  | .mk serial walk activity, h => by
    obtain ⟨hpooled, hqueued, -, hinside⟩ := h
    match activity, hqueued, hinside with
    | .poised _, _, _ => rfl
    | .queued u unit resume, hqueued, _ =>
      obtain rfl := hqueued u unit resume rfl
      show [Stake.place serial walk.pooled] = _
      rw [hpooled]
      rfl
    | .working .., _, _ | .asleep .., _, _ =>
      show walk.stake = _
      rw [Walk.stake, hpooled]
      cases onBranch <;> rfl
    | .calling job inner root next, _, hinside =>
      have hroot := Process.stakes_eq_posts root (hinside root rfl)
      show walk.stake ++ root.stakes = _
      rw [hroot, Walk.stake, hpooled]
      cases onBranch <;> rfl
    | .inPlace anchor entry resume branch, _, hinside =>
      exact Process.stakes_eq_posts branch (hinside branch rfl)
    | .forking anchor resume toStart children completed, _, hinside =>
      exact Child.stakesIn_eq_postsIn children fun entry q hmem => hinside q ⟨entry, hmem⟩

theorem Child.stakesIn_eq_postsIn :
    (children : List Child) → (∀ entry q, .running entry q ∈ children → q.Staffed true) →
      Child.stakesIn children = (Child.postsIn children).map Post.stake
  | [], _ => rfl
  | child :: rest, h => by
    rw [Child.stakesIn, Child.postsIn, List.map_append,
      Child.stakesIn_eq_postsIn rest fun entry q hmem => h entry q (List.mem_cons_of_mem _ hmem)]
    congr 1
    match child, h with
    | .running entry process, h =>
      exact Process.stakes_eq_posts process (h entry process List.mem_cons_self)
    | .refused _, _ | .ended .., _ | .cancelled _, _ => rfl

end

/-! ## One step at one walk -/

namespace Scene

variable {s s' : Scene} {task serial : Nat} {onBranch : Bool}

theorem pooled_unitEnded {u : String} {resume : Resume} (hearly : s.walk.EarlyFits)
    (h : s.walk.AwaitsUnit u resume) (task serial : Nat) (result : Option Mishap) :
    (s.unitEnded task serial u resume result).walk.pooled = s.walk.pooled :=
  (Walk.keeps_unitDone hearly h s.run.scope s.run.hasRun s.run.context.tolerant result).pooled

theorem staffed_endUnit {job : Job} (hearly : s.walk.EarlyFits)
    (h : s.walk.AwaitsUnit job.unitId job.resume) (hpooled : s.walk.pooled = onBranch)
    (task serial : Nat) (result : Option Mishap) :
    ((s.endUnit task serial job result).process serial).Staffed onBranch := by
  rw [endUnit_eq]
  exact Process.staffed_poised ((pooled_unitEnded hearly h task serial result).trans hpooled) _

theorem staffed_close {resume : Resume} (hearly : s.walk.EarlyFits) (h : s.walk.AwaitsFork resume)
    (hpooled : s.walk.pooled = onBranch) (task serial : Nat) (anchor : String)
    (result : Option Failure) (completed : List String) :
    ((s.close task serial anchor resume result completed).process serial).Staffed onBranch :=
  Process.staffed_poised ((Walk.keeps_forkDone hearly h _ _ _ result).pooled.trans hpooled) _

/-- What a walk does where it stands leaves permits where they are needed. -/
theorem Steps.staffed (h : s.Steps task serial s') (hfits : (s.process serial).Fits)
    (hstaffed : (s.process serial).Staffed onBranch) : (s'.process serial).Staffed onBranch := by
  obtain ⟨hearly, hat, -⟩ := hfits
  obtain ⟨hpooled, hqueued, hrunning, hinside⟩ := hstaffed
  cases h with
  | advance h => exact Process.staffed_poised ((Walk.keeps_advance hearly _ _).pooled.trans hpooled) _
  | missing h =>
    rw [h] at hat
    exact Process.staffed_poised ((pooled_unitEnded hearly hat task serial _).trans hpooled) _
  | queues h hunit hneeds =>
    -- only a walk that needs a permit takes a place in the line
    exact .mk hpooled (fun _ _ _ _ => hpooled.symm.trans hneeds) (fun _ h => h.elim) fun _ h => h.elim
  | begins h | granted h | does h | sleeps h | wakes h | runs h | tidies h | fails h =>
    exact .mk hpooled (fun _ _ _ heq => by cases heq) (fun _ h => h.elim) fun _ h => h.elim
  | opens h =>
    refine .mk hpooled (fun _ _ _ heq => by cases heq) ?_ ?_
    · rintro q rfl
      rfl
    · rintro q rfl
      exact Process.staffed_ofPlan ..
  | ends h | gaveUp h =>
    rw [h] at hat
    exact staffed_endUnit (s := s.announce ..) hearly hat hpooled task serial _
  | forksNone h =>
    rw [h] at hat
    exact Process.staffed_poised ((Walk.keeps_forkDone hearly hat _ _ _ none).pooled.trans hpooled) _
  | forksOne h =>
    refine .mk hpooled (fun _ _ _ heq => by cases heq) ?_ ?_
    · rintro q rfl
      rfl
    · rintro q rfl
      -- in its walk's place, a branch needs permits if the walk does
      show (Process.ofPlan s.engine.nextSerial _ s.walk.pooled).Staffed onBranch
      rw [hpooled]
      exact Process.staffed_ofPlan ..
  | forks h =>
    refine .mk hpooled (fun _ _ _ heq => by cases heq) ?_ ?_ <;>
    · rintro q ⟨entry, hmem⟩
      cases hmem
  | starts h =>
    rw [h] at hrunning hinside
    refine .mk hpooled (fun _ _ _ heq => by cases heq) (fun q hruns => ?_) fun q hruns => ?_
    · rcases Child.running_of_started hruns with rfl | hold
      · rfl
      · exact hrunning q hold
    · rcases Child.running_of_started hruns with rfl | hold
      · exact Process.staffed_ofPlan ..
      · exact hinside q hold
  | refuses h =>
    rw [h] at hrunning hinside
    exact .mk hpooled (fun _ _ _ heq => by cases heq)
      (fun q hruns => hrunning q (Child.running_of_refused hruns))
      fun q hruns => hinside q (Child.running_of_refused hruns)
  | joins h =>
    rw [h] at hat
    exact staffed_close hearly hat hpooled task serial _ _ _

/-! ## Tasks -/

/-- The pool counts as many more tasks as there are. -/
def Counts (e : Engine) (tasks : List Nat) (e' : Engine) (tasks' : List Nat) : Prop :=
  ∀ others, e.pool.inFlight = tasks.length + others → e'.pool.inFlight = tasks'.length + others

/-- Neither the count nor the number of tasks changes. -/
theorem counts_of_eq {e e' : Engine} {tasks tasks' : List Nat}
    (hcount : e'.pool.inFlight = e.pool.inFlight) (htasks : tasks' = tasks) :
    Counts e tasks e' tasks' := by
  intro others h
  rw [hcount, htasks, h]

theorem inFlight_release (p : Pool) : p.release.inFlight = p.inFlight := by
  unfold Pool.release
  split <;> rfl

theorem inFlight_take {p p' : Pool} (h : p.take? = some p') : p'.inFlight = p.inFlight := by
  unfold Pool.take? at h
  split at h <;> cases h
  rfl

theorem inFlight_endUnit (s : Scene) (task serial : Nat) (job : Job) (moment : Moment)
    (failure : Option Failure) (result : Option Mishap) :
    ((s.announce task serial job moment failure).endUnit task serial job
      result).engine.pool.inFlight = s.engine.pool.inFlight := by
  rw [← pool_announce s task serial job moment failure]
  unfold endUnit
  split
  · exact inFlight_release _
  · rfl

theorem Does.pool {job : Job} {behavior rest : Behavior} {run : RunState} {e : Engine}
    (h : s.Does task serial job behavior rest run e) : e.pool.inFlight = s.engine.pool.inFlight := by
  cases h <;> rfl

/-- A walk starts tasks where it stands, and it goes on when they are over. -/
theorem Steps.counts (h : s.Steps task serial s') :
    Counts s.engine s.activity.tasks s'.engine s'.activity.tasks := by
  cases h with
  | advance h | missing h | queues h | granted h | sleeps h | wakes h | opens h | tidies h | fails h
  | forksNone h | forksOne h | forks h =>
    rw [h]
    exact counts_of_eq rfl rfl
  | begins h hunit hpool =>
    rw [h]
    refine counts_of_eq ?_ rfl
    split at hpool
    · exact inFlight_take hpool
    · rw [hpool]
      rfl
  | does h hdoes =>
    rw [h]
    exact counts_of_eq hdoes.pool rfl
  | runs h =>
    rw [h]
    exact counts_of_eq (congrArg Pool.inFlight (pool_announce s task serial _ .before none)) rfl
  | ends h | gaveUp h =>
    rw [h]
    exact counts_of_eq (inFlight_endUnit ..) rfl
  | starts h =>
    rw [h]
    intro others hcount
    show s.engine.pool.inFlight + 1 = _
    rw [hcount]
    simp only [activity_record, Activity.tasks, Child.tasksIn_append, Child.tasksIn, Child.tasks,
      Process.tasks, Process.ofPlan, List.length_append, List.length_cons, List.length_nil]
    omega
  | refuses h =>
    rw [h]
    refine counts_of_eq rfl ?_
    simp [Activity.tasks, Child.tasksIn_append, Child.tasksIn, Child.tasks]
  | joins h hover =>
    rw [h]
    exact counts_of_eq rfl (Child.tasksIn_of_over hover).symm

end Scene

/-! ## One step of one task -/

namespace Process

variable {who task : Nat} {p p' : Process} {run run' : RunState} {e e' : Engine} {site : Site}

/-- Every step of a task leaves permits where they are needed. -/
theorem Moves.staffed {onBranch : Bool} (h : p.Moves who site task run e p' run' e')
    (hfits : p.Fits) (hstaffed : p.Staffed onBranch) : p'.Staffed onBranch := by
  induction h generalizing onBranch with
  | here h => exact h.staffed hfits hstaffed
  | called _ hrunning ih =>
    obtain ⟨-, -, hfits⟩ := hfits
    obtain ⟨hpooled, -, -, hinside⟩ := hstaffed
    refine .mk hpooled (fun _ _ _ heq => by cases heq) ?_ ?_
    · rintro q rfl
      exact hrunning
    · rintro q rfl
      exact ih (hfits _ rfl) (hinside _ rfl)
  | returned =>
    obtain ⟨hpooled, -, -, -⟩ := hstaffed
    exact .mk hpooled (fun _ _ _ heq => by cases heq) (fun _ h => h.elim) fun _ h => h.elim
  | inPlace _ hrunning ih =>
    obtain ⟨-, -, hfits⟩ := hfits
    obtain ⟨hpooled, -, -, hinside⟩ := hstaffed
    refine .mk hpooled (fun _ _ _ heq => by cases heq) ?_ ?_
    · rintro q rfl
      exact hrunning
    · rintro q rfl
      exact ih (hfits _ rfl) (hinside _ rfl)
  | inPlaceEnded _ _ hclose =>
    obtain ⟨hearly, hat, -⟩ := hfits
    obtain ⟨hpooled, -, -, -⟩ := hstaffed
    subst hclose
    exact Scene.staffed_close (s := ⟨_, _, _, _⟩) hearly hat hpooled ..
  | @child _ _ _ _ entry _ _ _ _ _ branch _ _ _ _ _ _ _ hrunning' _ ih =>
    obtain ⟨-, -, hfits⟩ := hfits
    obtain ⟨hpooled, -, hrunning, hinside⟩ := hstaffed
    refine .mk hpooled (fun _ _ _ heq => by cases heq) (fun q hruns => ?_) fun q hruns => ?_
    · rcases Child.running_of_moved hruns branch with rfl | hold
      · exact hrunning'
      · exact hrunning q hold
    · rcases Child.running_of_moved hruns branch with rfl | hold
      · exact ih (hfits _ ⟨entry, by simp⟩) (hinside _ ⟨entry, by simp⟩)
      · exact hinside q hold
  | childEnded =>
    obtain ⟨hpooled, -, hrunning, hinside⟩ := hstaffed
    exact .mk hpooled (fun _ _ _ heq => by cases heq)
      (fun q hruns => hrunning q (Child.running_of_ended hruns))
      fun q hruns => hinside q (Child.running_of_ended hruns)

/-- The pool counts the tasks that a step starts and those that it ends. -/
theorem Moves.counts (h : p.Moves who site task run e p' run' e') :
    Scene.Counts e p.tasks e' p'.tasks := by
  induction h with
  | here h => exact h.counts
  | called _ _ ih | inPlace _ _ ih => exact ih
  | returned _ hfinished ih =>
    intro others hcount
    have hended := ih others hcount
    rwa [tasks_of_isFinished hfinished] at hended
  | inPlaceEnded _ hfinished hclose ih =>
    subst hclose
    intro others hcount
    have hended := ih others hcount
    rwa [tasks_of_isFinished hfinished] at hended
  | @child _ _ _ _ _ _ _ before after _ _ _ _ _ _ _ _ h _ _ ih =>
    intro others hcount
    have hbranch := ih ((Child.tasksIn before).length + (Child.tasksIn after).length + 1 + others)
    simp only [tasks, Activity.tasks, Child.tasksIn_append, Child.tasksIn, Child.tasks,
      List.length_append, List.length_cons] at hcount ⊢
    omega
  | @childEnded _ _ _ _ _ _ _ before after _ _ _ _ _ _ _ _ _ h hfinished _ _ ih =>
    intro others hcount
    have hbranch := ih ((Child.tasksIn before).length + (Child.tasksIn after).length + 1 + others)
    rw [tasks_of_isFinished hfinished] at hbranch
    simp only [tasks, Activity.tasks, Child.tasksIn_append, Child.tasksIn, Child.tasks,
      List.length_append, List.length_cons, List.length_nil] at hcount hbranch ⊢
    show _ - 1 = _
    omega

end Process

/-! ## Giving up -/

mutual

/-- When all tasks are given up, there are none left. -/
theorem Process.tasks_cancelTasks : (p : Process) → p.cancelTasks.tasks = []
  | .mk _ _ activity => Activity.tasks_cancelTasks activity

theorem Activity.tasks_cancelTasks : (activity : Activity) → activity.cancelTasks.tasks = []
  | .poised _ | .queued .. | .working .. | .asleep .. => rfl
  | .calling _ _ root _ => Process.tasks_cancelTasks root
  | .inPlace _ _ _ branch => Process.tasks_cancelTasks branch
  | .forking _ _ _ children _ => by
    refine Child.tasksIn_of_over (List.all_eq_true.mpr fun child hchild => ?_)
    obtain ⟨old, -, rfl⟩ := List.mem_map.mp hchild
    cases old <;> rfl

end

/-- What has not finished has not finished when its tasks are given up. -/
theorem Process.isFinished_cancelTasks (p : Process) : p.cancelTasks.isFinished = p.isFinished := by
  obtain ⟨serial, walk, activity⟩ := p
  cases activity <;> rfl

theorem Process.Staffed.cancelTasks {onBranch : Bool} {p : Process} (h : p.Staffed onBranch) :
    p.cancelTasks.Staffed onBranch := by
  induction h with
  | @mk onBranch serial walk activity pooled queued running inside ih =>
    cases activity with
    | poised | queued | working | asleep => exact .mk pooled queued running inside
    | calling job run root next =>
      refine .mk pooled (fun _ _ _ heq => by cases heq) ?_ ?_
      · rintro q rfl
        exact root.isFinished_cancelTasks.trans (running root rfl)
      · rintro q rfl
        exact ih root rfl
    | inPlace anchor entry resume branch =>
      refine .mk pooled (fun _ _ _ heq => by cases heq) ?_ ?_
      · rintro q rfl
        exact branch.isFinished_cancelTasks.trans (running branch rfl)
      · rintro q rfl
        exact ih branch rfl
    | forking anchor resume toStart children completed =>
      refine .mk pooled (fun _ _ _ heq => by cases heq) ?_ ?_
      · rintro q ⟨entry, hmem⟩
        exact absurd hmem Child.not_running_cancel
      · rintro q ⟨entry, hmem⟩
        exact absurd hmem Child.not_running_cancel

/-- A run whose tasks have been given up has nothing of the pool. -/
theorem Process.Staffed.stakes_cancelTasks {p : Process} (h : p.Staffed false) :
    p.cancelTasks.stakes = [] := by
  rw [Process.stakes_eq_posts _ h.cancelTasks,
    Process.posts_of_tasks _ (Process.tasks_cancelTasks p), List.map_nil]

/-! ## Executors -/

section

variable (posts : List Post)

theorem count_stake_eq_length : (posts.map Post.stake).count .permit =
    (posts.filter Post.begun).length := by
  induction posts with
  | nil => rfl
  | cons post rest ih =>
    obtain ⟨walk, u, begun⟩ := post
    cases begun <;> simp [Post.stake, ih]

theorem filterMap_stake_eq_map : (posts.map Post.stake).filterMap Stake.serial? =
    (posts.filter fun post => !post.begun).map Post.walk := by
  induction posts with
  | nil => rfl
  | cons post rest ih =>
    obtain ⟨walk, u, begun⟩ := post
    cases begun <;> simp [Post.stake, List.filterMap_cons, Stake.serial?, ih]

end

/-- A walk of a process, as the ledger has it. -/
theorem Process.Has.exists_live {p q : Process} (h : p.Has q) (parent? : Option Nat) :
    ∃ live ∈ p.lives parent?, live.serial = q.serial ∧ live.pursuit = q.activity.pursuit := by
  induction h generalizing parent? with
  | self p =>
    obtain ⟨serial, walk, activity⟩ := p
    exact ⟨_, List.mem_cons_self, rfl, rfl⟩
  | @inside serial walk activity q r hruns _ ih =>
    cases activity with
    | poised | queued | working | asleep => exact hruns.elim
    | calling =>
      cases hruns
      obtain ⟨live, hmem, hlive⟩ := ih none
      exact ⟨live, List.mem_cons_of_mem _ hmem, hlive⟩
    | inPlace =>
      cases hruns
      obtain ⟨live, hmem, hlive⟩ := ih (some serial)
      exact ⟨live, List.mem_cons_of_mem _ hmem, hlive⟩
    | forking anchor resume toStart children completed =>
      obtain ⟨entry, hchild⟩ := hruns
      obtain ⟨live, hmem, hlive⟩ := ih (some serial)
      obtain ⟨before, after, rfl⟩ := List.append_of_mem hchild
      refine ⟨live, List.mem_cons_of_mem _ ?_, hlive⟩
      rw [Activity.lives, Child.livesIn_append]
      exact List.mem_append_right _ (List.mem_append_left _ hmem)

/-- A unit is in the middle of a flow that it runs. -/
def Activity.IsCalling : Activity → Prop
  | .calling .. => True
  | .poised _ | .queued .. | .working .. | .asleep .. | .inPlace .. | .forking .. => False

mutual

/-- Where no unit runs a flow and no number occurs twice, processes are tiered. -/
theorem Process.Staffed.tiered {onBranch : Bool} {around : List Nat} {task : Nat} :
    (p : Process) → p.Staffed onBranch → (∀ q, p.Has q → ¬ q.activity.IsCalling) →
      (around ++ task :: p.activity.serials).Nodup → p.Tiered around task
  | .mk serial walk activity, h, hcalls, hnodup => by
    obtain ⟨-, -, hrunning, hinside⟩ := h
    refine ⟨fun hmem => (List.nodup_append.mp hnodup).2.2 task hmem task List.mem_cons_self rfl, ?_⟩
    match activity, hrunning, hinside, hcalls, hnodup with
    | .poised _, _, _, _, _ | .queued .., _, _, _, _ | .working .., _, _, _, _
    | .asleep .., _, _, _, _ => trivial
    | .calling .., _, _, hcalls, _ => exact hcalls _ (.self _) trivial
    | .inPlace anchor entry resume branch, hrunning, hinside, hcalls, hnodup =>
      refine ⟨hrunning branch rfl, Process.Staffed.tiered branch (hinside branch rfl)
        (fun q hq => hcalls q (.inside rfl hq)) ?_⟩
      have hall : (around ++ task :: branch.serials).Nodup := hnodup
      rw [branch.serials_eq] at hall
      exact hall.sublist (((List.sublist_cons_self _ _).cons_cons task).append_left around)
    | .forking anchor resume toStart children completed, hrunning, hinside, hcalls, hnodup =>
      refine Child.tieredIn_of_staffed children (fun entry q hmem => ⟨hrunning q ⟨entry, hmem⟩,
        hinside q ⟨entry, hmem⟩, fun r hr => hcalls r (.inside ⟨entry, hmem⟩ hr)⟩) ?_
      exact List.perm_middle.nodup_iff.mp hnodup

theorem Child.tieredIn_of_staffed {around : List Nat} :
    (children : List Child) →
      (∀ entry q, .running entry q ∈ children → q.isFinished = false ∧ q.Staffed true ∧
        ∀ r, q.Has r → ¬ r.activity.IsCalling) →
      (around ++ Child.serialsIn children).Nodup → Child.TieredIn around children
  | [], _, _ => trivial
  | child :: rest, h, hnodup => by
    rw [Child.serialsIn, ← List.append_assoc] at hnodup
    refine ⟨?_, Child.tieredIn_of_staffed rest
      (fun entry q hmem => h entry q (List.mem_cons_of_mem _ hmem))
      (hnodup.sublist ((List.sublist_append_left around child.serials).append_right _))⟩
    match child, h, hnodup with
    | .refused _, _, _ | .ended .., _, _ | .cancelled _, _, _ => trivial
    | .running entry process, h, hnodup =>
      obtain ⟨hrunning, hstaffed, hcalls⟩ := h entry process List.mem_cons_self
      refine ⟨hrunning, Process.Staffed.tiered process hstaffed hcalls ?_⟩
      rw [← process.serials_eq]
      exact hnodup.sublist (List.sublist_append_left _ _)

end

namespace Executor

def stakes (x : Executor) : List Stake := x.runs.flatMap fun run => run.root.stakes

/-- The units that walks on branches execute or wait to execute. -/
def posts (x : Executor) : List Post := x.runs.flatMap fun run => run.root.posts false

/-- The branches that are tasks of the pool. -/
def tasks (x : Executor) : List Nat := x.runs.flatMap fun run => run.root.tasks

/-- The units that walks on branches are in the middle of. -/
def lifecycles (x : Executor) : List Post := x.posts.filter Post.begun

/-- The walks on branches that wait for a permit or have just been handed one. -/
def queue (x : Executor) : List Nat := (x.posts.filter fun post => !post.begun).map Post.walk

/-- The walks that hold permits: those in the middle of a unit, and those next in line. -/
def holders (x : Executor) : List Nat := x.lifecycles.map Post.walk ++ x.engine.pool.granted

/-- The pool agrees with the runs. -/
structure Agrees (x : Executor) (size : Nat) : Prop where
  size : x.engine.pool.size = size
  fits : x.Fits
  numbered : x.ledger.Numbered
  staffed : ∀ run ∈ x.runs, run.root.Staffed false
  balanced : x.engine.pool.Balanced x.stakes
  counted : x.engine.pool.inFlight = x.tasks.length

variable {x y start last : Executor} {m : Move} {past : List (Executor × Move)} {size : Nat}

theorem Agrees.move (h : x.Agrees size) (hmove : x.move m = some y) : y.Agrees size := by
  have hfits := h.fits.move hmove
  have hnumbered := numbered_move h.fits h.numbered hmove
  cases m with
  | step who =>
    obtain ⟨before, run, after, root, state, e', hruns, hstep, rfl⟩ := exists_step hmove
    obtain ⟨site, hmoves⟩ := Process.moves_of_step hstep
    have hexchanges := Process.step_exchanges hstep
    have hrun : run ∈ x.runs := by simp [hruns]
    refine ⟨hexchanges.1.trans h.size, hfits, hnumbered, ?_, ?_, ?_⟩
    · intro own hown
      rcases mem_around.mp hown with rfl | hother
      · exact hmoves.staffed (h.fits run hrun) (h.staffed run hrun)
      · exact h.staffed own (hruns ▸ mem_of_around hother run)
    · -- the stakes of other runs stay as they are
      have hbalanced := h.balanced
      simp only [stakes, hruns, List.flatMap_append, List.flatMap_cons] at hbalanced ⊢
      have hall := hexchanges.2 _ (hbalanced.perm (List.perm_append_comm_assoc _ _ _))
      exact hall.perm (List.perm_append_comm_assoc _ _ _)
    · have hcounted := h.counted
      simp only [tasks, hruns, List.flatMap_append, List.flatMap_cons, List.length_append]
        at hcounted ⊢
      have hall := hmoves.counts
        ((before.flatMap fun run => run.root.tasks).length +
          (after.flatMap fun run => run.root.tasks).length) (by omega)
      omega
  | wait milliseconds =>
    cases hmove
    exact ⟨h.size, hfits, hnumbered, h.staffed, h.balanced, h.counted⟩
  | beginShutdown =>
    cases hmove
    exact ⟨h.size, hfits, hnumbered, h.staffed,
      ⟨h.balanced.permits, h.balanced.line, h.balanced.pooled, h.balanced.busy⟩, h.counted⟩
  | launch request context =>
    cases hmove
    rcases x.launch_cases request context with
      ⟨outcome, plans, hlaunch⟩ | ⟨root, plans, hroot, hlaunch⟩
    · rw [hlaunch] at hfits hnumbered ⊢
      exact ⟨h.size, hfits, hnumbered, h.staffed, h.balanced, h.counted⟩
    · rw [hlaunch] at hfits hnumbered ⊢
      have hnew : root.Staffed false ∧ root.stakes = [] ∧ root.tasks = [] := by
        rcases hroot with ⟨plan, rfl⟩ | ⟨u, rfl⟩
        · exact ⟨Process.staffed_ofPlan .., rfl, rfl⟩
        · exact ⟨Process.staffed_ofUnit .., rfl, rfl⟩
      obtain ⟨hstaffed, hstakes, htasks⟩ := hnew
      refine ⟨h.size, hfits, hnumbered, ?_, ?_, ?_⟩
      · intro own hown
        rcases List.mem_append.mp hown with hown | hown
        · exact h.staffed own hown
        · rw [List.mem_singleton.mp hown]
          exact hstaffed
      · simpa [stakes, hstakes] using h.balanced
      · simpa [tasks, htasks] using h.counted
  | settleShutdown =>
    cases hmove
    rcases x.settleShutdown_cases with ⟨shutdown, heq⟩ | ⟨-, heq⟩
    · rw [heq] at hfits hnumbered ⊢
      exact ⟨h.size, hfits, hnumbered, h.staffed, h.balanced, h.counted⟩
    · -- with the tasks, all who hold a permit or wait for one are gone
      rw [heq] at hfits hnumbered ⊢
      have hstakes : stakes { x.cancelTasks with shutdown := .over false } = [] := by
        rw [stakes, List.flatMap_eq_nil_iff]
        intro own hown
        obtain ⟨run, hrun, rfl⟩ := List.mem_map.mp hown
        exact (h.staffed run hrun).stakes_cancelTasks
      have htasks : tasks { x.cancelTasks with shutdown := .over false } = [] := by
        rw [tasks, List.flatMap_eq_nil_iff]
        intro own hown
        obtain ⟨run, hrun, rfl⟩ := List.mem_map.mp hown
        exact Process.tasks_cancelTasks run.root
      refine ⟨h.size, hfits, hnumbered, ?_, ?_, ?_⟩
      · intro own hown
        obtain ⟨run, hrun, rfl⟩ := List.mem_map.mp hown
        exact (h.staffed run hrun).cancelTasks
      · rw [hstakes]
        exact ⟨rfl, .refl _, (fun _ hmem => by cases hmem), fun hne => absurd rfl hne⟩
      · rw [htasks]
        rfl

theorem agrees_build {config : Config} {registry : Registry} {listeners : Listeners}
    (h : build config registry listeners = .ok x) : x.Agrees (max config.poolSize 1) := by
  obtain ⟨hfits, hsound⟩ := sound_build h
  obtain rfl := eq_of_build h
  refine ⟨rfl, hfits, hsound.toNumbered, nofun, ?_, rfl⟩
  exact ⟨rfl, .refl _, (fun _ hmem => by cases hmem), fun hne => absurd rfl hne⟩

theorem History.agrees (h : start.History past last) (hstart : start.Agrees size) :
    last.Agrees size :=
  h.invariant (P := fun x => x.Agrees size) hstart fun _ _ _ _ hx hmove => Agrees.move hx hmove

/-! ## What follows for the permits -/

theorem stakes_eq_posts (h : ∀ run ∈ x.runs, run.root.Staffed false) :
    x.stakes = x.posts.map Post.stake := by
  rw [stakes, posts, List.map_flatMap]
  exact List.flatMap_congr fun run hrun => Process.stakes_eq_posts run.root (h run hrun)

/-- The walks that hold permits and those that wait for one execute units on branches, each one. -/
theorem Agrees.perm_posts (h : x.Agrees size) :
    (x.holders ++ x.engine.pool.waiting).Perm (x.posts.map Post.walk) := by
  have hline := h.balanced.line
  rw [stakes_eq_posts h.staffed, filterMap_stake_eq_map] at hline
  have hswap : (x.engine.pool.granted ++ x.engine.pool.waiting).Perm x.queue :=
    List.perm_append_comm.trans hline
  rw [holders, List.append_assoc]
  refine (hswap.append_left _).trans ?_
  rw [lifecycles, queue, ← List.map_append]
  exact (List.filter_append_perm Post.begun x.posts).map Post.walk

theorem Agrees.nodup (h : x.Agrees size) : (x.holders ++ x.engine.pool.waiting).Nodup := by
  refine h.perm_posts.nodup_iff.mpr ((nodup_serials h.numbered).sublist ?_)
  rw [posts, List.map_flatMap]
  exact List.Sublist.flatMap_right _ fun run _ => Process.posts_sublist false run.root

/-- A walk with a permit and a walk in line are in the middle of a unit, or about to begin it. -/
theorem Agrees.not_fork (h : x.Agrees size) {run : Run} {q : Process} (hrun : run ∈ x.runs)
    (hhas : run.root.Has q) (hmem : q.serial ∈ x.holders ++ x.engine.pool.waiting)
    (anchor : String) (entries started : List String) :
    q.activity.pursuit ≠ .fork anchor entries started := by
  intro hfork
  obtain ⟨post, hpost, hwalk⟩ := List.mem_map.mp (h.perm_posts.subset hmem)
  obtain ⟨other, hother, hpost⟩ := List.mem_flatMap.mp hpost
  obtain ⟨r, hr, hserial, hpursuit⟩ := Process.exists_of_mem_posts false other.root hpost
  -- two walks with the same number are in the middle of the same thing
  obtain ⟨live, hlive, heq, hpursued⟩ := hhas.exists_live none
  obtain ⟨live', hlive', heq', hpursued'⟩ := hr.exists_live none
  have hsame : live' = live := h.numbered.eq_of_serial (List.mem_flatMap.mpr ⟨run, hrun, hlive⟩)
    (List.mem_flatMap.mpr ⟨other, hother, hlive'⟩) (by rw [heq, heq', hserial, hwalk])
  rw [hsame, hpursued, hfork] at hpursued'
  rw [hpursuit] at hpursued'
  split at hpursued' <;> cases hpursued'

/-- Where nothing is in flight, nobody has or awaits a permit. -/
theorem posts_of_tasks (htasks : x.tasks = []) : x.posts = [] := by
  rw [posts, List.flatMap_eq_nil_iff]
  rw [tasks, List.flatMap_eq_nil_iff] at htasks
  exact fun run hrun => Process.posts_of_tasks run.root (htasks run hrun)

/-- Where nothing is in flight, all permits are available. -/
theorem Agrees.of_tasks (h : x.Agrees size) (htasks : x.tasks = []) :
    x.engine.pool.available = size ∧ x.holders = [] ∧ x.engine.pool.waiting = [] := by
  have hposts := posts_of_tasks htasks
  have hperm := h.perm_posts
  rw [hposts, List.map_nil, List.perm_nil, List.append_eq_nil_iff] at hperm
  obtain ⟨hholders, hwaiting⟩ := hperm
  have hpermits := h.balanced.permits
  rw [stakes_eq_posts h.staffed, hposts, (List.append_eq_nil_iff.mp hholders).2, h.size] at hpermits
  exact ⟨by simpa using hpermits, hholders, hwaiting⟩

/-- Where an executor has no step for a task, none of its runs has one. -/
theorem stepRuns_eq_none {who : Nat} {e : Engine} {runs : List Run} {run : Run}
    (h : stepRuns who e runs = none) (hrun : run ∈ runs) :
    run.root.step who run.root.serial run.state e = none := by
  induction runs with
  | nil => cases hrun
  | cons first rest ih =>
    rw [stepRuns] at h
    split at h
    · cases h
    · next hfirst =>
      rcases List.mem_cons.mp hrun with rfl | hrun
      · exact hfirst
      · exact ih (Option.map_eq_none_iff.mp h) hrun

/-- As long as no unit is in the middle of a flow that it runs, somebody can go on. -/
theorem Agrees.progress (h : x.Agrees size) (hsize : 0 < size)
    (hcalls : ∀ run ∈ x.runs, ∀ q, run.root.Has q → ¬ q.activity.IsCalling) :
    (∀ run ∈ x.runs, run.root.isFinished = true) ∨
      ∃ milliseconds who, ((x.wait milliseconds).step who).isSome = true := by
  refine Classical.or_iff_not_imp_right.mpr fun hstuck => ?_
  have hstill : ∀ run ∈ x.runs, run.root.StandsStill [] run.root.serial run.state x.engine := by
    intro run hrun who milliseconds _
    have hnone : (x.wait milliseconds).step who = none := by
      rw [← Option.not_isSome_iff_eq_none]
      exact fun hstep => hstuck ⟨milliseconds, who, hstep⟩
    exact stepRuns_eq_none (Option.map_eq_none_iff.mp hnone) hrun
  have hwaits : ∀ run ∈ x.runs, run.root.isFinished = false →
      run.root.stakes ≠ [] ∧ ∀ stake ∈ run.root.stakes, stake.Waits x.engine.pool := by
    intro run hrun hrunning
    have hnodup : ([] ++ run.root.serial :: run.root.activity.serials).Nodup := by
      have hall := nodup_of_mem h.numbered hrun
      rwa [run.root.serials_eq] at hall
    exact Process.waits_of_standsStill
      (Process.Staffed.tiered run.root (h.staffed run hrun) (hcalls run hrun) hnodup) hrunning
      (hstill run hrun)
  -- whoever has something of the pool waits for a permit, so nobody has
  have hnil : x.stakes = [] := by
    refine h.balanced.eq_nil (h.size ▸ hsize) fun stake hmem => ?_
    obtain ⟨run, hrun, hmem⟩ := List.mem_flatMap.mp hmem
    rcases hfinished : run.root.isFinished with _ | _
    · exact (hwaits run hrun hfinished).2 stake hmem
    · rw [Process.stakes_of_isFinished hfinished] at hmem
      cases hmem
  intro run hrun
  by_contra hrunning
  rw [Bool.not_eq_true] at hrunning
  exact (hwaits run hrun hrunning).1 (List.flatMap_eq_nil_iff.mp hnil run hrun)

/-- How the permits of a pool of this size are distributed. -/
structure Staffed (x : Executor) (size : Nat) : Prop where
  /-- A permit is available, or it was handed to a walk that is next in line, or a walk on a branch
  is in the middle of a unit with it. -/
  permits : x.engine.pool.available + x.holders.length = size
  /-- No walk holds two. -/
  holders : x.holders.Nodup
  bounded : x.lifecycles.length ≤ size
  /-- Only walks on branches wait for permits. -/
  line : (x.engine.pool.waiting ++ x.engine.pool.granted).Perm x.queue
  waits : ∀ w ∈ x.queue, w ∉ x.engine.pool.granted → x.holders.length = size
  /-- A walk that waits for branches holds no permit and waits for none. -/
  joining : ∀ run ∈ x.runs, ∀ q, run.root.Has q →
    (∃ anchor entries started, q.activity.pursuit = .fork anchor entries started) →
      q.serial ∉ x.holders ∧ q.serial ∉ x.queue
  progress : (∀ run ∈ x.runs, ∀ q, run.root.Has q → ¬ q.activity.IsCalling) →
    (∀ run ∈ x.runs, run.root.isFinished = true) ∨
      ∃ milliseconds who, ((x.wait milliseconds).step who).isSome = true
  counted : x.engine.pool.inFlight = x.tasks.length
  idle : x.tasks = [] → x.engine.pool.available = size

/-- The permits in every schedule. Each is available or belongs to one walk on a branch, which is in
the middle of one unit or next in line; a walk on a branch waits only while none is available; a walk
that waits for branches holds none, so that groups stand still for no other reason than flows that
units run themselves; and when no branch is in flight, all permits are back. -/
theorem History.staffed_pool {config : Config} {registry : Registry} {listeners : Listeners}
    (hbuild : build config registry listeners = .ok start) (h : start.History past last) :
    last.Staffed (max config.poolSize 1) := by
  have hagrees := h.agrees (agrees_build hbuild)
  have hline := hagrees.balanced.line
  have hpermits := hagrees.balanced.permits
  rw [stakes_eq_posts hagrees.staffed, filterMap_stake_eq_map] at hline
  rw [stakes_eq_posts hagrees.staffed, count_stake_eq_length, hagrees.size] at hpermits
  have hlength : last.holders.length =
      last.lifecycles.length + last.engine.pool.granted.length := by
    rw [holders, List.length_append, List.length_map]
  have hall : last.engine.pool.available + last.holders.length = max config.poolSize 1 := by
    rw [hlength, lifecycles]
    omega
  refine ⟨hall, hagrees.nodup.of_append_left, by omega, hline, ?_, ?_, ?_, hagrees.counted, ?_⟩
  · intro w hw hgranted
    -- who waits and was not handed a permit is in line, and then none is available
    have hwaiting : w ∈ last.engine.pool.waiting :=
      (List.mem_append.mp (hline.mem_iff.mpr hw)).resolve_right hgranted
    have hbusy := hagrees.balanced.busy (List.ne_nil_of_mem hwaiting)
    omega
  · rintro run hrun q hhas ⟨anchor, entries, started, hfork⟩
    have hnot : q.serial ∉ last.holders ++ last.engine.pool.waiting := fun hmem =>
      hagrees.not_fork hrun hhas hmem anchor entries started hfork
    rw [List.mem_append, not_or] at hnot
    refine ⟨hnot.1, fun hmem => ?_⟩
    rcases List.mem_append.mp (hline.mem_iff.mpr hmem) with hmem | hmem
    · exact hnot.2 hmem
    · exact hnot.1 (List.mem_append_right _ hmem)
  · exact hagrees.progress (Nat.lt_of_lt_of_le Nat.zero_lt_one (Nat.le_max_right ..))
  · exact fun htasks => (hagrees.of_tasks htasks).1

/-- The only permit of a pool is with one of three branches, and the others are in line. The group
that one of them forks is joined all the same, as is the group around it. -/
theorem History.staffed_pool_single : ∃ fresh plan past x after last,
    build { poolSize := 1 } ((doing [("a", .sleep 5 .done), ("b", .done), ("c", .done)]).engine.registry)
      {} = .ok fresh ∧
    Node.compile? (.parallel [.unit "a", .parallel [.unit "b", .unit "c"]]) = some plan ∧
    fresh.History past x ∧ x.lifecycles = [⟨1, "a", true⟩] ∧ x.engine.pool.waiting = [3, 4] ∧
    x.Staffed 1 ∧ x.History after last ∧
    last.runs.map (fun run => (run.state.unitNames, run.root.isFinished)) =
      [(["a", "b", "c"], true)] ∧ last.engine.pool.available = 1 := by
  let plan := (Node.compile? (.parallel [.unit "a", .parallel [.unit "b", .unit "c"]])).getD {}
  let registry := (doing [("a", .sleep 5 .done), ("b", .done), ("c", .done)]).engine.registry
  let fresh : Executor := { engine := Engine.start { poolSize := 1 } registry {} }
  let moves : List Move := .launch (.plan plan) {} :: List.replicate 4 (.step 0) ++
    List.replicate 4 (.step 1) ++ List.replicate 4 (.step 2) ++ List.replicate 2 (.step 3) ++
    List.replicate 2 (.step 4)
  let later : List Move := .wait 5 :: List.replicate 9 (.step 1) ++ List.replicate 9 (.step 3) ++
    List.replicate 9 (.step 4) ++ List.replicate 9 (.step 2) ++ List.replicate 9 (.step 0)
  let x := (fresh.follow moves).2
  have hbuild : build { poolSize := 1 } registry {} = .ok fresh := rfl
  have hx : fresh.History _ x := history_follow fresh moves
  refine ⟨fresh, plan, _, x, _, _, hbuild, rfl, hx, ?_, ?_, History.staffed_pool hbuild hx,
    history_follow x later, ?_, ?_⟩
  · decide +kernel
  · decide +kernel
  · decide +kernel
  · decide +kernel

end Executor

end Workflow
