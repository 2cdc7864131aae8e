import Workflow.Proofs.Plan.Caching
import Workflow.Proofs.Run.Staffing

/-!
# Executors that have been used

What an executor has done so far shows in the numbers that it gives out, in its clock, in its journal
and in the plans that it keeps. Runs see none of it. `Delay` says by how much the numbers and the
clock of one executor are behind those of another, and `Process.delayed` is a process as it stands in
the later one. A step does the same in both (`Process.step_delayed`), since units, listeners and
decisions know neither numbers nor times and a plan that is kept is the plan that would be made
(`Plan.Cache.Faithful`).

So an executor on which all runs have ended is as good as new (`Executor.History.as_good_as_new`).
-/

namespace Workflow

/-! ## Delays -/

/-- How many numbers of walks and ids of scopes one executor has given out more than another, and how
much later it is there. -/
structure Delay where
  walks : Nat
  scopes : Nat
  time : Nat

def RunState.delayed (d : Delay) (r : RunState) : RunState :=
  { r with scopeId := r.scopeId + d.scopes }

mutual

/-- The process as it stands in the later executor. -/
def Process.delayed (d : Delay) : Process → Process
  | .mk serial walk activity => .mk (serial + d.walks) walk (activity.delayed d)

def Activity.delayed (d : Delay) : Activity → Activity
  | .poised next => .poised next
  | .queued u unit resume => .queued u unit resume
  | .working job rest => .working job rest
  | .asleep job wakeAt rest => .asleep job (wakeAt + d.time) rest
  | .calling job run root next => .calling job (run.delayed d) (root.delayed d) next
  | .inPlace anchor entry resume branch => .inPlace anchor entry resume (branch.delayed d)
  | .forking anchor resume toStart children completed =>
    .forking anchor resume toStart (Child.delayedIn d children) completed

def Child.delayedIn (d : Delay) : List Child → List Child
  | [] => []
  | child :: rest => child.delayed d :: Child.delayedIn d rest

def Child.delayed (d : Delay) : Child → Child
  | .running entry process => .running entry (process.delayed d)
  | .refused entry => .refused entry
  | .ended entry failure => .ended entry failure
  | .cancelled entry => .cancelled entry

end

def Pool.delayed (d : Delay) (p : Pool) : Pool :=
  { p with waiting := p.waiting.map (· + d.walks), granted := p.granted.map (· + d.walks) }

/-- What holds of an engine with these settings all along. -/
def Engine.Lasts (config : Config) (e : Engine) : Prop :=
  e.config = config ∧ e.plans.Faithful ∧ 0 < e.nextScope

/-- The engines differ in nothing that runs could see. -/
structure Engine.Delays (config : Config) (d : Delay) (e e' : Engine) : Prop where
  registry : e'.registry = e.registry
  listeners : e'.listeners = e.listeners
  pool : e'.pool = e.pool.delayed d
  clock : e'.clock = e.clock + d.time
  serial : e'.nextSerial = e.nextSerial + d.walks
  scope : e'.nextScope = e.nextScope + d.scopes
  lasts : e.Lasts config
  lasts' : e'.Lasts config

namespace Pool

variable (d : Delay) (p : Pool)

theorem isGranted_delayed (walk : Nat) :
    (p.delayed d).isGranted (walk + d.walks) = p.isGranted walk := by
  rw [Bool.eq_iff_iff, isGranted, isGranted, List.contains_iff_mem, List.contains_iff_mem]
  constructor
  · intro hmem
    obtain ⟨other, hother, heq⟩ := List.mem_map.mp hmem
    rwa [← Nat.add_right_cancel heq]
  · exact fun hmem => List.mem_map.mpr ⟨walk, hmem, rfl⟩

theorem accept_delayed (walk : Nat) :
    (p.delayed d).accept (walk + d.walks) = (p.accept walk).delayed d := by
  unfold accept delayed
  simp only [Pool.mk.injEq, true_and, and_true]
  exact (List.map_erase (f := (· + d.walks)) (fun _ _ => Nat.add_right_cancel) _).symm

theorem enqueue_delayed (walk : Nat) :
    (p.delayed d).enqueue (walk + d.walks) = (p.enqueue walk).delayed d := by
  unfold enqueue delayed
  simp

theorem release_delayed : (p.delayed d).release = p.release.delayed d := by
  obtain ⟨size, available, waiting, granted, inFlight, closed⟩ := p
  cases waiting with
  | nil => rfl
  | cons first rest => simp [release, delayed]

theorem take?_delayed : (p.delayed d).take? = p.take?.map (delayed d) := by
  unfold take?
  by_cases h : p.available = 0 <;> simp [h, delayed]

theorem start?_delayed : (p.delayed d).start? = p.start?.map (delayed d) := by
  unfold start?
  by_cases h : p.closed = true <;> simp [h, delayed]

end Pool

namespace Engine.Delays

variable {config : Config} {d : Delay} {e e' : Engine}

theorem record (h : e.Delays config d e') (task task' walk walk' : Nat) (o o' : Occurrence) :
    (e.record task walk o).Delays config d (e'.record task' walk' o') :=
  ⟨h.registry, h.listeners, h.pool, h.clock, h.serial, h.scope, h.lasts, h.lasts'⟩

theorem remarks (h : e.Delays config d e') (texts : List String) (task task' walk walk' : Nat) :
    (texts.foldl (fun e text => e.record task walk (.remark text)) e).Delays config d
      (texts.foldl (fun e text => e.record task' walk' (.remark text)) e') := by
  induction texts generalizing e e' with
  | nil => exact h
  | cons text rest ih => exact ih (h.record task task' walk walk' _ _)

theorem withPool (h : e.Delays config d e') {p p' : Pool} (hp : p' = p.delayed d) :
    Engine.Delays config d { e with pool := p } { e' with pool := p' } :=
  ⟨h.registry, h.listeners, hp, h.clock, h.serial, h.scope, h.lasts, h.lasts'⟩

theorem withListeners (h : e.Delays config d e') (listeners : Listeners) :
    Engine.Delays config d { e with listeners := listeners } { e' with listeners := listeners } :=
  ⟨h.registry, rfl, h.pool, h.clock, h.serial, h.scope, h.lasts, h.lasts'⟩

theorem withRegistry (h : e.Delays config d e') {r r' : Registry} (hr : r' = r) :
    Engine.Delays config d { e with registry := r } { e' with registry := r' } :=
  ⟨hr, h.listeners, h.pool, h.clock, h.serial, h.scope, h.lasts, h.lasts'⟩

theorem isClosed (h : e.Delays config d e') : e'.isClosed = e.isClosed := by
  unfold Engine.isClosed
  rw [h.pool]
  rfl

theorem takeSerial (h : e.Delays config d e') :
    e'.takeSerial.1 = e.takeSerial.1 + d.walks ∧
      e.takeSerial.2.Delays config d e'.takeSerial.2 := by
  refine ⟨h.serial, ⟨h.registry, h.listeners, h.pool, h.clock, ?_, h.scope, h.lasts, h.lasts'⟩⟩
  show e'.nextSerial + 1 = e.nextSerial + 1 + d.walks
  rw [h.serial]
  omega

theorem takeScope (h : e.Delays config d e') :
    e'.takeScope.1 = e.takeScope.1 + d.scopes ∧ e.takeScope.2.Delays config d e'.takeScope.2 := by
  have hlasts : ∀ {e : Engine}, e.Lasts config → e.takeScope.2.Lasts config :=
    fun h => ⟨h.1, h.2.1, Nat.succ_pos _⟩
  refine ⟨h.scope, ⟨h.registry, h.listeners, h.pool, h.clock, h.serial, ?_, hlasts h.lasts,
    hlasts h.lasts'⟩⟩
  show e'.nextScope + 1 = e.nextScope + 1 + d.scopes
  rw [h.scope]
  omega

/-- Whatever plans are kept, the same one comes out. -/
theorem compile (h : e.Delays config d e') (text : String) :
    (e'.compile text).1.map Plan.Cached.plan = (e.compile text).1.map Plan.Cached.plan ∧
      (e.compile text).2.Delays config d (e'.compile text).2 := by
  obtain ⟨hplan, hplans⟩ := h.lasts.2.1.obtain text
  obtain ⟨hplan', hplans'⟩ := h.lasts'.2.1.obtain text
  exact ⟨hplan'.trans hplan.symm, ⟨h.registry, h.listeners, h.pool, h.clock, h.serial, h.scope,
    ⟨h.lasts.1, hplans, h.lasts.2.2⟩, ⟨h.lasts'.1, hplans', h.lasts'.2.2⟩⟩⟩

end Engine.Delays

/-! ## Opening runs -/

section

variable {config : Config} {d : Delay} {e e' : Engine}

theorem Engine.openPlan_delayed (h : e.Delays config d e') (plan : Plan) :
    (e'.openPlan plan).1 = (e.openPlan plan).1.map (Process.delayed d) ∧
      (e.openPlan plan).2.Delays config d (e'.openPlan plan).2 := by
  have hclosed := h.isClosed
  unfold openPlan
  rw [hclosed]
  split
  · exact ⟨rfl, h⟩
  · obtain ⟨hserial, hengine⟩ := h.takeSerial
    refine ⟨?_, hengine⟩
    show Except.ok (Process.ofPlan e'.takeSerial.1 plan false) = _
    rw [hserial]
    rfl

theorem Engine.openUnit_delayed (h : e.Delays config d e') (u : String) :
    (e'.openUnit u).1 = (e.openUnit u).1.map (Process.delayed d) ∧
      (e.openUnit u).2.Delays config d (e'.openUnit u).2 := by
  have hclosed := h.isClosed
  unfold openUnit
  rw [hclosed]
  split
  · exact ⟨rfl, h⟩
  · obtain ⟨hserial, hengine⟩ := h.takeSerial
    refine ⟨?_, hengine⟩
    show Except.ok (Process.ofUnit e'.takeSerial.1 u) = _
    rw [hserial]
    rfl

theorem Engine.openFlow_delayed (h : e.Delays config d e') (flowId : String) :
    (e'.openFlow flowId).1 = (e.openFlow flowId).1.map (Process.delayed d) ∧
      (e.openFlow flowId).2.Delays config d (e'.openFlow flowId).2 := by
  unfold openFlow
  rw [h.registry]
  rcases e.registry.flow? flowId with _ | expression
  · exact ⟨rfl, h⟩
  · obtain ⟨hplan, hengine⟩ := h.compile expression
    rcases hcompile : e.compile expression with ⟨error | cached, e₁⟩
    all_goals
      rcases hcompile' : e'.compile expression with ⟨error' | cached', e₁'⟩
      all_goals
        rw [hcompile, hcompile'] at hplan hengine
        simp only [hcompile, hcompile']
    · cases hplan
      exact ⟨rfl, hengine⟩
    · cases hplan
    · cases hplan
    · have hsame : cached'.plan = cached.plan := Except.ok.inj hplan
      rw [hsame]
      exact openPlan_delayed hengine cached.plan

theorem Engine.openRun_delayed (h : e.Delays config d e') (request : Request) :
    (e'.openRun request).1 = (e.openRun request).1.map (Process.delayed d) ∧
      (e.openRun request).2.Delays config d (e'.openRun request).2 := by
  cases request with
  | flow flowId => exact openFlow_delayed h flowId
  | plan plan => exact openPlan_delayed h plan
  | unit u => exact openUnit_delayed h u

end

/-! ## Steps of a walk -/

/-- The scenes differ in nothing that runs could see. -/
structure Scene.Delays (config : Config) (d : Delay) (s s' : Scene) : Prop where
  walk : s'.walk = s.walk
  activity : s'.activity = s.activity.delayed d
  run : s'.run = s.run.delayed d
  engine : s.engine.Delays config d s'.engine

theorem Engine.Delays.scene {config : Config} {d : Delay} {e e' : Engine} (h : e.Delays config d e')
    (walk : Walk) (activity : Activity) (run : RunState) :
    Scene.Delays config d ⟨walk, activity, run, e⟩
      ⟨walk, activity.delayed d, run.delayed d, e'⟩ :=
  ⟨rfl, rfl, rfl, h⟩

namespace Process

variable (d : Delay) (p : Process)

@[simp] theorem serial_delayed : (p.delayed d).serial = p.serial + d.walks := by
  cases p
  rfl

@[simp] theorem walk_delayed : (p.delayed d).walk = p.walk := by
  cases p
  rfl

@[simp] theorem isFinished_delayed : (p.delayed d).isFinished = p.isFinished := by
  obtain ⟨serial, walk, activity⟩ := p
  cases activity with
  | poised next => cases next <;> rfl
  | queued | working | asleep | calling | inPlace | forking => rfl

@[simp] theorem status_delayed : (p.delayed d).status = p.status := by
  unfold status
  rw [walk_delayed]

end Process

namespace Child

variable (d : Delay)

@[simp] theorem entry_delayed (child : Child) : (child.delayed d).entry = child.entry := by
  cases child <;> rfl

@[simp] theorem isOver_delayed (child : Child) : (child.delayed d).isOver = child.isOver := by
  cases child <;> rfl

@[simp] theorem failure?_delayed (child : Child) :
    (child.delayed d).failure? = child.failure? := by
  cases child <;> rfl

theorem delayedIn_eq_map (children : List Child) :
    delayedIn d children = children.map (delayed d) := by
  induction children with
  | nil => rfl
  | cons child rest ih => rw [delayedIn, ih, List.map_cons]

theorem delayedIn_concat (children : List Child) (child : Child) :
    delayedIn d (children ++ [child]) = delayedIn d children ++ [child.delayed d] := by
  rw [delayedIn_eq_map, delayedIn_eq_map, List.map_append, List.map_singleton]

theorem all_isOver_delayedIn (children : List Child) :
    (delayedIn d children).all isOver = children.all isOver := by
  rw [delayedIn_eq_map, List.all_map]
  exact congrArg children.all (funext (isOver_delayed d))

theorem joinFailure?_delayedIn (anchor : String) (children : List Child) :
    Scene.joinFailure? anchor (delayedIn d children) = Scene.joinFailure? anchor children := by
  unfold Scene.joinFailure?
  rw [delayedIn_eq_map, List.findSome?_map]
  congr 1
  funext child
  simp

end Child

namespace Scene.Delays

variable {config : Config} {d : Delay} {s s' : Scene}

theorem exists_eq (h : s.Delays config d s') :
    ∃ e', s' = ⟨s.walk, s.activity.delayed d, s.run.delayed d, e'⟩ ∧
      s.engine.Delays config d e' := by
  obtain ⟨walk, activity, run, e'⟩ := s'
  obtain ⟨rfl, rfl, rfl, hengine⟩ := h
  exact ⟨e', rfl, hengine⟩

theorem withActivity (h : s.Delays config d s') (activity : Activity) :
    Scene.Delays config d { s with activity := activity }
      { s' with activity := activity.delayed d } :=
  ⟨h.walk, rfl, h.run, h.engine⟩

section

variable (task task' walk : Nat)

theorem record (h : s.Delays config d s') (o o' : Occurrence) :
    (s.record task walk o).Delays config d (s'.record task' (walk + d.walks) o') :=
  ⟨h.walk, h.activity, h.run, h.engine.record task task' walk (walk + d.walks) o o'⟩

theorem turn (h : s.Delays config d s') (t : Turn) : (s.turn t).Delays config d (s'.turn t) := by
  obtain ⟨e', rfl, hengine⟩ := h.exists_eq
  exact ⟨rfl, rfl, rfl, hengine⟩

theorem unitEnded (h : s.Delays config d s') (u : String) (resume : Resume)
    (result : Option Mishap) :
    (s.unitEnded task walk u resume result).Delays config d
      (s'.unitEnded task' (walk + d.walks) u resume result) := by
  unfold Scene.unitEnded
  rw [h.walk, h.run]
  exact (h.record task task' walk _ _).turn _

theorem joined (h : s.Delays config d s') (anchor : String) (resume : Resume)
    (result : Option Failure) :
    (s.joined task walk anchor resume result).Delays config d
      (s'.joined task' (walk + d.walks) anchor resume result) := by
  unfold Scene.joined
  rw [h.walk, h.run]
  exact (h.record task task' walk _ _).turn _

theorem beginUnit (h : s.Delays config d s') (u : String) (unit : FlowUnit) (resume : Resume) :
    (s.beginUnit task walk u unit resume).Delays config d
      (s'.beginUnit task' (walk + d.walks) u unit resume) := by
  obtain ⟨e', rfl, hengine⟩ := h.exists_eq
  exact ⟨rfl, rfl, rfl, hengine.record task task' walk _ _ _⟩

theorem withPool (h : s.Delays config d s') {p p' : Pool} (hp : p' = p.delayed d) :
    Scene.Delays config d { s with engine := { s.engine with pool := p } }
      { s' with engine := { s'.engine with pool := p' } } :=
  ⟨h.walk, h.activity, h.run, h.engine.withPool hp⟩

theorem execute (h : s.Delays config d s') (u : String) (resume : Resume) :
    (s.execute task walk u resume).Delays config d
      (s'.execute task' (walk + d.walks) u resume) := by
  have hunit' : s'.engine.registry.unit? u = s.engine.registry.unit? u := by
    rw [h.engine.registry]
  have hpooled' : s'.walk.pooled = s.walk.pooled := by rw [h.walk]
  have htake' : s'.engine.pool.take? = s.engine.pool.take?.map (Pool.delayed d) := by
    rw [h.engine.pool, Pool.take?_delayed]
  unfold Scene.execute
  rcases hunit : s.engine.registry.unit? u with _ | unit
  · rw [hunit] at hunit'
    simp only [hunit']
    exact h.unitEnded task task' walk u resume _
  rw [hunit] at hunit'
  rcases hpooled : s.walk.pooled with _ | _
  · rw [hpooled] at hpooled'
    simp only [hunit', hpooled', Bool.false_eq_true, if_false]
    exact h.beginUnit task task' walk u unit resume
  rw [hpooled] at hpooled'
  rcases htake : s.engine.pool.take? with _ | pool
  · -- there is no permit in either, and the walk takes its place in the line
    rw [htake, Option.map_none] at htake'
    simp only [hunit', hpooled', htake', if_true]
    have hline : s'.engine.pool.enqueue (walk + d.walks) =
        (s.engine.pool.enqueue walk).delayed d := by
      rw [h.engine.pool, Pool.enqueue_delayed]
    exact (h.withActivity (.queued u unit resume)).withPool hline
  · rw [htake, Option.map_some] at htake'
    simp only [hunit', hpooled', htake', if_true]
    exact (h.withPool (p := pool) rfl).beginUnit task task' walk u unit resume

theorem fork (h : s.Delays config d s') (anchor : String) (branches : List (Branch Plan))
    (resume : Resume) :
    (s.fork task walk anchor branches resume).Delays config d
      (s'.fork task' (walk + d.walks) anchor branches resume) := by
  have hforked := h.record task task' walk (.forked anchor (branches.map Branch.entry))
    (.forked anchor (branches.map Branch.entry))
  unfold Scene.fork
  rcases branches with _ | ⟨branch, _ | ⟨next, rest⟩⟩
  · exact hforked.joined task task' walk anchor resume none
  · obtain ⟨hserial, hengine⟩ := hforked.engine.takeSerial
    refine ⟨h.walk, ?_, h.run, hengine.record task task' walk _ _ _⟩
    show Activity.inPlace anchor branch.entry resume
      (.ofPlan s'.engine.nextSerial branch.plan s'.walk.pooled) = _
    rw [h.engine.serial, h.walk]
    rfl
  · exact hforked.withActivity (.forking anchor resume _ [] [])

theorem startBranch (h : s.Delays config d s') (anchor : String) (resume : Resume)
    (branch : Branch Plan) (toStart : List (Branch Plan)) (children : List Child)
    (completed : List String) :
    (s.startBranch task walk anchor resume branch toStart children completed).Delays config d
      (s'.startBranch task' (walk + d.walks) anchor resume branch toStart
        (Child.delayedIn d children) completed) := by
  have hstart' : s'.engine.pool.start? = s.engine.pool.start?.map (Pool.delayed d) := by
    rw [h.engine.pool, Pool.start?_delayed]
  unfold Scene.startBranch
  rcases hstart : s.engine.pool.start? with _ | pool
  · rw [hstart, Option.map_none] at hstart'
    simp only [hstart']
    refine ⟨h.walk, ?_, h.run, h.engine⟩
    simp only [Activity.delayed, Child.delayedIn_concat, Child.delayed]
  · rw [hstart, Option.map_some] at hstart'
    simp only [hstart']
    obtain ⟨hserial, hengine⟩ := (h.engine.withPool (p := pool) rfl).takeSerial
    refine ⟨h.walk, ?_, h.run, hengine.record task task' walk _ _ _⟩
    show Activity.forking anchor resume toStart (Child.delayedIn d children ++
        [.running branch.entry (.ofPlan s'.engine.nextSerial branch.plan true)]) completed =
      Activity.forking anchor resume toStart (Child.delayedIn d (children ++
        [.running branch.entry (.ofPlan s.engine.nextSerial branch.plan true)])) completed
    rw [h.engine.serial, Child.delayedIn_concat]
    rfl

theorem publish (h : s.Delays config d s') (entries : List String) :
    Scene.Delays config d { s with run := { s.run with scope := s.run.scope.publish entries } }
      { s' with run := { s'.run with scope := s'.run.scope.publish entries } } := by
  obtain ⟨e', rfl, hengine⟩ := h.exists_eq
  exact ⟨rfl, rfl, rfl, hengine⟩

theorem join (h : s.Delays config d s') (anchor : String) (resume : Resume)
    (children : List Child) (completed : List String) :
    (s.join task walk anchor resume children completed).Delays config d
      (s'.join task' (walk + d.walks) anchor resume (Child.delayedIn d children) completed) := by
  unfold Scene.join
  rw [Child.joinFailure?_delayedIn]
  split
  · exact h.joined task task' walk anchor resume _
  · exact (h.publish completed).joined task task' walk anchor resume none

/-! ## Steps of a unit -/

theorem announce (h : s.Delays config d s') (job : Job) (moment : Moment)
    (failure : Option Failure) :
    (s.announce task walk job moment failure).Delays config d
      (s'.announce task' (walk + d.walks) job moment failure) := by
  obtain ⟨e', rfl, hengine⟩ := h.exists_eq
  unfold Scene.announce
  simp only [hengine.listeners]
  exact ⟨rfl, rfl, rfl, (hengine.withListeners _).remarks _ task task' walk _⟩

theorem endUnit (h : s.Delays config d s') (job : Job) (result : Option Mishap) :
    (s.endUnit task walk job result).Delays config d
      (s'.endUnit task' (walk + d.walks) job result) := by
  have hrelease : s'.engine.pool.release = s.engine.pool.release.delayed d := by
    rw [h.engine.pool, Pool.release_delayed]
  have hpooled : s'.walk.pooled = s.walk.pooled := by rw [h.walk]
  unfold Scene.endUnit
  simp only [hpooled]
  rcases s.walk.pooled with _ | _
  · exact h.unitEnded task task' walk _ _ result
  · exact (h.withPool hrelease).unitEnded task task' walk _ _ result

theorem call (h : s.Delays config d s') (job : Job) (stage : Stage) (behavior : Behavior) :
    (s.call job stage behavior).Delays config d (s'.call job stage behavior) :=
  h.withActivity (.working { job with stage := stage } behavior)

theorem succeed (h : s.Delays config d s') (job : Job) :
    (s.succeed task walk job).Delays config d (s'.succeed task' (walk + d.walks) job) := by
  unfold Scene.succeed
  split
  · obtain ⟨e', rfl, hengine⟩ := h.exists_eq
    have htold := h.announce task task' walk job .before none
    obtain ⟨e₁, heq, hengine₁⟩ := htold.exists_eq
    rw [heq]
    exact ⟨rfl, rfl, rfl, hengine₁⟩
  · rw [h.run]
    exact h.call job .after _
  · exact (h.announce task task' walk job .after none).endUnit task task' walk job none
  · exact (h.announce task task' walk job .error _).endUnit task task' walk job _

theorem failCall (h : s.Delays config d s') (job : Job) (cause : Cause) :
    (s.failCall task walk job cause).Delays config d
      (s'.failCall task' (walk + d.walks) job cause) := by
  unfold Scene.failCall
  split
  · exact h.succeed task task' walk job
  · rw [h.run]
    exact h.call job _ _

theorem runFlow (h : s.Delays config d s') (job : Job) (flowId : String)
    (next : RunSummary → Behavior) :
    (s.runFlow job flowId next).Delays config d (s'.runFlow job flowId next) := by
  obtain ⟨hscope, hengine⟩ := h.engine.takeScope
  obtain ⟨hroot, hengine⟩ := Engine.openFlow_delayed hengine flowId
  unfold Scene.runFlow
  rcases hopen : s.engine.takeScope.2.openFlow flowId with ⟨failure | root, e₁⟩
  all_goals
    rcases hopen' : s'.engine.takeScope.2.openFlow flowId with ⟨failure' | root', e₁'⟩
    all_goals
      rw [hopen, hopen'] at hroot hengine
      simp only [hopen, hopen']
  · exact ⟨h.walk, rfl, h.run, hengine⟩
  · cases hroot
  · cases hroot
  · obtain rfl : root' = root.delayed d := Except.ok.inj hroot
    refine ⟨h.walk, ?_, h.run, hengine⟩
    rw [hscope]
    rfl

theorem act (h : s.Delays config d s') (job : Job) (behavior : Behavior) :
    (s.act task walk job behavior).Delays config d
      (s'.act task' (walk + d.walks) job behavior) := by
  obtain ⟨e', rfl, hengine⟩ := h.exists_eq
  cases behavior with
  | done => exact h.succeed task task' walk job
  | fail cause => exact h.failCall task task' walk job cause
  | panic payload => exact h.failCall task task' walk job (panicCause payload)
  | access | signalRoute | signalFork | payload => exact ⟨rfl, rfl, rfl, hengine⟩
  | note text rest => exact ⟨rfl, rfl, rfl, hengine.record task task' walk _ _ _⟩
  | sleep milliseconds rest =>
    refine ⟨rfl, ?_, rfl, hengine⟩
    show Activity.asleep job (e'.clock + milliseconds) rest = _
    rw [hengine.clock, Nat.add_right_comm]
    rfl
  | viewPool next =>
    -- a view shows how many wait and hold, but not who
    refine ⟨rfl, ?_, rfl, hengine⟩
    show Activity.working job (next e'.pool.view) = _
    rw [hengine.pool]
    rfl
  | closePool next =>
    refine ⟨rfl, ?_, rfl, hengine.withPool ?_⟩
    · show Activity.working job (next (e'.pool.inFlight = 0)) = _
      rw [hengine.pool]
      rfl
    · show e'.pool.close = _
      rw [hengine.pool]
      rfl
  | addUnit unitId unit rest =>
    exact ⟨rfl, rfl, rfl, hengine.withRegistry (by rw [hengine.registry])⟩
  | addFlow flowId expression rest =>
    exact ⟨rfl, rfl, rfl, hengine.withRegistry (by rw [hengine.registry])⟩
  | eraseUnit unitId rest =>
    exact ⟨rfl, rfl, rfl, hengine.withRegistry (by rw [hengine.registry])⟩
  | runFlow flowId next => exact h.runFlow job flowId next

end

end Scene.Delays

/-! ## One step at one walk -/

section

variable {α β : Type} {R : α → β → Prop} {a : Option α} {b : Option β}

/-- Answers that are both there or both not, and then agree. -/
theorem rel_map {γ δ : Type} {S : γ → δ → Prop} {f : α → γ} {g : β → δ} (h : Option.Rel R a b)
    (hfg : ∀ x y, R x y → S (f x) (g y)) : Option.Rel S (a.map f) (b.map g) := by
  cases h with
  | some h => exact .some (hfg _ _ h)
  | none => exact .none

theorem rel_mono {S : α → β → Prop} (h : Option.Rel R a b) (hRS : ∀ x y, R x y → S x y) :
    Option.Rel S a b := by
  cases h with
  | some h => exact .some (hRS _ _ h)
  | none => exact .none

theorem eq_none_of_rel (h : Option.Rel R a b) (ha : a = none) : b = none := by
  cases h with
  | some => cases ha
  | none => rfl

theorem exists_of_rel (h : Option.Rel R a b) {x : α} (ha : a = some x) : ∃ y, b = some y ∧ R x y := by
  cases h with
  | some h =>
    cases ha
    exact ⟨_, rfl, h⟩
  | none => cases ha

end

namespace Scene.Delays

variable {config : Config} {d : Delay} {s s' : Scene}

/-- A walk does the same in both executors. -/
theorem stepHere (h : s.Delays config d s') (task task' walk : Nat) :
    Option.Rel (Scene.Delays config d) (s.stepHere task walk)
      (s'.stepHere task' (walk + d.walks)) := by
  unfold Scene.stepHere
  rw [h.activity]
  rcases s.activity with next | ⟨u, unit, resume⟩ | ⟨job, rest⟩ | ⟨job, wakeAt, rest⟩ | _ | _ |
    ⟨anchor, resume, toStart, children, completed⟩
  · cases next with
    | advance =>
      refine .some ?_
      rw [h.walk, h.run]
      exact h.turn _
    | execute u resume => exact .some (h.execute task task' walk u resume)
    | fork anchor branches resume => exact .some (h.fork task task' walk anchor branches resume)
    | finish => exact .none
  -- who waits for a permit has it in one executor if and only if it has it in the other
  · have hgranted : s'.engine.pool.isGranted (walk + d.walks) = s.engine.pool.isGranted walk := by
      rw [h.engine.pool, Pool.isGranted_delayed]
    have haccept : s'.engine.pool.accept (walk + d.walks) =
        (s.engine.pool.accept walk).delayed d := by
      rw [h.engine.pool, Pool.accept_delayed]
    simp only [Activity.delayed, hgranted]
    split
    · exact .some ((h.withPool haccept).beginUnit task task' walk u unit resume)
    · exact .none
  · exact .some (h.act task task' walk job rest)
  -- both the clock and the time to wake up at are later by the same amount
  · have hclock : (wakeAt + d.time ≤ s'.engine.clock) = (wakeAt ≤ s.engine.clock) := by
      rw [h.engine.clock, Nat.add_le_add_iff_right]
    simp only [Activity.delayed, hclock]
    split
    · exact .some (h.withActivity (.working job rest))
    · exact .none
  · exact .none
  · exact .none
  · cases toStart with
    | cons branch toStart =>
      exact .some (h.startBranch task task' walk anchor resume branch toStart children completed)
    | nil =>
      simp only [Activity.delayed, Child.all_isOver_delayedIn]
      split
      · exact .some (h.join task task' walk anchor resume children completed)
      · exact .none

theorem stepCalled (h : s.Delays config d s') (job : Job) (run : RunState) (root : Process)
    (next : RunSummary → Behavior) :
    (s.stepCalled job run root next).Delays config d
      (s'.stepCalled job (run.delayed d) (root.delayed d) next) := by
  unfold Scene.stepCalled
  rw [Process.isFinished_delayed, Process.status_delayed]
  split
  · exact h.withActivity (.working job _)
  · exact h.withActivity (.calling job run root next)

theorem stepInPlace (h : s.Delays config d s') (task task' walk : Nat) (anchor entry : String)
    (resume : Resume) (branch : Process) :
    (s.stepInPlace task walk anchor entry resume branch).Delays config d
      (s'.stepInPlace task' (walk + d.walks) anchor entry resume (branch.delayed d)) := by
  unfold Scene.stepInPlace
  rw [Process.isFinished_delayed, Process.walk_delayed]
  split
  · split
    · exact h.joined task task' walk anchor resume _
    · exact (h.publish [entry]).joined task task' walk anchor resume none
  · exact h.withActivity (.inPlace anchor entry resume branch)

end Scene.Delays

/-! ## One step of one task -/

section

variable {config : Config} {d : Delay}

/-- What is left of a process, its run and the engine after a step. -/
def Process.Delays (config : Config) (d : Delay) :
    Process × RunState × Engine → Process × RunState × Engine → Prop
  | (p, run, e), (p', run', e') => p' = p.delayed d ∧ run' = run.delayed d ∧ e.Delays config d e'

/-- What is left of branches, the entries of those that have ended, the run and the engine. -/
def Child.Delays {α : Type} (config : Config) (d : Delay) (delayed : α → α) :
    α × List String × RunState × Engine → α × List String × RunState × Engine → Prop
  | (a, entries, run, e), (a', entries', run', e') =>
    a' = delayed a ∧ entries' = entries ∧ run' = run.delayed d ∧ e.Delays config d e'

mutual

/-- A task does the same in both executors. -/
theorem Process.step_delayed (who task : Nat) {e e' : Engine} (h : e.Delays config d e')
    (run : RunState) : (p : Process) →
    Option.Rel (Process.Delays config d) (p.step who task run e)
      ((p.delayed d).step (who + d.walks) (task + d.walks) (run.delayed d) e')
  | .mk serial walk activity => by
    rw [Process.step, Process.delayed, Process.step]
    refine rel_map (Activity.step_delayed who task serial walk h run activity) fun s s' hs => ?_
    refine ⟨?_, hs.run, hs.engine⟩
    rw [hs.walk, hs.activity]
    rfl

theorem Activity.step_delayed (who task serial : Nat) (walk : Walk) {e e' : Engine}
    (h : e.Delays config d e') (run : RunState) : (activity : Activity) →
    Option.Rel (Scene.Delays config d) (activity.step who task serial walk run e)
      ((activity.delayed d).step (who + d.walks) (task + d.walks) (serial + d.walks) walk
        (run.delayed d) e')
  | .calling job inner root next => by
    rw [Activity.step, Activity.delayed, Activity.step]
    refine rel_map (Process.step_delayed who task h inner root) ?_
    rintro ⟨root, inner, e⟩ ⟨root', inner', e'⟩ ⟨rfl, rfl, he⟩
    exact (he.scene walk (.calling job inner root next) run).stepCalled job inner root next
  | .inPlace anchor entry resume branch => by
    rw [Activity.step, Activity.delayed, Activity.step]
    refine rel_map (Process.step_delayed who task h run branch) ?_
    rintro ⟨branch, run, e⟩ ⟨branch', run', e'⟩ ⟨rfl, rfl, he⟩
    exact (he.scene walk (.inPlace anchor entry resume branch) run).stepInPlace task
      (task + d.walks) serial anchor entry resume branch
  | .forking anchor resume toStart children completed => by
    rw [Activity.step, Activity.delayed, Activity.step]
    simp only [Nat.add_right_cancel_iff]
    split
    · exact (h.scene walk (.forking anchor resume toStart children completed) run).stepHere task
        (task + d.walks) serial
    · refine rel_map (Child.stepIn_delayed who h run children) ?_
      rintro ⟨children, ended, run, e⟩ ⟨children', ended', run', e'⟩ ⟨rfl, rfl, rfl, he⟩
      exact ⟨rfl, rfl, rfl, he⟩
  | .poised _ | .queued .. | .working .. | .asleep .. => by
    rw [Activity.delayed, Activity.step, Activity.step]
    · simp only [Nat.add_right_cancel_iff]
      split
      · exact (h.scene walk _ run).stepHere task (task + d.walks) serial
      · exact .none
    all_goals simp

theorem Child.stepIn_delayed (who : Nat) {e e' : Engine} (h : e.Delays config d e')
    (run : RunState) : (children : List Child) →
    Option.Rel (Child.Delays config d (Child.delayedIn d)) (Child.stepIn who children run e)
      (Child.stepIn (who + d.walks) (Child.delayedIn d children) (run.delayed d) e')
  | [] => .none
  | child :: rest => by
    rw [Child.stepIn, Child.delayedIn, Child.stepIn]
    have hchild := Child.step_delayed who h run child
    generalize child.step who run e = answer at hchild
    generalize (child.delayed d).step (who + d.walks) (run.delayed d) e' = answer' at hchild
    cases hchild with
    | @some a a' ha =>
      obtain ⟨child, entries, run, e⟩ := a
      obtain ⟨child', entries', run', e'⟩ := a'
      obtain ⟨rfl, rfl, rfl, he⟩ := ha
      exact .some ⟨rfl, rfl, rfl, he⟩
    | none =>
      refine rel_map (Child.stepIn_delayed who h run rest) ?_
      rintro ⟨rest, entries, run, e⟩ ⟨rest', entries', run', e'⟩ ⟨rfl, rfl, rfl, he⟩
      exact ⟨rfl, rfl, rfl, he⟩

theorem Child.step_delayed (who : Nat) {e e' : Engine} (h : e.Delays config d e')
    (run : RunState) : (child : Child) →
    Option.Rel (Child.Delays config d (Child.delayed d)) (child.step who run e)
      ((child.delayed d).step (who + d.walks) (run.delayed d) e')
  | .refused _ | .ended .. | .cancelled _ => .none
  | .running entry process => by
    rw [Child.step, Child.delayed, Child.step, Process.serial_delayed]
    refine rel_map (Process.step_delayed who process.serial h run process) ?_
    rintro ⟨process, run, e⟩ ⟨process', run', e'⟩ ⟨rfl, rfl, he⟩
    simp only [Process.isFinished_delayed, Process.walk_delayed]
    split
    · exact ⟨rfl, rfl, rfl, he.withPool (by rw [he.pool]; rfl)⟩
    · exact ⟨rfl, rfl, rfl, he⟩

end

/-! ## Giving up -/

theorem Child.cancel_delayed (child : Child) : (child.delayed d).cancel = child.cancel.delayed d := by
  cases child <;> rfl

mutual

theorem Process.cancelTasks_delayed :
    (p : Process) → (p.delayed d).cancelTasks = p.cancelTasks.delayed d
  | .mk _ walk activity => congrArg (Process.mk _ walk) (Activity.cancelTasks_delayed activity)

theorem Activity.cancelTasks_delayed :
    (activity : Activity) → (activity.delayed d).cancelTasks = activity.cancelTasks.delayed d
  | .poised _ | .queued .. | .working .. | .asleep .. => rfl
  | .calling job run root next =>
    congrArg (Activity.calling job (run.delayed d) · next) (Process.cancelTasks_delayed root)
  | .inPlace anchor entry resume branch =>
    congrArg (Activity.inPlace anchor entry resume) (Process.cancelTasks_delayed branch)
  | .forking anchor resume toStart children completed => by
    rw [Activity.delayed, Activity.cancelTasks, Activity.cancelTasks, Activity.delayed,
      Child.delayedIn_eq_map, Child.delayedIn_eq_map, List.map_map, List.map_map]
    congr 2
    exact funext Child.cancel_delayed

end

/-- A process that has finished has no tasks to give up, and no steps to make. -/
theorem Process.cancelTasks_of_isFinished {p : Process} (h : p.isFinished = true) :
    p.cancelTasks = p := by
  obtain ⟨serial, walk, rfl⟩ := exists_of_isFinished h
  rfl

theorem Process.step_of_isFinished {p : Process} (h : p.isFinished = true) (who task : Nat)
    (run : RunState) (e : Engine) : p.step who task run e = none := by
  obtain ⟨serial, walk, rfl⟩ := exists_of_isFinished h
  rw [Process.step, Activity.step]
  · split <;> rfl
  all_goals simp

end

/-! ## Executors -/

def Run.delayed (d : Delay) (r : Run) : Run := ⟨r.state.delayed d, r.root.delayed d⟩

def Shutdown.delayed (d : Delay) : Shutdown → Shutdown
  | .notBegun => .notBegun
  | .draining deadline => .draining (deadline + d.time)
  | .over drained => .over drained

/-- The move of the same task in the later executor. -/
def Move.delayed (d : Delay) : Move → Move
  | .step who => .step (who + d.walks)
  | .wait milliseconds => .wait milliseconds
  | .launch request context => .launch request context
  | .beginShutdown => .beginShutdown
  | .settleShutdown => .settleShutdown

/-- The outcome of the same run in the later executor. It differs in the id of its scope. -/
def Outcome.delayed (d : Delay) (o : Outcome) : Outcome := { o with scopeId := o.scopeId + d.scopes }

theorem Run.result?_delayed (d : Delay) (r : Run) :
    (r.delayed d).result? = r.result?.map (Outcome.delayed d) := by
  unfold Run.result?
  rw [Run.delayed, Process.isFinished_delayed, Process.status_delayed, Process.walk_delayed]
  split <;> rfl

namespace Executor

/-- The executors differ in nothing that runs could see, but for runs that have ended on the later
one before. -/
structure Delays (config : Config) (d : Delay) (old : List Run) (x y : Executor) : Prop where
  runs : y.runs = old ++ x.runs.map (Run.delayed d)
  ended : ∀ run ∈ old, run.root.isFinished = true
  engine : x.engine.Delays config d y.engine
  shutdown : y.shutdown = x.shutdown.delayed d

section

variable {config : Config} {d : Delay} {old : List Run} {x y : Executor}

theorem stepRuns_append {who : Nat} {e : Engine} {runs : List Run}
    (h : ∀ run ∈ old, run.root.isFinished = true) :
    stepRuns who e (old ++ runs) =
      (stepRuns who e runs).map fun (runs, e) => (old ++ runs, e) := by
  induction old with
  | nil =>
    rw [List.nil_append]
    exact Option.map_id'.symm
  | cons run rest ih =>
    rw [List.cons_append, stepRuns, Process.step_of_isFinished (h run List.mem_cons_self),
      ih fun run hrun => h run (List.mem_cons_of_mem _ hrun), Option.map_map]
    rfl

theorem stepRuns_delayed (who : Nat) {e e' : Engine} (h : e.Delays config d e')
    (runs : List Run) :
    Option.Rel (fun a b => b.1 = a.1.map (Run.delayed d) ∧ a.2.Delays config d b.2)
      (stepRuns who e runs) (stepRuns (who + d.walks) e' (runs.map (Run.delayed d))) := by
  induction runs with
  | nil => exact .none
  | cons run rest ih =>
    have hroot := Process.step_delayed who run.root.serial h run.state run.root
    rw [List.map_cons, stepRuns, stepRuns, Run.delayed, Process.serial_delayed]
    generalize run.root.step who run.root.serial run.state e = answer at hroot
    generalize (run.root.delayed d).step (who + d.walks) (run.root.serial + d.walks)
      (run.state.delayed d) e' = answer' at hroot
    cases hroot with
    | @some a a' ha =>
      obtain ⟨root, state, e⟩ := a
      obtain ⟨root', state', e'⟩ := a'
      obtain ⟨rfl, rfl, he⟩ := ha
      exact .some ⟨rfl, he⟩
    | none =>
      refine rel_map ih ?_
      rintro ⟨rest, e⟩ ⟨rest', e'⟩ ⟨rfl, he⟩
      exact ⟨rfl, he⟩

theorem Delays.step (h : x.Delays config d old y) (who : Nat) :
    Option.Rel (Delays config d old) (x.step who) (y.step (who + d.walks)) := by
  unfold Executor.step
  rw [h.runs, stepRuns_append h.ended, Option.map_map]
  refine rel_map (stepRuns_delayed who h.engine x.runs) ?_
  rintro ⟨runs, e⟩ ⟨runs', e'⟩ ⟨rfl, he⟩
  exact ⟨rfl, h.ended, he, h.shutdown⟩

theorem Delays.launch (h : x.Delays config d old y) (request : Request) (context : Context) :
    (y.launch request context).1 = (x.launch request context).1.map (Outcome.delayed d) ∧
      (x.launch request context).2.Delays config d old (y.launch request context).2 := by
  obtain ⟨hscope, hengine⟩ := h.engine.takeScope
  obtain ⟨hroot, hengine⟩ := Engine.openRun_delayed hengine request
  unfold Executor.launch
  rcases hopen : x.engine.takeScope.2.openRun request with ⟨failure | root, e⟩
  all_goals
    rcases hopen' : y.engine.takeScope.2.openRun request with ⟨failure' | root', e'⟩
    all_goals
      rw [hopen, hopen'] at hroot hengine
      simp only [hopen, hopen']
  · cases hroot
    refine ⟨?_, ⟨h.runs, h.ended, hengine, h.shutdown⟩⟩
    rw [hscope]
    rfl
  · cases hroot
  · cases hroot
  · obtain rfl : root' = root.delayed d := Except.ok.inj hroot
    refine ⟨rfl, ⟨?_, h.ended, hengine, h.shutdown⟩⟩
    rw [h.runs, hscope, List.map_append, List.append_assoc]
    rfl

theorem Delays.cancelTasks (h : x.Delays config d old y) :
    x.cancelTasks.Delays config d old y.cancelTasks := by
  refine ⟨?_, h.ended, h.engine.withPool (by rw [h.engine.pool]; rfl), h.shutdown⟩
  have hold : (old.map fun run => { run with root := run.root.cancelTasks }) = old := by
    refine (List.map_congr_left fun run hrun => ?_).trans (List.map_id old)
    rw [Process.cancelTasks_of_isFinished (h.ended run hrun)]
    rfl
  unfold Executor.cancelTasks
  simp only [h.runs, List.map_append, hold, List.map_map]
  congr 2
  funext run
  simp only [Function.comp_apply, Run.delayed, Process.cancelTasks_delayed]

theorem Delays.settleShutdown (h : x.Delays config d old y) :
    x.settleShutdown.Delays config d old y.settleShutdown := by
  have hflight : y.engine.pool.inFlight = x.engine.pool.inFlight := by
    rw [h.engine.pool]
    rfl
  unfold Executor.settleShutdown
  rw [h.shutdown]
  rcases hshutdown : x.shutdown with _ | deadline | drained
  · exact h
  · have hclock : (deadline + d.time ≤ y.engine.clock) = (deadline ≤ x.engine.clock) := by
      rw [h.engine.clock, Nat.add_le_add_iff_right]
    simp only [Shutdown.delayed, hflight, hclock]
    split
    · exact ⟨h.runs, h.ended, h.engine, rfl⟩
    · split
      · have hcancelled := h.cancelTasks
        exact ⟨hcancelled.runs, hcancelled.ended, hcancelled.engine, rfl⟩
      · exact h
  · exact h

/-- Whatever move one executor makes, the other one makes as well. -/
theorem Delays.move (h : x.Delays config d old y) (m : Move) :
    Option.Rel (Delays config d old) (x.move m) (y.move (m.delayed d)) := by
  cases m with
  | step who => exact h.step who
  | wait milliseconds =>
    refine .some ⟨h.runs, h.ended, ?_, h.shutdown⟩
    obtain ⟨hregistry, hlisteners, hpool, hclock, hserial, hscope, hlasts, hlasts'⟩ := h.engine
    refine ⟨hregistry, hlisteners, hpool, ?_, hserial, hscope, hlasts, hlasts'⟩
    show y.engine.clock + milliseconds = x.engine.clock + milliseconds + d.time
    rw [hclock, Nat.add_right_comm]
  | launch request context => exact .some (h.launch request context).2
  | beginShutdown =>
    refine .some ⟨h.runs, h.ended, h.engine.withPool (by rw [h.engine.pool]; rfl), ?_⟩
    show Shutdown.draining (y.engine.clock + y.engine.config.grace) = _
    rw [h.engine.clock, h.engine.lasts'.1, Nat.add_right_comm, ← h.engine.lasts.1]
    rfl
  | settleShutdown => exact .some h.settleShutdown

theorem Delays.follow (h : x.Delays config d old y) (moves : List Move) :
    (x.follow moves).2.Delays config d old (y.follow (moves.map (Move.delayed d))).2 := by
  induction moves generalizing x y with
  | nil => exact h
  | cons m rest ih =>
    have hmove := h.move m
    rw [List.map_cons, Executor.follow, Executor.follow]
    generalize x.move m = next at hmove
    generalize y.move (m.delayed d) = next' at hmove
    cases hmove with
    | some hnext => exact ih hnext
    | none => exact ih h

end

end Executor

/-! ## No delay -/

namespace Delay

/-- An executor beside itself. -/
def none : Delay := ⟨0, 0, 0⟩

mutual

theorem process_none : (p : Process) → p.delayed none = p
  | .mk _ walk activity => congrArg (Process.mk _ walk) (activity_none activity)

theorem activity_none : (activity : Activity) → activity.delayed none = activity
  | .poised _ | .queued .. | .working .. | .asleep .. => rfl
  | .calling job run root next => congrArg (Activity.calling job run · next) (process_none root)
  | .inPlace anchor entry resume branch =>
    congrArg (Activity.inPlace anchor entry resume) (process_none branch)
  | .forking anchor resume toStart children completed =>
    congrArg (Activity.forking anchor resume toStart · completed) (childrenIn_none children)

theorem childrenIn_none : (children : List Child) → Child.delayedIn none children = children
  | [] => rfl
  | child :: rest => congrArg₂ List.cons (child_none child) (childrenIn_none rest)

theorem child_none : (child : Child) → child.delayed none = child
  | .running entry process => congrArg (Child.running entry) (process_none process)
  | .refused _ | .ended _ _ | .cancelled _ => rfl

end

end Delay

namespace Executor

variable {config : Config} {x y start fresh : Executor} {m : Move}
  {past : List (Executor × Move)}

theorem delays_self (h : x.engine.Lasts config) : x.Delays config .none [] x := by
  refine ⟨?_, fun run hrun => (by cases hrun), ⟨rfl, rfl, ?_, rfl, rfl, rfl, h, h⟩, ?_⟩
  · refine (List.map_id x.runs).symm.trans (List.map_congr_left fun run _ => ?_)
    rw [Run.delayed, Delay.process_none]
    rfl
  · simp [Pool.delayed, Delay.none]
  · rcases x.shutdown with _ | deadline | drained <;> rfl

/-- What lasts is kept by every move, for an executor moves as it does beside itself. -/
theorem lasts_move (h : x.engine.Lasts config) (hmove : x.move m = some y) :
    y.engine.Lasts config := by
  have hnext := (delays_self h).move m
  rw [hmove] at hnext
  generalize x.move (m.delayed .none) = next at hnext
  cases hnext with
  | some hnext => exact hnext.engine.lasts

theorem closed_of_ops {l l' : Ledger} (h : Relation.ReflTransGen Ledger.Op l l')
    (hclosed : l.closed = true) : l'.closed = true := by
  induction h with
  | refl => exact hclosed
  | tail _ hop ih => cases hop <;> first | exact ih | rfl

/-- A pool that is closed stays closed. -/
theorem isClosed_move (hfits : x.Fits) (h : x.engine.isClosed = true) (hmove : x.move m = some y) :
    y.engine.isClosed = true := by
  by_cases hgives : x.GivesUpBy m
  · obtain ⟨rfl, -⟩ := hgives
    cases hmove
    rcases x.settleShutdown_cases with ⟨shutdown, heq⟩ | ⟨-, heq⟩ <;> rw [heq] <;> exact h
  · exact closed_of_ops (books_move hfits hmove hgives) h

/-- A shutdown closes the pool. -/
theorem shutdown_move (hfits : x.Fits) (h : x.shutdown = .notBegun ∨ x.engine.isClosed = true)
    (hmove : x.move m = some y) : y.shutdown = .notBegun ∨ y.engine.isClosed = true := by
  rcases h with h | h
  · cases m with
    | step who =>
      obtain ⟨_, _, _, _, _, _, _, _, rfl⟩ := exists_step hmove
      exact .inl h
    | wait =>
      cases hmove
      exact .inl h
    | beginShutdown =>
      cases hmove
      exact .inr rfl
    | launch request context =>
      cases hmove
      rcases x.launch_cases request context with ⟨_, _, heq⟩ | ⟨_, _, -, heq⟩ <;> rw [heq] <;>
        exact .inl h
    | settleShutdown =>
      cases hmove
      left
      unfold settleShutdown
      rw [h]
      exact h
  · exact .inr (isClosed_move hfits h hmove)

/-- What holds of every executor at the end of a history. -/
theorem History.lasts {registry : Registry} {listeners : Listeners}
    (hbuild : build config registry listeners = .ok start) (h : start.History past x) :
    x.engine.Lasts config ∧ (x.shutdown = .notBegun ∨ x.engine.isClosed = true) := by
  have hfits := (sound_build hbuild).1
  have hall : x.Fits ∧ x.engine.Lasts config ∧
      (x.shutdown = .notBegun ∨ x.engine.isClosed = true) := by
    refine h.invariant (P := fun x => x.Fits ∧ x.engine.Lasts config ∧
      (x.shutdown = .notBegun ∨ x.engine.isClosed = true)) ?_ ?_
    · obtain rfl := eq_of_build hbuild
      exact ⟨hfits, ⟨rfl, Plan.Cache.faithful_empty, Nat.zero_lt_one⟩, .inl rfl⟩
    · rintro x m y - ⟨hx, hlasts, hshutdown⟩ hmove
      exact ⟨hx.move hmove, lasts_move hlasts hmove, shutdown_move hx hshutdown hmove⟩
  exact hall.2

/-- Once all runs have ended, the pool is as it was at the start. -/
theorem Agrees.pool_eq {size : Nat} (h : x.Agrees (max size 1))
    (hover : ∀ run ∈ x.runs, run.root.isFinished = true) (hopen : x.engine.isClosed = false) :
    x.engine.pool = .ofSize size := by
  have htasks : x.tasks = [] := by
    rw [tasks, List.flatMap_eq_nil_iff]
    exact fun run hrun => Process.tasks_of_isFinished (hover run hrun)
  obtain ⟨havailable, hholders, hwaiting⟩ := h.of_tasks htasks
  have hflight := h.counted
  have hsize := h.size
  rw [htasks, List.length_nil] at hflight
  have hgranted := (List.append_eq_nil_iff.mp hholders).2
  have hclosed : x.engine.pool.closed = false := hopen
  generalize x.engine.pool = pool at *
  obtain ⟨_, _, _, _, _, _⟩ := pool
  subst hsize havailable hwaiting hgranted hflight hclosed
  rfl

/-- An executor on which all runs have ended, and which was not shut down, gives to every later run
what a fresh one with its registry and its listeners gives, move by move: the same refusal, or the
same outcome at the same moment with the same status, failure, executed units, scope and context. -/
theorem History.as_good_as_new {registry : Registry} {listeners : Listeners}
    (hbuild : build config registry listeners = .ok start) (h : start.History past x)
    (hover : ∀ run ∈ x.runs, run.root.isFinished = true) (hopen : x.engine.isClosed = false)
    (hfresh : build config x.engine.registry x.engine.listeners = .ok fresh)
    (request : Request) (context : Context) (moves : List Move) :
    let d : Delay := ⟨x.engine.nextSerial, x.engine.nextScope - 1, x.engine.clock⟩
    (x.launch request context).1 = (fresh.launch request context).1.map (Outcome.delayed d) ∧
      ((x.launch request context).2.follow (moves.map (Move.delayed d))).2.runs.map Run.result? =
        x.runs.map Run.result? ++
          ((fresh.launch request context).2.follow moves).2.runs.map fun run =>
            run.result?.map (Outcome.delayed d) := by
  intro d
  obtain ⟨hlasts, hshutdown⟩ := h.lasts hbuild
  have hpool := (h.agrees (agrees_build hbuild)).pool_eq hover hopen
  have hnotBegun : x.shutdown = .notBegun :=
    hshutdown.resolve_right fun hclosed => by rw [hopen] at hclosed; cases hclosed
  have hdelays : fresh.Delays config d x.runs x := by
    obtain rfl := eq_of_build hfresh
    have hscope : x.engine.nextScope = 1 + (x.engine.nextScope - 1) := by
      have := hlasts.2.2
      omega
    exact ⟨(List.append_nil _).symm, hover, ⟨rfl, rfl, hpool, (Nat.zero_add _).symm,
      (Nat.zero_add _).symm, hscope, ⟨rfl, Plan.Cache.faithful_empty, Nat.zero_lt_one⟩, hlasts⟩,
      hnotBegun⟩
  obtain ⟨hanswer, hlaunched⟩ := hdelays.launch request context
  have hruns := (hlaunched.follow moves).runs
  refine ⟨hanswer, ?_⟩
  rw [hruns, List.map_append, List.map_map]
  congr 2
  exact funext (Run.result?_delayed d)

/-- A unit panics on a branch, after it has left a signal, and its run fails. The next run does not
notice. -/
theorem History.as_good_as_new_panic : ∃ (start x fresh : Executor)
    (past : List (Executor × Move)) (plan : Plan) (moves : List Move),
    build {} (doing [("a", .done), ("b", .done), ("c", .done),
      ("p", .signalRoute "c" (.panic none))]).engine.registry {} = .ok start ∧
    Node.compile? (.sequence [.parallel [.unit "a", .unit "b"], .unit "c"]) = some plan ∧
    start.History past x ∧ x.engine.isClosed = false ∧
    x.runs.map (fun run => run.result?.map fun o => (o.status, o.executed)) =
      [some (.failed, ["a", "p"])] ∧
    build {} x.engine.registry x.engine.listeners = .ok fresh ∧
    ((fresh.launch (.plan plan) {}).2.follow moves).2.runs.map
        (fun run => run.result?.map fun o => (o.status, o.executed)) =
      [some (.completed, ["a", "b", "c"])] ∧
    ((x.launch (.plan plan) {}).2.follow (moves.map (Move.delayed ⟨x.engine.nextSerial,
        x.engine.nextScope - 1, x.engine.clock⟩))).2.runs.map Run.result? =
      x.runs.map Run.result? ++
        ((fresh.launch (.plan plan) {}).2.follow moves).2.runs.map fun run =>
          run.result?.map (Outcome.delayed ⟨x.engine.nextSerial, x.engine.nextScope - 1,
            x.engine.clock⟩) := by
  let units : List (String × Behavior) := [("a", .done), ("b", .done), ("c", .done),
    ("p", .signalRoute "c" (.panic none))]
  let spoilt := (Node.compile? (.parallel [.unit "a", .unit "p"])).getD {}
  let plan := (Node.compile? (.sequence [.parallel [.unit "a", .unit "b"], .unit "c"])).getD {}
  let moves : List Move := List.replicate 4 (.step 0) ++ List.replicate 7 (.step 1) ++
    List.replicate 7 (.step 2) ++ List.replicate 9 (.step 0)
  let x := ((doing units).follow (.launch (.plan spoilt) {} :: moves)).2
  let fresh : Executor := { engine := Engine.start {} x.engine.registry x.engine.listeners }
  have hbuild : build {} (doing units).engine.registry {} = .ok (doing units) := rfl
  have hx : (doing units).History _ x := history_follow _ _
  have hended : ∀ run ∈ x.runs, run.root.isFinished = true := by decide +kernel
  have hopen : x.engine.isClosed = false := by decide +kernel
  have hfresh : build {} x.engine.registry x.engine.listeners = .ok fresh := rfl
  exact ⟨doing units, x, fresh, _, plan, moves, hbuild, rfl, hx, hopen, by decide +kernel, hfresh,
    by decide +kernel, (History.as_good_as_new hbuild hx hended hopen hfresh (.plan plan) {} moves).2⟩

end Executor

end Workflow
