import Mathlib.Data.List.Perm.Basic
import Workflow.Proofs.Run.Moves

/-!
# No permit is lost

A permit of the pool is available, or handed over to a walk that has not gone on yet, or held by a
walk whose unit is being executed. `Pool.Balanced` says that this accounts for all permits of a
pool, and that the line at the pool consists of the walks that wait for a permit.

What a process has of the pool are its `stakes`: a permit for every unit of a pooled walk, a place
in the line for every unit that waits. A step of a process exchanges the stakes of one walk
(`Process.step_exchanges`), whatever that walk does and whatever its units do, and all other stakes
in the executor stay as they are.
-/

namespace Workflow

/-- What a walk has of the pool. -/
inductive Stake where
  | permit
  /-- A place in the line, as the walk with this serial number. -/
  | place (serial : Nat) (pooled : Bool)
  deriving DecidableEq

def Stake.serial? : Stake → Option Nat
  | .permit => none
  | .place serial _ => some serial

/-- The permit that a walk holds during a unit, if it needs one. -/
def Walk.stake (w : Walk) : List Stake := if w.pooled then [.permit] else []

mutual

/-- What the walks of a process have of the pool. -/
def Process.stakes : Process → List Stake
  | .mk serial walk activity => activity.stakes serial walk

def Activity.stakes (serial : Nat) (walk : Walk) : Activity → List Stake
  | .poised _ => []
  | .queued .. => [.place serial walk.pooled]
  | .working .. | .asleep .. => walk.stake
  | .calling _ _ root _ => walk.stake ++ root.stakes
  | .inPlace _ _ _ branch => branch.stakes
  | .forking _ _ _ children _ => Child.stakesIn children

def Child.stakesIn : List Child → List Stake
  | [] => []
  | child :: rest => child.stakes ++ Child.stakesIn rest

def Child.stakes : Child → List Stake
  | .running _ process => process.stakes
  | .refused _ | .ended .. | .cancelled _ => []

end

/-- All permits are accounted for, and the line is made of those who wait. -/
structure Pool.Balanced (p : Pool) (stakes : List Stake) : Prop where
  permits : p.available + p.granted.length + stakes.count .permit = p.size
  line : (p.waiting ++ p.granted).Perm (stakes.filterMap Stake.serial?)
  pooled : ∀ serial, .place serial false ∉ stakes
  busy : p.waiting ≠ [] → p.available = 0

/-- Stakes are exchanged for others, while all other stakes stay as they are. -/
def Pool.Exchanges (p : Pool) (stakes : List Stake) (p' : Pool) (stakes' : List Stake) : Prop :=
  p'.size = p.size ∧ ∀ others, p.Balanced (stakes ++ others) → p'.Balanced (stakes' ++ others)

/-- The walk has no permit and has not been handed one. -/
def Stake.Waits (p : Pool) (stake : Stake) : Prop :=
  ∃ serial pooled, stake = .place serial pooled ∧ p.isGranted serial = false

namespace Pool

variable {p p' p'' : Pool} {stakes stakes' stakes'' : List Stake} {serial : Nat}

theorem Balanced.perm (h : p.Balanced stakes) (hperm : stakes.Perm stakes') :
    p.Balanced stakes' where
  permits := by rw [← hperm.count_eq]; exact h.permits
  line := h.line.trans (hperm.filterMap _)
  pooled := fun serial hmem => h.pooled serial (hperm.mem_iff.mpr hmem)
  busy := h.busy

/-! ## Exchanges -/

theorem Exchanges.refl (p : Pool) (stakes : List Stake) : p.Exchanges stakes p stakes :=
  ⟨rfl, fun _ h => h⟩

theorem Exchanges.trans (h : p.Exchanges stakes p' stakes')
    (h' : p'.Exchanges stakes' p'' stakes'') : p.Exchanges stakes p'' stakes'' :=
  ⟨h'.1.trans h.1, fun others hbalanced => h'.2 others (h.2 others hbalanced)⟩

/-- An exchange does not touch what stands behind. -/
theorem Exchanges.append_right (h : p.Exchanges stakes p' stakes') (more : List Stake) :
    p.Exchanges (stakes ++ more) p' (stakes' ++ more) := by
  refine ⟨h.1, fun others hbalanced => ?_⟩
  rw [List.append_assoc] at hbalanced ⊢
  exact h.2 _ hbalanced

/-- An exchange does not touch what stands before. -/
theorem Exchanges.append_left (h : p.Exchanges stakes p' stakes') (more : List Stake) :
    p.Exchanges (more ++ stakes) p' (more ++ stakes') := by
  refine ⟨h.1, fun others hbalanced => ?_⟩
  have hswap : ∀ mid : List Stake, (more ++ mid ++ others).Perm (mid ++ (more ++ others)) := by
    intro mid
    rw [← List.append_assoc]
    exact List.perm_append_comm.append_right others
  exact (h.2 _ (hbalanced.perm (hswap stakes))).perm (hswap stakes').symm

/-- What neither permits nor the line have to do with is no exchange. -/
theorem Exchanges.of_eq (stakes : List Stake) (hsize : p'.size = p.size)
    (havailable : p'.available = p.available) (hwaiting : p'.waiting = p.waiting)
    (hgranted : p'.granted = p.granted) : p.Exchanges stakes p' stakes := by
  refine ⟨hsize, fun others h => ⟨?_, ?_, h.pooled, ?_⟩⟩
  · rw [havailable, hgranted, hsize]
    exact h.permits
  · rw [hwaiting, hgranted]
    exact h.line
  · rw [hwaiting, havailable]
    exact h.busy

theorem Exchanges.of_pool (h : p' = p) (stakes : List Stake) : p.Exchanges stakes p' stakes := by
  rw [h]
  exact .refl p stakes

/-- A walk takes an available permit. -/
theorem exchanges_take (h : p.take? = some p') : p.Exchanges [] p' [.permit] := by
  unfold take? at h
  split at h
  · cases h
  · next havailable =>
    cases h
    refine ⟨rfl, fun others h => ⟨?_, ?_, ?_, ?_⟩⟩
    · -- one permit less is available, and one more is held
      have hpermits := h.permits
      simp only [List.nil_append, List.cons_append, List.count_cons_self] at hpermits ⊢
      omega
    · exact h.line
    · intro serial hmem
      rcases List.mem_cons.mp hmem with heq | hmem
      · cases heq
      · exact h.pooled serial hmem
    · -- nobody waits while a permit is available
      intro hwaiting
      exact absurd (h.busy hwaiting) havailable

/-- A walk that finds no permit takes a place in the line. -/
theorem exchanges_enqueue (h : p.take? = none) (serial : Nat) :
    p.Exchanges [] (p.enqueue serial) [.place serial true] := by
  have havailable : p.available = 0 := by
    unfold take? at h
    split at h
    · assumption
    · cases h
  refine ⟨rfl, fun others h => ⟨?_, ?_, ?_, fun _ => havailable⟩⟩
  · have hpermits := h.permits
    simpa [enqueue, List.count_cons] using hpermits
  · have hline : (p.waiting ++ [serial] ++ p.granted).Perm
        (serial :: (p.waiting ++ p.granted)) := by
      rw [List.append_assoc]
      exact List.perm_middle
    exact hline.trans (h.line.cons serial)
  · intro other hmem
    rcases List.mem_cons.mp hmem with heq | hmem
    · cases heq
    · exact h.pooled other hmem

/-- A walk that was handed a permit gives up its place for it. -/
theorem exchanges_accept (h : p.isGranted serial = true) (pooled : Bool) (w : Walk)
    (hpooled : w.pooled = pooled) :
    p.Exchanges [.place serial pooled] (p.accept serial) w.stake := by
  have hmem : serial ∈ p.granted := List.contains_iff_mem.mp h
  refine ⟨rfl, fun others h => ?_⟩
  -- only walks that need permits are handed one
  have htrue : pooled = true := by
    rw [← Bool.not_eq_false]
    rintro rfl
    exact h.pooled serial (by simp)
  rw [Walk.stake, hpooled, htrue, if_pos rfl]
  have hlength := List.length_erase_of_mem hmem
  have hpos := List.length_pos_of_mem hmem
  refine ⟨?_, ?_, ?_, h.busy⟩
  · have hpermits := h.permits
    simp [accept] at hpermits ⊢
    omega
  · have hline := h.line
    have hsplit : (p.waiting ++ p.granted).Perm (serial :: (p.waiting ++ p.granted.erase serial)) :=
      ((List.perm_cons_erase hmem).append_left p.waiting).trans List.perm_middle
    exact (hsplit.symm.trans hline).cons_inv
  · intro other hother
    rcases List.mem_cons.mp hother with heq | hother
    · cases heq
    · exact h.pooled other (List.mem_cons_of_mem _ hother)

/-- A walk gives its permit back, to the first in line if there is one. -/
theorem exchanges_release (p : Pool) : p.Exchanges [.permit] p.release [] := by
  obtain ⟨size, available, waiting, granted, inFlight, closed⟩ := p
  cases waiting with
  | nil =>
    refine ⟨rfl, fun others h => ⟨?_, h.line, ?_, fun hne => absurd rfl hne⟩⟩
    · have hpermits := h.permits
      simp [release] at hpermits ⊢
      omega
    · exact fun serial hmem => h.pooled serial (List.mem_cons_of_mem _ hmem)
  | cons first rest =>
    refine ⟨rfl, fun others h => ⟨?_, ?_, ?_, fun _ => h.busy (by simp)⟩⟩
    · have hpermits := h.permits
      simp [release] at hpermits ⊢
      omega
    · -- who was first in line now stands last among those who have been handed a permit
      have hmove : (rest ++ (granted ++ [first])).Perm (first :: rest ++ granted) := by
        rw [← List.append_assoc]
        exact List.perm_append_singleton first (rest ++ granted)
      exact hmove.trans h.line
    · exact fun serial hmem => h.pooled serial (List.mem_cons_of_mem _ hmem)

/-- Nobody waits in vain: when no permit is held and none is handed over, nobody waits. -/
theorem Balanced.eq_nil (h : p.Balanced stakes) (hsize : 0 < p.size)
    (hwaits : ∀ stake ∈ stakes, stake.Waits p) : stakes = [] := by
  have hheld : stakes.count .permit = 0 := by
    rw [List.count_eq_zero]
    intro hmem
    obtain ⟨serial, pooled, heq, -⟩ := hwaits _ hmem
    cases heq
  -- whoever has been handed a permit is among those who wait
  have hgranted : p.granted = [] := by
    rw [List.eq_nil_iff_forall_not_mem]
    intro serial hmem
    have hplace := h.line.subset (List.mem_append_right p.waiting hmem)
    obtain ⟨stake, hstake, hserial⟩ := List.mem_filterMap.mp hplace
    obtain ⟨other, pooled, rfl, hnot⟩ := hwaits stake hstake
    cases hserial
    rw [isGranted, ← Bool.not_eq_true, List.contains_iff_mem] at hnot
    exact hnot hmem
  have hpermits := h.permits
  rw [hgranted, hheld] at hpermits
  -- so all permits are available, and then there is no line
  have hline : p.waiting = [] := by
    by_contra hne
    have := h.busy hne
    simp only [List.length_nil] at hpermits
    omega
  have hplaces := h.line
  rw [hline, hgranted] at hplaces
  rw [List.eq_nil_iff_forall_not_mem]
  intro stake hmem
  obtain ⟨serial, pooled, rfl, -⟩ := hwaits stake hmem
  have hserial : serial ∈ stakes.filterMap Stake.serial? :=
    List.mem_filterMap.mpr ⟨_, hmem, rfl⟩
  rw [← hplaces.nil_eq] at hserial
  cases hserial

end Pool

/-! ## One step at one walk -/

/-- Stakes have been exchanged for those of a walk and what is below it. -/
def Scene.Exchanged (pool : Pool) (stakes : List Stake) (serial : Nat) (s : Scene) : Prop :=
  pool.Exchanges stakes s.engine.pool (s.activity.stakes serial s.walk)

namespace Scene

theorem pool_announce (s : Scene) (task serial : Nat) (job : Job) (moment : Moment)
    (failure : Option Failure) :
    (s.announce task serial job moment failure).engine.pool = s.engine.pool := by
  obtain ⟨_, heq⟩ := s.announce_eq task serial job moment failure
  rw [heq]

/-- At the end of a unit its walk gives back the permit, if it needed one. -/
theorem exchanged_endUnit (s : Scene) (task serial : Nat) (job : Job) (result : Option Mishap) :
    (s.endUnit task serial job result).Exchanged s.engine.pool s.walk.stake serial := by
  show Pool.Exchanges _ s.walk.stake (s.endUnit task serial job result).engine.pool []
  unfold endUnit Walk.stake
  by_cases hpooled : s.walk.pooled = true
  · simp only [hpooled, if_true]
    exact Pool.exchanges_release s.engine.pool
  · simp only [hpooled]
    exact .refl _ _

/-- The listeners are told before the permit is given back. -/
theorem exchanged_announce_endUnit (s : Scene) (task serial : Nat) (job : Job) (moment : Moment)
    (failure : Option Failure) (result : Option Mishap) :
    ((s.announce task serial job moment failure).endUnit task serial job result).Exchanged
      s.engine.pool s.walk.stake serial := by
  have hend := exchanged_endUnit (s.announce task serial job moment failure) task serial job result
  rwa [pool_announce] at hend

theorem exchanged_succeed (s : Scene) (task serial : Nat) (job : Job) :
    (s.succeed task serial job).Exchanged s.engine.pool s.walk.stake serial := by
  unfold succeed
  cases job.stage with
  -- until the end of the last call the permit stays with the walk
  | before => exact .of_pool (pool_announce s task serial job .before none) _
  | run => exact .refl _ _
  | after => exact s.exchanged_announce_endUnit task serial job .after none none
  | onError failure =>
    exact s.exchanged_announce_endUnit task serial job .error (some failure)
      (some ⟨failure, job.unit.tolerant⟩)

theorem exchanged_failCall (s : Scene) (task serial : Nat) (job : Job) (cause : Cause) :
    (s.failCall task serial job cause).Exchanged s.engine.pool s.walk.stake serial := by
  unfold failCall
  split
  · exact s.exchanged_succeed task serial job
  · exact .refl _ _

theorem pool_openPlan (e : Engine) (plan : Plan) : (e.openPlan plan).2.pool = e.pool := by
  unfold Engine.openPlan
  split <;> rfl

theorem stakes_openPlan {e e' : Engine} {plan : Plan} {root : Process}
    (h : e.openPlan plan = (.ok root, e')) : root.stakes = [] := by
  unfold Engine.openPlan at h
  split at h
  · cases h
  · cases h
    rfl

/-- A flow that was opened is at its start and has nothing of the pool. -/
theorem openFlow_spec (e : Engine) (flowId : String) :
    (e.openFlow flowId).2.pool = e.pool ∧
      ∀ root e', e.openFlow flowId = (.ok root, e') → root.stakes = [] := by
  unfold Engine.openFlow
  rcases e.registry.flow? flowId with _ | expression
  · exact ⟨rfl, fun root e' h => by cases h⟩
  · have hpool : (e.compile expression).2.pool = e.pool := rfl
    rcases hcompile : e.compile expression with ⟨_ | cached, e1⟩
    · rw [hcompile] at hpool
      simp only [hcompile]
      exact ⟨hpool, fun root e' h => by cases h⟩
    · rw [hcompile] at hpool
      simp only [hcompile]
      exact ⟨(pool_openPlan e1 cached.plan).trans hpool, fun root e' h => stakes_openPlan h⟩

theorem exchanged_runFlow (s : Scene) (serial : Nat) (job : Job) (flowId : String)
    (next : RunSummary → Behavior) :
    (s.runFlow job flowId next).Exchanged s.engine.pool s.walk.stake serial := by
  obtain ⟨hpool, hstakes⟩ := openFlow_spec s.engine.takeScope.2 flowId
  unfold runFlow
  simp only
  split
  · next hopen =>
    rw [hopen] at hpool
    exact .of_pool hpool _
  · next root engine hopen =>
    rw [hopen] at hpool
    -- the unit keeps its permit while the flow runs
    show Pool.Exchanges _ _ engine.pool (s.walk.stake ++ root.stakes)
    rw [hstakes root engine hopen, List.append_nil]
    exact .of_pool hpool _

/-- Whatever a unit does, its walk keeps its permit until the unit ends. -/
theorem exchanged_act (s : Scene) (task serial : Nat) (job : Job) (behavior : Behavior) :
    (s.act task serial job behavior).Exchanged s.engine.pool s.walk.stake serial := by
  cases behavior with
  | done => exact s.exchanged_succeed task serial job
  | fail cause => exact s.exchanged_failCall task serial job cause
  | panic payload => exact s.exchanged_failCall task serial job (panicCause payload)
  | runFlow flowId next => exact s.exchanged_runFlow serial job flowId next
  | closePool next => exact .of_eq _ rfl rfl rfl rfl
  | access | signalRoute | signalFork | note | sleep | payload | viewPool | addUnit | addFlow
  | eraseUnit => exact .refl _ _

theorem exchanged_execute (s : Scene) (task serial : Nat) (unitId : String) (resume : Resume) :
    (s.execute task serial unitId resume).Exchanged s.engine.pool [] serial := by
  unfold execute
  split
  · exact .refl _ _
  · split
    · next hpooled =>
      split
      · next pool htake =>
        show s.engine.pool.Exchanges [] pool s.walk.stake
        rw [Walk.stake, if_pos hpooled]
        exact Pool.exchanges_take htake
      · next htake =>
        show s.engine.pool.Exchanges [] (s.engine.pool.enqueue serial)
          [.place serial s.walk.pooled]
        rw [hpooled]
        exact Pool.exchanges_enqueue htake serial
    · next hpooled =>
      show s.engine.pool.Exchanges [] s.engine.pool s.walk.stake
      rw [Walk.stake, if_neg hpooled]
      exact .refl _ _

theorem exchanged_fork (s : Scene) (task serial : Nat) (anchor : String)
    (branches : List (Branch Plan)) (resume : Resume) :
    (s.fork task serial anchor branches resume).Exchanged s.engine.pool [] serial := by
  unfold fork
  rcases branches with _ | ⟨branch, _ | ⟨next, rest⟩⟩ <;> exact .refl _ _

end Scene

namespace Child

theorem stakesIn_append (children more : List Child) :
    stakesIn (children ++ more) = stakesIn children ++ stakesIn more := by
  induction children with
  | nil => rfl
  | cons child rest ih => rw [List.cons_append, stakesIn, stakesIn, ih, List.append_assoc]

/-- A child that has nothing of the pool changes nothing. -/
theorem stakesIn_append_singleton {child : Child} (children : List Child)
    (h : child.stakes = []) : stakesIn (children ++ [child]) = stakesIn children := by
  rw [stakesIn_append, stakesIn, stakesIn, h]
  simp

/-- Branches that are over have nothing of the pool. -/
theorem stakesIn_of_over {children : List Child} (h : children.all isOver = true) :
    stakesIn children = [] := by
  induction children with
  | nil => rfl
  | cons child rest ih =>
    rw [List.all_cons, Bool.and_eq_true] at h
    rw [stakesIn, ih h.2, List.append_nil]
    cases child with
    | running => exact absurd h.1 (by simp [isOver])
    | refused | ended | cancelled => rfl

end Child

namespace Scene

/-- A branch that is being started has nothing of the pool yet. -/
theorem exchanged_startBranch (s : Scene) (task serial : Nat) (anchor : String) (resume : Resume)
    (branch : Branch Plan) (toStart : List (Branch Plan)) (children : List Child)
    (completed : List String) :
    (s.startBranch task serial anchor resume branch toStart children completed).Exchanged
      s.engine.pool (Child.stakesIn children) serial := by
  unfold startBranch
  split
  · show Pool.Exchanges _ _ _ (Child.stakesIn (children ++ [.refused branch.entry]))
    rw [Child.stakesIn_append_singleton children rfl]
    exact .refl _ _
  · next pool hstart =>
    -- the number of tasks in flight has nothing to do with permits
    show Pool.Exchanges _ _ pool (Child.stakesIn (children ++ [.running branch.entry _]))
    rw [Child.stakesIn_append_singleton children rfl]
    unfold Pool.start? at hstart
    split at hstart
    · cases hstart
    · cases hstart
      exact .of_eq _ rfl rfl rfl rfl

theorem exchanged_join (s : Scene) (task serial : Nat) (anchor : String) (resume : Resume)
    (children : List Child) (completed : List String) :
    (s.join task serial anchor resume children completed).Exchanged s.engine.pool [] serial := by
  unfold join
  split <;> exact .refl _ _

/-- A step at a walk exchanges the stakes of this walk. -/
theorem exchanged_stepHere {s s' : Scene} {task serial : Nat}
    (h : s.stepHere task serial = some s') :
    s'.Exchanged s.engine.pool (s.activity.stakes serial s.walk) serial := by
  obtain ⟨walk, activity, run, engine⟩ := s
  unfold stepHere at h
  cases activity with
  | poised next =>
    cases next with
    | advance =>
      cases h
      exact .refl _ _
    | execute unitId resume =>
      cases h
      exact exchanged_execute _ task serial unitId resume
    | fork anchor branches resume =>
      cases h
      exact exchanged_fork _ task serial anchor branches resume
    | finish => cases h
  | queued unitId unit resume =>
    simp only at h
    split at h
    · next hgranted =>
      cases h
      exact Pool.exchanges_accept hgranted walk.pooled walk rfl
    · cases h
  | working job behavior =>
    cases h
    exact exchanged_act _ task serial job behavior
  | asleep job wakeAt rest =>
    simp only at h
    split at h
    · cases h
      exact .refl _ _
    · cases h
  | calling | inPlace => cases h
  | forking anchor resume toStart children completed =>
    cases toStart with
    | cons branch toStart =>
      cases h
      exact exchanged_startBranch ⟨walk, _, run, engine⟩ task serial anchor resume branch toStart
        children completed
    | nil =>
      simp only at h
      split at h
      · next hover =>
        cases h
        -- whoever joins has nothing of the pool, for all branches are over
        have hnil :
            Activity.stakes serial walk (.forking anchor resume [] children completed) = [] :=
          Child.stakesIn_of_over hover
        rw [hnil]
        exact exchanged_join _ task serial anchor resume children completed
      · cases h

end Scene

/-! ## One step of one task -/

/-- A process that has finished has nothing of the pool. -/
theorem Process.stakes_of_isFinished {p : Process} (h : p.isFinished = true) : p.stakes = [] := by
  obtain ⟨serial, walk, rfl⟩ := exists_of_isFinished h
  rfl

theorem Scene.exchanged_stepCalled (s : Scene) (serial : Nat) (job : Job) (run : RunState)
    (root : Process) (next : RunSummary → Behavior) :
    (s.stepCalled job run root next).Exchanged s.engine.pool (s.walk.stake ++ root.stakes)
      serial := by
  unfold Scene.stepCalled
  split
  · next hfinished =>
    rw [Process.stakes_of_isFinished hfinished, List.append_nil]
    exact .refl _ _
  · exact .refl _ _

theorem Scene.exchanged_stepInPlace (s : Scene) (task serial : Nat) (anchor entry : String)
    (resume : Resume) (branch : Process) :
    (s.stepInPlace task serial anchor entry resume branch).Exchanged s.engine.pool branch.stakes
      serial := by
  unfold Scene.stepInPlace
  split
  · next hfinished =>
    rw [Process.stakes_of_isFinished hfinished]
    split <;> exact .refl _ _
  · exact .refl _ _

mutual

/-- A step of a process exchanges stakes of the process, and no others. -/
theorem Process.step_exchanges {who task : Nat} {p p' : Process} {run run' : RunState}
    {e e' : Engine} (h : p.step who task run e = some (p', run', e')) :
    e.pool.Exchanges p.stakes e'.pool p'.stakes := by
  obtain ⟨serial, walk, activity⟩ := p
  rw [Process.step, Option.map_eq_some_iff] at h
  obtain ⟨s, hs, heq⟩ := h
  cases heq
  exact Activity.step_exchanges hs

theorem Activity.step_exchanges {who task serial : Nat} {walk : Walk} {activity : Activity}
    {run : RunState} {e : Engine} {s : Scene}
    (h : activity.step who task serial walk run e = some s) :
    s.Exchanged e.pool (activity.stakes serial walk) serial := by
  cases activity with
  | calling job inner root next =>
    rw [Activity.step, Option.map_eq_some_iff] at h
    obtain ⟨⟨root', inner', e'⟩, hroot, rfl⟩ := h
    have hstep := (Process.step_exchanges hroot).append_left walk.stake
    exact hstep.trans (Scene.exchanged_stepCalled ⟨walk, _, run, e'⟩ serial job inner' root' next)
  | inPlace anchor entry resume branch =>
    rw [Activity.step, Option.map_eq_some_iff] at h
    obtain ⟨⟨branch', run', e'⟩, hbranch, rfl⟩ := h
    exact (Process.step_exchanges hbranch).trans (Scene.exchanged_stepInPlace _ _ _ _ _ _ _)
  | forking anchor resume toStart children completed =>
    rw [Activity.step] at h
    split at h
    · exact Scene.exchanged_stepHere h
    · rw [Option.map_eq_some_iff] at h
      obtain ⟨⟨children', ended, run', e'⟩, hchildren, rfl⟩ := h
      exact Child.stepIn_exchanges hchildren
  | poised | queued | working | asleep =>
    rw [Activity.step] at h
    · split at h
      · exact Scene.exchanged_stepHere h
      · cases h
    all_goals simp

theorem Child.stepIn_exchanges {who : Nat} {children children' : List Child} {ended : List String}
    {run run' : RunState} {e e' : Engine}
    (h : Child.stepIn who children run e = some (children', ended, run', e')) :
    e.pool.Exchanges (Child.stakesIn children) e'.pool (Child.stakesIn children') := by
  cases children with
  | nil => cases h
  | cons child rest =>
    rw [Child.stepIn] at h
    split at h
    · next hchild =>
      cases h
      exact (Child.step_exchanges hchild).append_right _
    · rw [Option.map_eq_some_iff] at h
      obtain ⟨⟨rest', ended', run', e'⟩, hrest, heq⟩ := h
      cases heq
      exact (Child.stepIn_exchanges hrest).append_left _

theorem Child.step_exchanges {who : Nat} {child child' : Child} {ended : List String}
    {run run' : RunState} {e e' : Engine}
    (h : child.step who run e = some (child', ended, run', e')) :
    e.pool.Exchanges child.stakes e'.pool child'.stakes := by
  cases child with
  | refused | ended | cancelled => cases h
  | running entry process =>
    rw [Child.step, Option.map_eq_some_iff] at h
    obtain ⟨⟨process', run', e'⟩, hprocess, heq⟩ := h
    have hstep := Process.step_exchanges hprocess
    simp only at heq
    split at heq
    · next hfinished =>
      cases heq
      rw [Process.stakes_of_isFinished hfinished] at hstep
      exact hstep.trans (.of_eq _ rfl rfl rfl rfl)
    · cases heq
      exact hstep

end

end Workflow
