import Workflow.Proofs.Run.Blind
import Workflow.Proofs.Run.Reuse

/-!
# A branch in place and a branch apart

The branch of a fork of one runs in the place of its walk, and needs permits of the pool only if that
walk does. A branch of a larger fork is a task of its own and always needs them. `Process.apart` is a
process as it stands in such a task: the same walks, in the middle of the same things, but for permits.

A step does the same to both (`Process.step_apart`), as long as permits make no difference. They
make none to a walk that needs them anyway, and none to the only walk that could want one: while a
branch is at work itself and not in a group of its own, the other permits of the pool are available.
-/

namespace Workflow

/-! ## Decisions -/

/-- The walk as it is in a task of its own, if `own` is set: its units need permits of the pool. -/
def Walk.apart (own : Bool) (w : Walk) : Walk := { w with pooled := w.pooled || own }

def Turn.apart (own : Bool) (t : Turn) : Turn := { t with walk := t.walk.apart own }

namespace Walk

variable (own : Bool) (w : Walk) (scope : Scope) (hasRun : String → Bool) (tolerant : Bool)

@[simp] theorem plan_apart : (w.apart own).plan = w.plan := rfl

@[simp] theorem position_apart : (w.apart own).position = w.position := rfl

@[simp] theorem early_apart : (w.apart own).early = w.early := rfl

@[simp] theorem failure_apart : (w.apart own).failure = w.failure := rfl

@[simp] theorem skipEnd?_apart (position : Nat) :
    (w.apart own).skipEnd? position = w.skipEnd? position := rfl

theorem detour_apart (target : String) :
    (w.apart own).detour scope hasRun target = (w.detour scope hasRun target).apart own := by
  unfold detour
  split <;> rfl

theorem steer_apart (u : String) (signal : Option String) :
    (w.apart own).steer scope hasRun u signal = (w.steer scope hasRun u signal).apart own := by
  unfold steer
  simp only [plan_apart, position_apart]
  split
  · rfl
  · rfl
  · split
    · rfl
    · split
      · split
        · rfl
        · exact detour_apart own (w.skipArms _) scope hasRun _
      · split
        · rfl
        · exact detour_apart ..

theorem obey_apart (u : String) (signal : Option String) (fork : Option (List String)) :
    (w.apart own).obey scope hasRun u signal fork = (w.obey scope hasRun u signal fork).apart own := by
  unfold obey
  simp only [plan_apart, position_apart]
  split
  · rfl
  · split
    · rfl
    · rfl
    · rfl
    · exact steer_apart ..

theorem fallThrough_apart : (w.apart own).fallThrough = w.fallThrough.apart own := by
  unfold fallThrough
  simp only [plan_apart, position_apart]
  split <;> rfl

theorem advance_apart :
    (w.apart own).advance scope hasRun = (w.advance scope hasRun).apart own := by
  unfold advance
  simp only [plan_apart, position_apart, early_apart, skipEnd?_apart]
  split
  · rfl
  · split
    · rfl
    · split <;> rfl
    · split
      · exact congrArg (Walk.proceed · scope) (fallThrough_apart own { w with early := w.early.erase _ })
      · exact obey_apart own { w with early := w.early.erase _ } ..
      · exact obey_apart own { w with early := w.early.erase _ } ..
    · rfl

theorem ownUnitDone_apart (result : Option Mishap) :
    (w.apart own).ownUnitDone scope hasRun tolerant result =
      (w.ownUnitDone scope hasRun tolerant result).apart own := by
  unfold ownUnitDone
  simp only [plan_apart, position_apart]
  split
  · rfl
  · split
    · split
      · exact congrArg (Walk.proceed · _) (fallThrough_apart own (w.addFailure _))
      · rfl
    · exact obey_apart ..

theorem detourDone_apart (unitId : String) (reached : Bool) (result : Option Mishap) :
    (w.apart own).detourDone scope tolerant unitId reached result =
      (w.detourDone scope tolerant unitId reached result).apart own := by
  unfold detourDone
  split
  · simp only
    split
    · cases reached <;> rfl
    · rfl
  · simp only
    split
    · rfl
    · split <;> rfl

theorem unitDone_apart (unitId : String) (resume : Resume) (result : Option Mishap) :
    (w.apart own).unitDone scope hasRun tolerant unitId resume result =
      (w.unitDone scope hasRun tolerant unitId resume result).apart own := by
  unfold unitDone
  split
  · exact ownUnitDone_apart ..
  · exact detourDone_apart ..
  all_goals
    unfold aloneDone
    split
    · rfl
    · simp only
      split <;> rfl

theorem groupDone_apart (stop : Nat) (result : Option Failure) :
    (w.apart own).groupDone scope hasRun tolerant stop result =
      (w.groupDone scope hasRun tolerant stop result).apart own := by
  unfold groupDone
  simp only [plan_apart]
  split
  · split <;> rfl
  · split
    · exact steer_apart own { w with position := stop - 1 } ..
    · rfl

theorem scatterDone_apart (entries : List String) (signal : Option String)
    (result : Option Failure) :
    (w.apart own).scatterDone scope hasRun tolerant entries signal result =
      (w.scatterDone scope hasRun tolerant entries signal result).apart own := by
  unfold scatterDone
  simp only [plan_apart, position_apart, early_apart]
  split
  · rfl
  · split
    · split
      · exact steer_apart own (w.addFailure _) ..
      · rfl
    · let ran := entries.filter (w.plan.sequence.drop (w.position + 1)).contains
      exact steer_apart own { w with early := ran.foldl (fun done entry => done.insert entry .forked) w.early }
        scope hasRun _ signal

theorem forkDone_apart (resume : Resume) (result : Option Failure) :
    (w.apart own).forkDone scope hasRun tolerant resume result =
      (w.forkDone scope hasRun tolerant resume result).apart own := by
  unfold forkDone
  split
  · exact groupDone_apart ..
  · exact scatterDone_apart ..
  all_goals
    unfold detourForkDone
    split
    · simp only
      split <;> rfl
    · rfl

end Walk

/-! ## Pools and engines -/

/-- The second pool has given out so many permits more than the first one. -/
structure Pool.Lends (lent : Nat) (p p' : Pool) : Prop where
  closed : p'.closed = p.closed
  waiting : p'.waiting = p.waiting
  granted : p'.granted = p.granted
  available : p.available = p'.available + lent

namespace Pool.Lends

variable {lent : Nat} {p p' : Pool}

theorem isGranted (h : p.Lends lent p') (walk : Nat) : p'.isGranted walk = p.isGranted walk := by
  unfold Pool.isGranted
  rw [h.granted]

theorem accept (h : p.Lends lent p') (walk : Nat) : (p.accept walk).Lends lent (p'.accept walk) :=
  ⟨h.closed, h.waiting, congrArg (List.erase · walk) h.granted, h.available⟩

theorem enqueue (h : p.Lends lent p') (walk : Nat) : (p.enqueue walk).Lends lent (p'.enqueue walk) :=
  ⟨h.closed, congrArg (· ++ [walk]) h.waiting, h.granted, h.available⟩

theorem finish (h : p.Lends lent p') : p.finish.Lends lent p'.finish :=
  ⟨h.closed, h.waiting, h.granted, h.available⟩

theorem release (h : p.Lends lent p') : p.release.Lends lent p'.release := by
  obtain ⟨hclosed, hwaiting, hgranted, havailable⟩ := h
  unfold Pool.release
  rw [hwaiting]
  split
  · exact ⟨hclosed, rfl, hgranted, by simp only; omega⟩
  · exact ⟨hclosed, rfl, by simp only [hgranted], havailable⟩

theorem take? (h : p.Lends 0 p') : Option.Rel (Pool.Lends 0) p.take? p'.take? := by
  obtain ⟨hclosed, hwaiting, hgranted, havailable⟩ := h
  have hsame : p'.available = p.available := havailable.symm
  unfold Pool.take?
  rw [hsame]
  split
  · exact .none
  · exact .some ⟨hclosed, hwaiting, hgranted, rfl⟩

theorem start? (h : p.Lends lent p') : Option.Rel (Pool.Lends lent) p.start? p'.start? := by
  unfold Pool.start?
  rw [h.closed]
  split
  · exact .none
  · exact .some ⟨rfl, h.waiting, h.granted, h.available⟩

/-- One permit more is given out. -/
theorem exists_take (h : p.Lends 0 p') (havailable : 0 < p.available) :
    ∃ pool, p'.take? = some pool ∧ p.Lends 1 pool := by
  have hsame := h.available
  refine ⟨{ p' with available := p'.available - 1 }, ?_, h.closed, h.waiting, h.granted, ?_⟩
  · unfold Pool.take?
    rw [if_neg (by omega)]
  · show p.available = p'.available - 1 + 1
    omega

/-- The permit that was given out is given back. -/
theorem giveBack (h : p.Lends 1 p') (hwaiting : p.waiting = []) : p.Lends 0 p'.release := by
  unfold Pool.release
  rw [h.waiting, hwaiting]
  exact ⟨h.closed, hwaiting.symm, h.granted, h.available⟩

end Pool.Lends

/-- What an entry of the journal says, but for the task. -/
def JournalEntry.event (entry : JournalEntry) : Nat × Occurrence := (entry.walk, entry.occurrence)

/-- What has been written down, but for the tasks. -/
def Engine.events (e : Engine) : List (Nat × Occurrence) := e.journal.toList.map JournalEntry.event

/-- The engines differ in nothing but permits, the number of tasks, and the tasks that the journal
names. -/
structure Engine.Beside (lent : Nat) (e e' : Engine) : Prop where
  registry : e'.registry = e.registry
  listeners : e'.listeners = e.listeners
  plans : e'.plans = e.plans
  pool : e.pool.Lends lent e'.pool
  clock : e'.clock = e.clock
  serial : e'.nextSerial = e.nextSerial
  scope : e'.nextScope = e.nextScope
  events : e'.events = e.events

namespace Engine.Beside

variable {lent more : Nat} {e e' : Engine}

theorem record (h : e.Beside lent e') (task task' walk : Nat) {o o' : Occurrence} (ho : o' = o) :
    (e.record task walk o).Beside lent (e'.record task' walk o') := by
  subst ho
  refine ⟨h.registry, h.listeners, h.plans, h.pool, h.clock, h.serial, h.scope, ?_⟩
  have hevents := h.events
  unfold Engine.events at hevents ⊢
  simp only [Engine.record, Array.toList_push, List.map_append, hevents]
  rfl

theorem remarks (h : e.Beside lent e') (texts : List String) (task task' walk : Nat) :
    (texts.foldl (fun e text => e.record task walk (.remark text)) e).Beside lent
      (texts.foldl (fun e text => e.record task' walk (.remark text)) e') := by
  induction texts generalizing e e' with
  | nil => exact h
  | cons text rest ih => exact ih (h.record task task' walk rfl)

theorem withPool (h : e.Beside lent e') {p p' : Pool} (hpool : p.Lends more p') :
    Engine.Beside more { e with pool := p } { e' with pool := p' } :=
  ⟨h.registry, h.listeners, h.plans, hpool, h.clock, h.serial, h.scope, h.events⟩

theorem withListeners (h : e.Beside lent e') (listeners : Listeners) :
    Engine.Beside lent { e with listeners := listeners } { e' with listeners := listeners } :=
  ⟨h.registry, rfl, h.plans, h.pool, h.clock, h.serial, h.scope, h.events⟩

theorem withRegistry (h : e.Beside lent e') {r r' : Registry} (hr : r' = r) :
    Engine.Beside lent { e with registry := r } { e' with registry := r' } :=
  ⟨hr, h.listeners, h.plans, h.pool, h.clock, h.serial, h.scope, h.events⟩

theorem takeSerial (h : e.Beside lent e') : e.takeSerial.2.Beside lent e'.takeSerial.2 :=
  ⟨h.registry, h.listeners, h.plans, h.pool, h.clock, congrArg (· + 1) h.serial, h.scope, h.events⟩

theorem takeScope (h : e.Beside lent e') : e.takeScope.2.Beside lent e'.takeScope.2 :=
  ⟨h.registry, h.listeners, h.plans, h.pool, h.clock, h.serial, congrArg (· + 1) h.scope, h.events⟩

/-- The same plan comes out. -/
theorem compile (h : e.Beside lent e') (text : String) :
    (e'.compile text).1 = (e.compile text).1 ∧
      (e.compile text).2.Beside lent (e'.compile text).2 := by
  unfold Engine.compile
  rw [h.plans]
  exact ⟨rfl, h.registry, h.listeners, rfl, h.pool, h.clock, h.serial, h.scope, h.events⟩

theorem openPlan (h : e.Beside lent e') (plan : Plan) :
    (e'.openPlan plan).1 = (e.openPlan plan).1 ∧
      (e.openPlan plan).2.Beside lent (e'.openPlan plan).2 := by
  have hclosed : e'.isClosed = e.isClosed := h.pool.closed
  unfold Engine.openPlan
  rw [hclosed]
  split
  · exact ⟨rfl, h⟩
  · refine ⟨?_, h.takeSerial⟩
    show Except.ok (Process.ofPlan e'.nextSerial plan false) = _
    rw [h.serial]
    rfl

theorem openFlow (h : e.Beside lent e') (flowId : String) :
    (e'.openFlow flowId).1 = (e.openFlow flowId).1 ∧
      (e.openFlow flowId).2.Beside lent (e'.openFlow flowId).2 := by
  unfold Engine.openFlow
  rw [h.registry]
  rcases e.registry.flow? flowId with _ | expression
  · exact ⟨rfl, h⟩
  · obtain ⟨hresult, hengine⟩ := h.compile expression
    rcases hcompile : e.compile expression with ⟨result, e₁⟩
    rcases hcompile' : e'.compile expression with ⟨result', e₁'⟩
    rw [hcompile, hcompile'] at hresult hengine
    obtain rfl : result' = result := hresult
    simp only [hcompile, hcompile']
    cases result' with
    | error error => exact ⟨rfl, hengine⟩
    | ok cached => exact hengine.openPlan cached.plan

end Engine.Beside

/-! ## Processes -/

mutual

/-- The process as it is in a task of its own, if `own` is set. What runs in its place is in that task
as well, and what its units and its groups run is not. -/
def Process.apart (own : Bool) : Process → Process
  | .mk serial walk activity => .mk serial (walk.apart own) (activity.apart own)

def Activity.apart (own : Bool) : Activity → Activity
  | .inPlace anchor entry resume branch => .inPlace anchor entry resume (branch.apart own)
  | activity => activity

end

mutual

/-- How many permits it holds there that it need not hold here: one, if it is at work. -/
def Process.lent (own : Bool) : Process → Nat
  | .mk _ _ activity => activity.lent own

def Activity.lent (own : Bool) : Activity → Nat
  | .working .. | .asleep .. | .calling .. => own.toNat
  | .inPlace _ _ _ branch => branch.lent own
  | .poised _ | .queued .. | .forking .. => 0

end

@[simp] theorem Walk.apart_false (w : Walk) : w.apart false = w := by
  unfold Walk.apart
  rw [Bool.or_false]

mutual

@[simp] theorem Process.apart_false : (p : Process) → p.apart false = p
  | .mk serial walk activity => by
    rw [Process.apart, walk.apart_false, Activity.apart_false activity]

@[simp] theorem Activity.apart_false : (activity : Activity) → activity.apart false = activity
  | .poised _ | .queued .. | .working .. | .asleep .. | .calling .. | .forking .. => rfl
  | .inPlace anchor entry resume branch =>
    congrArg (Activity.inPlace anchor entry resume) (Process.apart_false branch)

end

mutual

@[simp] theorem Process.lent_false : (p : Process) → p.lent false = 0
  | .mk _ _ activity => Activity.lent_false activity

@[simp] theorem Activity.lent_false : (activity : Activity) → activity.lent false = 0
  | .poised _ | .queued .. | .working .. | .asleep .. | .calling .. | .forking .. => rfl
  | .inPlace _ _ _ branch => Process.lent_false branch

end

namespace Process

variable (own : Bool) (p : Process)

@[simp] theorem serial_apart : (p.apart own).serial = p.serial := by
  cases p
  rfl

@[simp] theorem walk_apart : (p.apart own).walk = p.walk.apart own := by
  cases p
  rfl

@[simp] theorem isFinished_apart : (p.apart own).isFinished = p.isFinished := by
  obtain ⟨serial, walk, activity⟩ := p
  cases activity with
  | poised next => cases next <;> rfl
  | queued | working | asleep | calling | inPlace | forking => rfl

theorem lent_of_isFinished (h : p.isFinished = true) : p.lent own = 0 := by
  obtain ⟨serial, walk, rfl⟩ := exists_of_isFinished h
  rfl

end Process

/-! ## Steps of a walk -/

/-- The second scene is the first one as it is in a task of its own, with so many permits more given
out. -/
structure Scene.Beside (own : Bool) (lent : Nat) (s s' : Scene) : Prop where
  walk : s'.walk = s.walk.apart own
  activity : s'.activity = s.activity.apart own
  run : s'.run = s.run
  engine : s.engine.Beside lent s'.engine

/-- The second scene is the first one as it is in a task of its own, with the permit that the walk holds
there, and so many more. -/
def Scene.Matches (own : Bool) (more : Nat) (s s' : Scene) : Prop :=
  s.Beside own (more + s.activity.lent own) s'

/-- A walk starts branches that are tasks, or waits for them. -/
def Activity.IsForking : Activity → Prop
  | .forking .. => True
  | .poised _ | .queued .. | .working .. | .asleep .. | .calling .. | .inPlace .. => False

/-- Permits make no difference to what the walk does: it needs them on both sides, or on neither, or
there is one for it. -/
inductive Scene.Unhindered (own : Bool) (more : Nat) (s : Scene) : Prop where
  | alike (hown : own = false) (hpermits : s.walk.pooled = true → more = 0)
  | lent (hown : own = true) (hmore : more = 0) (hpooled : s.walk.pooled = false)
      (hwaiting : s.engine.pool.waiting = []) (havailable : 0 < s.engine.pool.available)

namespace Scene.Beside

variable {own : Bool} {lent more : Nat} {s s' : Scene}

theorem exists_eq (h : s.Beside own lent s') :
    ∃ e', s' = ⟨s.walk.apart own, s.activity.apart own, s.run, e'⟩ ∧ s.engine.Beside lent e' := by
  obtain ⟨walk, activity, run, e'⟩ := s'
  obtain ⟨rfl, rfl, rfl, hengine⟩ := h
  exact ⟨e', rfl, hengine⟩

theorem withActivity (h : s.Beside own lent s') (activity : Activity) :
    Scene.Beside own lent { s with activity := activity }
      { s' with activity := activity.apart own } :=
  ⟨h.walk, rfl, h.run, h.engine⟩

theorem withPool (h : s.Beside own lent s') {p p' : Pool} (hpool : p.Lends more p') :
    Scene.Beside own more { s with engine := { s.engine with pool := p } }
      { s' with engine := { s'.engine with pool := p' } } :=
  ⟨h.walk, h.activity, h.run, h.engine.withPool hpool⟩

theorem publish (h : s.Beside own lent s') (entries : List String) :
    Scene.Beside own lent { s with run := { s.run with scope := s.run.scope.publish entries } }
      { s' with run := { s'.run with scope := s'.run.scope.publish entries } } := by
  obtain ⟨e', rfl, hengine⟩ := h.exists_eq
  exact ⟨rfl, rfl, rfl, hengine⟩

section

variable (task task' serial : Nat)

theorem record (h : s.Beside own lent s') (o : Occurrence) :
    (s.record task serial o).Beside own lent (s'.record task' serial o) :=
  ⟨h.walk, h.activity, h.run, h.engine.record task task' serial rfl⟩

theorem turn (h : s.Beside own lent s') (t : Turn) :
    (s.turn t).Beside own lent (s'.turn (t.apart own)) := by
  obtain ⟨e', rfl, hengine⟩ := h.exists_eq
  exact ⟨rfl, rfl, rfl, hengine⟩

theorem unitEnded (h : s.Beside own lent s') (u : String) (resume : Resume)
    (result : Option Mishap) :
    (s.unitEnded task serial u resume result).Beside own lent
      (s'.unitEnded task' serial u resume result) := by
  unfold Scene.unitEnded
  rw [h.walk, h.run, Walk.unitDone_apart]
  exact (h.record task task' serial _).turn _

theorem joined (h : s.Beside own lent s') (anchor : String) (resume : Resume)
    (result : Option Failure) :
    (s.joined task serial anchor resume result).Beside own lent
      (s'.joined task' serial anchor resume result) := by
  unfold Scene.joined
  rw [h.walk, h.run, Walk.forkDone_apart]
  exact (h.record task task' serial _).turn _

theorem beginUnit (h : s.Beside own lent s') (u : String) (unit : FlowUnit) (resume : Resume) :
    (s.beginUnit task serial u unit resume).Beside own lent
      (s'.beginUnit task' serial u unit resume) := by
  obtain ⟨e', rfl, hengine⟩ := h.exists_eq
  exact ⟨rfl, rfl, rfl, hengine.record task task' serial rfl⟩

theorem execute (h : s.Beside own more s') (hpermits : s.Unhindered own more) (u : String)
    (resume : Resume) :
    (s.execute task serial u resume).Matches own more (s'.execute task' serial u resume) := by
  have hunit' : s'.engine.registry.unit? u = s.engine.registry.unit? u := by
    rw [h.engine.registry]
  have hpooled' : s'.walk.pooled = (s.walk.pooled || own) := congrArg Walk.pooled h.walk
  unfold Scene.execute
  rcases hunit : s.engine.registry.unit? u with _ | unit
  · rw [hunit] at hunit'
    simp only [hunit']
    exact h.unitEnded task task' serial u resume _
  rw [hunit] at hunit'
  cases hpermits with
  | alike hown hpermits =>
    subst hown
    rw [Bool.or_false] at hpooled'
    rcases hpooled : s.walk.pooled with _ | _
    · rw [hpooled] at hpooled'
      simp only [hunit', hpooled', Bool.false_eq_true, if_false]
      exact h.beginUnit task task' serial u unit resume
    rw [hpooled] at hpooled'
    obtain rfl := hpermits hpooled
    have htake := h.engine.pool.take?
    rcases hpool : s.engine.pool.take? with _ | pool
    · -- there is no permit on either side, and the walk takes its place in the line
      simp only [hunit', hpooled', eq_none_of_rel htake hpool, if_true]
      exact (h.withActivity (.queued u unit resume)).withPool (h.engine.pool.enqueue serial)
    · obtain ⟨pool', hpool', hlends⟩ := exists_of_rel htake hpool
      simp only [hunit', hpooled', hpool', if_true]
      exact (h.withPool hlends).beginUnit task task' serial u unit resume
  | lent hown hmore hpooled hwaiting havailable =>
    subst hown hmore
    rw [hpooled, Bool.false_or] at hpooled'
    obtain ⟨pool, htake, hlends⟩ := h.engine.pool.exists_take havailable
    simp only [hunit', hpooled', htake, hpooled, Bool.false_eq_true, if_true, if_false]
    exact (h.withPool hlends).beginUnit task task' serial u unit resume

theorem fork (h : s.Beside own more s') (anchor : String) (branches : List (Branch Plan))
    (resume : Resume) :
    (s.fork task serial anchor branches resume).Matches own more
      (s'.fork task' serial anchor branches resume) := by
  have hforked := h.record task task' serial (.forked anchor (branches.map Branch.entry))
  unfold Scene.fork
  rcases branches with _ | ⟨branch, _ | ⟨next, rest⟩⟩
  · exact hforked.joined task task' serial anchor resume none
  · obtain ⟨e', rfl, hengine⟩ := h.exists_eq
    have hserial : e'.nextSerial = s.engine.nextSerial := hengine.serial
    refine ⟨rfl, ?_, rfl, ?_⟩
    · show Activity.inPlace anchor branch.entry resume
        (.ofPlan e'.nextSerial branch.plan (s.walk.apart own).pooled) = _
      rw [hserial]
      rfl
    · exact (hengine.record task task' serial rfl).takeSerial.record task task' serial
        (congrArg (Occurrence.branchStarted branch.entry) hserial)
  · exact hforked.withActivity (.forking anchor resume _ [] [])

theorem startBranch (h : s.Beside own more s') (anchor : String) (resume : Resume)
    (branch : Branch Plan) (toStart : List (Branch Plan)) (children : List Child)
    (completed : List String) :
    (s.startBranch task serial anchor resume branch toStart children completed).Matches own more
      (s'.startBranch task' serial anchor resume branch toStart children completed) := by
  obtain ⟨e', rfl, hengine⟩ := h.exists_eq
  have hserial : e'.nextSerial = s.engine.nextSerial := hengine.serial
  have hstart := hengine.pool.start?
  unfold Scene.startBranch
  rcases hpool : s.engine.pool.start? with _ | pool
  · simp only [eq_none_of_rel hstart hpool]
    exact ⟨rfl, rfl, rfl, hengine⟩
  · obtain ⟨pool', hpool', hlends⟩ := exists_of_rel hstart hpool
    simp only [hpool']
    refine ⟨rfl, ?_, rfl, ?_⟩
    · show Activity.forking anchor resume toStart
        (children ++ [.running branch.entry (.ofPlan e'.nextSerial branch.plan true)]) completed = _
      rw [hserial]
      rfl
    · exact (hengine.withPool hlends).takeSerial.record task task' serial
        (congrArg (Occurrence.branchStarted branch.entry) hserial)

theorem join (h : s.Beside own more s') (anchor : String) (resume : Resume) (children : List Child)
    (completed : List String) :
    (s.join task serial anchor resume children completed).Matches own more
      (s'.join task' serial anchor resume children completed) := by
  unfold Scene.join
  split
  · exact h.joined task task' serial anchor resume _
  · exact (h.publish completed).joined task task' serial anchor resume none

/-! ## Steps of a unit -/

theorem announce (h : s.Beside own lent s') (job : Job) (moment : Moment)
    (failure : Option Failure) :
    (s.announce task serial job moment failure).Beside own lent
      (s'.announce task' serial job moment failure) := by
  obtain ⟨e', rfl, hengine⟩ := h.exists_eq
  unfold Scene.announce
  simp only [hengine.listeners]
  exact ⟨rfl, rfl, rfl, (hengine.withListeners _).remarks _ task task' serial⟩

/-- Whoever has needed a permit gives it back. -/
theorem endUnit (h : s.Beside own (more + own.toNat) s') (hpermits : s.Unhindered own more) (job : Job)
    (result : Option Mishap) :
    (s.endUnit task serial job result).Matches own more (s'.endUnit task' serial job result) := by
  have hpooled' : s'.walk.pooled = (s.walk.pooled || own) := congrArg Walk.pooled h.walk
  unfold Scene.endUnit
  cases hpermits with
  | alike hown =>
    subst hown
    rw [Bool.or_false] at hpooled'
    simp only [hpooled']
    split
    · exact (h.withPool h.engine.pool.release).unitEnded task task' serial _ _ result
    · exact h.unitEnded task task' serial _ _ result
  | lent hown hmore hpooled hwaiting =>
    subst hown hmore
    rw [hpooled, Bool.false_or] at hpooled'
    simp only [hpooled', hpooled, Bool.false_eq_true, if_true, if_false]
    exact (h.withPool (h.engine.pool.giveBack hwaiting)).unitEnded task task' serial _ _ result

theorem call (h : s.Beside own (more + own.toNat) s') (job : Job) (stage : Stage)
    (behavior : Behavior) : (s.call job stage behavior).Matches own more (s'.call job stage behavior) :=
  h.withActivity (.working { job with stage := stage } behavior)

/-- Listeners have nothing to do with permits. -/
theorem unhindered_announce (h : s.Unhindered own more) (job : Job) (moment : Moment)
    (failure : Option Failure) : (s.announce task serial job moment failure).Unhindered own more := by
  cases h with
  | alike hown hpermits => exact .alike hown hpermits
  | lent hown hmore hpooled hwaiting havailable =>
    refine .lent hown hmore hpooled ?_ ?_
    · rw [pool_announce]
      exact hwaiting
    · rw [pool_announce]
      exact havailable

theorem succeed (h : s.Beside own (more + own.toNat) s') (hpermits : s.Unhindered own more)
    (job : Job) :
    (s.succeed task serial job).Matches own more (s'.succeed task' serial job) := by
  unfold Scene.succeed
  split
  · obtain ⟨e', rfl, hengine⟩ := h.exists_eq
    obtain ⟨e₁, heq, hengine₁⟩ := (h.announce task task' serial job .before none).exists_eq
    rw [heq]
    exact ⟨rfl, rfl, rfl, hengine₁⟩
  · rw [h.run]
    exact h.call job .after _
  · exact (h.announce task task' serial job .after none).endUnit task task' serial
      (unhindered_announce task serial hpermits job .after none) job none
  · exact (h.announce task task' serial job .error _).endUnit task task' serial
      (unhindered_announce task serial hpermits job .error _) job _

theorem failCall (h : s.Beside own (more + own.toNat) s') (hpermits : s.Unhindered own more)
    (job : Job) (cause : Cause) :
    (s.failCall task serial job cause).Matches own more (s'.failCall task' serial job cause) := by
  unfold Scene.failCall
  split
  · exact h.succeed task task' serial hpermits job
  · rw [h.run]
    exact h.call job _ _

theorem runFlow (h : s.Beside own (more + own.toNat) s') (job : Job) (flowId : String)
    (next : RunSummary → Behavior) :
    (s.runFlow job flowId next).Matches own more (s'.runFlow job flowId next) := by
  obtain ⟨hroot, hengine⟩ := h.engine.takeScope.openFlow flowId
  unfold Scene.runFlow
  rcases hopen : s.engine.takeScope.2.openFlow flowId with ⟨result, e₁⟩
  rcases hopen' : s'.engine.takeScope.2.openFlow flowId with ⟨result', e₁'⟩
  rw [hopen, hopen'] at hroot hengine
  obtain rfl : result' = result := hroot
  simp only [hopen, hopen']
  cases result' with
  | error failure => exact ⟨h.walk, rfl, h.run, hengine⟩
  | ok root =>
    refine ⟨h.walk, ?_, h.run, hengine⟩
    show Activity.calling job ⟨{}, s'.engine.nextScope, ∅, []⟩ root next = _
    rw [h.engine.scope]
    rfl

/-- What a unit does that does not look at the pool. -/
theorem act (h : s.Beside own (more + own.toNat) s') (hpermits : s.Unhindered own more) (job : Job)
    {behavior : Behavior} (hblind : behavior.Blind) :
    (s.act task serial job behavior).Matches own more (s'.act task' serial job behavior) := by
  have hall := h
  obtain ⟨e', rfl, hengine⟩ := h.exists_eq
  cases hblind with
  | done => exact hall.succeed task task' serial hpermits job
  | fail cause => exact hall.failCall task task' serial hpermits job cause
  | panic payload => exact hall.failCall task task' serial hpermits job (panicCause payload)
  | access | signalRoute | signalFork | payload => exact ⟨rfl, rfl, rfl, hengine⟩
  | note => exact ⟨rfl, rfl, rfl, hengine.record task task' serial rfl⟩
  | @sleep milliseconds rest =>
    refine ⟨rfl, ?_, rfl, hengine⟩
    show Activity.asleep job (e'.clock + milliseconds) rest = _
    rw [hengine.clock]
    rfl
  | addUnit | addFlow | eraseUnit =>
    exact ⟨rfl, rfl, rfl, hengine.withRegistry (by rw [hengine.registry])⟩
  | runFlow => exact hall.runFlow job _ _

/-! ## One step at one walk -/

theorem stepCalled (h : s.Beside own (more + own.toNat) s') (job : Job) (run : RunState)
    (root : Process) (next : RunSummary → Behavior) :
    (s.stepCalled job run root next).Matches own more (s'.stepCalled job run root next) := by
  unfold Scene.stepCalled
  split
  · exact h.withActivity (.working job _)
  · exact h.withActivity (.calling job run root next)

theorem stepInPlace (anchor entry : String) (resume : Resume) (branch : Process)
    (h : s.Beside own (more + branch.lent own) s') :
    (s.stepInPlace task serial anchor entry resume branch).Matches own more
      (s'.stepInPlace task' serial anchor entry resume (branch.apart own)) := by
  unfold Scene.stepInPlace
  rw [Process.isFinished_apart, Process.walk_apart, Walk.failure_apart]
  split
  · next hfinished =>
    rw [branch.lent_of_isFinished own hfinished] at h
    split
    · exact h.joined task task' serial anchor resume _
    · exact (h.publish [entry]).joined task task' serial anchor resume none
  · exact h.withActivity (.inPlace anchor entry resume branch)

end

end Scene.Beside

/-- A walk does the same on both sides, where permits make no difference to it. While it starts and
joins branches, it has nothing to do with permits. -/
theorem Scene.Matches.stepHere {own : Bool} {more : Nat} {s s' : Scene} (task task' serial : Nat)
    (h : s.Matches own more s') (hblind : s.activity.Blind)
    (hpermits : ¬ s.activity.IsForking → s.Unhindered own more)
    (hqueued : ∀ u unit resume, s.activity = .queued u unit resume → own = false) :
    Option.Rel (Scene.Matches own more) (s.stepHere task serial) (s'.stepHere task' serial) := by
  obtain ⟨walk, activity, run, e⟩ := s
  obtain ⟨e', rfl, hengine⟩ := h.exists_eq
  have hall : Scene.Beside own (more + activity.lent own) ⟨walk, activity, run, e⟩ _ := h
  unfold Scene.stepHere
  cases activity with
  | poised next =>
    cases next with
    | advance =>
      refine .some ?_
      show Scene.Matches own more _
        (Scene.turn _ ((walk.apart own).advance run.scope run.hasRun))
      rw [Walk.advance_apart]
      exact hall.turn _
    | execute u resume => exact .some (hall.execute task task' serial (hpermits id) u resume)
    | fork anchor branches resume => exact .some (hall.fork task task' serial anchor branches resume)
    | finish => exact .none
  | queued u unit resume =>
    -- who waits in the queue belongs to a branch, so it has not been set apart
    obtain rfl := hqueued u unit resume rfl
    have hgranted : e'.pool.isGranted serial = e.pool.isGranted serial := hengine.pool.isGranted serial
    simp only [Activity.apart, hgranted]
    split
    · exact .some ((hall.withPool (hengine.pool.accept serial)).beginUnit task task' serial u unit resume)
    · exact .none
  | working job rest => exact .some (hall.act task task' serial (hpermits id) job hblind.2)
  | asleep job wakeAt rest =>
    have hclock : e'.clock = e.clock := hengine.clock
    simp only [Activity.apart, hclock]
    split
    · exact .some (hall.withActivity (.working job rest))
    · exact .none
  | calling | inPlace => exact .none
  | forking anchor resume toStart children completed =>
    cases toStart with
    | cons branch toStart =>
      exact .some (hall.startBranch task task' serial anchor resume branch toStart children completed)
    | nil =>
      simp only [Activity.apart]
      split
      · exact .some (hall.join task task' serial anchor resume children completed)
      · exact .none

/-! ## One step of one task -/

/-- The same task, where the first process belongs to the one task and the second to the other. -/
def SameTask (task task' who who' : Nat) : Prop :=
  (who = task ∧ who' = task') ∨ (who ≠ task ∧ who' ≠ task' ∧ who' = who)

/-- What is left of the same process on both sides, of its run and of the engines. -/
def Process.Alike (more : Nat) :
    Process × RunState × Engine → Process × RunState × Engine → Prop
  | (p, run, e), (p', run', e') => p' = p ∧ run' = run ∧ e.Beside more e'

/-- What is left of the same branches on both sides. -/
def Child.Alike {α : Type} (more : Nat) :
    α × List String × RunState × Engine → α × List String × RunState × Engine → Prop
  | (a, entries, run, e), (a', entries', run', e') =>
    a' = a ∧ entries' = entries ∧ run' = run ∧ e.Beside more e'

section

variable {more : Nat} {e e' : Engine}

theorem Engine.Beside.scene (h : e.Beside more e') (walk : Walk) (activity : Activity) (run : RunState) :
    Scene.Beside false more ⟨walk, activity, run, e⟩ ⟨walk, activity, run, e'⟩ :=
  ⟨walk.apart_false.symm, activity.apart_false.symm, rfl, h⟩

theorem Engine.Beside.matches (h : e.Beside more e') (walk : Walk) (activity : Activity)
    (run : RunState) :
    Scene.Matches false more ⟨walk, activity, run, e⟩ ⟨walk, activity, run, e'⟩ := by
  unfold Scene.Matches
  rw [Activity.lent_false]
  exact h.scene walk activity run

/-- On both sides the same, where what is lent does not count. -/
theorem Scene.Matches.scene {s s' : Scene} (h : s.Matches false more s') :
    s'.walk = s.walk ∧ s'.activity = s.activity ∧ s'.run = s.run ∧ s.engine.Beside more s'.engine := by
  obtain ⟨hwalk, hactivity, hrun, hengine⟩ := h
  rw [Walk.apart_false] at hwalk
  rw [Activity.apart_false] at hactivity
  rw [Activity.lent_false] at hengine
  exact ⟨hwalk, hactivity, hrun, hengine⟩

mutual

/-- A process does the same on both sides if no more permits are given out on one of them, or if it
needs none: it belongs to no branch, and has none of its own. -/
theorem Process.step_alike {who who' task task' : Nat} (hwho : SameTask task task' who who')
    (h : e.Beside more e') (run : RunState) : (p : Process) → p.Blind →
    (more = 0 ∨ p.Staffed false ∧ p.tasks = []) →
    Option.Rel (Process.Alike more) (p.step who task run e) (p.step who' task' run e')
  | .mk serial walk activity, hblind, hfree => by
    rw [Process.step, Process.step]
    refine rel_map (Activity.step_alike hwho h serial walk run activity hblind hfree) ?_
    intro s s' hs
    obtain ⟨hwalk, hactivity, hrun, hengine⟩ := hs.scene
    exact ⟨by rw [hwalk, hactivity], hrun, hengine⟩

theorem Activity.step_alike {who who' task task' : Nat} (hwho : SameTask task task' who who')
    (h : e.Beside more e') (serial : Nat) (walk : Walk) (run : RunState) : (activity : Activity) →
    (Process.mk serial walk activity).Blind →
    (more = 0 ∨ (Process.mk serial walk activity).Staffed false ∧ activity.tasks = []) →
    Option.Rel (Scene.Matches false more) (activity.step who task serial walk run e)
      (activity.step who' task' serial walk run e')
  | .calling job inner root next, ⟨_, hinside⟩, hfree => by
    rw [Activity.step, Activity.step]
    have hroot : more = 0 ∨ root.Staffed false ∧ root.tasks = [] :=
      hfree.imp_right fun ⟨⟨_, _, _, hstaffed⟩, htasks⟩ => ⟨hstaffed root rfl, htasks⟩
    refine rel_map (Process.step_alike hwho h inner root (hinside root rfl) hroot) ?_
    rintro ⟨root, inner, e⟩ ⟨root', inner', e'⟩ ⟨rfl, rfl, he⟩
    exact (he.scene walk (.calling job inner' root' next) run).stepCalled job inner' root' next
  | .inPlace anchor entry resume branch, ⟨_, hinside⟩, hfree => by
    rw [Activity.step, Activity.step]
    have hbranch : more = 0 ∨ branch.Staffed false ∧ branch.tasks = [] :=
      hfree.imp_right fun ⟨⟨_, _, _, hstaffed⟩, htasks⟩ => ⟨hstaffed branch rfl, htasks⟩
    refine rel_map (Process.step_alike hwho h run branch (hinside branch rfl) hbranch) ?_
    rintro ⟨branch, run, e⟩ ⟨branch', run', e'⟩ ⟨rfl, rfl, he⟩
    have hscene := he.matches walk (.inPlace anchor entry resume branch') run'
    have hstep := hscene.stepInPlace task task' serial anchor entry resume branch'
    rwa [Process.apart_false] at hstep
  | .forking anchor resume toStart children completed, hblind, hfree => by
    rw [Activity.step, Activity.step]
    rcases hwho with ⟨rfl, rfl⟩ | ⟨hne, hne', rfl⟩
    · rw [if_pos rfl, if_pos rfl]
      exact (h.matches walk _ run).stepHere who who' serial trivial (fun hnot => absurd trivial hnot)
        fun _ _ _ _ => rfl
    · rw [if_neg hne, if_neg hne']
      obtain ⟨-, hinside⟩ := hblind
      refine rel_map (Child.stepIn_alike h who' run children (fun entry q hmem => hinside q ⟨entry, hmem⟩)
        (hfree.imp_right And.right)) ?_
      rintro ⟨children, ended, run, e⟩ ⟨children', ended', run', e'⟩ ⟨rfl, rfl, rfl, he⟩
      exact he.matches walk (.forking anchor resume toStart children' (completed ++ ended')) run'
  | .poised next, hblind, hfree | .queued u unit resume, hblind, hfree | .working job rest, hblind, hfree
  | .asleep job wakeAt rest, hblind, hfree => by
    obtain ⟨hown, -⟩ := hblind
    -- with more permits on one side, this walk belongs to no branch and needs none
    have hpermits : ∀ activity : Activity, Scene.Unhindered false more ⟨walk, activity, run, e⟩ := by
      intro activity
      refine .alike rfl fun hpooled => hfree.resolve_right ?_
      rintro ⟨⟨hunpooled, _, _, _⟩, -⟩
      exact Bool.false_ne_true (hunpooled.symm.trans hpooled)
    rw [Activity.step, Activity.step]
    · rcases hwho with ⟨rfl, rfl⟩ | ⟨hne, hne', rfl⟩
      · rw [if_pos rfl, if_pos rfl]
        exact (h.matches walk _ run).stepHere who who' serial hown (fun _ => hpermits _) fun _ _ _ _ => rfl
      · rw [if_neg hne, if_neg hne']
        exact .none
    all_goals simp

theorem Child.stepIn_alike (h : e.Beside more e') (who : Nat) (run : RunState) :
    (children : List Child) → (∀ entry q, .running entry q ∈ children → q.Blind) →
    (more = 0 ∨ Child.tasksIn children = []) →
    Option.Rel (Child.Alike more) (Child.stepIn who children run e) (Child.stepIn who children run e')
  | [], _, _ => .none
  | child :: rest, hblind, hfree => by
    rw [Child.stepIn, Child.stepIn]
    have hchild := Child.step_alike h who run child (fun entry q heq => hblind entry q (heq ▸ List.mem_cons_self))
      (hfree.imp_right fun hnil => (List.append_eq_nil_iff.mp hnil).1)
    generalize child.step who run e = answer at hchild
    generalize child.step who run e' = answer' at hchild
    cases hchild with
    | @some a a' ha =>
      obtain ⟨child, entries, run, e⟩ := a
      obtain ⟨child', entries', run', e'⟩ := a'
      obtain ⟨rfl, rfl, rfl, he⟩ := ha
      exact .some ⟨rfl, rfl, rfl, he⟩
    | none =>
      refine rel_map (Child.stepIn_alike h who run rest
        (fun entry q hmem => hblind entry q (List.mem_cons_of_mem _ hmem))
        (hfree.imp_right fun hnil => (List.append_eq_nil_iff.mp hnil).2)) ?_
      rintro ⟨rest, entries, run, e⟩ ⟨rest', entries', run', e'⟩ ⟨rfl, rfl, rfl, he⟩
      exact ⟨rfl, rfl, rfl, he⟩

theorem Child.step_alike (h : e.Beside more e') (who : Nat) (run : RunState) :
    (child : Child) → (∀ entry q, child = .running entry q → q.Blind) →
    (more = 0 ∨ child.tasks = []) →
    Option.Rel (Child.Alike more) (child.step who run e) (child.step who run e')
  | .refused _, _, _ | .ended .., _, _ | .cancelled _, _, _ => .none
  | .running entry process, hblind, hfree => by
    rw [Child.step, Child.step]
    have hmore : more = 0 := hfree.resolve_right fun hnil => by cases hnil
    have hwho : SameTask process.serial process.serial who who := by
      unfold SameTask
      by_cases heq : who = process.serial
      · exact .inl ⟨heq, heq⟩
      · exact .inr ⟨heq, heq, rfl⟩
    refine rel_map (Process.step_alike hwho h run process (hblind entry process rfl) (.inl hmore)) ?_
    rintro ⟨process, run, e⟩ ⟨process', run', e'⟩ ⟨rfl, rfl, he⟩
    simp only
    split
    · exact ⟨rfl, rfl, rfl, he.withPool he.pool.finish⟩
    · exact ⟨rfl, rfl, rfl, he⟩

end

end

/-! ## One step, here and in a task of its own -/

mutual

/-- The branches in flight of flows that units of the process run. They are branches of other runs. -/
def Process.foreign : Process → List Nat
  | .mk _ _ activity => activity.foreign

def Activity.foreign : Activity → List Nat
  | .calling _ _ root _ => root.tasks
  | .inPlace _ _ _ branch => branch.foreign
  | .forking _ _ _ children _ => Child.foreignIn children
  | .poised _ | .queued .. | .working .. | .asleep .. => []

def Child.foreignIn : List Child → List Nat
  | [] => []
  | child :: rest => child.foreign ++ Child.foreignIn rest

def Child.foreign : Child → List Nat
  | .running _ process => process.foreign
  | .refused _ | .ended .. | .cancelled _ => []

end

mutual

/-- They are the same in a task of its own. -/
theorem Process.foreign_apart (own : Bool) : (p : Process) → (p.apart own).foreign = p.foreign
  | .mk _ _ activity => Activity.foreign_apart own activity

theorem Activity.foreign_apart (own : Bool) :
    (activity : Activity) → (activity.apart own).foreign = activity.foreign
  | .poised _ | .queued .. | .working .. | .asleep .. | .calling .. | .forking .. => rfl
  | .inPlace _ _ _ branch => Process.foreign_apart own branch

end

/-- Nobody waits in line, and whoever comes finds a permit. -/
structure Pool.HasRoom (p : Pool) : Prop where
  waiting : p.waiting = []
  available : 0 < p.available

/-- What is left of a process, of its run and of the engine, and what is left of it in a task of its
own. -/
def Process.Apart (own : Bool) :
    Process × RunState × Engine → Process × RunState × Engine → Prop
  | (p, run, e), (p', run', e') => p' = p.apart own ∧ run' = run ∧ e.Beside (p.lent own) e'

section

variable {who who' task task' : Nat} {e e' : Engine}

mutual

/-- A process that needs no permits does the same in a task of its own, in which it needs some. While
it is at work itself, nobody else is, and there is one for it. -/
theorem Process.step_lent (hwho : SameTask task task' who who') (run : RunState) : (p : Process) →
    p.Blind → p.Staffed false → p.foreign = [] → (p.tasks = [] → e.pool.HasRoom) →
    e.Beside (p.lent true) e' →
    Option.Rel (Process.Apart true) (p.step who task run e) ((p.apart true).step who' task' run e')
  | .mk serial walk activity, hblind, hstaffed, hforeign, hidle, h => by
    rw [Process.step, Process.apart, Process.step]
    refine rel_map (Activity.step_lent hwho serial walk run activity hblind hstaffed hforeign hidle h) ?_
    intro s s' hs
    refine ⟨?_, hs.run, by simpa [Process.lent] using hs.engine⟩
    rw [hs.walk, hs.activity]
    rfl

theorem Activity.step_lent (hwho : SameTask task task' who who') (serial : Nat) (walk : Walk)
    (run : RunState) : (activity : Activity) → (Process.mk serial walk activity).Blind →
    (Process.mk serial walk activity).Staffed false → activity.foreign = [] →
    (activity.tasks = [] → e.pool.HasRoom) → e.Beside (activity.lent true) e' →
    Option.Rel (Scene.Matches true 0) (activity.step who task serial walk run e)
      ((activity.apart true).step who' task' serial (walk.apart true) run e')
  | .calling job inner root next, ⟨_, hinside⟩, ⟨_, _, _, hstaffed⟩, hforeign, _, h => by
    rw [Activity.step, Activity.apart, Activity.step]
    · -- the permit is the unit's, and the flow that it runs needs none
      refine rel_map (Process.step_alike hwho h inner root (hinside root rfl)
        (.inr ⟨hstaffed root rfl, hforeign⟩)) ?_
      rintro ⟨root, inner, e⟩ ⟨root', inner', e'⟩ ⟨rfl, rfl, he⟩
      have hscene : Scene.Beside true (0 + true.toNat) ⟨walk, .calling job inner' root' next, run, e⟩
        ⟨walk.apart true, .calling job inner' root' next, run, e'⟩ := ⟨rfl, rfl, rfl, he⟩
      exact hscene.stepCalled job inner' root' next
    all_goals simp
  | .inPlace anchor entry resume branch, ⟨_, hinside⟩, ⟨_, _, _, hstaffed⟩, hforeign, hidle, h => by
    rw [Activity.step, Activity.apart, Activity.step]
    refine rel_map (Process.step_lent hwho run branch (hinside branch rfl) (hstaffed branch rfl) hforeign
      hidle h) ?_
    rintro ⟨branch, run, e⟩ ⟨branch', run', e'⟩ ⟨rfl, rfl, he⟩
    exact Scene.Beside.stepInPlace (s := ⟨walk, .inPlace anchor entry resume branch, run', e⟩)
      task task' serial anchor entry resume branch ⟨rfl, rfl, rfl, by simpa using he⟩
  | .forking anchor resume toStart children completed, hblind, _, _, _, h => by
    rw [Activity.step, Activity.apart, Activity.step]
    · rcases hwho with ⟨rfl, rfl⟩ | ⟨hne, hne', rfl⟩
      · rw [if_pos rfl, if_pos rfl]
        exact Scene.Matches.stepHere (s := ⟨walk, .forking anchor resume toStart children completed, run, e⟩)
          who who' serial ⟨rfl, rfl, rfl, h⟩ trivial (fun hnot => absurd trivial hnot) fun _ _ _ heq => by cases heq
      · rw [if_neg hne, if_neg hne']
        obtain ⟨-, hinside⟩ := hblind
        refine rel_map (Child.stepIn_alike h who' run children
          (fun entry q hmem => hinside q ⟨entry, hmem⟩) (.inl rfl)) ?_
        rintro ⟨children, ended, run, e⟩ ⟨children', ended', run', e'⟩ ⟨rfl, rfl, rfl, he⟩
        exact ⟨rfl, rfl, rfl, he⟩
    all_goals simp
  | .poised next, hblind, hstaffed, _, hidle, h | .queued u unit resume, hblind, hstaffed, _, hidle, h
  | .working job rest, hblind, hstaffed, _, hidle, h
  | .asleep job wakeAt rest, hblind, hstaffed, _, hidle, h => by
    obtain ⟨hown, -⟩ := hblind
    obtain ⟨hpooled, hqueued, -, -⟩ := hstaffed
    obtain ⟨hwaiting, havailable⟩ := hidle rfl
    rw [Activity.apart, Activity.step, Activity.step]
    · rcases hwho with ⟨rfl, rfl⟩ | ⟨hne, hne', rfl⟩
      · rw [if_pos rfl, if_pos rfl]
        exact Scene.Matches.stepHere (s := ⟨walk, _, run, e⟩) who who' serial
          ⟨rfl, rfl, rfl, by simpa using h⟩ hown
          (fun _ => .lent rfl rfl hpooled hwaiting havailable)
          fun u unit resume heq => absurd (hqueued u unit resume heq) Bool.false_ne_true
      · rw [if_neg hne, if_neg hne']
        exact .none
    all_goals simp

end

/-- A process does the same in a task of its own. -/
theorem Process.step_apart {own : Bool} {p : Process} (hwho : SameTask task task' who who')
    (run : RunState) (hblind : p.Blind) (h : e.Beside (p.lent own) e')
    (hfree : own = true → p.Staffed false ∧ p.foreign = [] ∧ (p.tasks = [] → e.pool.HasRoom)) :
    Option.Rel (Process.Apart own) (p.step who task run e) ((p.apart own).step who' task' run e') := by
  cases own with
  | true =>
    obtain ⟨hstaffed, hforeign, hidle⟩ := hfree rfl
    exact Process.step_lent hwho run p hblind hstaffed hforeign hidle h
  | false =>
    rw [Process.lent_false] at h
    rw [Process.apart_false]
    refine rel_mono (Process.step_alike hwho h run p hblind (.inl rfl)) ?_
    rintro ⟨p, run, e⟩ ⟨p', run', e'⟩ ⟨rfl, rfl, he⟩
    exact ⟨p'.apart_false.symm, rfl, by rwa [Process.lent_false]⟩

end

end Workflow
