import Workflow.Proofs.Run.Moves

/-!
# What a decision keeps

Whatever a walk decides, it stays on its plan, it adds the failure that it was told of and no other,
and what it asks for belongs to where it stands: the unit that it asks for as its own is the unit at
its position, and a fork from which it goes on by a signal was not chosen by a stop signal.
`Turn.Keeps` says this of a turn, and there is one lemma for each decision.

`Process.Fits` is what this comes to for a process: everything that its walks wait for belongs to
where they stand. It holds of every process from its start (`Process.Moves.fits`).
-/

namespace Workflow

/-- What was left early is no stop signal: that one is obeyed at once. -/
def Walk.EarlyFits (w : Walk) : Prop :=
  ∀ u fork, w.early.get? u ≠ some (.routed (some stopValue) fork)

/-- The answer to a unit belongs where the walk stands. -/
def Walk.AwaitsUnit (w : Walk) (u : String) (resume : Resume) : Prop :=
  resume = .unit → w.plan.unitAt? w.position = some u

/-- The answer to a fork belongs where the walk stands. -/
def Walk.AwaitsFork (w : Walk) (resume : Resume) : Prop :=
  ∀ entries signal, resume = .scattered entries signal →
    (∃ u, w.plan.unitAt? w.position = some u) ∧ signal ≠ some stopValue

def Intent.Fits (w : Walk) : Intent → Prop
  | .advance | .finish => True
  | .execute u resume => w.AwaitsUnit u resume
  | .fork _ _ resume => w.AwaitsFork resume

/-- A turn of a walk that keeps to its plan and has this failure. -/
structure Turn.Keeps (t : Turn) (plan : Plan) (pooled : Bool) (failure : Option Failure) :
    Prop where
  plan : t.walk.plan = plan
  pooled : t.walk.pooled = pooled
  failure : t.walk.failure = failure
  early : t.walk.EarlyFits
  next : t.next.Fits t.walk

namespace Walk

variable {w : Walk} {scope : Scope} {hasRun : String → Bool} {tolerant : Bool} {u : String}
  {resume : Resume} {failure : Option Failure}

/-! ## Early units -/

theorem EarlyFits.erase (h : w.EarlyFits) (u : String) :
    EarlyFits { w with early := w.early.erase u } := by
  intro v fork
  simp only [Table.get?_erase]
  split
  · simp
  · exact h v fork

theorem EarlyFits.insert (h : w.EarlyFits) (u : String) {early : Early}
    (hearly : ∀ fork, early ≠ .routed (some stopValue) fork) :
    EarlyFits { w with early := w.early.insert u early } := by
  intro v fork
  simp only [Table.get?_insert]
  split
  · exact fun heq => hearly fork (Option.some.inj heq)
  · exact h v fork

theorem EarlyFits.insert_forked (h : w.EarlyFits) (entries : List String) :
    EarlyFits { w with
      early := entries.foldl (fun done entry => done.insert entry .forked) w.early } := by
  induction entries generalizing w with
  | nil => exact h
  | cons entry rest ih => exact ih (h.insert entry fun _ heq => by cases heq)

/-! ## Turns -/

theorem keeps_finish (h : w.EarlyFits) (scope : Scope) : (w.finish scope).Keeps w.plan w.pooled w.failure :=
  ⟨rfl, rfl, rfl, h, trivial⟩

theorem keeps_stop (h : w.EarlyFits) (scope : Scope) : (w.stop scope).Keeps w.plan w.pooled w.failure :=
  ⟨rfl, rfl, rfl, h, trivial⟩

theorem keeps_proceed (h : w.EarlyFits) (scope : Scope) : (w.proceed scope).Keeps w.plan w.pooled w.failure :=
  ⟨rfl, rfl, rfl, h, trivial⟩

theorem keeps_forkGroup (h : w.EarlyFits) (scope : Scope) (group : Group Plan)
    (branches : List (Branch Plan)) : (w.forkGroup scope group branches).Keeps w.plan w.pooled w.failure :=
  ⟨rfl, rfl, rfl, h, fun _ _ heq => by cases heq⟩

theorem keeps_detour (h : w.EarlyFits) (scope : Scope) (hasRun : String → Bool) (target : String) :
    (w.detour scope hasRun target).Keeps w.plan w.pooled w.failure := by
  unfold detour
  split
  · exact keeps_proceed h scope
  · exact ⟨rfl, rfl, rfl, h, fun heq => by cases heq⟩

theorem keeps_steer (h : w.EarlyFits) (scope : Scope) (hasRun : String → Bool) (u : String)
    (signal : Option String) : (w.steer scope hasRun u signal).Keeps w.plan w.pooled w.failure := by
  unfold steer
  split
  · exact keeps_proceed h scope
  · exact ⟨rfl, rfl, rfl, h, trivial⟩
  · split
    · exact keeps_stop h scope
    · split
      · split
        · exact ⟨rfl, rfl, rfl, h, trivial⟩
        · exact keeps_detour (w := w.skipArms _) h scope hasRun _
      · split
        · exact keeps_proceed h _
        · exact keeps_detour h scope hasRun _

theorem keeps_obey (h : w.EarlyFits) (hunit : w.plan.unitAt? w.position = some u) (scope : Scope)
    (hasRun : String → Bool) (signal : Option String) (fork : Option (List String)) :
    (w.obey scope hasRun u signal fork).Keeps w.plan w.pooled w.failure := by
  unfold obey
  split
  · exact keeps_stop h scope
  · next hstop =>
    split
    · exact keeps_forkGroup h scope _ _
    · exact keeps_forkGroup h scope _ _
    · refine ⟨rfl, rfl, rfl, h, fun entries signal' heq => ?_⟩
      cases heq
      exact ⟨⟨u, hunit⟩, hstop⟩
    · exact keeps_steer h scope hasRun u signal

theorem keeps_fallThrough (h : w.EarlyFits) (scope : Scope) :
    (w.fallThrough.proceed scope).Keeps w.plan w.pooled w.failure := by
  unfold fallThrough
  split <;> exact ⟨rfl, rfl, rfl, h, trivial⟩

theorem keeps_advance (h : w.EarlyFits) (scope : Scope) (hasRun : String → Bool) :
    (w.advance scope hasRun).Keeps w.plan w.pooled w.failure := by
  unfold advance
  split
  · exact keeps_finish h scope
  · next unitId hunit =>
    split
    · exact ⟨rfl, rfl, rfl, h, trivial⟩
    · split
      · exact ⟨rfl, rfl, rfl, h, trivial⟩
      · exact keeps_forkGroup h scope _ _
    · have herased := h.erase unitId
      simp only
      split
      · exact keeps_fallThrough herased scope
      · exact keeps_obey herased hunit _ hasRun _ none
      · exact keeps_obey herased hunit scope hasRun _ _
    · exact ⟨rfl, rfl, rfl, h, fun _ => hunit⟩

/-! ## Answers -/

theorem keeps_ownUnitDone (h : w.EarlyFits) (hunit : w.plan.unitAt? w.position = some u)
    (scope : Scope) (hasRun : String → Bool) (tolerant : Bool) (result : Option Mishap) :
    (w.ownUnitDone scope hasRun tolerant result).Keeps w.plan w.pooled
      (w.failure.or (result.map Mishap.failure)) := by
  unfold ownUnitDone
  rw [hunit]
  rcases result with _ | f
  · rw [Option.map_none, Option.or_none]
    exact keeps_obey h hunit _ hasRun _ _
  · have hadded : (w.addFailure f.failure).EarlyFits := h
    simp only
    split
    · exact keeps_fallThrough hadded _
    · exact keeps_finish hadded scope

theorem keeps_detourDone (h : w.EarlyFits) (scope : Scope) (tolerant : Bool) (u : String)
    (reached : Bool) (result : Option Mishap) :
    (w.detourDone scope tolerant u reached result).Keeps w.plan w.pooled
      (w.failure.or (result.map Mishap.failure)) := by
  unfold detourDone
  rcases result with _ | f
  · rw [Option.map_none, Option.or_none]
    simp only
    split
    · exact keeps_stop h _
    · next hstop =>
      split
      · refine ⟨rfl, rfl, rfl, h.insert u fun fork heq => hstop ?_, trivial⟩
        exact (Early.routed.inj heq).1
      · exact ⟨rfl, rfl, rfl, h, fun _ _ heq => by cases heq⟩
      · exact keeps_proceed h _
  · have hadded : (w.addFailure f.failure).EarlyFits := h
    simp only
    split
    · split
      · exact ⟨rfl, rfl, rfl, hadded.insert u (fun _ heq => by cases heq), trivial⟩
      · exact keeps_proceed hadded _
    · exact keeps_finish hadded _

theorem keeps_aloneDone (h : w.EarlyFits) (scope : Scope) (u : String) (result : Option Mishap) :
    (w.aloneDone scope u result).Keeps w.plan w.pooled (w.failure.or (result.map Mishap.failure)) := by
  unfold aloneDone
  rcases result with _ | f
  · rw [Option.map_none, Option.or_none]
    simp only
    split
    · exact keeps_stop h _
    · exact keeps_finish h _
  · have hadded : (w.addFailure f.failure).EarlyFits := h
    exact keeps_finish hadded scope

theorem keeps_unitDone (h : w.EarlyFits) (hawaits : w.AwaitsUnit u resume) (scope : Scope)
    (hasRun : String → Bool) (tolerant : Bool) (result : Option Mishap) :
    (w.unitDone scope hasRun tolerant u resume result).Keeps w.plan w.pooled
      (w.failure.or (result.map Mishap.failure)) := by
  unfold unitDone
  split
  · exact keeps_ownUnitDone h (hawaits rfl) scope hasRun tolerant result
  · exact keeps_detourDone h scope tolerant u _ result
  all_goals exact keeps_aloneDone h scope u result

theorem keeps_groupDone (h : w.EarlyFits) (scope : Scope) (hasRun : String → Bool)
    (tolerant : Bool) (stop : Nat) (result : Option Failure) :
    (w.groupDone scope hasRun tolerant stop result).Keeps w.plan w.pooled (w.failure.or result) := by
  unfold groupDone
  rcases result with _ | failure
  · rw [Option.or_none]
    simp only
    split
    · next router _ _ =>
      have hmoved : EarlyFits { w with position := stop - 1 } := h
      exact keeps_steer hmoved (scope.takeRoute router).2 hasRun router (scope.takeRoute router).1
    · exact ⟨rfl, rfl, rfl, h, trivial⟩
  · have hadded : (w.addFailure failure).EarlyFits := h
    simp only
    split
    · exact ⟨rfl, rfl, rfl, hadded, trivial⟩
    · exact keeps_finish hadded scope

theorem keeps_scatterDone (h : w.EarlyFits) {entries : List String} {signal : Option String}
    (hawaits : w.AwaitsFork (.scattered entries signal)) (scope : Scope) (hasRun : String → Bool)
    (tolerant : Bool) (result : Option Failure) :
    (w.scatterDone scope hasRun tolerant entries signal result).Keeps w.plan w.pooled (w.failure.or result) := by
  obtain ⟨⟨u, hunit⟩, -⟩ := hawaits entries signal rfl
  unfold scatterDone
  rw [hunit]
  rcases result with _ | failure
  · rw [Option.or_none]
    exact keeps_steer
      (h.insert_forked (entries.filter (w.plan.sequence.drop (w.position + 1)).contains)) scope
      hasRun u signal
  · have hadded : (w.addFailure failure).EarlyFits := h
    simp only
    split
    · exact keeps_steer hadded scope hasRun u signal
    · exact keeps_finish hadded scope

theorem keeps_detourForkDone (h : w.EarlyFits) (scope : Scope) (tolerant : Bool)
    (result : Option Failure) :
    (w.detourForkDone scope tolerant result).Keeps w.plan w.pooled (w.failure.or result) := by
  unfold detourForkDone
  rcases result with _ | failure
  · rw [Option.or_none]
    exact keeps_proceed h scope
  · have hadded : (w.addFailure failure).EarlyFits := h
    simp only
    split
    · exact keeps_proceed hadded scope
    · exact keeps_finish hadded scope

theorem keeps_forkDone (h : w.EarlyFits) (hawaits : w.AwaitsFork resume) (scope : Scope)
    (hasRun : String → Bool) (tolerant : Bool) (result : Option Failure) :
    (w.forkDone scope hasRun tolerant resume result).Keeps w.plan w.pooled (w.failure.or result) := by
  unfold forkDone
  split
  · exact keeps_groupDone h scope hasRun tolerant _ result
  · exact keeps_scatterDone h hawaits scope hasRun tolerant result
  all_goals exact keeps_detourForkDone h scope tolerant result

end Walk

/-! ## Processes -/

/-- What a walk waits for belongs to where it stands. -/
def Activity.FitsAt (w : Walk) : Activity → Prop
  | .poised next => next.Fits w
  | .queued u _ resume => w.AwaitsUnit u resume
  | .working job _ | .asleep job _ _ | .calling job _ _ _ => w.AwaitsUnit job.unitId job.resume
  | .inPlace _ _ resume _ | .forking _ resume _ _ _ => w.AwaitsFork resume

/-- What the walks of a process wait for belongs to where they stand. -/
inductive Process.Fits : Process → Prop where
  | mk {serial : Nat} {walk : Walk} {activity : Activity} (early : walk.EarlyFits)
      (fits : activity.FitsAt walk) (inside : ∀ q, activity.Runs q → q.Fits) :
    Fits (.mk serial walk activity)

theorem Process.fits_ofPlan (serial : Nat) (plan : Plan) (pooled : Bool) :
    (Process.ofPlan serial plan pooled).Fits :=
  .mk (fun _ _ heq => by cases heq) trivial fun _ hruns => hruns.elim

theorem Process.fits_ofUnit (serial : Nat) (u : String) : (Process.ofUnit serial u).Fits :=
  .mk (fun _ _ heq => by cases heq) (fun heq => by cases heq) fun _ hruns => hruns.elim

/-- A turn that keeps to a plan leaves a process that fits. -/
theorem Turn.Keeps.fits {t : Turn} {plan : Plan} {pooled : Bool} {failure : Option Failure}
    (h : t.Keeps plan pooled failure) (serial : Nat) :
    (Process.mk serial t.walk (.poised t.next)).Fits :=
  .mk h.early h.next fun _ hruns => hruns.elim

namespace Scene

variable {s s' : Scene} {task serial : Nat}

@[simp] theorem walk_record (s : Scene) (task serial : Nat) (o : Occurrence) :
    (s.record task serial o).walk = s.walk := rfl

@[simp] theorem activity_record (s : Scene) (task serial : Nat) (o : Occurrence) :
    (s.record task serial o).activity = s.activity := rfl

/-- The walk and the activity, as the process that they are. -/
def process (s : Scene) (serial : Nat) : Process := .mk serial s.walk s.activity

theorem fits_unitEnded {u : String} {resume : Resume} (hearly : s.walk.EarlyFits)
    (h : s.walk.AwaitsUnit u resume) (task serial : Nat) (result : Option Mishap) :
    ((s.unitEnded task serial u resume result).process serial).Fits :=
  (Walk.keeps_unitDone hearly h s.run.scope s.run.hasRun s.run.context.tolerant result).fits serial

theorem fits_close {resume : Resume} (hearly : s.walk.EarlyFits) (h : s.walk.AwaitsFork resume)
    (task serial : Nat) (anchor : String) (result : Option Failure) (completed : List String) :
    ((s.close task serial anchor resume result completed).process serial).Fits :=
  (Walk.keeps_forkDone hearly h _ _ _ result).fits serial

/-- The end of a unit gives its permit back, and its walk decides. -/
theorem endUnit_eq (s : Scene) (task serial : Nat) (job : Job) (result : Option Mishap) :
    s.endUnit task serial job result =
      { s with engine := { s.engine with
          pool := if s.walk.pooled then s.engine.pool.release else s.engine.pool } }.unitEnded task serial
        job.unitId job.resume result := by
  unfold endUnit
  split <;> rfl

/-- What runs below a walk after a step is a branch that has run there before, or is at its start. -/
theorem Steps.runs_cases (h : s.Steps task serial s') {q : Process} (hruns : s'.activity.Runs q) :
    s.activity.Branches q ∧ s'.activity.Branches q ∨
      ∃ plan pooled, q = .ofPlan s.engine.nextSerial plan pooled := by
  cases h with
  | opens | forksOne =>
    cases hruns
    exact .inr ⟨_, _, rfl⟩
  | forks =>
    obtain ⟨entry, hmem⟩ := hruns
    cases hmem
  | starts h =>
    rcases Child.running_of_started hruns with rfl | hold
    · exact .inr ⟨_, _, rfl⟩
    · rw [h]
      exact .inl ⟨hold, hruns⟩
  | refuses h =>
    rw [h]
    exact .inl ⟨Child.running_of_refused hruns, hruns⟩
  | ends | gaveUp =>
    rw [endUnit_eq] at hruns
    exact hruns.elim
  | advance | missing | queues | begins | granted | does | sleeps | wakes | runs | tidies | fails
  | forksNone | joins => exact hruns.elim

/-- What a walk does where it stands leaves a process that fits. -/
theorem Steps.fits (h : s.Steps task serial s') (hfits : (s.process serial).Fits) :
    (s'.process serial).Fits := by
  obtain ⟨hearly, hat, hinside⟩ := hfits
  have hruns : ∀ q, s'.activity.Runs q → q.Fits := by
    intro q hruns
    rcases h.runs_cases hruns with ⟨hold, -⟩ | ⟨plan, pooled, rfl⟩
    · exact hinside q hold.runs
    · exact Process.fits_ofPlan ..
  cases h with
  | advance => exact (Walk.keeps_advance hearly _ _).fits serial
  | missing h =>
    rw [h] at hat
    exact fits_unitEnded hearly hat task serial _
  | ends h | gaveUp h =>
    rw [h] at hat
    rw [endUnit_eq]
    exact (Walk.keeps_unitDone hearly hat _ _ _ _).fits serial
  | forksNone h =>
    rw [h] at hat
    exact (Walk.keeps_forkDone hearly hat _ _ _ none).fits serial
  | joins h =>
    rw [h] at hat
    exact fits_close hearly hat task serial _ _ _
  -- otherwise the walk stays at its unit, or at its group
  | queues h | begins h | granted h | does h | sleeps h | wakes h | opens h | runs h | tidies h | fails h
  | forksOne h | forks h | starts h | refuses h =>
    rw [h] at hat
    exact .mk hearly hat hruns

/-- Whatever a walk does, it stays on its plan. -/
theorem Steps.plan (h : s.Steps task serial s') (hfits : (s.process serial).Fits) :
    s'.walk.plan = s.walk.plan := by
  obtain ⟨hearly, hat, -⟩ := hfits
  cases h with
  | advance => exact (Walk.keeps_advance hearly _ _).plan
  | missing h =>
    rw [h] at hat
    exact (Walk.keeps_unitDone hearly hat _ _ _ _).plan
  | ends h | gaveUp h =>
    rw [h] at hat
    rw [endUnit_eq]
    exact (Walk.keeps_unitDone hearly hat _ _ _ _).plan
  | forksNone h | joins h =>
    rw [h] at hat
    exact (Walk.keeps_forkDone hearly hat _ _ _ _).plan
  | queues | begins | granted | does | sleeps | wakes | opens | runs | tidies | fails | forksOne
  | forks | starts | refuses => rfl

end Scene

/-- The walk of a process stays on its plan. -/
theorem Process.Moves.plan {who task : Nat} {p p' : Process} {run run' : RunState} {e e' : Engine}
    {site : Site} (h : p.Moves who site task run e p' run' e') (hfits : p.Fits) :
    p'.walk.plan = p.walk.plan := by
  cases h with
  | here h => exact h.plan hfits
  | inPlaceEnded _ _ hclose =>
    obtain ⟨hearly, hat, -⟩ := hfits
    subst hclose
    exact (Walk.keeps_forkDone hearly hat _ _ _ _).plan
  | called | returned | inPlace | child | childEnded => rfl

/-- Every step of a task leaves a process that fits. -/
theorem Process.Moves.fits {who task : Nat} {p p' : Process} {run run' : RunState} {e e' : Engine}
    {site : Site} (h : p.Moves who site task run e p' run' e') (hfits : p.Fits) : p'.Fits := by
  induction h with
  | here h => exact h.fits hfits
  | called _ _ ih =>
    obtain ⟨hearly, hat, hinside⟩ := hfits
    refine .mk hearly hat fun q hruns => ?_
    cases hruns
    exact ih (hinside _ rfl)
  | returned =>
    obtain ⟨hearly, hat, -⟩ := hfits
    exact .mk hearly hat fun _ hruns => hruns.elim
  | inPlace _ _ ih =>
    obtain ⟨hearly, hat, hinside⟩ := hfits
    refine .mk hearly hat fun q hruns => ?_
    cases hruns
    exact ih (hinside _ rfl)
  | inPlaceEnded _ _ hclose =>
    obtain ⟨hearly, hat, -⟩ := hfits
    subst hclose
    exact Scene.fits_close (s := ⟨_, _, _, _⟩) hearly hat ..
  | @child _ _ _ _ entry _ _ _ _ _ branch _ _ _ _ _ _ _ _ _ ih =>
    obtain ⟨hearly, hat, hinside⟩ := hfits
    refine .mk hearly hat fun q hruns => ?_
    rcases Child.running_of_moved hruns branch with rfl | hold
    · exact ih (hinside branch ⟨entry, by simp⟩)
    · exact hinside q hold
  | childEnded =>
    obtain ⟨hearly, hat, hinside⟩ := hfits
    exact .mk hearly hat fun q hruns => hinside q (Child.running_of_ended hruns)

end Workflow
