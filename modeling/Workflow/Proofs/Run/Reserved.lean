import Mathlib.Data.Set.Insert
import Workflow.Proofs.Run.Customs
import Workflow.Proofs.Run.Dealings
import Workflow.Proofs.Run.Signals

/-!
# Keys that units leave alone

The scope of a run is shared by its units and the engine, and nothing but good manners keeps them
apart. `Behavior.Spares keys` says of a call that what it does to the scope by itself leaves some
keys as they are, whatever it reads; it may still signal, which is the engine's business.
`Reaction.Spares` says the same of listeners. Units that are added on the way and listeners that are
registered on the way spare the keys as well, so that everybody goes on sparing them
(`Executor.History.spares`).

The engine itself changes the scope under the slots of the units that a walk deals with, and where a
group joins: besides what the code of units and listeners makes of the scope (`Activity.afterCode`),
nothing else changes in it (`Scene.Steps.sameAt_code`). So what a walk does leaves keys alone that are
neither and that everybody spares (`Scene.Steps.sameAt`).
-/

namespace Workflow

/-- Two scopes hold the same under some keys. -/
structure Scope.SameAt (keys : Set String) (s s' : Scope) : Prop where
  get?_eq : ∀ k ∈ keys, s'.get? k = s.get? k

/-- A call leaves some keys of the scope as they are, but for signals. -/
inductive Behavior.Spares (keys : Set String) : Behavior → Prop where
  | done : Spares keys .done
  | fail (cause : Cause) : Spares keys (.fail cause)
  | panic (payload : Option String) : Spares keys (.panic payload)
  | access {change : Scope → Scope} {next : Scope → Behavior}
      (hchange : ∀ s : Scope, s.SameAt keys (change s)) (hnext : ∀ s, Spares keys (next s)) :
    Spares keys (.access change next)
  | signalRoute {target : String} {next : Behavior} (hnext : Spares keys next) :
    Spares keys (.signalRoute target next)
  | signalFork {entries : List String} {next : Behavior} (hnext : Spares keys next) :
    Spares keys (.signalFork entries next)
  | note {text : String} {next : Behavior} (hnext : Spares keys next) : Spares keys (.note text next)
  | sleep {milliseconds : Nat} {next : Behavior} (hnext : Spares keys next) :
    Spares keys (.sleep milliseconds next)
  | payload {change : List String → List String} {next : Option (List String) → Behavior}
      (hnext : ∀ texts, Spares keys (next texts)) : Spares keys (.payload change next)
  | viewPool {next : PoolView → Behavior} (hnext : ∀ view, Spares keys (next view)) :
    Spares keys (.viewPool next)
  | closePool {next : Bool → Behavior} (hnext : ∀ idle, Spares keys (next idle)) :
    Spares keys (.closePool next)
  | addUnit {unitId : String} {unit : UnitWith Behavior} {next : Behavior}
      (hbefore : ∀ view, Spares keys (unit.beforeRun view)) (hrun : ∀ view, Spares keys (unit.run view))
      (hafter : ∀ view, Spares keys (unit.afterRun view))
      (herror : ∀ view failure, Spares keys (unit.onError view failure)) (hnext : Spares keys next) :
    Spares keys (.addUnit unitId unit next)
  | addFlow {flowId expression : String} {next : Behavior} (hnext : Spares keys next) :
    Spares keys (.addFlow flowId expression next)
  | eraseUnit {unitId : String} {next : Behavior} (hnext : Spares keys next) :
    Spares keys (.eraseUnit unitId next)
  | runFlow {flowId : String} {next : RunSummary → Behavior}
      (hnext : ∀ summary, Spares keys (next summary)) : Spares keys (.runFlow flowId next)

structure FlowUnit.Spares (keys : Set String) (unit : FlowUnit) : Prop where
  before : ∀ view, (unit.beforeRun view).Spares keys
  run : ∀ view, (unit.run view).Spares keys
  after : ∀ view, (unit.afterRun view).Spares keys
  error : ∀ view failure, (unit.onError view failure).Spares keys

/-- A listener leaves some keys as they are, and so do the listeners that it registers. -/
def Reaction.Spares (keys : Set String) : Reaction → Prop
  | .done | .panic => True
  | .access change next => ∀ s : Scope, s.SameAt keys (change s) ∧ (next s).Spares keys
  | .note _ next | .clearListeners next => next.Spares keys
  | .listen _ _ _ listener next => (∀ notice, (listener notice).Spares keys) ∧ next.Spares keys

def Listeners.Spare (keys : Set String) (l : Listeners) : Prop :=
  ∀ r ∈ l.registered, ∀ notice, (r.listener notice).Spares keys

def Registry.Spares (keys : Set String) (r : Registry) : Prop :=
  ∀ u unit, r.unit? u = some unit → FlowUnit.Spares keys unit

/-- Units that are registered and listeners spare some keys. -/
structure Engine.Spares (keys : Set String) (e : Engine) : Prop where
  units : e.registry.Spares keys
  listeners : e.listeners.Spare keys

/-- What a walk is busy with spares some keys. -/
def Activity.Spares (keys : Set String) : Activity → Prop
  | .poised _ | .inPlace .. | .forking .. => True
  | .queued _ unit _ => unit.Spares keys
  | .working job rest | .asleep job _ rest => job.unit.Spares keys ∧ rest.Spares keys
  | .calling job _ _ next => job.unit.Spares keys ∧ ∀ summary, (next summary).Spares keys

inductive Process.Spares (keys : Set String) : Process → Prop where
  | mk {serial : Nat} {walk : Walk} {activity : Activity} (own : activity.Spares keys)
      (inside : ∀ q, activity.Runs q → Spares keys q) : Spares keys (.mk serial walk activity)

section

variable {keys : Set String}

theorem Scope.SameAt.refl (s : Scope) : s.SameAt keys s := ⟨fun _ _ => rfl⟩

theorem Scope.SameAt.trans {s s' s'' : Scope} (h : s.SameAt keys s') (h' : s'.SameAt keys s'') :
    s.SameAt keys s'' :=
  ⟨fun k hk => (h'.get?_eq k hk).trans (h.get?_eq k hk)⟩

theorem FlowUnit.spares_doing {work : Behavior} (h : work.Spares keys) (name : String) :
    (FlowUnit.doing name work).Spares keys :=
  ⟨fun _ => .done, fun _ => h, fun _ => .done, fun _ _ => .done⟩

/-- Units that do something when they run and spare some keys make a registry that does. -/
theorem Registry.spares_foldl_doing {units : List (String × Behavior)} {r : Registry}
    (hunits : ∀ u ∈ units, u.2.Spares keys) (h : r.Spares keys) :
    (units.foldl (fun r u => r.addUnit u.1 (.doing u.1 u.2)) r).Spares keys :=
  Registry.All.foldl_addUnit h Prod.fst (fun u => .doing u.1 u.2) fun u hu =>
    FlowUnit.spares_doing (hunits u hu) u.1

theorem Reaction.spares_iff_makes {reaction : Reaction} :
    reaction.Spares keys ↔ reaction.Makes (Scope.SameAt keys) := by
  induction reaction with
  | done | panic => exact Iff.rfl
  | access change next ih => exact forall_congr' fun s => and_congr_right fun _ => ih s
  | note _ next ih | clearListeners next ih => exact ih
  | listen _ _ _ listener next ihlistener ih => exact and_congr (forall_congr' ihlistener) ih

theorem Listeners.spare_iff_make {l : Listeners} : l.Spare keys ↔ l.Make (Scope.SameAt keys) :=
  forall₂_congr fun _ _ => forall_congr' fun _ => Reaction.spares_iff_makes

theorem Listeners.Spare.announce {l : Listeners} (h : l.Spare keys) (event : Notice)
    (scope : Scope) : scope.SameAt keys (l.announce event scope).scope ∧
      (l.announce event scope).listeners.Spare keys := by
  obtain ⟨hsame, hmake⟩ :=
    (spare_iff_make.mp h).announce Scope.SameAt.refl (fun _ _ _ => Scope.SameAt.trans) event scope
  exact ⟨hsame, spare_iff_make.mpr hmake⟩

theorem Process.Spares.of_runs {serial : Nat} {walk : Walk} {activity : Activity} {q : Process}
    (h : (Process.mk serial walk activity).Spares keys) (hruns : activity.Runs q) : q.Spares keys := by
  obtain ⟨-, inside⟩ := h
  exact inside q hruns

theorem Process.Spares.of_has {p q : Process} (h : p.Spares keys) (hhas : p.Has q) : q.Spares keys := by
  induction hhas with
  | self => exact h
  | inside hruns _ ih => exact ih (h.of_runs hruns)

theorem Process.Spares.activity {q : Process} (h : q.Spares keys) : q.activity.Spares keys := by
  obtain ⟨own, -⟩ := h
  exact own

end

/-! ## One step at one walk -/

namespace Scene

variable {keys : Set String} {s s' : Scene} {task serial : Nat}

theorem sameAt_announce (h : s.engine.Spares keys) (task serial : Nat) (job : Job) (moment : Moment)
    (failure : Option Failure) :
    s.run.scope.SameAt keys (s.announce task serial job moment failure).run.scope ∧
      (s.announce task serial job moment failure).engine.Spares keys := by
  obtain ⟨event, heq⟩ := s.announce_eq task serial job moment failure
  obtain ⟨hsame, hlisteners⟩ := h.listeners.announce event s.run.scope
  rw [heq]
  exact ⟨hsame, h.units, hlisteners⟩

/-- What a unit does in the middle of a call spares the keys, and so do the units that it adds. -/
theorem Does.spares {job : Job} {behavior rest : Behavior} {run : RunState} {e : Engine}
    (h : s.Does task serial job behavior rest run e) (hbehavior : behavior.Spares keys)
    (hunits : s.engine.registry.Spares keys) : rest.Spares keys ∧ e.registry.Spares keys := by
  cases h with
  | access => cases hbehavior with | access _ hnext => exact ⟨hnext _, hunits⟩
  | signalRoute => cases hbehavior with | signalRoute hnext => exact ⟨hnext, hunits⟩
  | signalFork => cases hbehavior with | signalFork hnext => exact ⟨hnext, hunits⟩
  | note => cases hbehavior with | note hnext => exact ⟨hnext, hunits⟩
  | payload => cases hbehavior with | payload hnext => exact ⟨hnext _, hunits⟩
  | viewPool => cases hbehavior with | viewPool hnext => exact ⟨hnext _, hunits⟩
  | closePool => cases hbehavior with | closePool hnext => exact ⟨hnext _, hunits⟩
  | addUnit =>
    cases hbehavior with
    | addUnit hbefore hrun hafter herror hnext =>
      exact ⟨hnext, Registry.All.addUnit hunits _ ⟨hbefore, hrun, hafter, herror⟩⟩
  | addFlow => cases hbehavior with | addFlow hnext => exact ⟨hnext, hunits⟩
  | eraseUnit =>
    cases hbehavior with
    | eraseUnit hnext => exact ⟨hnext, Registry.All.eraseUnit hunits _⟩
  | noFlow => cases hbehavior with | runFlow hnext => exact ⟨hnext _, hunits⟩

end Scene

/-- To spare some keys is a custom of units. -/
def Custom.sparing (keys : Set String) : Custom where
  unit := FlowUnit.Spares keys
  call := Behavior.Spares keys
  before h := h.before
  run h := h.run
  after h := h.after
  error h := h.error
  does h := h.spares
  sleep | .sleep hnext => hnext
  runFlow | .runFlow hnext => hnext

theorem Process.spares_iff_observes {keys : Set String} {p : Process} :
    p.Spares keys ↔ p.Observes (.sparing keys) := by
  constructor
  · intro h
    induction h with
    | mk own _ ih => exact .mk own ih
  · intro h
    induction h with
    | mk own _ ih => exact .mk own ih

/-! ## What the engine does to the scope -/

/-- The slots of a unit are not among some keys. -/
def Scope.Free (keys : Set String) (u : String) : Prop := routeSlot u ∉ keys ∧ forkSlot u ∉ keys

/-- The slots of the unit at a position of a walk are not among some keys. -/
def Walk.FreeAt (keys : Set String) (w : Walk) (position : Nat) : Prop :=
  ∀ u, w.plan.unitAt? position = some u → Scope.Free keys u

/-- The unit that a walk is about to execute or in the middle of. -/
def Activity.unit? : Activity → Option String
  | .poised (.execute u _) | .queued u _ _ => some u
  | .working job _ | .asleep job _ _ | .calling job _ _ _ => some job.unitId
  | .poised .advance | .poised (.fork ..) | .poised .finish | .inPlace .. | .forking .. => none

/-- Where the answer to the fork belongs that a walk is about to make or waits for. -/
def Activity.fork? : Activity → Option Resume
  | .poised (.fork _ _ resume) | .inPlace _ _ resume _ | .forking _ resume _ _ _ => some resume
  | .poised .advance | .poised (.execute ..) | .poised .finish | .queued .. | .working .. | .asleep ..
  | .calling .. => none

def Resume.stop? : Resume → Option Nat
  | .group stop => some stop
  | .unit | .alone | .detour .. | .scattered .. | .detourFork => none

/-- The units whose signals a walk may deal with where it stands: the one at its position, the one it
executes, and the one that closes the group it waits for. -/
def Process.concerns : Process → List String
  | .mk _ walk activity =>
    (walk.plan.unitAt? walk.position).toList ++ activity.unit?.toList ++
      ((activity.fork?.bind Resume.stop?).bind fun stop => walk.plan.unitAt? (stop - 1)).toList

namespace Scope

variable {keys : Set String} {u : String}

theorem SameAt.erase {s s' : Scope} (h : s.SameAt keys s') {key : String} (hkey : key ∉ keys) :
    s.SameAt keys (s'.erase key) := by
  refine ⟨fun k hk => ?_⟩
  have hne : key ≠ k := fun heq => hkey (heq ▸ hk)
  rw [Table.get?_erase, if_neg hne]
  exact h.get?_eq k hk

theorem sameAt_insert (s : Scope) {key : String} (hkey : key ∉ keys) (value : Value) :
    s.SameAt keys (s.insert key value) := by
  refine ⟨fun k hk => ?_⟩
  have hne : key ≠ k := fun heq => hkey (heq ▸ hk)
  rw [Table.get?_insert, if_neg hne]

theorem sameAt_takeRoute (s : Scope) (h : Free keys u) : s.SameAt keys (s.takeRoute u).2 := by
  unfold takeRoute
  split
  · exact (SameAt.refl s).erase h.1
  · exact .refl s

theorem sameAt_takeFork (s : Scope) (h : Free keys u) : s.SameAt keys (s.takeFork u).2 := by
  unfold takeFork
  split
  · exact (SameAt.refl s).erase h.2
  · exact .refl s

theorem sameAt_dropSignals (s : Scope) (h : Free keys u) : s.SameAt keys (s.dropSignals u) :=
  ((SameAt.refl s).erase h.1).erase h.2

theorem Attends.sameAt {s s' : Scope} (h : s.Attends (Free keys) s') : s.SameAt keys s' := by
  induction h with
  | refl => exact .refl s
  | takeRoute _ hu ih => exact ih.trans (sameAt_takeRoute _ hu)
  | takeFork _ hu ih => exact ih.trans (sameAt_takeFork _ hu)
  | dropSignals _ hu ih => exact ih.trans (sameAt_dropSignals _ hu)
  | putBack _ hu _ ih => exact ih.trans (sameAt_insert _ hu.1 _)

end Scope

/-- The slots of what a walk is concerned with are not among some keys. -/
structure Activity.FreeAt (keys : Set String) (activity : Activity) (w : Walk) : Prop where
  position : w.FreeAt keys w.position
  unit : ∀ u, activity.unit? = some u → Scope.Free keys u
  group : ∀ stop, activity.fork? = some (.group stop) → w.FreeAt keys (stop - 1)

theorem Process.freeAt_of_concerns {keys : Set String} {serial : Nat} {w : Walk} {activity : Activity}
    (h : ∀ u ∈ (Process.mk serial w activity).concerns, Scope.Free keys u) : activity.FreeAt keys w := by
  refine ⟨fun u hu => h u ?_, fun u hu => h u ?_, fun stop hstop u hu => h u ?_⟩
  · exact List.mem_append_left _ (List.mem_append_left _ (Option.mem_toList.mpr hu))
  · exact List.mem_append_left _ (List.mem_append_right _ (Option.mem_toList.mpr hu))
  · refine List.mem_append_right _ (Option.mem_toList.mpr ?_)
    rw [hstop]
    exact hu

/-! ## What code makes of the scope -/

/-- What the listeners make of the scope of a run when they are told of a unit. -/
def Job.told (job : Job) (run : RunState) (e : Engine) (moment : Moment) (failure : Option Failure) :
    Scope :=
  let notice : Notice :=
    { moment := moment, unitId := job.unitId, kind := job.unit.kind
      requestId := run.context.requestId
      tolerant := run.context.tolerant, failure := failure }
  (e.listeners.announce notice run.scope).scope

/-- The same at the end of a call of a unit: listeners are told when its first call or its last has
succeeded, and when it has been told of its failure. -/
def Job.afterCall (job : Job) (failed : Bool) (run : RunState) (e : Engine) : Scope :=
  match job.stage, failed with
  | .before, false => job.told run e .before none
  | .after, false => job.told run e .after none
  | .onError failure, _ => job.told run e .error (some failure)
  | .run, _ | .before, true | .after, true => run.scope

/-- What the code of units and listeners that a walk calls in one step makes of the scope of its run. A
signal of a unit is written by the engine, and so it is not counted here. -/
def Activity.afterCode (activity : Activity) (run : RunState) (e : Engine) : Scope :=
  match activity with
  | .working _ (.access change _) => change run.scope
  | .working job .done => job.afterCall false run e
  | .working job (.fail _) | .working job (.panic _) => job.afterCall true run e
  | .working .. | .poised _ | .queued .. | .asleep .. | .calling .. | .inPlace .. | .forking .. => run.scope

section

variable {job : Job} {behavior : Behavior} {cause : Cause} {failure : Failure} {run : RunState} {e : Engine}

theorem Activity.afterCode_runs (hstage : job.stage = .before) :
    (Activity.working job .done).afterCode run e = job.told run e .before none := by
  simp only [afterCode, Job.afterCall, hstage]

theorem Activity.afterCode_tidies (hstage : job.stage = .run) :
    (Activity.working job .done).afterCode run e = run.scope := by
  simp only [afterCode, Job.afterCall, hstage]

theorem Activity.afterCode_ends (hstage : job.stage = .after) :
    (Activity.working job .done).afterCode run e = job.told run e .after none := by
  simp only [afterCode, Job.afterCall, hstage]

/-- Nobody but the unit itself is told at first that a call of it has failed. -/
theorem Activity.afterCode_fails (hfails : behavior.FailsWith cause)
    (hstage : ∀ failure, job.stage ≠ .onError failure) :
    (Activity.working job behavior).afterCode run e = run.scope := by
  have hcall : job.afterCall true run e = run.scope := by
    unfold Job.afterCall
    split
    · contradiction
    · contradiction
    · next failure heq => exact absurd heq (hstage failure)
    all_goals rfl
  cases hfails <;> exact hcall

theorem Activity.afterCode_gaveUp (hover : behavior.IsOver) (hstage : job.stage = .onError failure) :
    (Activity.working job behavior).afterCode run e = job.told run e .error (some failure) := by
  have hcall : ∀ failed, job.afterCall failed run e = job.told run e .error (some failure) := by
    intro failed
    unfold Job.afterCall
    rw [hstage]
  rcases hover with rfl | ⟨cause, hfails⟩
  · exact hcall false
  · cases hfails <;> exact hcall true

end

/-- Code that spares some keys leaves them as they are. -/
theorem Activity.Spares.sameAt_code {keys : Set String} {activity : Activity} {e : Engine}
    (h : activity.Spares keys) (hengine : e.Spares keys) (run : RunState) :
    run.scope.SameAt keys (activity.afterCode run e) := by
  have htold : ∀ (job : Job) moment failure, run.scope.SameAt keys (job.told run e moment failure) :=
    fun job moment failure => (hengine.listeners.announce _ run.scope).1
  have hcall : ∀ (job : Job) failed, run.scope.SameAt keys (job.afterCall failed run e) := by
    intro job failed
    unfold Job.afterCall
    split
    · exact htold ..
    · exact htold ..
    · exact htold ..
    all_goals exact .refl _
  unfold afterCode
  split
  · cases h.2 with
    | access hchange _ => exact hchange _
  · exact hcall ..
  · exact hcall ..
  · exact hcall ..
  all_goals exact .refl _

namespace Scene

variable {keys : Set String} {s s' : Scene} {task serial : Nat}

/-- Of what a unit does in the middle of a call, signals are what its code does not do itself. -/
theorem Does.sameAt_code {job : Job} {behavior rest : Behavior} {run : RunState} {e : Engine}
    (h : s.Does task serial job behavior rest run e) (hfree : Scope.Free keys job.unitId) :
    ((Activity.working job behavior).afterCode s.run s.engine).SameAt keys run.scope := by
  cases h with
  | signalRoute => exact Scope.sameAt_insert _ hfree.1 _
  | signalFork => exact Scope.sameAt_insert _ hfree.2 _
  | access | note | payload | viewPool | closePool | addUnit | addFlow | eraseUnit | noFlow => exact .refl _

/-- Joining leaves keys alone that are neither what is published nor slots of the unit at which the
walk goes on. -/
theorem sameAt_close {resume : Resume} (hfree : s.walk.FreeAt keys s.walk.position)
    (hgroup : ∀ stop, resume = .group stop → s.walk.FreeAt keys (stop - 1))
    (hpublish : Scope.completedSlot ∉ keys) (task serial : Nat) (anchor : String)
    (result : Option Failure) (completed : List String) : s.run.scope.SameAt keys
      (s.close task serial anchor resume result completed).run.scope := by
  refine Scope.SameAt.trans ?_ (Scope.Attends.sameAt (Walk.attends_forkDone hfree hgroup ..))
  show s.run.scope.SameAt keys (s.run.publish result completed).scope
  unfold RunState.publish
  split
  · exact .refl _
  · exact Scope.sameAt_insert _ hpublish _

/-- Besides what the code does that it calls, a walk changes nothing in the scope but the slots of what it is
concerned with, and what branches have completed if it joins any. -/
theorem Steps.sameAt_code (h : s.Steps task serial s')
    (hfree : ∀ u ∈ (s.process serial).concerns, Scope.Free keys u)
    (hjoin : Scope.completedSlot ∈ keys → ∀ anchor resume children completed,
      s.activity ≠ .forking anchor resume [] children completed) :
    (s.activity.afterCode s.run s.engine).SameAt keys s'.run.scope := by
  obtain ⟨hposition, hunit, hgroup⟩ := Process.freeAt_of_concerns hfree
  cases h with
  | advance h =>
    rw [h]
    exact Scope.Attends.sameAt (Walk.attends_advance hposition ..)
  | missing h =>
    rw [h] at hunit ⊢
    exact Scope.Attends.sameAt (Walk.attends_unitDone hposition (hunit _ rfl) ..)
  | begins h | granted h =>
    rw [h] at hunit ⊢
    exact Scope.sameAt_dropSignals _ (hunit _ rfl)
  | does h hdoes =>
    rw [h] at hunit ⊢
    exact hdoes.sameAt_code (hunit _ rfl)
  | queues h | sleeps h | wakes h | opens h | forksOne h | forks h | starts h | refuses h =>
    rw [h]
    exact .refl _
  | runs h hstage =>
    rw [h, Activity.afterCode_runs hstage]
    exact .refl _
  | tidies h hstage =>
    rw [h, Activity.afterCode_tidies hstage]
    exact .refl _
  | ends h hstage =>
    rw [h] at hunit ⊢
    rw [Activity.afterCode_ends hstage, endUnit_eq]
    exact Scope.Attends.sameAt (Walk.attends_unitDone hposition (hunit _ rfl) ..)
  | fails h hfails hstage =>
    rw [h, Activity.afterCode_fails hfails hstage]
    exact .refl _
  | gaveUp h hover hstage =>
    rw [h] at hunit ⊢
    rw [Activity.afterCode_gaveUp hover hstage, endUnit_eq]
    exact Scope.Attends.sameAt (Walk.attends_unitDone hposition (hunit _ rfl) ..)
  | forksNone h =>
    rw [h] at hgroup ⊢
    exact Scope.Attends.sameAt
      (Walk.attends_forkDone hposition (fun stop heq => hgroup stop (by rw [← heq]; rfl)) ..)
  | joins h =>
    have hpublish : Scope.completedSlot ∉ keys := fun hmem => hjoin hmem _ _ _ _ h
    rw [h] at hgroup ⊢
    exact sameAt_close hposition (fun stop heq => hgroup stop (by rw [← heq]; rfl)) hpublish ..

/-- What a walk does leaves keys alone that its units spare and that are not slots of what it is
concerned with. If what groups publish is among the keys, it leaves them alone unless it joins
branches. -/
theorem Steps.sameAt (h : s.Steps task serial s') (hprocess : (s.process serial).Spares keys)
    (hengine : s.engine.Spares keys)
    (hfree : ∀ u ∈ (s.process serial).concerns, Scope.Free keys u)
    (hjoin : Scope.completedSlot ∈ keys → ∀ anchor resume children completed,
      s.activity ≠ .forking anchor resume [] children completed) :
    s.run.scope.SameAt keys s'.run.scope := by
  obtain ⟨hown, -⟩ := hprocess
  exact (hown.sameAt_code hengine s.run).trans (h.sameAt_code hfree hjoin)

end Scene

/-! ## Executors -/

namespace Executor

variable {keys : Set String} {start last x y : Executor} {past : List (Executor × Move)} {m : Move}

structure Spares (keys : Set String) (x : Executor) : Prop where
  engine : x.engine.Spares keys
  runs : ∀ run ∈ x.runs, run.root.Spares keys

/-- Whatever an executor does, everybody goes on sparing the keys. -/
theorem Spares.move (h : x.Spares keys) (hmove : x.move m = some y) : y.Spares keys := by
  have hobserves : x.Observes (.sparing keys) :=
    ⟨h.engine.units, fun run hrun => Process.spares_iff_observes.mp (h.runs run hrun)⟩
  obtain ⟨hunits, hruns⟩ := hobserves.move hmove
  have hannounce : ∀ (l : Listeners) event scope, l.Spare keys →
      (l.announce event scope).listeners.Spare keys :=
    fun _ event scope hl => (hl.announce event scope).2
  exact ⟨⟨hunits, listeners_move hannounce hmove h.engine.listeners⟩,
    fun run hrun => Process.spares_iff_observes.mpr (hruns run hrun)⟩

/-- Everybody spares the keys all along. -/
theorem History.spares (h : start.History past last) (hstart : start.Spares keys) :
    last.Spares keys :=
  h.invariant hstart fun _ _ _ _ hx hmove => hx.move hmove

theorem spares_build {config : Config} {registry : Registry} {listeners : Listeners}
    (h : build config registry listeners = .ok x) (hregistry : registry.Spares keys)
    (hlisteners : listeners.Spare keys) : x.Spares keys := by
  obtain rfl := eq_of_build h
  exact ⟨⟨hregistry, hlisteners⟩, nofun⟩

end Executor

end Workflow
