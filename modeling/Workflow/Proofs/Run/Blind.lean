import Workflow.Proofs.Run.Customs

/-!
# Units that do not look at the pool

A unit can ask the pool how many permits are left and how many tasks are in flight, and it can close
the pool. Everything else that it does is the same on any pool. `Behavior.Blind` says of a call that it
does neither. Units that are added on the way are blind as well, so this is a custom of units, and it
stays like that for a whole process (`Process.Moves.blind`).
-/

namespace Workflow

/-- A call does not look at the pool, and neither do the units that it adds. -/
inductive Behavior.Blind : Behavior → Prop where
  | done : Blind .done
  | fail (cause : Cause) : Blind (.fail cause)
  | panic (payload : Option String) : Blind (.panic payload)
  | access {change : Scope → Scope} {next : Scope → Behavior} (hnext : ∀ s, Blind (next s)) :
    Blind (.access change next)
  | signalRoute {target : String} {next : Behavior} (hnext : Blind next) :
    Blind (.signalRoute target next)
  | signalFork {entries : List String} {next : Behavior} (hnext : Blind next) :
    Blind (.signalFork entries next)
  | note {text : String} {next : Behavior} (hnext : Blind next) : Blind (.note text next)
  | sleep {milliseconds : Nat} {next : Behavior} (hnext : Blind next) : Blind (.sleep milliseconds next)
  | payload {change : List String → List String} {next : Option (List String) → Behavior}
      (hnext : ∀ texts, Blind (next texts)) : Blind (.payload change next)
  | addUnit {unitId : String} {unit : UnitWith Behavior} {next : Behavior}
      (hbefore : ∀ view, Blind (unit.beforeRun view)) (hrun : ∀ view, Blind (unit.run view))
      (hafter : ∀ view, Blind (unit.afterRun view))
      (herror : ∀ view failure, Blind (unit.onError view failure)) (hnext : Blind next) :
    Blind (.addUnit unitId unit next)
  | addFlow {flowId expression : String} {next : Behavior} (hnext : Blind next) :
    Blind (.addFlow flowId expression next)
  | eraseUnit {unitId : String} {next : Behavior} (hnext : Blind next) : Blind (.eraseUnit unitId next)
  | runFlow {flowId : String} {next : RunSummary → Behavior} (hnext : ∀ summary, Blind (next summary)) :
    Blind (.runFlow flowId next)

structure FlowUnit.Blind (unit : FlowUnit) : Prop where
  before : ∀ view, (unit.beforeRun view).Blind
  run : ∀ view, (unit.run view).Blind
  after : ∀ view, (unit.afterRun view).Blind
  error : ∀ view failure, (unit.onError view failure).Blind

/-- No unit that is registered looks at the pool. -/
def Registry.Blind (r : Registry) : Prop := ∀ u unit, r.unit? u = some unit → FlowUnit.Blind unit

/-- What a walk is busy with does not look at the pool. -/
def Activity.Blind : Activity → Prop
  | .poised _ | .inPlace .. | .forking .. => True
  | .queued _ unit _ => unit.Blind
  | .working job rest | .asleep job _ rest => job.unit.Blind ∧ rest.Blind
  | .calling job _ _ next => job.unit.Blind ∧ ∀ summary, (next summary).Blind

inductive Process.Blind : Process → Prop where
  | mk {serial : Nat} {walk : Walk} {activity : Activity} (own : activity.Blind)
      (inside : ∀ q, activity.Runs q → Blind q) : Blind (.mk serial walk activity)

theorem Registry.Blind.addUnit {r : Registry} (h : r.Blind) (u : String) {unit : FlowUnit}
    (hunit : unit.Blind) : (r.addUnit u unit).Blind :=
  Registry.All.addUnit h u hunit

theorem FlowUnit.blind_doing {work : Behavior} (h : work.Blind) (name : String) :
    (FlowUnit.doing name work).Blind :=
  ⟨fun _ => .done, fun _ => h, fun _ => .done, fun _ _ => .done⟩

theorem Process.blind_poised (serial : Nat) (walk : Walk) (next : Intent) :
    (mk serial walk (.poised next)).Blind :=
  .mk trivial fun _ hruns => hruns.elim

/-- What a unit does in the middle of a call does not look at the pool, and neither do the units that
it adds. -/
theorem Scene.Does.blind {s : Scene} {task serial : Nat} {job : Job} {behavior rest : Behavior}
    {run : RunState} {e : Engine} (h : s.Does task serial job behavior rest run e)
    (hbehavior : behavior.Blind) (hregistry : s.engine.registry.Blind) :
    rest.Blind ∧ e.registry.Blind := by
  cases h with
  | access => cases hbehavior with | access hnext => exact ⟨hnext _, hregistry⟩
  | signalRoute => cases hbehavior with | signalRoute hnext => exact ⟨hnext, hregistry⟩
  | signalFork => cases hbehavior with | signalFork hnext => exact ⟨hnext, hregistry⟩
  | note => cases hbehavior with | note hnext => exact ⟨hnext, hregistry⟩
  | payload => cases hbehavior with | payload hnext => exact ⟨hnext _, hregistry⟩
  | viewPool => cases hbehavior
  | closePool => cases hbehavior
  | addUnit =>
    cases hbehavior with
    | addUnit hbefore hrun hafter herror hnext =>
      exact ⟨hnext, hregistry.addUnit _ ⟨hbefore, hrun, hafter, herror⟩⟩
  | addFlow => cases hbehavior with | addFlow hnext => exact ⟨hnext, hregistry⟩
  | eraseUnit =>
    cases hbehavior with
    | eraseUnit hnext => exact ⟨hnext, Registry.All.eraseUnit hregistry _⟩
  | noFlow => cases hbehavior with | runFlow hnext => exact ⟨hnext _, hregistry⟩

/-- Not to look at the pool is a custom of units. -/
def Custom.blind : Custom where
  unit := FlowUnit.Blind
  call := Behavior.Blind
  before h := h.before
  run h := h.run
  after h := h.after
  error h := h.error
  does h := h.blind
  sleep | .sleep hnext => hnext
  runFlow | .runFlow hnext => hnext

theorem Process.blind_iff_observes {p : Process} : p.Blind ↔ p.Observes .blind := by
  constructor
  · intro h
    induction h with
    | mk own _ ih => exact .mk own ih
  · intro h
    induction h with
    | mk own _ ih => exact .mk own ih

/-- Whatever a task does, everybody stays blind. -/
theorem Process.Moves.blind {who task : Nat} {p p' : Process} {run run' : RunState} {e e' : Engine}
    {site : Site} (h : p.Moves who site task run e p' run' e') (hprocess : p.Blind)
    (hregistry : e.registry.Blind) : p'.Blind ∧ e'.registry.Blind := by
  obtain ⟨hobserves, hadded⟩ := h.observes (blind_iff_observes.mp hprocess) hregistry
  exact ⟨blind_iff_observes.mpr hobserves, hadded⟩

end Workflow
