import Workflow.Proofs.Run.Customs
import Workflow.Proofs.Run.Dealings
import Workflow.Proofs.Run.Signals

/-!
# What units do with signals

A unit may signal what a `Law` allows, through the signals of its own, and leaves the slots of the
scope alone otherwise; listeners leave them alone altogether. Units that are added on the way keep to
the same law, so it is a custom of theirs (`Law.custom`). `Process.Abides` and `Engine.Abides` say that
everybody does so; it stays like that (`Executor.History.abides`), and what is found in a slot then
comes from somewhere (`Scene.Steps.gains`): it was there before, or it is a label that a walk passes
on, or a unit that is at work has put it there.
-/

namespace Workflow

/-! ## Slots -/

namespace Scope

/-- No slot holds anything that it did not hold. -/
structure Fades (s s' : Scope) : Prop where
  route : ∀ u v, (s'.slots u).route = some v → (s.slots u).route = some v
  fork : ∀ u v, (s'.slots u).fork = some v → (s.slots u).fork = some v

/-- No slot holds anything that it did not hold, but for labels. -/
structure Relays (s s' : Scope) : Prop where
  route : ∀ u v, (s'.slots u).route = some v →
    (s.slots u).route = some v ∨ ∃ label : Label, v = .text label.text
  fork : ∀ u v, (s'.slots u).fork = some v → (s.slots u).fork = some v

variable {s s' s'' : Scope} {u : String}

theorem Fades.refl (s : Scope) : s.Fades s := ⟨fun _ _ => id, fun _ _ => id⟩

theorem Fades.trans (h : s.Fades s') (h' : s'.Fades s'') : s.Fades s'' :=
  ⟨fun u v hv => h.route u v (h'.route u v hv), fun u v hv => h.fork u v (h'.fork u v hv)⟩

/-- A fork signal that is there was there before. -/
theorem Fades.entries {entries : List String} (h : s.Fades s')
    (hentries : (s'.slots u).entries = some entries) : (s.slots u).entries = some entries := by
  unfold Slots.entries at hentries ⊢
  split at hentries
  · next value hfork =>
    cases hentries
    rw [h.fork u _ hfork]
  · cases hentries

/-- To fade is to lose something in the slots of one unit. -/
theorem SameBut.fades (h : SameBut u s s')
    (hroute : ∀ v, (s'.slots u).route = some v → (s.slots u).route = some v)
    (hfork : ∀ v, (s'.slots u).fork = some v → (s.slots u).fork = some v) : s.Fades s' := by
  refine ⟨fun w v hv => ?_, fun w v hv => ?_⟩
  · by_cases heq : w = u
    · subst heq
      exact hroute v hv
    · rwa [h w heq] at hv
  · by_cases heq : w = u
    · subst heq
      exact hfork v hv
    · rwa [h w heq] at hv

theorem fades_takeRoute (s : Scope) (u : String) : s.Fades (s.takeRoute u).2 := by
  refine (sameBut_takeRoute s u).fades ?_ fun v hv => ?_
  · intro v hv
    unfold takeRoute at hv
    split at hv
    · simp [slots, Table.get?_erase] at hv
    · exact hv
  · rwa [(slots_takeRoute s u).2] at hv

theorem fades_takeFork (s : Scope) (u : String) : s.Fades (s.takeFork u).2 := by
  refine (sameBut_takeFork s u).fades (fun v hv => ?_) ?_
  · rwa [slots_takeFork s u] at hv
  · intro v hv
    unfold takeFork at hv
    split at hv
    · simp [slots, Table.get?_erase] at hv
    · exact hv

theorem fades_dropSignals (s : Scope) (u : String) : s.Fades (s.dropSignals u) := by
  refine (sameBut_dropSignals s u).fades (fun v hv => ?_) fun v hv => ?_
  all_goals
    rw [slots_dropSignals] at hv
    cases hv

theorem fades_publish (s : Scope) (entries : List String) : s.Fades (s.publish entries) := by
  refine ⟨fun u v hv => ?_, fun u v hv => ?_⟩
  all_goals rwa [slots_publish] at hv

theorem Fades.relays (h : s.Fades s') : s.Relays s' :=
  ⟨fun u v hv => .inl (h.route u v hv), h.fork⟩

theorem Relays.refl (s : Scope) : s.Relays s := (Fades.refl s).relays

theorem Relays.trans (h : s.Relays s') (h' : s'.Relays s'') : s.Relays s'' := by
  refine ⟨fun u v hv => ?_, fun u v hv => h.fork u v (h'.fork u v hv)⟩
  rcases h'.route u v hv with hv | hlabel
  · exact h.route u v hv
  · exact .inr hlabel

theorem relays_signalRoute (s : Scope) (u : String) {target : String}
    (hlabel : (Label.ofText? target).isSome = true) : s.Relays (s.signalRoute u target) := by
  obtain ⟨label, hlabel⟩ := Option.isSome_iff_exists.mp hlabel
  refine ⟨fun w v hv => ?_, fun w v hv => ?_⟩
  · rcases route_signalRoute hv with hold | ⟨-, rfl⟩
    · exact .inl hold
    · exact .inr ⟨label, by rw [Label.text_of_ofText? hlabel]⟩
  · rwa [fork_signalRoute] at hv

/-- Walks relay labels, and nothing else. -/
theorem Attends.relays (h : s.Attends (fun _ => True) s') : s.Relays s' := by
  induction h with
  | refl => exact .refl s
  | takeRoute _ _ ih => exact ih.trans (fades_takeRoute ..).relays
  | takeFork _ _ ih => exact ih.trans (fades_takeFork ..).relays
  | dropSignals _ _ ih => exact ih.trans (fades_dropSignals ..).relays
  | putBack _ _ hlabel ih => exact ih.trans (relays_signalRoute _ _ hlabel)

end Scope

/-! ## Laws -/

/-- What units may signal. -/
structure Law where
  routes : String → Prop
  forks : List String → Prop

/-- Every signal is lawful. -/
def Law.any : Law := ⟨fun _ => True, fun _ => True⟩

/-- A call signals what is lawful, and leaves the slots alone otherwise. -/
inductive Behavior.Abides (law : Law) : Behavior → Prop where
  | done : Abides law .done
  | fail (cause : Cause) : Abides law (.fail cause)
  | panic (payload : Option String) : Abides law (.panic payload)
  | access {change : Scope → Scope} {next : Scope → Behavior} (hchange : ∀ s : Scope, s.Fades (change s))
      (hnext : ∀ s, Abides law (next s)) : Abides law (.access change next)
  | signalRoute {target : String} {next : Behavior} (htarget : law.routes target)
      (hnext : Abides law next) : Abides law (.signalRoute target next)
  | signalFork {entries : List String} {next : Behavior} (hentries : law.forks entries)
      (hnext : Abides law next) : Abides law (.signalFork entries next)
  | note {text : String} {next : Behavior} (hnext : Abides law next) : Abides law (.note text next)
  | sleep {milliseconds : Nat} {next : Behavior} (hnext : Abides law next) :
    Abides law (.sleep milliseconds next)
  | payload {change : List String → List String} {next : Option (List String) → Behavior}
      (hnext : ∀ texts, Abides law (next texts)) : Abides law (.payload change next)
  | viewPool {next : PoolView → Behavior} (hnext : ∀ view, Abides law (next view)) :
    Abides law (.viewPool next)
  | closePool {next : Bool → Behavior} (hnext : ∀ idle, Abides law (next idle)) :
    Abides law (.closePool next)
  | addUnit {unitId : String} {unit : UnitWith Behavior} {next : Behavior}
      (hbefore : ∀ view, Abides law (unit.beforeRun view)) (hrun : ∀ view, Abides law (unit.run view))
      (hafter : ∀ view, Abides law (unit.afterRun view))
      (herror : ∀ view failure, Abides law (unit.onError view failure)) (hnext : Abides law next) :
    Abides law (.addUnit unitId unit next)
  | addFlow {flowId expression : String} {next : Behavior} (hnext : Abides law next) :
    Abides law (.addFlow flowId expression next)
  | eraseUnit {unitId : String} {next : Behavior} (hnext : Abides law next) :
    Abides law (.eraseUnit unitId next)
  | runFlow {flowId : String} {next : RunSummary → Behavior}
      (hnext : ∀ summary, Abides law (next summary)) : Abides law (.runFlow flowId next)

structure FlowUnit.Abides (law : Law) (unit : FlowUnit) : Prop where
  before : ∀ view, (unit.beforeRun view).Abides law
  run : ∀ view, (unit.run view).Abides law
  after : ∀ view, (unit.afterRun view).Abides law
  error : ∀ view failure, (unit.onError view failure).Abides law

/-- A listener leaves the slots alone, and so do the listeners that it registers. -/
def Reaction.Abides : Reaction → Prop
  | .done | .panic => True
  | .access change next => ∀ s : Scope, s.Fades (change s) ∧ (next s).Abides
  | .note _ next | .clearListeners next => next.Abides
  | .listen _ _ _ listener next => (∀ notice, (listener notice).Abides) ∧ next.Abides

def Listeners.Abide (l : Listeners) : Prop :=
  ∀ r ∈ l.registered, ∀ notice, (r.listener notice).Abides

def Registry.Abides (law : Law) (r : Registry) : Prop :=
  ∀ u unit, r.unit? u = some unit → FlowUnit.Abides law unit

/-- All units that are registered keep to the law, and listeners leave the slots alone. -/
structure Engine.Abides (law : Law) (e : Engine) : Prop where
  units : e.registry.Abides law
  listeners : e.listeners.Abide

/-- What a walk is busy with keeps to the law. -/
def Activity.Abides (law : Law) : Activity → Prop
  | .poised _ | .inPlace .. | .forking .. => True
  | .queued _ unit _ => unit.Abides law
  | .working job rest | .asleep job _ rest => job.unit.Abides law ∧ rest.Abides law
  | .calling job _ _ next => job.unit.Abides law ∧ ∀ summary, (next summary).Abides law

inductive Process.Abides (law : Law) : Process → Prop where
  | mk {serial : Nat} {walk : Walk} {activity : Activity} (own : activity.Abides law)
      (inside : ∀ q, activity.Runs q → Abides law q) : Abides law (.mk serial walk activity)

section

variable {law : Law}

theorem FlowUnit.abides_doing {work : Behavior} (h : work.Abides law) (name : String) :
    (FlowUnit.doing name work).Abides law :=
  ⟨fun _ => .done, fun _ => h, fun _ => .done, fun _ _ => .done⟩

theorem Registry.Abides.addUnit {r : Registry} (h : r.Abides law) (u : String) {unit : FlowUnit}
    (hunit : unit.Abides law) : (r.addUnit u unit).Abides law :=
  Registry.All.addUnit h u hunit

/-- Units that keep to a law make a registry that does. -/
theorem Registry.Abides.foldl_addUnit {α : Type} {units : List α} {r : Registry} (h : r.Abides law)
    (name : α → String) (unit : α → FlowUnit) (hunits : ∀ a ∈ units, (unit a).Abides law) :
    (units.foldl (fun r a => r.addUnit (name a) (unit a)) r).Abides law :=
  Registry.All.foldl_addUnit h name unit hunits

/-- Units that do something when they run and keep to a law make a registry that does. -/
theorem Registry.abides_foldl_doing {units : List (String × Behavior)} {r : Registry}
    (hunits : ∀ u ∈ units, u.2.Abides law) (h : r.Abides law) :
    (units.foldl (fun r u => r.addUnit u.1 (.doing u.1 u.2)) r).Abides law :=
  h.foldl_addUnit Prod.fst (fun u => .doing u.1 u.2) fun u hu =>
    FlowUnit.abides_doing (hunits u hu) u.1

theorem Reaction.abides_iff_makes {reaction : Reaction} :
    reaction.Abides ↔ reaction.Makes Scope.Fades := by
  induction reaction with
  | done | panic => exact Iff.rfl
  | access change next ih => exact forall_congr' fun s => and_congr_right fun _ => ih s
  | note _ next ih | clearListeners next ih => exact ih
  | listen _ _ _ listener next ihlistener ih => exact and_congr (forall_congr' ihlistener) ih

theorem Listeners.abide_iff_make {l : Listeners} : l.Abide ↔ l.Make Scope.Fades :=
  forall₂_congr fun _ _ => forall_congr' fun _ => Reaction.abides_iff_makes

theorem Listeners.Abide.announce {l : Listeners} (h : l.Abide) (event : Notice) (scope : Scope) :
    scope.Fades (l.announce event scope).scope ∧ (l.announce event scope).listeners.Abide := by
  obtain ⟨hfades, hmake⟩ :=
    (abide_iff_make.mp h).announce Scope.Fades.refl (fun _ _ _ => Scope.Fades.trans) event scope
  exact ⟨hfades, abide_iff_make.mpr hmake⟩

end

/-! ## One step at one walk -/

namespace Scene

variable {law : Law} {s s' : Scene} {task serial : Nat}

/-- Where the scope of a scene may have got what its slots hold: from before, from a walk that passes
a label on, or from the unit at work. -/
structure Gains (law : Law) (s s' : Scene) : Prop where
  route : ∀ u v, (s'.run.scope.slots u).route = some v → (s.run.scope.slots u).route = some v ∨
    (∃ label : Label, v = .text label.text) ∨
      ∃ target job rest, v = .text target ∧ law.routes target ∧ s'.activity = .working job rest ∧
        job.unitId = u
  fork : ∀ u v, (s'.run.scope.slots u).fork = some v → (s.run.scope.slots u).fork = some v ∨
    ∃ entries, v = .texts entries ∧ law.forks entries

theorem Gains.of_relays (h : s.run.scope.Relays s'.run.scope) : Gains law s s' := by
  refine ⟨fun u v hv => ?_, fun u v hv => .inl (h.fork u v hv)⟩
  rcases h.route u v hv with hv | hlabel
  · exact .inl hv
  · exact .inr (.inl hlabel)

theorem Gains.of_fades (h : s.run.scope.Fades s'.run.scope) : Gains law s s' :=
  .of_relays h.relays

/-- A fork signal that is there was there before, or is lawful. -/
theorem Gains.entries {u : String} {entries : List String} (h : Gains law s s')
    (hentries : (s'.run.scope.slots u).entries = some entries) :
    (s.run.scope.slots u).entries = some entries ∨ law.forks entries := by
  unfold Slots.entries at hentries
  split at hentries
  · next value hfork =>
    cases hentries
    rcases h.fork u _ hfork with hold | ⟨entries, hvalue, hlaw⟩
    · exact .inl (by rw [Slots.entries, hold])
    · cases hvalue
      exact .inr hlaw
  · cases hentries

/-- Listeners that are told about a unit leave the slots alone. -/
theorem announce_of_abide (h : s.engine.listeners.Abide) (task serial : Nat) (job : Job)
    (moment : Moment) (failure : Option Failure) :
    s.run.scope.Fades (s.announce task serial job moment failure).run.scope ∧
      (s.announce task serial job moment failure).engine.listeners.Abide ∧
      (s.announce task serial job moment failure).engine.registry = s.engine.registry := by
  obtain ⟨event, heq⟩ := s.announce_eq task serial job moment failure
  obtain ⟨hfades, hlisteners⟩ := h.announce event s.run.scope
  rw [heq]
  exact ⟨hfades, hlisteners, rfl⟩

theorem fades_announce (h : s.engine.Abides law) (task serial : Nat) (job : Job) (moment : Moment)
    (failure : Option Failure) :
    s.run.scope.Fades (s.announce task serial job moment failure).run.scope ∧
      (s.announce task serial job moment failure).engine.Abides law := by
  obtain ⟨hfades, hlisteners, hregistry⟩ := announce_of_abide h.listeners task serial job moment failure
  exact ⟨hfades, ⟨by rw [hregistry]; exact h.units, hlisteners⟩⟩

/-- What a unit does in the middle of a call keeps to the law, and so do the units that it adds. -/
theorem Does.abides {job : Job} {behavior rest : Behavior} {run : RunState} {e : Engine}
    (h : s.Does task serial job behavior rest run e) (hbehavior : behavior.Abides law)
    (hunits : s.engine.registry.Abides law) : rest.Abides law ∧ e.registry.Abides law := by
  cases h with
  | access => cases hbehavior with | access _ hnext => exact ⟨hnext _, hunits⟩
  | signalRoute => cases hbehavior with | signalRoute _ hnext => exact ⟨hnext, hunits⟩
  | signalFork => cases hbehavior with | signalFork _ hnext => exact ⟨hnext, hunits⟩
  | note => cases hbehavior with | note hnext => exact ⟨hnext, hunits⟩
  | payload => cases hbehavior with | payload hnext => exact ⟨hnext _, hunits⟩
  | viewPool => cases hbehavior with | viewPool hnext => exact ⟨hnext _, hunits⟩
  | closePool => cases hbehavior with | closePool hnext => exact ⟨hnext _, hunits⟩
  | addUnit =>
    cases hbehavior with
    | addUnit hbefore hrun hafter herror hnext =>
      exact ⟨hnext, hunits.addUnit _ ⟨hbefore, hrun, hafter, herror⟩⟩
  | addFlow => cases hbehavior with | addFlow hnext => exact ⟨hnext, hunits⟩
  | eraseUnit =>
    cases hbehavior with
    | eraseUnit hnext => exact ⟨hnext, Registry.All.eraseUnit hunits _⟩
  | noFlow => cases hbehavior with | runFlow hnext => exact ⟨hnext _, hunits⟩

/-- What the slots hold after a unit has done something in the middle of a call. -/
theorem Does.gains {job : Job} {behavior rest : Behavior} {run : RunState} {e : Engine}
    (h : s.Does task serial job behavior rest run e) (hbehavior : behavior.Abides law) :
    Gains law s { s with activity := .working job rest, run := run, engine := e } := by
  cases h with
  | access change next =>
    cases hbehavior with
    | access hchange _ => exact .of_fades (hchange _)
  | signalRoute target =>
    cases hbehavior with
    | signalRoute htarget _ =>
      refine ⟨fun u v hv => ?_, fun u v hv => .inl ?_⟩
      · rcases Scope.route_signalRoute hv with hold | ⟨rfl, rfl⟩
        · exact .inl hold
        · exact .inr (.inr ⟨target, job, rest, rfl, htarget, rfl, rfl⟩)
      · rwa [Scope.fork_signalRoute] at hv
  | signalFork entries =>
    cases hbehavior with
    | signalFork hentries _ =>
      refine ⟨fun u v hv => .inl ?_, fun u v hv => ?_⟩
      · rwa [Scope.route_signalFork] at hv
      · rcases Scope.fork_signalFork hv with hold | ⟨-, rfl⟩
        · exact .inl hold
        · exact .inr ⟨entries, rfl, hentries⟩
  | note | payload | viewPool | closePool | addUnit | addFlow | eraseUnit | noFlow =>
    exact .of_fades (.refl _)

theorem fades_run_publish (r : RunState) (result : Option Failure) (completed : List String) :
    r.scope.Fades (r.publish result completed).scope := by
  unfold RunState.publish
  split
  · exact .refl _
  · exact Scope.fades_publish ..

/-- Joining relays labels, and nothing else. -/
theorem relays_close (s : Scene) (task serial : Nat) (anchor : String) (resume : Resume)
    (result : Option Failure) (completed : List String) :
    s.run.scope.Relays (s.close task serial anchor resume result completed).run.scope :=
  (fades_run_publish s.run result completed).relays.trans
    (Scope.Attends.relays (Walk.attends_forkDone (fun _ _ => trivial) (fun _ _ _ _ => trivial) ..))

/-- What the slots hold after a walk has done something comes from somewhere. -/
theorem Steps.gains (h : s.Steps task serial s') (hfits : (s.process serial).Fits)
    (hprocess : (s.process serial).Abides law) (hengine : s.engine.Abides law) :
    Gains law s s' := by
  obtain ⟨-, hat, -⟩ := hfits
  obtain ⟨hown, -⟩ := hprocess
  cases h with
  | advance => exact .of_relays (Scope.Attends.relays (Walk.attends_advance (fun _ _ => trivial) ..))
  | missing =>
    exact .of_relays (Scope.Attends.relays (Walk.attends_unitDone (fun _ _ => trivial) trivial ..))
  | queues | sleeps | wakes | opens | tidies | fails | forksOne | forks | starts | refuses =>
    exact .of_fades (.refl _)
  | begins | granted => exact .of_fades (Scope.fades_dropSignals ..)
  | does h hdoes =>
    rw [h] at hown
    exact hdoes.gains hown.2
  | runs => exact .of_fades (fades_announce hengine task serial _ .before none).1
  | ends | gaveUp =>
    rw [endUnit_eq]
    exact .of_relays ((fades_announce hengine task serial _ _ _).1.relays.trans
      (Scope.Attends.relays (Walk.attends_unitDone (fun _ _ => trivial) trivial ..)))
  | forksNone =>
    exact .of_relays
      (Scope.Attends.relays (Walk.attends_forkDone (fun _ _ => trivial) (fun _ _ _ _ => trivial) ..))
  | joins => exact .of_relays (relays_close ..)

end Scene

/-! ## Steps in a tree -/

/-- To keep to a law is a custom of units. -/
def Law.custom (law : Law) : Custom where
  unit := FlowUnit.Abides law
  call := Behavior.Abides law
  before h := h.before
  run h := h.run
  after h := h.after
  error h := h.error
  does h := h.abides
  sleep | .sleep hnext => hnext
  runFlow | .runFlow hnext => hnext

theorem Process.abides_iff_observes {law : Law} {p : Process} :
    p.Abides law ↔ p.Observes law.custom := by
  constructor
  · intro h
    induction h with
    | mk own _ ih => exact .mk own ih
  · intro h
    induction h with
    | mk own _ ih => exact .mk own ih

/-- What holds of the state of a run as long as nothing is signalled that the law does not allow goes on
to hold, whatever a task does. -/
theorem Process.Moves.gains {law : Law} {P : RunState → Prop} {who task : Nat} {p p' : Process}
    {run run' : RunState} {e e' : Engine} {site : Site}
    (hgains : ∀ s s' : Scene, s.Gains law s' → P s.run → P s'.run)
    (h : p.Moves who site task run e p' run' e') (hfits : p.Fits) (hprocess : p.Abides law)
    (hengine : e.Abides law) (hrun : P run) : P run' := by
  induction h with
  | here h => exact hgains _ _ (h.gains hfits hprocess hengine) hrun
  | called | returned => exact hrun
  | inPlace _ _ ih =>
    obtain ⟨-, -, hbranch⟩ := hfits
    obtain ⟨-, habides⟩ := hprocess
    exact ih (hbranch _ rfl) (habides _ rfl) hengine hrun
  | inPlaceEnded _ _ hclose ih =>
    obtain ⟨-, -, hbranch⟩ := hfits
    obtain ⟨-, habides⟩ := hprocess
    have hended := ih (hbranch _ rfl) (habides _ rfl) hengine hrun
    subst hclose
    exact hgains _ _ (Scene.Gains.of_relays (Scene.relays_close ..)) hended
  | @child _ _ _ _ entry _ _ before after _ branch _ _ _ _ _ _ _ _ _ ih
  | @childEnded _ _ _ _ entry _ _ before after _ _ branch _ _ _ _ _ _ _ _ _ _ ih =>
    obtain ⟨-, -, hbranch⟩ := hfits
    obtain ⟨-, habides⟩ := hprocess
    have hmem := Process.mem_children before after entry branch
    exact ih (hbranch branch ⟨entry, hmem⟩) (habides branch ⟨entry, hmem⟩) hengine hrun

theorem Process.Abides.of_has {law : Law} {p q : Process} (h : p.Abides law) (hhas : p.Has q) :
    q.Abides law := by
  induction hhas with
  | self => exact h
  | inside hruns _ ih =>
    obtain ⟨-, hinside⟩ := h
    exact ih (hinside _ hruns)

/-! ## Executors -/

namespace Executor

variable {law : Law} {start last x y : Executor} {past : List (Executor × Move)} {m : Move}

structure Abides (law : Law) (x : Executor) : Prop where
  engine : x.engine.Abides law
  runs : ∀ run ∈ x.runs, run.root.Abides law

/-- Listeners that leave the slots alone see to it that those do which they register. -/
theorem abide_move (hmove : x.move m = some y) (h : x.engine.listeners.Abide) :
    y.engine.listeners.Abide :=
  listeners_move (fun _ event scope (hl : Listeners.Abide _) => (hl.announce event scope).2) hmove h

/-- Whatever an executor does, everybody goes on keeping to the law. -/
theorem Abides.move (h : x.Abides law) (hmove : x.move m = some y) : y.Abides law := by
  have hobserves : x.Observes law.custom :=
    ⟨h.engine.units, fun run hrun => Process.abides_iff_observes.mp (h.runs run hrun)⟩
  obtain ⟨hunits, hruns⟩ := hobserves.move hmove
  exact ⟨⟨hunits, abide_move hmove h.engine.listeners⟩,
    fun run hrun => Process.abides_iff_observes.mpr (hruns run hrun)⟩

/-- Everybody keeps to the law all along. -/
theorem History.abides (h : start.History past last) (hstart : start.Abides law) :
    last.Abides law :=
  h.invariant hstart fun _ _ _ _ hx hmove => hx.move hmove

theorem abides_build {config : Config} {registry : Registry} {listeners : Listeners}
    (h : build config registry listeners = .ok x) (hregistry : registry.Abides law)
    (hlisteners : listeners.Abide) : x.Abides law := by
  obtain rfl := eq_of_build h
  exact ⟨⟨hregistry, hlisteners⟩, nofun⟩

end Executor

end Workflow
