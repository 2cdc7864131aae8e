import Workflow.Proofs.Run.Endings
import Workflow.Proofs.Run.Errands
import Workflow.Proofs.Run.Refinement
import Workflow.Proofs.Run.Selection

/-!
# Runs that execute units one by one

`Engine.Hosts r e` says that the units of a roster are registered as the roster has them: each of them
succeeds whenever it is executed and leaves its signal, and keeps its hands off the other units, and
so do the listeners. A run of a flow without groups on such an engine follows the evaluation of
`Walk.EndsUp` step by step (`Scene.Goes.steps`): whatever is scheduled, it comes to an end, and what
it has come to there is what `EndsUp` says (`Executor.Goes.result`).

With that, what was shown of walks is a statement about runs. `Executor.jumps_forward`: when a unit
that is no router and leaves no signal is made to route to another unit that the run executes anyway,
the run executes the same units in another order, takes the same arms, and ends with the same status.
-/

namespace Workflow

/-! ## Flows without groups -/

namespace Node

mutual

/-- Nothing in the node runs at the same time. -/
def isSerial : Node → Bool
  | .unit _ => true
  | .sequence steps => areSerial steps
  | .conditional condition whenTrue whenFalse =>
    condition.isSerial && whenTrue.isSerial && whenFalse.isSerial
  | .parallel _ => false

def areSerial : List Node → Bool
  | [] => true
  | node :: rest => node.isSerial && areSerial rest

end

mutual

theorem groupsFrom_of_isSerial (node : Node) {start : Nat} {groups : List (Nat × Group Plan)}
    (h : node.isSerial = true) (hgroups : node.GroupsFrom start groups) : groups = [] := by
  cases node with
  | unit name => exact hgroups
  | sequence steps => exact groupsFromAll_of_areSerial steps h hgroups
  | parallel branches => cases h
  | conditional condition whenTrue whenFalse =>
    obtain ⟨first, second, third, rfl, hfirst, hsecond, hthird⟩ := hgroups
    simp only [isSerial, Bool.and_eq_true] at h
    rw [condition.groupsFrom_of_isSerial h.1.1 hfirst, whenTrue.groupsFrom_of_isSerial h.1.2 hsecond,
      whenFalse.groupsFrom_of_isSerial h.2 hthird]
    rfl

theorem groupsFromAll_of_areSerial (nodes : List Node) {start : Nat}
    {groups : List (Nat × Group Plan)} (h : areSerial nodes = true)
    (hgroups : GroupsFromAll nodes start groups) : groups = [] := by
  cases nodes with
  | nil => exact hgroups
  | cons node rest =>
    obtain ⟨first, others, rfl, hfirst, hothers⟩ := hgroups
    simp only [areSerial, Bool.and_eq_true] at h
    rw [node.groupsFrom_of_isSerial h.1 hfirst, groupsFromAll_of_areSerial rest h.2 hothers]
    rfl

end

end Node

/-- A plan without groups, in which a unit occurs once, and in which routers know all labels. -/
structure Plan.IsSerial (p : Plan) : Prop where
  groups : p.groups.entries = []
  distinct : p.Distinct
  labels : ∀ i choice, p.choiceAt? i = some choice → ∀ label : Label,
    (choice.labelFor? label.text).isSome = true

theorem Node.IsNormal.isSerial_of_compile {node : Node} {p : Plan} (h : node.IsNormal)
    (hserial : node.isSerial = true) (hnodup : node.leaves.Nodup) (hp : node.compile? = some p) :
    p.IsSerial where
  groups := by
    obtain ⟨l, groups, hp', hgroups, hgrows⟩ := h.exists_compile
    cases hp.symm.trans hp'
    rw [hgrows.groups, node.groupsFrom_of_isSerial hserial hgroups]
    rfl
  distinct := (h.wellFormed hp).distinct hnodup
  labels i choice hchoice label := by
    obtain ⟨whenTrue, whenFalse, hfits⟩ :=
      (h.fits_of_compile hp).choices _ (Table.mem_of_lookup hchoice)
    rw [Choice.labelFor?_eq hfits.arms]
    cases label <;> split <;> (try split) <;> simp_all

/-! ## Units that leave fixed signals -/

/-- The slots hold a routing signal, or none, and no fork signal. -/
def Slots.Carry (signal : Option String) (σ : Slots) : Prop := σ.target = signal ∧ σ.entries = none

/-- How the slots of a unit are at the end of a call, for the unit to succeed in the calls behind it and
to leave its signal. -/
def Stage.Plays (r : Roster) (unit : FlowUnit) (u : String) : Stage → Slots → Prop
  | .before => (unit.run (r.view u)).EndsWith r.kept u
      ((unit.afterRun (r.view u)).EndsWith r.kept u (Slots.Carry (r.signal u)))
  | .run => (unit.afterRun (r.view u)).EndsWith r.kept u (Slots.Carry (r.signal u))
  | .after => Slots.Carry (r.signal u)
  | .onError _ => fun _ => False

/-- The unit succeeds whenever it is executed, and leaves the signal that the roster has for it. -/
structure FlowUnit.Plays (r : Roster) (unit : FlowUnit) (u : String) : Prop where
  name : unit.name = r.name u
  calls : (unit.beforeRun (r.view u)).EndsWith r.kept u (Stage.before.Plays r unit u) .clear

/-- The units of the roster are registered, the other units that matter are not, and the listeners touch
no slots. -/
structure Engine.Hosts (r : Roster) (e : Engine) : Prop where
  units : ∀ u ∈ r.ids, ∃ unit, e.registry.unit? u = some unit ∧ unit.Plays r u
  others : ∀ u ∈ r.kept, u ∉ r.ids → e.registry.unit? u = none
  quiet : e.listeners.Quiet r.kept

/-- The roster knows all units that a flow with these leaves can come to. A signal is a label or the id
of a registered unit. -/
structure Roster.Covers (r : Roster) (leaves : List String) : Prop where
  ids : ∀ u ∈ r.ids, u ∈ r.kept
  leaves : ∀ u ∈ leaves, u ∈ r.kept
  targets : ∀ u target, r.signal u = some target →
    (Label.ofText? target).isSome = true ∨ target ∈ r.ids
  unstopped : ∀ u, r.signal u ≠ some stopValue

namespace Engine.Hosts

variable {r : Roster} {e e' : Engine}

theorem congr (h : e.Hosts r) (hunits : ∀ u ∈ r.kept, e'.registry.unit? u = e.registry.unit? u)
    (hids : ∀ u ∈ r.ids, u ∈ r.kept) (hquiet : e'.listeners.Quiet r.kept) : e'.Hosts r where
  units u hu := (hunits u (hids u hu)).symm ▸ h.units u hu
  others u hu hnot := (hunits u hu).trans (h.others u hu hnot)
  quiet := hquiet

theorem of_eq (h : e.Hosts r) (hregistry : e'.registry = e.registry)
    (hlisteners : e'.listeners = e.listeners) : e'.Hosts r where
  units := hregistry ▸ h.units
  others := hregistry ▸ h.others
  quiet := hlisteners ▸ h.quiet

end Engine.Hosts

/-! ## In the middle of a call -/

/-- In the middle of a call that keeps away from the units in `kept`, so does what is left of it, and
what the engine has of these units stays. -/
theorem Scene.Does.endsWith {s : Scene} {task serial : Nat} {job : Job} {behavior rest : Behavior}
    {run : RunState} {e : Engine} {kept : List String} {good : Slots → Prop}
    (h : s.Does task serial job behavior rest run e)
    (hends : behavior.EndsWith kept job.unitId good (s.run.scope.slots job.unitId)) :
    rest.EndsWith kept job.unitId good (run.scope.slots job.unitId) ∧ rest.Next behavior ∧
      run.executed = s.run.executed ∧ run.view = s.run.view ∧
      (∀ u ∈ kept, e.registry.unit? u = s.engine.registry.unit? u) ∧
      e.listeners = s.engine.listeners := by
  cases h with
  | access change next =>
    exact ⟨(hends s.run.scope rfl).2, .access change next _, rfl, rfl, fun _ _ => rfl, rfl⟩
  | signalRoute target =>
    refine ⟨?_, .signalRoute target rest, rfl, rfl, fun _ _ => rfl, rfl⟩
    rw [Scope.slots_signalRoute]
    exact hends
  | signalFork entries =>
    refine ⟨?_, .signalFork entries rest, rfl, rfl, fun _ _ => rfl, rfl⟩
    rw [Scope.slots_signalFork]
    exact hends
  | note text => exact ⟨hends, .note text rest, rfl, rfl, fun _ _ => rfl, rfl⟩
  | payload change next => exact ⟨hends _, .payload change next _, rfl, rfl, fun _ _ => rfl, rfl⟩
  | viewPool next => exact ⟨hends _, .viewPool next _, rfl, rfl, fun _ _ => rfl, rfl⟩
  | closePool | noFlow => exact hends.elim
  | addUnit unitId unit =>
    refine ⟨hends.2, .addUnit unitId unit rest, rfl, rfl, fun u hu => ?_, rfl⟩
    exact Table.get?_insert_of_ne _ unit fun heq => hends.1 (heq ▸ hu)
  | addFlow flowId expression =>
    exact ⟨hends, .addFlow flowId expression rest, rfl, rfl, fun _ _ => rfl, rfl⟩
  | eraseUnit unitId =>
    refine ⟨hends.2, .eraseUnit unitId rest, rfl, rfl, fun u hu => ?_, rfl⟩
    have hne : unitId ≠ u := fun heq => hends.1 (heq ▸ hu)
    exact (Table.get?_erase ..).trans (if_neg hne)

theorem Behavior.FailsWith.not_endsWith {behavior : Behavior} {cause : Cause} {kept : List String}
    {u : String} {good : Slots → Prop} {σ : Slots} (h : behavior.FailsWith cause) :
    ¬ behavior.EndsWith kept u good σ := by
  cases h <;> exact id

/-- Telling the listeners about a unit changes nothing that matters. -/
theorem Scene.hosts_announce {r : Roster} {s : Scene} (h : s.engine.Hosts r)
    (hids : ∀ u ∈ r.ids, u ∈ r.kept) (task serial : Nat) (job : Job) (moment : Moment)
    (failure : Option Failure) : (s.announce task serial job moment failure).engine.Hosts r ∧
      ∀ u ∈ r.kept, (s.announce task serial job moment failure).run.scope.slots u =
        s.run.scope.slots u := by
  obtain ⟨event, heq⟩ := s.announce_eq task serial job moment failure
  obtain ⟨hslots, hquiet⟩ := h.quiet.announce event s.run.scope
  rw [heq]
  exact ⟨h.congr (fun _ _ => rfl) hids hquiet, hslots⟩

/-! ## Decisions -/

/-- After a turn the walk will end up at `last` in `n` steps, and it executes nothing but units that
matter. -/
structure Turn.Goes (r : Roster) (p : Plan) (last : Walk) (all : List String) (n : Nat)
    (ran : List String) (t : Turn) : Prop where
  plan : t.walk.plan = p
  single : t.walk.pooled = false
  ends : t.walk.EndsUp r n t.next ran last all
  kept : ∀ u resume, t.next = .execute u resume → u ∈ r.kept

section

variable {r : Roster} {p : Plan} {w last : Walk} {n : Nat} {ran all : List String}

theorem Walk.EndsUp.goes_advance (h : w.EndsUp r n .advance ran last all) (hplan : w.plan = p)
    (hsingle : w.pooled = false) (scope : Scope) : Turn.Goes r p last all n ran ⟨w, scope, .advance⟩ :=
  ⟨hplan, hsingle, h, nofun⟩

theorem Turn.goes_finish (r : Roster) (w : Walk) (hplan : w.plan = p) (hsingle : w.pooled = false)
    (ran : List String) (scope : Scope) : Turn.Goes r p w ran 0 ran ⟨w, scope, .finish⟩ :=
  ⟨hplan, hsingle, .finished, nofun⟩

end

theorem Plan.IsSerial.groupAt? {p : Plan} (h : p.IsSerial) (i : Nat) : p.groupAt? i = none := by
  rw [Plan.groupAt?, Table.get?, h.groups]
  rfl

namespace Walk

variable {r : Roster} {w last : Walk} {n : Nat} {u : String} {resume : Resume} {ran all : List String}
  {scope : Scope} {signal : Option String} {hasRun : String → Bool} {tolerant : Bool}

theorem EndsUp.pos_of_execute (h : EndsUp r n w (.execute u resume) ran last all) : 0 < n := by
  cases h <;> exact Nat.succ_pos _

/-- A walk is sent by signals to units that are no labels. -/
theorem heed_execute (hserial : w.plan.IsSerial) (h : (w.heed hasRun signal).2 = .execute u resume) :
    signal = some u ∧ Label.ofText? u = none := by
  have herrand : w.errand? signal = some u := by
    unfold heed at h
    split at h
    · split at h
      · cases h
      · cases h
        assumption
    · cases h
  unfold errand? at herrand
  split at herrand
  · cases herrand
  · next choice target hchoice =>
    split at herrand
    · cases herrand
    · next hlabel =>
      cases herrand
      refine ⟨rfl, Option.eq_none_iff_forall_ne_some.mpr fun label hlabel' => hlabel ?_⟩
      rw [← Label.text_of_ofText? hlabel']
      exact hserial.labels _ choice hchoice label
  · split at herrand
    · cases herrand
    · next hlabel =>
      cases herrand
      exact ⟨rfl, by simpa using hlabel⟩

theorem obey_eq_steer (hserial : w.plan.IsSerial) (hsignal : signal ≠ some stopValue)
    (fork : Option (List String)) (hfork : fork = none) :
    w.obey scope hasRun u signal fork = w.steer scope hasRun u signal := by
  have hgroup : w.plan.groupAfter? w.position = none := by
    rw [Plan.groupAfter?, hserial.groupAt?]
    rfl
  subst hfork
  simp only [obey, if_neg hsignal, hgroup]
  rfl

/-- What a walk does after a signal, in a plan without groups. -/
theorem EndsUp.obey {m : Table String Early} (hserial : w.plan.IsSerial)
    (hcovers : r.Covers w.plan.sequence) (hsingle : w.pooled = false)
    (h : EndsUp r n ((w.heed ran.contains (r.signal u)).1.mind m)
      (w.heed ran.contains (r.signal u)).2 ran last all) (scope : Scope) :
    ((w.mind m).obey scope ran.contains u (r.signal u) none).Goes r w.plan last all n ran := by
  have hsignal := hcovers.unstopped u
  obtain ⟨scope', hsteer⟩ := steer_eq_heed (w := w.mind m) hsignal scope ran.contains u
  rw [obey_eq_steer (w := w.mind m) hserial hsignal none rfl, hsteer, heed_mind]
  have hfurther := further_heed w ran.contains (r.signal u)
  refine ⟨hfurther.plan, hfurther.pooled.trans hsingle, h, fun v resume hnext => ?_⟩
  obtain ⟨htarget, hlabel⟩ := heed_execute hserial hnext
  rcases hcovers.targets u v htarget with hsome | hmem
  · simp [hlabel] at hsome
  · exact hcovers.ids v hmem

theorem EndsUp.advance (h : EndsUp r n w .advance ran last all) (hserial : w.plan.IsSerial)
    (hcovers : r.Covers w.plan.sequence) (hsingle : w.pooled = false) (scope : Scope) :
    ∃ m < n, (w.advance scope ran.contains).Goes r w.plan last all m ran := by
  cases h with
  | past hunit =>
    refine ⟨0, Nat.one_pos, ?_⟩
    unfold Walk.advance
    rw [hunit]
    exact Turn.goes_finish r w rfl hsingle ran scope
  | @skips m stop _ _ u _ _ hunit hskip h =>
    refine ⟨m, Nat.lt_succ_self m, ?_⟩
    unfold Walk.advance
    simp only [hunit, hskip]
    exact h.goes_advance rfl hsingle scope
  | @recalls m _ _ u _ _ hunit hskip hearly h =>
    refine ⟨m, Nat.lt_succ_self m, ?_⟩
    unfold Walk.advance
    simp only [hunit, hskip, hserial.groupAt?, hearly]
    exact h.obey hserial hcovers hsingle scope
  | @comes m _ _ u _ _ hunit hskip hearly h =>
    refine ⟨m, Nat.lt_succ_self m, ?_⟩
    unfold Walk.advance
    simp only [hunit, hskip, hserial.groupAt?, hearly]
    refine ⟨rfl, hsingle, h, ?_⟩
    rintro v resume ⟨⟩
    exact hcovers.leaves u (List.mem_of_getElem? hunit)

/-- A unit of the roster has ended. -/
theorem EndsUp.unitDone (h : EndsUp r n w (.execute u resume) ran last all) (hmem : u ∈ r.ids)
    (hserial : w.plan.IsSerial) (hcovers : r.Covers w.plan.sequence) (hsingle : w.pooled = false)
    (hcarry : Slots.Carry (r.signal u) (scope.slots u)) (tolerant : Bool) :
    ∃ m, n = m + 1 ∧ (w.unitDone scope (ran ++ [u]).contains tolerant u resume none).Goes r w.plan last
      all m (ran ++ [u]) := by
  have hroute : (scope.takeRoute u).1 = r.signal u := (Scope.takeRoute_fst scope u).trans hcarry.1
  have hfork : ((scope.takeRoute u).2.takeFork u).1 = none := by
    rw [Scope.takeFork_fst, Slots.entries, (Scope.slots_takeRoute scope u).2]
    exact hcarry.2
  cases h with
  | misses hnot => exact absurd hmem hnot
  | @runs m _ _ _ _ _ _ hunit h =>
    refine ⟨m, rfl, ?_⟩
    unfold Walk.unitDone ownUnitDone
    simp only [hunit, hroute, hfork]
    rw [← mind_heed] at h
    exact h.obey hserial hcovers hsingle _
  | @detours m _ _ _ reached _ _ _ h =>
    refine ⟨m, rfl, ?_⟩
    unfold Walk.unitDone detourDone
    simp only [hroute, if_neg (hcovers.unstopped u), hfork]
    cases reached <;> exact h.goes_advance rfl hsingle _

/-- The walk has come to a unit that is not there. -/
theorem EndsUp.unitMissing (h : EndsUp r n w (.execute u resume) ran last all) (hnot : u ∉ r.ids)
    (hsingle : w.pooled = false) (scope : Scope) (hasRun : String → Bool) (tolerant : Bool) :
    0 < n ∧ (w.unitDone scope hasRun tolerant u resume (some ⟨.unknownUnit u, false⟩)).Goes r w.plan
      last all 0 ran := by
  cases h with
  | runs hmem | detours hmem => exact absurd hmem hnot
  | misses _ hunit =>
    refine ⟨Nat.one_pos, ?_⟩
    have hends := Turn.goes_finish r (w.addFailure (.unknownUnit u)) rfl hsingle ran
    cases resume with
    | unit =>
      unfold Walk.unitDone ownUnitDone
      simp only [hunit rfl]
      exact hends _
    | detour | alone | group | scattered | detourFork => exact hends _

end Walk

/-! ## A run on its way -/

/-- The executed units, as the state of a run has them. -/
def Roster.entries (r : Roster) (ran : List String) : List (String × String) :=
  ran.map fun u => (u, r.name u)

/-- What a unit in this stage has added to the executed units. -/
def Stage.ran (u : String) : Stage → List String
  | .before => []
  | .run | .after | .onError _ => [u]

/-- A unit of the roster is being executed, and its call goes as it should. -/
structure Job.Plays (r : Roster) (run : RunState) (ran : List String) (job : Job) (rest : Behavior) :
    Prop where
  mem : job.unitId ∈ r.ids
  name : job.unit.name = r.name job.unitId
  executed : run.executed = r.entries (ran ++ job.stage.ran job.unitId)
  ends : rest.EndsWith r.kept job.unitId (job.stage.Plays r job.unit job.unitId)
    (run.scope.slots job.unitId)

namespace Job.Plays

variable {r : Roster} {s : Scene} {run : RunState} {ran : List String} {job : Job}

theorem begins {unit : FlowUnit} {u : String} (h : unit.Plays r u) (hmem : u ∈ r.ids)
    (hexecuted : run.executed = r.entries ran) (hview : run.view = r.view) (resume : Resume) :
    Job.Plays r { run with scope := run.scope.dropSignals u } ran ⟨u, unit, resume, .before⟩
      (unit.beforeRun (run.view u)) where
  mem := hmem
  name := h.name
  executed := by
    rw [Stage.ran, List.append_nil]
    exact hexecuted
  ends := by
    rw [hview]
    show (unit.beforeRun (r.view u)).EndsWith _ _ _ ((run.scope.dropSignals u).slots u)
    rw [Scope.slots_dropSignals]
    exact h.calls

/-- The unit is executed when it begins to run, and not before. -/
theorem runs (task serial : Nat) (h : job.Plays r s.run ran .done) (hstage : job.stage = .before)
    (hhosts : s.engine.Hosts r) (hids : ∀ u ∈ r.ids, u ∈ r.kept) (hview : s.run.view = r.view) :
    Job.Plays r { (s.announce task serial job .before none).run with
        executed := (s.announce task serial job .before none).run.executed ++
          [(job.unitId, job.unit.name)] } ran { job with stage := .run }
      (job.unit.run ((s.announce task serial job .before none).run.view job.unitId)) where
  mem := h.mem
  name := h.name
  executed := by
    have hexecuted := h.executed
    rw [hstage, Stage.ran, List.append_nil] at hexecuted
    show s.run.executed ++ [(job.unitId, job.unit.name)] = r.entries (ran ++ [job.unitId])
    rw [hexecuted, h.name, Roster.entries, Roster.entries, List.map_append]
    rfl
  ends := by
    have hnext := h.ends
    rw [hstage] at hnext
    show (job.unit.run (s.run.view job.unitId)).EndsWith _ _ _
      ((s.announce task serial job .before none).run.scope.slots _)
    rw [hview, (Scene.hosts_announce hhosts hids task serial job .before none).2 _ (hids _ h.mem)]
    exact hnext

theorem tidies (h : job.Plays r run ran .done) (hstage : job.stage = .run) (hview : run.view = r.view) :
    Job.Plays r run ran { job with stage := .after } (job.unit.afterRun (run.view job.unitId)) where
  mem := h.mem
  name := h.name
  executed := by
    have hexecuted := h.executed
    rw [hstage] at hexecuted
    exact hexecuted
  ends := by
    have hnext := h.ends
    rw [hstage] at hnext
    rw [hview]
    exact hnext

/-- At its end, the unit has left its signal, and the listeners have not touched it. -/
theorem carries (task serial : Nat) (h : job.Plays r s.run ran .done) (hstage : job.stage = .after)
    (hhosts : s.engine.Hosts r) (hids : ∀ u ∈ r.ids, u ∈ r.kept) :
    (s.announce task serial job .after none).run.executed = r.entries (ran ++ [job.unitId]) ∧
      Slots.Carry (r.signal job.unitId)
        ((s.announce task serial job .after none).run.scope.slots job.unitId) := by
  have hexecuted := h.executed
  have hcarry := h.ends
  rw [hstage] at hexecuted hcarry
  refine ⟨hexecuted, ?_⟩
  rw [(Scene.hosts_announce hhosts hids task serial job .after none).2 _ (hids _ h.mem)]
  exact hcarry

end Job.Plays

/-- What a walk is busy with is what it does next, and with `n` steps to go before that, this is a bound
on the steps. -/
def Activity.Plays (r : Roster) (run : RunState) (next : Intent) (ran : List String) (n effort : Nat) :
    Activity → Prop
  | .poised intent => intent = next ∧ run.executed = r.entries ran ∧ effort = 5 * n
  | .working job rest | .asleep job _ rest => next = .execute job.unitId job.resume ∧
    job.Plays r run ran rest ∧ effort + 5 = 5 * n + job.stage.pace
  | .queued .. | .calling .. | .inPlace .. | .forking .. => False

/-- The run of a plan will end up at `last` with `all` executed, and in no more steps than `effort`. -/
structure Scene.Goes (r : Roster) (p : Plan) (last : Walk) (all : List String) (effort : Nat)
    (s : Scene) : Prop where
  plan : s.walk.plan = p
  single : s.walk.pooled = false
  hosts : s.engine.Hosts r
  view : s.run.view = r.view
  activity : ∃ n next ran, s.walk.EndsUp r n next ran last all ∧
    (∀ u resume, next = .execute u resume → u ∈ r.kept) ∧ s.activity.Plays r s.run next ran n effort

namespace Scene

variable {r : Roster} {p : Plan} {last : Walk} {all : List String} {effort : Nat} {task serial : Nat}
  {s s' : Scene}

theorem hasRun_eq {run : RunState} {ran : List String} (h : run.executed = r.entries ran) :
    run.hasRun = ran.contains := by
  funext u
  rw [RunState.hasRun, h, Roster.entries, List.any_map, List.contains_eq_any_beq]
  refine congrArg (ran.any ·) (funext fun v => ?_)
  show decide (v = u) = (u == v)
  rw [Bool.eq_iff_iff, decide_eq_true_iff, beq_iff_eq, eq_comm]

theorem goes_turn {t : Turn} {n : Nat} {ran : List String} (ht : t.Goes r p last all n ran)
    (hhosts : s.engine.Hosts r) (hview : s.run.view = r.view) (hexecuted : s.run.executed = r.entries ran) :
    (s.turn t).Goes r p last all (5 * n) :=
  ⟨ht.plan, ht.single, hhosts, hview, n, t.next, ran, ht.ends, ht.kept, rfl, hexecuted, rfl⟩

/-- While a unit that the walk has to execute goes on as it should, the run is on its way. -/
theorem Goes.goes_working {job : Job} {rest : Behavior} {n : Nat} {ran : List String} {run : RunState}
    {e : Engine} (h : s.Goes r p last all effort) (hplays : job.Plays r run ran rest)
    (hends : s.walk.EndsUp r n (.execute job.unitId job.resume) ran last all) (hhosts : e.Hosts r)
    (hview : run.view = r.view) (hids : ∀ u ∈ r.ids, u ∈ r.kept) {less : Nat}
    (hless : less + 5 = 5 * n + job.stage.pace) :
    Goes r p last all less ⟨s.walk, .working job rest, run, e⟩ :=
  ⟨h.plan, h.single, hhosts, hview, n, _, ran, hends, fun u resume heq => by
    cases heq
    exact hids _ hplays.mem, rfl, hplays, hless⟩

/-- A run keeps on its way with every step, and comes further on it. -/
theorem Goes.steps (h : s.Goes r p last all effort) (hserial : p.IsSerial)
    (hcovers : r.Covers p.sequence) (hsteps : s.Steps task serial s') :
    ∃ less, s'.Goes r p last all less ∧
      Descends (less, s'.activity.calls) (effort, s.activity.calls) := by
  obtain ⟨rfl, hsingle, hhosts, hview, n, next, ran, hends, hkept, hplays⟩ := id h
  cases hsteps with
  | advance hact =>
    rw [hact] at hplays ⊢
    obtain ⟨rfl, hexecuted, rfl⟩ := hplays
    obtain ⟨m, hlt, hturn⟩ := hends.advance hserial hcovers hsingle s.run.scope
    rw [hasRun_eq hexecuted]
    exact ⟨5 * m, goes_turn hturn hhosts hview hexecuted, .left _ _ (by omega)⟩
  | @missing u resume hact hunit =>
    rw [hact] at hplays ⊢
    obtain ⟨rfl, hexecuted, rfl⟩ := hplays
    have hnot : u ∉ r.ids := fun hmem => by
      obtain ⟨unit, hsome, -⟩ := hhosts.units u hmem
      cases hunit.symm.trans hsome
    obtain ⟨hpos, hturn⟩ :=
      hends.unitMissing hnot hsingle s.run.scope s.run.hasRun s.run.context.tolerant
    exact ⟨0, goes_turn hturn (hhosts.of_eq rfl rfl) hview hexecuted, .left _ _ (by omega)⟩
  | @begins u unit resume pool hact hunit hpool =>
    rw [hact] at hplays ⊢
    obtain ⟨rfl, hexecuted, rfl⟩ := hplays
    have hmem : u ∈ r.ids := by_contra fun hnot => by
      cases hunit.symm.trans (hhosts.others u (hkept u resume rfl) hnot)
    obtain ⟨unit', hunit', hunitPlays⟩ := hhosts.units u hmem
    obtain rfl : unit = unit' := Option.some.inj (hunit.symm.trans hunit')
    have hpos := hends.pos_of_execute
    have hless : 5 * n - 1 + 5 = 5 * n + Stage.before.pace := by
      simp only [Stage.pace]
      omega
    have hjob := Job.Plays.begins hunitPlays hmem hexecuted hview resume
    have hhosts : (Engine.record { s.engine with pool := pool } task serial (.unitStarted u)).Hosts r :=
      hhosts.of_eq rfl rfl
    exact ⟨5 * n - 1, h.goes_working hjob hends hhosts hview hcovers.ids hless, .left _ _ (by omega)⟩
  | @does job behavior rest run e hact hdoes =>
    rw [hact] at hplays ⊢
    obtain ⟨rfl, hjob, heffort⟩ := hplays
    obtain ⟨hrest, hnext, hexecuted, hview', hunits, hlisteners⟩ := hdoes.endsWith hjob.ends
    have hhosts' : e.Hosts r := hhosts.congr hunits hcovers.ids (hlisteners ▸ hhosts.quiet)
    refine ⟨effort, h.goes_working ⟨hjob.mem, hjob.name, hexecuted.trans hjob.executed, hrest⟩
      hends hhosts' (hview'.trans hview) hcovers.ids heffort, .right _ ?_⟩
    exact Relation.cutExpand_singleton_singleton (.left _ _ hnext)
  | @sleeps job milliseconds rest hact =>
    rw [hact] at hplays ⊢
    obtain ⟨rfl, hjob, heffort⟩ := hplays
    -- a unit that sleeps has come further, but not as far as one that has woken up
    refine ⟨effort, ⟨rfl, hsingle, hhosts, hview, n, _, ran, hends, hkept, rfl,
      ⟨hjob.mem, hjob.name, hjob.executed, hjob.ends⟩, heffort⟩, .right _ ?_⟩
    exact Relation.cutExpand_singleton_singleton (.left _ _ (.sleep milliseconds rest))
  | @wakes job wakeAt rest hact hclock =>
    rw [hact] at hplays ⊢
    obtain ⟨rfl, hjob, heffort⟩ := hplays
    refine ⟨effort, h.goes_working hjob hends hhosts hview hcovers.ids heffort, .right _ ?_⟩
    exact Relation.cutExpand_singleton_singleton (.right _ (by decide))
  | @runs job hact hstage =>
    rw [hact] at hplays ⊢
    obtain ⟨rfl, hjob, heffort⟩ := hplays
    rw [hstage, Stage.pace] at heffort
    have hless : effort - 1 + 5 = 5 * n + Stage.run.pace := by
      simp only [Stage.pace]
      omega
    have hjob := hjob.runs task serial hstage hhosts hcovers.ids hview
    have hhosts := (hosts_announce hhosts hcovers.ids task serial job .before none).1
    exact ⟨effort - 1, h.goes_working hjob hends hhosts hview hcovers.ids hless, .left _ _ (by omega)⟩
  | @tidies job hact hstage =>
    rw [hact] at hplays ⊢
    obtain ⟨rfl, hjob, heffort⟩ := hplays
    rw [hstage, Stage.pace] at heffort
    have hless : effort - 1 + 5 = 5 * n + Stage.after.pace := by
      simp only [Stage.pace]
      omega
    have hjob := hjob.tidies hstage hview
    exact ⟨effort - 1, h.goes_working hjob hends hhosts hview hcovers.ids hless, .left _ _ (by omega)⟩
  | @ends job hact hstage =>
    rw [hact] at hplays ⊢
    obtain ⟨rfl, hjob, heffort⟩ := hplays
    rw [hstage, Stage.pace] at heffort
    let told := s.announce task serial job .after none
    have hhosts' : told.engine.Hosts r :=
      (hosts_announce hhosts hcovers.ids task serial job .after none).1
    obtain ⟨hexecuted, hcarry⟩ := hjob.carries task serial hstage hhosts hcovers.ids
    obtain ⟨m, rfl, hturn⟩ := hends.unitDone hjob.mem hserial hcovers hsingle hcarry
      told.run.context.tolerant
    rw [← hasRun_eq hexecuted] at hturn
    rw [endUnit_eq]
    exact ⟨5 * m, goes_turn hturn (hhosts'.of_eq rfl rfl) hview hexecuted, .left _ _ (by omega)⟩
  | fails hact hfails hstage =>
    rw [hact] at hplays
    exact (hfails.not_endsWith hplays.2.1.ends).elim
  | gaveUp hact hover hstage =>
    rw [hact] at hplays
    have hnext := hplays.2.1.ends
    rw [hstage] at hnext
    rcases hover with rfl | ⟨cause, hfails⟩
    · exact hnext.elim
    · exact (hfails.not_endsWith hnext).elim
  | queues hact hunit hpooled => exact absurd (hsingle.symm.trans hpooled) Bool.false_ne_true
  | opens hact =>
    rw [hact] at hplays
    exact hplays.2.1.ends.elim
  | granted hact | starts hact | refuses hact | joins hact =>
    rw [hact] at hplays
    exact hplays.elim
  | forksNone hact | forksOne hact | forks hact =>
    rw [hact] at hplays
    obtain ⟨rfl, -⟩ := hplays
    cases hends

/-- A run on its way that has not finished has something to do, after some time perhaps. -/
theorem Goes.exists_stepHere (h : s.Goes r p last all effort)
    (hrunning : s.activity ≠ .poised .finish) (task serial : Nat) : s.activity.serials = [] ∧
      ∃ milliseconds,
        (stepHere { s with engine := s.engine.after milliseconds } task serial).isSome = true := by
  obtain ⟨-, -, -, -, n, next, ran, hends, -, hplays⟩ := h
  obtain ⟨walk, activity, run, engine⟩ := s
  cases activity with
  | poised next =>
    refine ⟨rfl, 0, isSome_stepHere (s := ⟨walk, .poised next, run, engine.after 0⟩) ?_ task serial⟩
    exact fun heq => hrunning (congrArg Activity.poised heq)
  | working job rest => exact ⟨rfl, 0, rfl⟩
  | asleep job wakeAt rest =>
    have hclock : wakeAt ≤ (engine.after wakeAt).clock := Nat.le_add_left ..
    exact ⟨rfl, wakeAt, by simp [stepHere, hclock]⟩
  | queued | calling | inPlace | forking => exact hplays.elim

end Scene

/-- The only run of an executor is on its way. -/
structure Executor.Goes (r : Roster) (p : Plan) (last : Walk) (all : List String) (x : Executor)
    (state : RunState) (root : Process) (effort : Nat) : Prop where
  runs : x.runs = [⟨state, root⟩]
  scene : Scene.Goes r p last all effort ⟨root.walk, root.activity, state, x.engine⟩

namespace Executor.Goes

variable {r : Roster} {p : Plan} {last : Walk} {all : List String} {x y : Executor} {state : RunState}
  {root : Process} {effort : Nat}

/-- Time alone settles nothing. -/
theorem wait (h : x.Goes r p last all state root effort) (milliseconds : Nat) :
    (x.wait milliseconds).Goes r p last all state root effort where
  runs := h.runs
  scene := ⟨h.scene.plan, h.scene.single, h.scene.hosts.of_eq rfl rfl, h.scene.view, h.scene.activity⟩

theorem step {who : Nat} (h : x.Goes r p last all state root effort) (hserial : p.IsSerial)
    (hcovers : r.Covers p.sequence) (hstep : x.step who = some y) :
    ∃ state' root' less, y.Goes r p last all state' root' less ∧
      Descends (less, root'.calls) (effort, root.calls) := by
  rw [Executor.step, h.runs, Executor.stepRuns, Option.map_eq_some_iff] at hstep
  obtain ⟨⟨runs, engine⟩, hruns, rfl⟩ := hstep
  split at hruns
  · next root' state' engine' hroot =>
    cases hruns
    obtain ⟨site, hmoves⟩ := Process.moves_of_step hroot
    have hplays := h.scene.activity
    cases hmoves with
    | here hsteps =>
      obtain ⟨less, hgoes, hdescends⟩ := h.scene.steps hserial hcovers hsteps
      exact ⟨_, _, less, ⟨rfl, hgoes⟩, hdescends⟩
    | called | returned | inPlace | inPlaceEnded | child | childEnded =>
      -- the root runs no flow and forks nothing
      obtain ⟨_, _, _, _, _, hplays⟩ := hplays
      exact hplays.elim
  · cases hruns

/-- Whatever is scheduled, the run comes to an end. -/
theorem acc (h : x.Goes r p last all state root effort) (hserial : p.IsSerial)
    (hcovers : r.Covers p.sequence) : Acc (fun later earlier => Executor.Moves earlier later) x := by
  -- by induction on the way down, for all states that are so far up
  generalize hmeasure : (effort, root.calls) = measure
  induction measure using wellFounded_descends.induction generalizing x state root effort with
  | _ measure ih =>
    refine ⟨_, fun y hy => ?_⟩
    obtain ⟨milliseconds, who, hstep⟩ := hy
    obtain ⟨state', root', less, hgoes, hdescends⟩ := (h.wait milliseconds).step hserial hcovers hstep
    rw [hmeasure] at hdescends
    exact ih _ hdescends hgoes rfl

theorem moves (h : x.Goes r p last all state root effort) (hserial : p.IsSerial)
    (hcovers : r.Covers p.sequence) (hmoves : Relation.ReflTransGen Executor.Moves x y) :
    ∃ state' root' less, y.Goes r p last all state' root' less := by
  induction hmoves with
  | refl => exact ⟨state, root, effort, h⟩
  | tail _ hmove ih =>
    obtain ⟨state', root', less, hgoes⟩ := ih
    obtain ⟨milliseconds, who, hstep⟩ := hmove
    obtain ⟨state'', root'', less', hgoes', -⟩ := (hgoes.wait milliseconds).step hserial hcovers hstep
    exact ⟨state'', root'', less', hgoes'⟩

/-- Where nothing moves any more, the run has come to where it was going. -/
theorem result (h : x.Goes r p last all state root effort) (hstuck : ∀ y, ¬ x.Moves y) :
    root.isFinished = true ∧ root.walk = last ∧ state.executed = r.entries all := by
  obtain ⟨serial, walk, activity⟩ := root
  have hfinish : activity = .poised .finish := by
    by_contra hrunning
    obtain ⟨hserials, milliseconds, hhere⟩ := h.scene.exists_stepHere hrunning serial serial
    have hnodup : (serial :: activity.serials).Nodup := by
      rw [show activity.serials = [] from hserials]
      exact List.nodup_singleton serial
    have hsome := Process.At.isSome_step (p := .mk serial walk activity) (e := (x.wait milliseconds).engine)
      .here hnodup hhere
    obtain ⟨⟨root', state', engine'⟩, hroot⟩ := Option.isSome_iff_exists.mp hsome
    have hstep : (x.wait milliseconds).step serial =
        some { x.wait milliseconds with runs := [⟨state', root'⟩], engine := engine' } := by
      rw [Executor.step, (h.wait milliseconds).runs, Executor.stepRuns]
      simp only [Process.serial, hroot]
      rfl
    exact hstuck _ ⟨milliseconds, serial, hstep⟩
  subst hfinish
  obtain ⟨n, next, ran, hends, -, rfl, hexecuted, -⟩ := h.scene.activity
  cases hends
  exact ⟨rfl, rfl, hexecuted⟩

end Executor.Goes

/-! ## From the launch on -/

/-- An executor that is free for a run in this context, and that hosts the units of a roster. -/
structure Executor.Offers (r : Roster) (context : Context) (x : Executor) : Prop where
  runs : x.runs = []
  isOpen : x.engine.isClosed = false
  hosts : x.engine.Hosts r
  view : ∀ u, r.view u = ⟨u, context.requestId, context.tolerant⟩

theorem Executor.Offers.goes_launch {r : Roster} {context : Context} {x : Executor} {p : Plan} {n : Nat}
    {last : Walk} {all : List String} (h : x.Offers r context)
    (hends : Walk.EndsUp r n { plan := p, pooled := false } .advance [] last all) :
    ∃ start state root effort, x.launch (.plan p) context = (none, start) ∧
      start.Goes r p last all state root effort := by
  have hopen : x.engine.takeScope.2.isClosed = false := h.isOpen
  refine ⟨{ x with
    engine := x.engine.takeScope.2.takeSerial.2
    runs := [⟨{ context := context, scopeId := x.engine.nextScope },
      .ofPlan x.engine.nextSerial p false⟩] }, _, _, 5 * n, ?_, rfl, rfl, rfl,
    h.hosts.of_eq rfl rfl, funext fun u => (h.view u).symm, n, .advance, [], hends, nofun, rfl, rfl, rfl⟩
  unfold Executor.launch Engine.openRun Engine.openPlan
  simp only [hopen, h.runs]
  rfl

/-- The run is over. It has passed over the arms that the signals of its routers do not name, and over
nothing else. -/
structure Run.Settles (r : Roster) (run : Run) : Prop where
  finished : run.root.isFinished = true
  settled : run.root.walk.Settled r run.root.walk.position

/-- Another run has executed the same units, perhaps in another order. It has come as far in the plan,
skips the same arms, and ends in the same way. -/
structure Run.Permutes (run run' : Run) : Prop where
  executed : run'.state.executed.Perm run.state.executed
  position : run'.root.walk.position = run.root.walk.position
  skipped : run'.root.walk.skipped = run.root.walk.skipped
  failure : run'.root.walk.failure = run.root.walk.failure
  status : run'.root.status = run.root.status

theorem Run.permutes_of_mind {r : Roster} {run run' : Run} {all all' : List String}
    {e : Table String Early} (hwalk : run'.root.walk = run.root.walk.mind e)
    (hexecuted : run.state.executed = r.entries all) (hexecuted' : run'.state.executed = r.entries all')
    (hall : all'.Perm all) : run.Permutes run' where
  executed := by
    rw [hexecuted, hexecuted']
    exact hall.map _
  position := by
    rw [hwalk]
    rfl
  skipped := by
    rw [hwalk]
    rfl
  failure := by
    rw [hwalk]
    rfl
  status := by
    unfold Process.status
    rw [hwalk]
    rfl

namespace Executor

variable {r : Roster} {x y start : Executor} {p : Plan} {last : Walk} {all : List String}
  {state : RunState} {root : Process} {effort : Nat}

/-- At the end of every schedule, the run is where it was going, with its routers settled. -/
theorem Goes.ends (h : start.Goes r p last all state root effort) (hserial : p.IsSerial)
    (hcovers : r.Covers p.sequence) (hsettled : last.Settled r last.position)
    (hmoves : Relation.ReflTransGen Moves start y) (hstuck : ∀ z, ¬ y.Moves z) :
    ∃ run, y.runs = [run] ∧ run.Settles r ∧ run.root.walk = last ∧
      run.state.executed = r.entries all := by
  obtain ⟨state', root', effort', h'⟩ := h.moves hserial hcovers hmoves
  obtain ⟨hfinished, hwalk, hexecuted⟩ := h'.result hstuck
  refine ⟨⟨state', root'⟩, h'.runs, ⟨hfinished, ?_⟩, hwalk, hexecuted⟩
  show root'.walk.Settled r root'.walk.position
  rw [hwalk]
  exact hsettled

theorem reaches_follow (x : Executor) (moves : List Nat) :
    Relation.ReflTransGen Executor.Moves x (x.follow (moves.map .step)).2 := by
  induction moves generalizing x with
  | nil => exact .refl
  | cons who rest ih =>
    rw [List.map_cons, follow]
    rcases hmove : x.move (.step who) with _ | y
    · exact ih x
    · exact (ih y).head ⟨0, who, hmove⟩

/-- When all runs are over, nothing moves any more. -/
theorem not_moves_of_isFinished (hfinished : ∀ run ∈ x.runs, run.root.isFinished = true)
    (y : Executor) : ¬ x.Moves y := by
  rintro ⟨milliseconds, who, hstep⟩
  obtain ⟨before, run, after, root, state, e', hruns, hroot, -⟩ := exists_step hstep
  have hmem : run ∈ x.runs := by
    rw [show x.runs = before ++ run :: after from hruns]
    simp
  obtain ⟨site, hmoves⟩ := Process.moves_of_step hroot
  exact Process.not_moves_of_isFinished (hfinished run hmem) hmoves

end Executor

/-! ## Executors with the units of a roster -/

/-- What a unit does that leaves its signal, and nothing else. -/
def Roster.work (r : Roster) (u : String) : Behavior :=
  match r.signal u with
  | none => .done
  | some target => .signalRoute target .done

theorem Roster.plays_work {r : Roster} {u : String} (hname : r.name u = u) :
    (FlowUnit.doing u (r.work u)).Plays r u where
  name := hname.symm
  calls := by
    show (r.work u).EndsWith r.kept u (Slots.Carry (r.signal u)) .clear
    unfold Roster.work
    split
    · next hsignal =>
      rw [hsignal]
      exact ⟨rfl, rfl⟩
    · next target hsignal =>
      rw [hsignal]
      exact ⟨rfl, rfl⟩

theorem Registry.unit?_foldl_doing (work : String → Behavior) (ids : List String) (registry : Registry)
    (u : String) :
    ((ids.map fun v => (v, work v)).foldl (fun r v => r.addUnit v.1 (.doing v.1 v.2)) registry).unit? u =
      if u ∈ ids then some (.doing u (work u)) else registry.unit? u := by
  induction ids generalizing registry with
  | nil => rfl
  | cons v rest ih =>
    rw [List.map_cons, List.foldl_cons, ih]
    by_cases hrest : u ∈ rest
    · simp [hrest]
    · by_cases heq : v = u
      · subst heq
        simp [hrest, Registry.unit?, Registry.addUnit]
      · simp [hrest, heq, Ne.symm heq, Registry.unit?, Registry.addUnit, Table.get?_insert]

/-- An executor with such units is there for every roster whose units bear their ids as names. -/
theorem Executor.offers_doing {r : Roster} {context : Context} (hname : ∀ u, r.name u = u)
    (hview : ∀ u, r.view u = ⟨u, context.requestId, context.tolerant⟩) :
    (Executor.doing (r.ids.map fun u => (u, r.work u))).Offers r context where
  runs := rfl
  isOpen := rfl
  hosts := {
    units := fun u hu => ⟨.doing u (r.work u),
      (Registry.unit?_foldl_doing r.work r.ids {} u).trans (if_pos hu), Roster.plays_work (hname u)⟩
    others := fun u _ hnot => (Registry.unit?_foldl_doing r.work r.ids {} u).trans (if_neg hnot)
    quiet := by rintro _ ⟨⟩ }
  view := hview

/-! ## Jumping ahead -/

theorem Roster.Covers.reroute {r : Roster} {leaves : List String} {t : String} (h : r.Covers leaves)
    (ht : t ∈ r.ids) (hstop : t ≠ stopValue) (a : String) : (r.reroute a t).Covers leaves where
  ids := h.ids
  leaves := h.leaves
  targets u target hsignal := by
    by_cases heq : u = a
    · subst heq
      rw [Roster.signal_reroute_self] at hsignal
      cases hsignal
      exact .inr ht
    · rw [r.signal_reroute_of_ne a t heq] at hsignal
      exact h.targets u target hsignal
  unstopped u := by
    by_cases heq : u = a
    · subst heq
      rw [Roster.signal_reroute_self]
      exact fun hsignal => hstop (Option.some.inj hsignal)
    · rw [r.signal_reroute_of_ne a t heq]
      exact h.unstopped u

/-- At its start, a walk has nothing in mind of any unit. -/
theorem Walk.alike_start (r r' : Roster) (p : Plan) :
    Walk.Alike r r' { plan := p, pooled := false } ∅ :=
  fun _ _ => .inl ⟨rfl, rfl⟩

theorem Walk.settled_start (r : Roster) (p : Plan) :
    Walk.Settled r { plan := p, pooled := false } 0 where
  all _ _ hi := absurd hi (Nat.not_lt_zero _)
  only _ hspan := by cases hspan

/-- Both evaluations of a flow, that of a roster and that of the roster with a unit that routes. -/
theorem Walk.exists_endsUp_reroute {r : Roster} {p : Plan} {a t : String} (hserial : p.IsSerial)
    (hquiet : r.signal a = none) (hplain : ∀ i, p.unitAt? i = some a → p.choiceAt? i = none)
    (hlabel : Label.ofText? t = none) :
    ∃ n last all n' last' all',
      Walk.EndsUp r n { plan := p, pooled := false } .advance [] last all ∧
      Walk.EndsUp (r.reroute a t) n' { plan := p, pooled := false } .advance [] last' all' ∧
      (t ∈ all → ∃ e, last' = last.mind e ∧ all'.Perm all) := by
  obtain ⟨n, last, all, hends⟩ := Walk.exists_endsUp (Walk.alike_start r r p) []
  by_cases hall : t ∈ all
  · obtain ⟨n', e, all', hends', hperm⟩ := hends.reroute hquiet hlabel hserial.distinct hplain hall
      (Walk.alike_start r (r.reroute a t) p) fun u hu => absurd rfl hu
    exact ⟨n, last, all, n', _, all', hends, hends', fun _ => ⟨e, rfl, hperm⟩⟩
  · obtain ⟨n', last', all', hends'⟩ :=
      Walk.exists_endsUp (Walk.alike_start (r.reroute a t) (r.reroute a t) p) []
    exact ⟨n, last, all, n', last', all', hends, hends', fun h => absurd h hall⟩

/-- Take any expression without groups whose units are distinct, and units that succeed and leave fixed
signals: a label, the id of a registered unit, or none. Let `a` be a unit that is no router and leaves no
signal, and let it route to a unit `t` instead that is not called like a label or the stop value. Both
runs can be launched, come to an end in every schedule, and route by the labels that their routers have
left, wherever these were executed. And if the first run has executed `t`, the other one has executed the
same units in some order, takes the same arms, and has the same status. -/
theorem Executor.jumps_forward {text a t : String} {node : Node}
    (hparse : Expression.parse text = .ok node) (hserial : node.isSerial = true)
    (hnodup : node.leaves.Nodup) {x y : Executor} {r : Roster}
    (hcovers : r.Covers node.leaves) (hquiet : r.signal a = none)
    (hplain : ∀ p i, node.compile? = some p → p.unitAt? i = some a → p.choiceAt? i = none)
    (ht : t ∈ r.ids) (hlabel : Label.ofText? t = none) (hstop : t ≠ stopValue) {context : Context}
    (hx : x.Offers r context) (hy : y.Offers (r.reroute a t) context) :
    ∃ plan start start', node.compile? = some plan ∧
      x.launch (.plan plan) context = (none, start) ∧ y.launch (.plan plan) context = (none, start') ∧
      Acc (fun later earlier => Executor.Moves earlier later) start ∧
      Acc (fun later earlier => Executor.Moves earlier later) start' ∧
      ∀ last last', Relation.ReflTransGen Executor.Moves start last → (∀ z, ¬ last.Moves z) →
        Relation.ReflTransGen Executor.Moves start' last' → (∀ z, ¬ last'.Moves z) →
        ∃ run run', last.runs = [run] ∧ last'.runs = [run'] ∧ run.Settles r ∧
          run'.Settles (r.reroute a t) ∧ (run.state.hasRun t = true → run.Permutes run') := by
  have hnormal := Expression.isNormal_of_parse hparse
  obtain ⟨plan, hplan⟩ : ∃ plan, node.compile? = some plan := by
    obtain ⟨l, groups, hplan, -⟩ := hnormal.exists_compile
    exact ⟨l.plan, hplan⟩
  have hserial := hnormal.isSerial_of_compile hserial hnodup hplan
  rw [← hnormal.sequence_of_compile hplan] at hcovers
  have hcovers' := hcovers.reroute ht hstop a
  -- where the two walks end up is settled by their rosters, before anything has moved
  obtain ⟨n, last, all, n', last', all', hends, hends', hsame⟩ :=
    Walk.exists_endsUp_reroute hserial hquiet (fun i => hplain plan i hplan) hlabel
  obtain ⟨start, state, root, effort, hlaunch, hgoes⟩ := hx.goes_launch hends
  obtain ⟨start', state', root', effort', hlaunch', hgoes'⟩ := hy.goes_launch hends'
  refine ⟨plan, start, start', hplan, hlaunch, hlaunch', hgoes.acc hserial hcovers,
    hgoes'.acc hserial hcovers', fun z z' hmoves hstuck hmoves' hstuck' => ?_⟩
  -- whatever the schedule, each of the runs ends up there
  obtain ⟨run, hrun, hsettles, hwalk, hexecuted⟩ :=
    hgoes.ends hserial hcovers (hends.settled (Walk.settled_start r plan)) hmoves hstuck
  obtain ⟨run', hrun', hsettles', hwalk', hexecuted'⟩ :=
    hgoes'.ends hserial hcovers' (hends'.settled (Walk.settled_start _ plan)) hmoves' hstuck'
  refine ⟨run, run', hrun, hrun', hsettles, hsettles', fun hran => ?_⟩
  rw [Scene.hasRun_eq hexecuted, List.contains_iff_mem] at hran
  obtain ⟨e, rfl, hperm⟩ := hsame hran
  rw [← hwalk] at hwalk'
  exact Run.permutes_of_mind hwalk' hexecuted hexecuted' hperm

/-- The unit `r` of a flow chooses between `x` and `y`, and leaves the label `true`. -/
def Roster.choosing : Roster where
  kept := ["a", "b", "r", "x", "y"]
  ids := ["a", "b", "r", "x", "y"]
  name := id
  signal := fun u => if u = "r" then some "true" else none
  view := fun u => ⟨u, none, false⟩

theorem Roster.covers_choosing : Roster.choosing.Covers ["a", "b", "r", "x", "y"] where
  ids _ hu := hu
  leaves _ hu := hu
  targets u target hsignal := by
    have hsignal : (if u = "r" then some "true" else none) = some target := hsignal
    split at hsignal
    · cases hsignal
      exact .inl (by decide)
    · cases hsignal
  unstopped u hsignal := by
    have hsignal : (if u = "r" then some "true" else none) = some stopValue := hsignal
    split at hsignal <;> simp [stopValue] at hsignal

/-- The first unit routes to a router further on, which is executed ahead of the unit between them. At
its position it still routes into the arm for its label. -/
theorem Executor.jumps_forward_to_router : ∃ plan last last' run run',
    Node.compile? (.sequence [.unit "a", .unit "b",
        .conditional (.unit "r") (.unit "x") (.unit "y")]) = some plan ∧
      last.runs = [run] ∧ last'.runs = [run'] ∧
      Relation.ReflTransGen Executor.Moves ((Executor.doing [("a", .done), ("b", .done),
        ("r", .signalRoute "true" .done), ("x", .done), ("y", .done)]).launch (.plan plan) {}).2 last ∧
      Relation.ReflTransGen Executor.Moves ((Executor.doing [("a", .signalRoute "r" .done), ("b", .done),
        ("r", .signalRoute "true" .done), ("x", .done), ("y", .done)]).launch (.plan plan) {}).2 last' ∧
      run.state.unitNames = ["a", "b", "r", "x"] ∧ run'.state.unitNames = ["a", "r", "b", "x"] ∧
      run.Permutes run' ∧ run'.Settles (Roster.choosing.reroute "a" "r") ∧
      run'.root.status = .completed := by
  let node : Node := .sequence [.unit "a", .unit "b", .conditional (.unit "r") (.unit "x") (.unit "y")]
  let plan := node.compile?.getD {}
  let x := Executor.doing (Roster.choosing.ids.map fun u => (u, Roster.choosing.work u))
  let y := Executor.doing ((Roster.choosing.reroute "a" "r").ids.map fun u =>
    (u, (Roster.choosing.reroute "a" "r").work u))
  let last := (((x.launch (.plan plan) {}).2).follow ((List.replicate 30 0).map .step)).2
  let last' := (((y.launch (.plan plan) {}).2).follow ((List.replicate 30 0).map .step)).2
  have hparse : Expression.parse "a -> b -> r ? x : y" = .ok node := by decide +kernel
  have hplain : ∀ p i, node.compile? = some p → p.unitAt? i = some "a" → p.choiceAt? i = none := by
    rintro p i hp hunit
    obtain rfl : plan = p := Option.some.inj hp
    obtain ⟨hlt, hget⟩ := List.getElem?_eq_some_iff.mp hunit
    have hall : ∀ i < 5, plan.unitAt? i = some "a" → plan.choiceAt? i = none := by decide +kernel
    exact hall i hlt hunit
  have hx : x.Offers .choosing {} := Executor.offers_doing (fun _ => rfl) fun _ => rfl
  have hy : y.Offers (Roster.choosing.reroute "a" "r") {} :=
    Executor.offers_doing (fun _ => rfl) fun _ => rfl
  -- what the two schedules lead to is computed
  obtain ⟨hfinished, hran, hunits⟩ : (∀ run ∈ last.runs, run.root.isFinished = true) ∧
      (∀ run ∈ last.runs, run.state.hasRun "r" = true) ∧
      ∀ run ∈ last.runs, run.state.unitNames = ["a", "b", "r", "x"] := by decide +kernel
  obtain ⟨hfinished', hunits'⟩ : (∀ run ∈ last'.runs, run.root.isFinished = true) ∧
      ∀ run ∈ last'.runs,
        run.state.unitNames = ["a", "r", "b", "x"] ∧ run.root.status = .completed := by
    decide +kernel
  obtain ⟨plan', start, start', hplan, hlaunch, hlaunch', -, -, hends⟩ :=
    Executor.jumps_forward hparse rfl (by decide) Roster.covers_choosing rfl hplain (t := "r") (by decide)
      (by decide) (by decide) hx hy
  obtain rfl : plan = plan' := Option.some.inj hplan
  obtain rfl : (x.launch (.plan plan) {}).2 = start := congrArg Prod.snd hlaunch
  obtain rfl : (y.launch (.plan plan) {}).2 = start' := congrArg Prod.snd hlaunch'
  have hmoves := Executor.reaches_follow (x.launch (.plan plan) {}).2 (List.replicate 30 0)
  have hmoves' := Executor.reaches_follow (y.launch (.plan plan) {}).2 (List.replicate 30 0)
  obtain ⟨run, run', hrun, hrun', -, hsettles', hpermutes⟩ := hends last last' hmoves
    (Executor.not_moves_of_isFinished hfinished) hmoves' (Executor.not_moves_of_isFinished hfinished')
  have hmem : run ∈ last.runs := hrun ▸ List.mem_singleton_self run
  have hmem' : run' ∈ last'.runs := hrun' ▸ List.mem_singleton_self run'
  exact ⟨plan, last, last', run, run', hplan, hrun, hrun', hmoves, hmoves', hunits run hmem,
    (hunits' run' hmem').1, hpermutes (hran run hmem), hsettles', (hunits' run' hmem').2⟩

end Workflow
