import Workflow.Failure
import Workflow.Plan
import Workflow.Scope

/-!
# Walks

A walk goes through the positions of a plan. At a position it skips (an arm that was not chosen, a
group whose anchor failed, a unit that has run already), forks (a group with a virtual anchor), or
executes the unit. After a unit it looks at the signals that the unit left: the stop signal first,
then forks, then routing.

A walk does nothing by itself but decide. `Walk.advance` is the decision at the walk's position;
`Walk.unitDone` and `Walk.forkDone` are the decisions when what the walk asked for has ended. Each
answers with a `Turn`: the walk, the scope after signals were taken from it, and what comes next. A
request carries a `Resume`, which says where in the decision the answer to it belongs.

The position of a walk never goes back. A unit that the walk is routed to out of order does not move
the position: when the walk would reach that unit later, what it left is kept in `early` until
then, so that its route and its fork apply at its own position.
-/

namespace Workflow

/-- What a unit left that ran before the walk reached its position. -/
inductive Early where
  /-- It ran as a branch of a fork; a routing signal of it is still in the scope. -/
  | forked
  /-- It was routed to and succeeded; its signals wait here for its position. -/
  | routed (route : Option String) (fork : Option (List String))
  | failed
  deriving Repr, DecidableEq

/-- The state of a walk through one plan. -/
structure Walk where
  plan : Plan
  /-- Whether the units of the walk need permits of the pool. -/
  pooled : Bool
  position : Nat := 0
  skipped : List Span := []
  /-- Units that ran before their position was reached. -/
  early : Table String Early := ∅
  failure : Option Failure := none
  stopped : Bool := false

/-- Where the answer to a request belongs. -/
inductive Resume where
  /-- The unit at the position of the walk. -/
  | unit
  /-- A unit that is all there is to run. -/
  | alone
  /-- A unit that was routed to; `reached` tells whether the walk will reach it later. -/
  | detour (unitId : String) (reached : Bool)
  /-- The group that ends before position `stop`. -/
  | group (stop : Nat)
  /-- A fork chosen by the unit at the position, which also left this routing signal. -/
  | scattered (entries : List String) (signal : Option String)
  /-- A fork chosen by a unit that was routed to. -/
  | detourFork
  deriving Repr, DecidableEq

/-- What a walk does next. -/
inductive Intent where
  | advance
  | execute (unitId : String) (resume : Resume)
  /-- Forks branches after an anchor. -/
  | fork (anchor : String) (branches : List (Branch Plan)) (resume : Resume)
  | finish

structure Turn where
  walk : Walk
  scope : Scope
  next : Intent

/-- The failure of a unit and whether that unit lets walks go on. -/
structure Mishap where
  failure : Failure
  tolerant : Bool
  deriving Repr, DecidableEq

/-- The label that a routing value selects at a choice: the first label, `false` before `true`, that
it spells or whose arm begins with the unit it names. -/
def Choice.labelFor? (choice : Choice) (target : String) : Option Label :=
  (choice.arms.entries.find? fun (label, arm) => label.text = target || arm.target = target).map
    Prod.fst

namespace Walk

/-! ## Positions -/

/-- The end of a skipped span that holds a position. -/
def skipEnd? (w : Walk) (position : Nat) : Option Nat :=
  (w.skipped.find? fun span => span.contains position).map Span.stop

/-- Whether the walk will come to a unit after a position. -/
def willReach (w : Walk) (position : Nat) (unitId : String) : Bool :=
  (List.range w.plan.length).any fun later =>
    position < later && w.plan.unitAt? later = some unitId && (w.skipEnd? later).isNone

def forward (w : Walk) : Walk := { w with position := w.position + 1 }

/-- Skips all arms but the one with a label. -/
def chooseArm (w : Walk) (choice : Choice) (label : Label) : Walk :=
  { w with
    skipped := w.skipped ++
      (choice.arms.entries.filter fun entry => entry.1 ≠ label).map fun entry => entry.2.span }

def skipArms (w : Walk) (choice : Choice) : Walk :=
  { w with skipped := w.skipped ++ choice.arms.values.map Arm.span }

/-- Takes the `false` arm, if the unit at the position chooses between arms. -/
def fallThrough (w : Walk) : Walk :=
  match w.plan.choiceAt? w.position with
  | some choice => w.chooseArm choice false
  | none => w

/-! ## Failures -/

/-- Keeps a failure, unless there was one before. -/
def addFailure (w : Walk) (failure : Failure) : Walk :=
  { w with failure := w.failure.or (some failure) }

/-- Whether a walk goes on after a unit failed. It never does when the unit was not found. -/
def survivesUnit (tolerant : Bool) (f : Mishap) : Bool :=
  !f.failure.isMissing && (tolerant || f.tolerant)

/-- Whether a walk goes on after a group failed. It never does when a unit was not found in it. -/
def survivesGroup (tolerant : Bool) (failure : Failure) : Bool :=
  tolerant && !failure.origin.isMissing

/-! ## Decisions -/

def finish (w : Walk) (scope : Scope) : Turn := ⟨w, scope, .finish⟩

/-- Ends the walk because a unit asked for it. -/
def stop (w : Walk) (scope : Scope) : Turn := ⟨{ w with stopped := true }, scope, .finish⟩

def proceed (w : Walk) (scope : Scope) : Turn := ⟨w.forward, scope, .advance⟩

/-- Runs the branches of a group, or other units in their place. -/
def forkGroup (w : Walk) (scope : Scope) (group : Group Plan) (branches : List (Branch Plan)) :
    Turn :=
  ⟨w, scope, .fork group.anchor branches (.group group.span.stop)⟩

/-- Executes a unit out of order, unless it has been executed in this run. -/
def detour (w : Walk) (scope : Scope) (hasRun : String → Bool) (target : String) : Turn :=
  if hasRun target then w.proceed scope
  else ⟨w, scope, .execute target (.detour target (w.willReach w.position target))⟩

/-- Applies a routing signal of the unit at the position. -/
def steer (w : Walk) (scope : Scope) (hasRun : String → Bool) (unitId : String)
    (signal : Option String) : Turn :=
  match w.plan.choiceAt? w.position, signal with
  | none, none => w.proceed scope
  | some choice, none => (w.chooseArm choice false).proceed scope
  | choice?, some target =>
    if target = stopValue then w.stop scope
    else
      match choice? with
      | some choice =>
        match choice.labelFor? target with
        | some label => (w.chooseArm choice label).proceed scope
        -- no arm answers to it, so none is walked
        | none => (w.skipArms choice).detour scope hasRun target
      | none =>
        -- the unit may be routing for a walk around this one, which finds the label in the scope
        if (Label.ofText? target).isSome then w.proceed (scope.signalRoute unitId target)
        else w.detour scope hasRun target

/-- Applies the signals of the unit at the position: stop, then fork, then routing. -/
def obey (w : Walk) (scope : Scope) (hasRun : String → Bool) (unitId : String)
    (signal : Option String) (fork : Option (List String)) : Turn :=
  if signal = some stopValue then w.stop scope
  else
    -- an empty fork signal counts as none
    match fork.filter (· ≠ []), w.plan.groupAfter? w.position with
    | some entries, some group => w.forkGroup scope group (entries.map Branch.ofUnit)
    | none, some group => w.forkGroup scope group group.branches
    | some entries, none =>
      ⟨w, scope, .fork unitId (entries.map Branch.ofUnit) (.scattered entries signal)⟩
    | none, none => w.steer scope hasRun unitId signal

/-- Decides at the position. -/
def advance (w : Walk) (scope : Scope) (hasRun : String → Bool) : Turn :=
  match w.plan.unitAt? w.position with
  | none => w.finish scope
  | some unitId =>
    match w.skipEnd? w.position, w.plan.groupAt? w.position, w.early.get? unitId with
    | some stop, _, _ => ⟨{ w with position := stop }, scope, .advance⟩
    | none, some group, _ =>
      -- a group that is anchored on a unit is forked right after that unit: to come upon it here
      -- means that the unit has failed
      if group.anchorAt.isSome then ⟨{ w with position := group.span.stop }, scope, .advance⟩
      else w.forkGroup scope group group.branches
    | none, none, some early =>
      let w := { w with early := w.early.erase unitId }
      match early with
      | .failed => w.fallThrough.proceed scope
      | .forked =>
        let (signal, scope) := scope.takeRoute unitId
        w.obey scope hasRun unitId signal none
      | .routed signal fork => w.obey scope hasRun unitId signal fork
    | none, none, none => ⟨w, scope, .execute unitId .unit⟩

/-- Decides after the unit at the position has ended. -/
def ownUnitDone (w : Walk) (scope : Scope) (hasRun : String → Bool) (tolerant : Bool)
    (result : Option Mishap) : Turn :=
  match w.plan.unitAt? w.position with
  | none => w.finish scope
  | some unitId =>
    match result with
    | some f =>
      let w := w.addFailure f.failure
      -- nobody may act on the signals of a failed unit
      if survivesUnit tolerant f then w.fallThrough.proceed (scope.dropSignals unitId)
      else w.finish scope
    | none =>
      let (signal, scope) := scope.takeRoute unitId
      let (fork, scope) := scope.takeFork unitId
      w.obey scope hasRun unitId signal fork

def detourDone (w : Walk) (scope : Scope) (tolerant : Bool) (unitId : String) (reached : Bool)
    (result : Option Mishap) : Turn :=
  match result with
  | some f =>
    let w := w.addFailure f.failure
    let scope := scope.dropSignals unitId
    if survivesUnit tolerant f then
      let w := if reached then { w with early := w.early.insert unitId .failed } else w
      w.proceed scope
    else w.finish scope
  | none =>
    let (signal, scope) := scope.takeRoute unitId
    if signal = some stopValue then w.stop scope
    else
      let (fork, scope) := scope.takeFork unitId
      match reached, fork.filter (· ≠ []) with
      -- both signals wait for the position of the unit
      | true, fork =>
        { w with early := w.early.insert unitId (.routed signal fork) }.proceed scope
      | false, some entries =>
        ⟨w, scope, .fork unitId (entries.map Branch.ofUnit) .detourFork⟩
      | false, none => w.proceed scope

def aloneDone (w : Walk) (scope : Scope) (unitId : String) (result : Option Mishap) : Turn :=
  match result with
  | some f => (w.addFailure f.failure).finish scope
  | none =>
    let (signal, scope) := scope.takeRoute unitId
    if signal = some stopValue then w.stop scope else w.finish scope

def unitDone (w : Walk) (scope : Scope) (hasRun : String → Bool) (tolerant : Bool)
    (unitId : String) (resume : Resume) (result : Option Mishap) : Turn :=
  match resume with
  | .unit => w.ownUnitDone scope hasRun tolerant result
  | .detour _ reached => w.detourDone scope tolerant unitId reached result
  | .alone | .group _ | .scattered .. | .detourFork => w.aloneDone scope unitId result

/-- Decides after a group of the plan has joined. -/
def groupDone (w : Walk) (scope : Scope) (hasRun : String → Bool) (tolerant : Bool) (stop : Nat)
    (result : Option Failure) : Turn :=
  match result with
  | some failure =>
    let w := w.addFailure failure
    if survivesGroup tolerant failure then ⟨{ w with position := stop }, scope, .advance⟩
    else w.finish scope
  | none =>
    -- a router that closes the group has left its signal from inside its branch, and the choice
    -- stands at the last position of the group
    match w.plan.choiceAt? (stop - 1), w.plan.unitAt? (stop - 1) with
    | some _, some router =>
      let (signal, scope) := scope.takeRoute router
      { w with position := stop - 1 }.steer scope hasRun router signal
    | _, _ => ⟨{ w with position := stop }, scope, .advance⟩

/-- Decides after a fork has joined that the unit at the position chose. -/
def scatterDone (w : Walk) (scope : Scope) (hasRun : String → Bool) (tolerant : Bool)
    (entries : List String) (signal : Option String) (result : Option Failure) : Turn :=
  match w.plan.unitAt? w.position with
  | none => w.finish scope
  | some unitId =>
    match result with
    | some failure =>
      let w := w.addFailure failure
      if survivesGroup tolerant failure then w.steer scope hasRun unitId signal
      else w.finish scope
    | none =>
      -- the units of the fork that the walk comes to later have run by then
      let later := w.plan.sequence.drop (w.position + 1)
      let ran := entries.filter later.contains
      let w := { w with
        early := ran.foldl (fun done entry => done.insert entry .forked) w.early }
      w.steer scope hasRun unitId signal

def detourForkDone (w : Walk) (scope : Scope) (tolerant : Bool) (result : Option Failure) : Turn :=
  match result with
  | some failure =>
    let w := w.addFailure failure
    if survivesGroup tolerant failure then w.proceed scope else w.finish scope
  | none => w.proceed scope

def forkDone (w : Walk) (scope : Scope) (hasRun : String → Bool) (tolerant : Bool)
    (resume : Resume) (result : Option Failure) : Turn :=
  match resume with
  | .group stop => w.groupDone scope hasRun tolerant stop result
  | .scattered entries signal => w.scatterDone scope hasRun tolerant entries signal result
  | .detourFork | .unit | .alone | .detour .. => w.detourForkDone scope tolerant result

end Walk

end Workflow
