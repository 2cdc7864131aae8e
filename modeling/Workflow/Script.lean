import Workflow.Failure.Debug
import Workflow.Listeners
import Workflow.Reply

/-!
# Scripts

A script is a list of actions. Scripted units and listeners do what their scripts say, and leave a
remark in the journal for every call and for the answer of every action that has one. A failing
action ends the call.

Where branches run at the same time, the order in which they complete is the scheduler's. Under
`Order.byTask` an answer that would show it is sorted.
-/

namespace Workflow

/-- Whether lists whose order is the scheduler's are shown as they are or sorted. -/
inductive Order where
  | asHappened
  | byTask
  deriving Repr, DecidableEq

def sortTexts (texts : List String) : List String := texts.mergeSort fun a b => !(decide (b < a))

/-- Shows a list whose order is the scheduler's. -/
def Order.arrange (order : Order) (texts : List String) : List String :=
  match order with
  | .asHappened => texts
  | .byTask => sortTexts texts

/-! ## Actions on a scope -/

inductive ScopeAction where
  | set (key : String) (value : Value)
  | read (key : String) (kind : Value.Kind)
  | take (key : String) (kind : Value.Kind)
  | remove (key : String)
  | contains (key : String)
  | keys
  | size
  | isEmpty
  | clear
  | completed
  /-- Adds to the integer under a key, which counts as 0 when there is none. -/
  | add (key : String) (amount : Int)
  deriving Repr, DecidableEq

namespace ScopeAction

/-- The sum of two integers of 64 bits, which wraps around. -/
def sum64 (a b : Int) : Int := (a + b).bmod UInt64.size

/-- The integer that an addition starts from. -/
def baseOf (key : String) (s : Scope) : Int :=
  match s.get? key with
  | some (.integer value) => value
  | _ => 0

def change (a : ScopeAction) (s : Scope) : Scope :=
  match a with
  | .set key value => s.insert key value
  | .take key kind => (s.take key kind).2
  | .remove key => s.erase key
  | .clear => ∅
  | .add key amount => s.insert key (.integer (sum64 (baseOf key s) amount))
  | .read .. | .contains _ | .keys | .size | .isEmpty | .completed => s

/-- The answer of an action in a scope. -/
def reply (order : Order) (a : ScopeAction) (s : Scope) : Reply :=
  match a with
  | .set .. | .clear => .nothing
  | .read key kind | .take key kind => .ofOption ((s.read key kind).map .ofValue)
  | .remove key | .contains key => .flag (s.contains key)
  | .keys => .texts s.keys
  | .size => .number s.size
  | .isEmpty => .flag s.isEmpty
  | .completed => .texts (order.arrange s.completed)
  | .add key amount => .number (sum64 (baseOf key s) amount)

/-- Whether the answer of an action is worth a remark. -/
def isRemarked : ScopeAction → Bool
  | .set .. | .clear => false
  | _ => true

def performAll (order : Order) : List ScopeAction → Scope → List Reply × Scope
  | [], s => ([], s)
  | a :: rest, s =>
    let (replies, last) := performAll order rest (a.change s)
    (a.reply order s :: replies, last)

end ScopeAction

/-! ## Scripted units -/

/-- Which calls a scripted unit answers, and which of its settings count. -/
inductive ScriptStyle where
  | full
  /-- Its work alone. -/
  | workOnly
  /-- Its work alone, and it has nothing but a name. -/
  | minimal
  deriving Repr, DecidableEq

/-- A scripted unit whose scripts are made of given actions. -/
structure ScriptedUnitWith (Action : Type) where
  name : String
  /-- The id to register the unit under, if it is not the name. -/
  unitId : Option String := none
  kind : Option String := none
  tolerant : Bool := false
  style : ScriptStyle := .full
  beforeRun : List Action := []
  run : List Action := []
  afterRun : List Action := []
  onError : List Action := []
  deriving Inhabited

inductive Action where
  | scope (action : ScopeAction)
  | route (target : String)
  | fork (entries : List String)
  | fail (cause : Cause)
  | panic (payload : Option String)
  | delay (milliseconds : Nat)
  | push (text : String)
  | context
  /-- Does the first script if the scope holds this integer under the key, else the second. -/
  | when (key : String) (value : Int) (thenDo elseDo : List Action)
  | viewPool
  | closePool
  | addUnit (unit : ScriptedUnitWith Action)
  | addFlow (flowId expression : String)
  | eraseUnit (unitId : String)
  | runFlow (flowId : String)
  /-- Shows what the unit sees of its run. -/
  | debug

abbrev ScriptedUnit := ScriptedUnitWith Action

def ScriptedUnitWith.registeredId {Action : Type} (u : ScriptedUnitWith Action) : String :=
  u.unitId.getD u.name

def remarkReply (unitId : String) (reply : String) (next : Behavior) : Behavior :=
  .note ("log:" ++ unitId ++ ":" ++ reply) next

/-- What a unit sees of its run, as one text. Scope ids differ between runs and are not shown. -/
def UnitView.display (v : UnitView) : String :=
  debugRecord "UnitContext" [("unit_id", Text.Quoted.debug v.unitId), ("scope_id", "N"),
    ("request_id", debugOption (v.requestId.map toString))]

def ScopeAction.behavior (order : Order) (view : UnitView) (a : ScopeAction) (next : Behavior) :
    Behavior :=
  .access a.change fun before =>
    if a.isRemarked then remarkReply view.unitId (a.reply order before).compact next else next

mutual

def ScriptedUnit.toUnit (order : Order) (u : ScriptedUnit) : FlowUnit :=
  match u with
  | ⟨name, _, kind, tolerant, style, beforeRun, run, afterRun, onError⟩ =>
    let traced (phase : String) (view : UnitView) (body : Behavior) : Behavior :=
      .note (phase ++ ":" ++ view.unitId) body
    -- the other calls are only traced when the unit has them
    let others := style = .full
    { name := name
      kind := if style = .minimal then name else kind.getD name
      tolerant := tolerant && style ≠ .minimal
      beforeRun := fun view =>
        if others then traced "before" view (Action.behaviors order view beforeRun .done)
        else .done
      run := fun view => traced "run" view (Action.behaviors order view run .done)
      afterRun := fun view =>
        if others then traced "after" view (Action.behaviors order view afterRun .done)
        else .done
      onError := fun view failure =>
        if others then
          .note ("error:" ++ view.unitId ++ ":" ++ failure.message)
            (Action.behaviors order view onError .done)
        else .done }

/-- An action as a behaviour that goes on with another. -/
def Action.behavior (order : Order) (view : UnitView) (action : Action) (next : Behavior) :
    Behavior :=
  match action with
  | .scope action => action.behavior order view next
  | .route target => .signalRoute target next
  | .fork entries => .signalFork entries next
  | .fail cause => .fail cause
  | .panic payload => .panic payload
  | .delay milliseconds => .sleep milliseconds next
  | .push text =>
    .payload (· ++ [text]) fun before =>
      if before.isSome then next else remarkReply view.unitId "no payload" next
  | .context =>
    remarkReply view.unitId
      (Reply.list [.ofOption (view.requestId.map (.number ·)),
        .flag view.tolerant]).compact next
  | .when key value thenDo elseDo =>
    .access id fun scope =>
      if scope.get? key = some (.integer value) then Action.behaviors order view thenDo next
      else Action.behaviors order view elseDo next
  | .viewPool =>
    .viewPool fun pool =>
      remarkReply view.unitId (Reply.list [.number pool.size, .number pool.available,
        .number pool.inFlight, .flag pool.closed]).compact next
  | .closePool =>
    .closePool fun drained =>
      remarkReply view.unitId (if drained then Reply.flag true else .nothing).compact next
  | .addUnit unit =>
    .addUnit unit.registeredId (ScriptedUnit.toUnit order unit) next
  | .addFlow flowId expression => .addFlow flowId expression next
  | .eraseUnit unitId => .eraseUnit unitId next
  | .runFlow flowId =>
    .runFlow flowId fun summary =>
      remarkReply view.unitId
        (Reply.list [.text summary.status.text, .texts summary.executed]).compact next
  | .debug => remarkReply view.unitId view.display next

def Action.behaviors (order : Order) (view : UnitView) (actions : List Action) (next : Behavior) :
    Behavior :=
  match actions with
  | [] => next
  | action :: rest => action.behavior order view (Action.behaviors order view rest next)

end

/-! ## Scripted listeners -/

inductive ListenerAction where
  | scope (action : ScopeAction)
  | panic
  | listen (tag : String) (moment : Moment) (audience : Audience) (priority : Int)
      (script : List ListenerAction)
  | clearListeners

/-- A scripted listener and what it is registered for. -/
structure ScriptedListener where
  tag : String
  moment : Moment
  audience : Audience := .any
  priority : Int := 0
  script : List ListenerAction := []
  deriving Inhabited

/-- The remark that a scripted listener leaves about an event. -/
def Notice.remark (e : Notice) (tag : String) : String :=
  "listener:" ++ tag ++ ":" ++ e.moment.text ++ ":" ++ e.unitId ++ ":" ++
    (Reply.list [.text e.kind, .ofOption (e.requestId.map (.number ·)),
      .ofOption (e.failure.map (.text ·.message))]).compact

mutual

/-- An action of a listener as a reaction that goes on with another. -/
def ListenerAction.reaction (action : ListenerAction) (next : Reaction) : Reaction :=
  match action with
  | .scope action => .access action.change fun _ => next
  | .panic => .panic
  | .listen tag moment audience priority script =>
    .listen moment audience priority
      (fun event => .note (event.remark tag) (ListenerAction.reactions script .done)) next
  | .clearListeners => .clearListeners next

def ListenerAction.reactions (actions : List ListenerAction) (next : Reaction) : Reaction :=
  match actions with
  | [] => next
  | action :: rest => action.reaction (ListenerAction.reactions rest next)

end

def Listeners.registerScripted (l : Listeners) (s : ScriptedListener) : Listeners :=
  l.register s.moment s.audience s.priority fun event =>
    .note (event.remark s.tag) (ListenerAction.reactions s.script .done)

end Workflow
