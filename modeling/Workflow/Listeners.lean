import Workflow.Behavior

/-!
# Listeners

A listener is told about the units of all runs. It is registered for a moment in the life of a unit
and for the units of one kind or of all kinds. Listeners are called in ascending priority, and those
of one priority in the order of their registration.

What a listener does in answer is a `Reaction`. It happens in one go: nothing else runs in between.
Its end, panic or not, changes nothing for the run. A dispatch calls the listeners that were
registered when it began, whatever they register or clear.
-/

namespace Workflow

/-- The moments that listeners are told about. -/
inductive Moment where
  /-- The unit is ready to run. -/
  | before
  | after
  /-- The unit has failed and has been told so. -/
  | error
  deriving Repr, DecidableEq, Inhabited

def Moment.text : Moment → String
  | .before => "Before"
  | .after => "After"
  | .error => "Error"

/-- The units that a listener is told about. -/
inductive Audience where
  | any
  | kind (kind : String)
  deriving Repr, DecidableEq

def Audience.covers : Audience → String → Bool
  | .any, _ => true
  | .kind wanted, actual => wanted = actual

structure Notice where
  moment : Moment
  unitId : String
  kind : String
  requestId : Option Nat
  tolerant : Bool
  /-- The failure, at the moment of an error. -/
  failure : Option Failure
  deriving Repr, DecidableEq

/-- What a listener does. -/
inductive Reaction where
  | done
  | panic
  /-- Changes the scope and goes on according to what it held before. -/
  | access (change : Scope → Scope) (next : Scope → Reaction)
  | note (text : String) (next : Reaction)
  | listen (moment : Moment) (audience : Audience) (priority : Int) (listener : Notice → Reaction)
      (next : Reaction)
  | clearListeners (next : Reaction)

/-- A listener and what it is registered for. -/
structure Subscription where
  moment : Moment
  audience : Audience
  priority : Int
  /-- The rank of the registration among all there ever were. -/
  rank : Nat
  listener : Notice → Reaction

/-- The registered listeners in the order in which they are called. -/
structure Listeners where
  registered : List Subscription := []
  /-- The rank of the next registration. It never falls back, also when all are cleared. -/
  nextRank : Nat := 0

namespace Listeners

/-- Puts the newest registration behind all that are not called later. -/
def place (r : Subscription) : List Subscription → List Subscription
  | [] => [r]
  | other :: rest => if r.priority < other.priority then r :: other :: rest
                     else other :: place r rest

def register (l : Listeners) (moment : Moment) (audience : Audience) (priority : Int)
    (listener : Notice → Reaction) : Listeners :=
  { registered := place ⟨moment, audience, priority, l.nextRank, listener⟩ l.registered
    nextRank := l.nextRank + 1 }

def clear (l : Listeners) : Listeners := { l with registered := [] }

def size (l : Listeners) : Nat := l.registered.length

/-- The listeners that an event is told to, in the order of the calls. -/
def matching (l : Listeners) (event : Notice) : List Subscription :=
  l.registered.filter fun r => r.moment = event.moment && r.audience.covers event.kind

end Listeners

/-- What reactions work on: the listeners, the scope of the run, and the remarks made, in order. -/
structure Reception where
  listeners : Listeners
  scope : Scope
  remarks : List String := []

/-- Carries out a reaction. -/
def Reaction.perform : Reaction → Reception → Reception
  | .done, r => r
  | .panic, r => r
  | .access change next, r => (next r.scope).perform { r with scope := change r.scope }
  | .note text next, r => next.perform { r with remarks := r.remarks ++ [text] }
  | .listen moment audience priority listener next, r =>
    next.perform { r with listeners := r.listeners.register moment audience priority listener }
  | .clearListeners next, r => next.perform { r with listeners := r.listeners.clear }

/-- Tells an event to all listeners registered for it. -/
def Listeners.announce (l : Listeners) (event : Notice) (scope : Scope) : Reception :=
  -- what the reactions register or clear does not count before the next event
  (l.matching event).foldl (fun r registration => (registration.listener event).perform r)
    { listeners := l, scope := scope }

end Workflow
