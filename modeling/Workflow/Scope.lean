import Workflow.Table

/-!
# Scopes

A scope holds the data of one run under text keys. Units share it, also across branches. Besides
the data of the units it holds the signals by which units and engine speak to each other, each under
a key of its own:

* `routeSlot u`: where unit `u` wants the walk to go, a label, a unit id or the stop signal;
* `forkSlot u`: the units that unit `u` wants to be forked after it;
* `completedSlot`: the entries of the branches that the last group to join has completed.

A value is read back only at the type it was stored at; `take` leaves a value of another type where
it is.
-/

namespace Workflow

inductive Value where
  | integer (value : Int)
  | text (value : String)
  | flag (value : Bool)
  | texts (value : List String)
  | natural (value : Nat)
  deriving Repr, DecidableEq

inductive Value.Kind where
  | integer
  | text
  | flag
  | texts
  | natural
  deriving Repr, DecidableEq

def Value.kind : Value → Value.Kind
  | .integer _ => .integer
  | .text _ => .text
  | .flag _ => .flag
  | .texts _ => .texts
  | .natural _ => .natural

abbrev Scope := Table String Value

/-- The routing value that ends a walk. -/
def stopValue : String := "__STOP__"

namespace Scope

/-- The key of the routing signal of a unit. -/
def routeSlot (unitId : String) : String := "__routing_target__:" ++ unitId

/-- The key of the fork signal of a unit. -/
def forkSlot (unitId : String) : String := "__fork_branches__:" ++ unitId

/-- The key of the branches completed by the last group to join. -/
def completedSlot : String := "__completed_branches__"

/-- The value under a key, if it has the given type. -/
def read (s : Scope) (key : String) (kind : Value.Kind) : Option Value :=
  (s.get? key).filter fun value => value.kind = kind

/-- Reads a value and takes it out. -/
def take (s : Scope) (key : String) (kind : Value.Kind) : Option Value × Scope :=
  match s.read key kind with
  | some value => (some value, s.erase key)
  | none => (none, s)

def signalRoute (s : Scope) (unitId target : String) : Scope :=
  s.insert (routeSlot unitId) (.text target)

def signalFork (s : Scope) (unitId : String) (entries : List String) : Scope :=
  s.insert (forkSlot unitId) (.texts entries)

def takeRoute (s : Scope) (unitId : String) : Option String × Scope :=
  match s.get? (routeSlot unitId) with
  | some (.text target) => (some target, s.erase (routeSlot unitId))
  | _ => (none, s)

def takeFork (s : Scope) (unitId : String) : Option (List String) × Scope :=
  match s.get? (forkSlot unitId) with
  | some (.texts entries) => (some entries, s.erase (forkSlot unitId))
  | _ => (none, s)

/-- Drops the signals of a unit, of whatever type they are. -/
def dropSignals (s : Scope) (unitId : String) : Scope :=
  (s.erase (routeSlot unitId)).erase (forkSlot unitId)

/-- Publishes the entries of the branches that a group has completed. -/
def publish (s : Scope) (entries : List String) : Scope :=
  s.insert completedSlot (.texts entries)

/-- The entries published last. -/
def completed (s : Scope) : List String :=
  match s.get? completedSlot with
  | some (.texts entries) => entries
  | _ => []

end Scope

end Workflow
