import Workflow.Table

/-!
# Plans

A plan is the form in which a flow is run: the unit ids of the flow in reading order, and the places
among their positions at which a run does more than go on to the next position. A *choice* stands at
the position of a unit that routes a walk into one of two arms; a *group* stands at the first
position of branches that run at the same time, each of which carries a plan of its own.

Choices and groups are kept by position, which is exact also when an id occurs more than once. The
tables `targets` and `entries` are the view by id: of two choices of one router, or two groups with
one anchor, they show the one laid out last.

A group is entered after its *anchor*. When no unit stands directly before the group on every way to
it, the anchor is virtual: a name that is no position of the plan.
-/

namespace Workflow

/-- Positions from `start` up to and without `stop`. -/
structure Span where
  start : Nat
  stop : Nat
  deriving Repr, DecidableEq

namespace Span

def contains (s : Span) (position : Nat) : Bool := s.start ≤ position && position < s.stop

theorem contains_iff {s : Span} {position : Nat} :
    s.contains position = true ↔ s.start ≤ position ∧ position < s.stop := by
  simp [contains]

end Span

/-- The label of an arm: the outcome of the condition under which it is walked. -/
abbrev Label := Bool

/-- How a routing value spells a label. -/
def Label.text (label : Label) : String := if label then "true" else "false"

def Label.ofText? (text : String) : Option Label :=
  if text = Label.text true then some true
  else if text = Label.text false then some false
  else none

/-- One arm of a conditional: its first unit and its positions. -/
structure Arm where
  target : String
  span : Span
  deriving Repr, DecidableEq

/-- A unit that routes and the arms it chooses between. -/
structure Choice where
  router : String
  arms : Table Label Arm
  deriving Repr, DecidableEq

/-- One branch of a group: the id it begins with and the plan it walks. -/
structure Branch (Plan : Type) where
  entry : String
  plan : Plan

/-- A parallel group and the positions its branches take. -/
structure Group (Plan : Type) where
  anchor : String
  /-- The position of the anchor, if it is a unit. -/
  anchorAt : Option Nat
  span : Span
  branches : List (Branch Plan)

/-- The form in which a flow is run. -/
structure Plan where
  sequence : List String := []
  /-- By router: the first unit of each arm. -/
  targets : Table String (Table Label String) := ∅
  /-- By anchor: the first unit of each branch. -/
  entries : Table String (List String) := ∅
  /-- By position of the router. -/
  choices : Table Nat Choice := ∅
  /-- By first position of the group. -/
  groups : Table Nat (Group Plan) := ∅

/-- What the name of a virtual anchor begins with. -/
def Anchor.stem : String := "__fork__#"

/-- The virtual anchor with a number. Number 0 is the anchor of a group that opens its plan. -/
def Anchor.virtual (number : Nat) : String := Anchor.stem ++ toString number

def Anchor.isVirtual (anchor : String) : Bool :=
  Anchor.stem.toList.isPrefixOf anchor.toList

namespace Plan

def ofUnit (unitId : String) : Plan := { sequence := [unitId] }

def length (p : Plan) : Nat := p.sequence.length

def isEmpty (p : Plan) : Bool := p.sequence.isEmpty

def unitAt? (p : Plan) (position : Nat) : Option String := p.sequence[position]?

def choiceAt? (p : Plan) (position : Nat) : Option Choice := p.choices.get? position

/-- The group that begins at a position. -/
def groupAt? (p : Plan) (position : Nat) : Option (Group Plan) := p.groups.get? position

/-- The group whose anchor is the unit at a position. -/
def groupAfter? (p : Plan) (position : Nat) : Option (Group Plan) :=
  (p.groupAt? (position + 1)).filter fun group => group.anchorAt = some position

/-- The first unit of each arm that a router chooses between. -/
def targetsOf? (p : Plan) (router : String) : Option (Table Label String) :=
  p.targets.get? router

/-- The first unit of each branch forked after an anchor. -/
def entriesOf? (p : Plan) (anchor : String) : Option (List String) := p.entries.get? anchor

end Plan

def Branch.ofUnit (unitId : String) : Branch Plan := ⟨unitId, .ofUnit unitId⟩

namespace Plan

/-! ## Plans as text -/

def bracketList (elements : List String) : String := "[" ++ ", ".intercalate elements ++ "]"

/-- A plan in one line: the sequence, then the routers and the anchors in ascending order. -/
def display (p : Plan) : String :=
  let arms (targets : Table Label String) : String :=
    "\x7b" ++ ", ".intercalate (targets.entries.map fun (label, target) =>
      label.text ++ ":" ++ target) ++ "\x7d"
  "sequence=" ++ bracketList p.sequence ++
    String.join (p.targets.entries.map fun (router, targets) =>
      " route[" ++ router ++ "]=" ++ arms targets) ++
    String.join (p.entries.entries.map fun (anchor, entries) =>
      " fork[" ++ anchor ++ "]=" ++ bracketList entries)

instance : ToString Plan := ⟨display⟩

end Plan

end Workflow
