import Workflow.Node
import Workflow.Plan

/-!
# Laying out plans

`Node.compile?` lays a node out as a plan. Every node appends its units to the sequence in reading
order. A conditional lays out its condition, then the arm for `true`, then the arm for `false`, and
puts a choice at the last position of the condition. A parallel node lays out its branches one after
another, puts a group at its first position, and gives every branch a plan of its own, laid out
afresh.

A group is anchored on the unit directly before it as long as that unit is passed on every way to
the group. `firstAnchor` is the least position for which this holds: it moves up to the start of
each arm and of each branch, and behind every conditional and every group. A group with no such unit
before it gets a virtual anchor: number 0 if it opens the plan, and otherwise the next free number.

A condition without units has nobody to route, so both arms are plain steps. A branch that is empty
is left out, and a group of such branches altogether. The only node without a plan is one with a
branch that is not empty and yet has no unit, which takes a conditional of three empty parts: such a
branch has no first unit to be known by.
-/

namespace Workflow

structure Layout where
  plan : Plan := {}
  /-- The least position that can anchor a group beginning at the end of the sequence. -/
  firstAnchor : Nat := 0
  /-- How many numbered virtual anchors the plan has. -/
  virtualAnchors : Nat := 0

namespace Layout

def size (l : Layout) : Nat := l.plan.sequence.length

def push (l : Layout) (unitId : String) : Layout :=
  { l with plan := { l.plan with sequence := l.plan.sequence ++ [unitId] } }

/-- Forbids the units so far to anchor a group. -/
def closeAnchors (l : Layout) : Layout := { l with firstAnchor := l.size }

/-- The arm laid out since `start`; an arm without units is none. -/
def arm? (l : Layout) (start : Nat) : Option Arm :=
  l.plan.sequence[start]?.map fun target => ⟨target, ⟨start, l.size⟩⟩

def addChoice (l : Layout) (position : Nat) (choice : Choice) : Layout :=
  { l with
    plan := { l.plan with
      targets := l.plan.targets.insert choice.router (choice.arms.map Arm.target)
      choices := l.plan.choices.insert position choice } }

def addGroup (l : Layout) (group : Group Plan) : Layout :=
  { l with
    plan := { l.plan with
      entries := l.plan.entries.insert group.anchor (group.branches.map Branch.entry)
      groups := l.plan.groups.insert group.span.start group } }

/-- The anchor of a group that begins at the end of the sequence: its name, its position if it is a
unit, and the layout with a number taken for it if it needs one. -/
def takeAnchor (l : Layout) : String × Option Nat × Layout :=
  if l.size = 0 then (Anchor.virtual 0, none, l)
  else
    match l.plan.sequence[l.size - 1]?, decide (l.firstAnchor ≤ l.size - 1) with
    | some unitId, true => (unitId, some (l.size - 1), l)
    -- the unit before the end is not passed on every way here
    | _, _ =>
      let number := l.virtualAnchors + 1
      (Anchor.virtual number, none, { l with virtualAnchors := number })

/-- Closes a conditional whose condition ends at `router` and whose arms begin at the given
positions. -/
def closeConditional (l : Layout) (position : Nat) (router : String)
    (whenTrue whenFalse : Option Arm) : Layout :=
  let arms : Table Label Arm :=
    .ofList ((whenTrue.map (true, ·)).toList ++ (whenFalse.map (false, ·)).toList)
  (l.addChoice position ⟨router, arms⟩).closeAnchors

end Layout

namespace Node

mutual

def layOut (node : Node) (l : Layout) : Option Layout :=
  match node with
  | .unit name => some (l.push name)
  | .sequence steps => layOutSteps steps l
  | .conditional condition whenTrue whenFalse => do
    let routed ← condition.layOut l
    match routed.plan.sequence[routed.size - 1]?, decide (l.size < routed.size) with
    -- the condition has units, and the last of them routes
    | some router, true => do
      let chosen ← whenTrue.layOut routed.closeAnchors
      let done ← whenFalse.layOut chosen.closeAnchors
      some (done.closeConditional (routed.size - 1) router
        (chosen.arm? routed.size) (done.arm? chosen.size))
    -- nobody routes: both arms are plain steps
    | _, _ => do
      let first ← whenTrue.layOut routed
      whenFalse.layOut first
  | .parallel branches =>
    if areEmpty branches then some l
    else do
      let (anchor, anchorAt, opened) := l.takeAnchor
      let (done, compiled) ← layOutBranches branches opened
      some (done.addGroup ⟨anchor, anchorAt, ⟨l.size, done.size⟩, compiled⟩).closeAnchors

def layOutSteps (steps : List Node) (l : Layout) : Option Layout :=
  match steps with
  | [] => some l
  | step :: rest => do
    let next ← step.layOut l
    layOutSteps rest next

/-- Appends the branches of a group that are not empty, and lays each out as a plan of its own. -/
def layOutBranches (branches : List Node) (l : Layout) : Option (Layout × List (Branch Plan)) :=
  match branches with
  | [] => some (l, [])
  | branch :: rest =>
    if branch.isEmpty then layOutBranches rest l
    else do
      -- once as a part of this plan, and once as a plan of its own
      let next ← branch.layOut l.closeAnchors
      let entry ← next.plan.sequence[l.size]?
      let own ← branch.layOut {}
      let (done, compiled) ← layOutBranches rest next
      some (done, ⟨entry, own.plan⟩ :: compiled)

end

/-- The plan of a node, unless a branch of it that is not empty has no unit. -/
def compile? (node : Node) : Option Plan := (node.layOut {}).map Layout.plan

end Node

end Workflow
