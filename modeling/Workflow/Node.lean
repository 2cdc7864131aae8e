/-!
# Nodes

A node is what a flow expression means: a unit to run, steps in order, a choice made by the last
unit of a condition, or branches that run at the same time. Nodes are built by the reader of
expressions or by hand; a hand-built one may nest steps in steps, have a group of one branch, or be
empty in part.

`Node.ofSteps` is the constructor that keeps sequences flat. `Node.leaves` lists the unit names in
reading order, and `Node.isEmpty` tells the nodes that can contribute no unit because nothing but
empty sequences and groups is in them.
-/

namespace Workflow

/-- A flow as a tree. -/
inductive Node where
  | unit (name : String)
  /-- Steps run one after another. -/
  | sequence (steps : List Node)
  /-- The last unit of `condition` chooses between the other two. -/
  | conditional (condition whenTrue whenFalse : Node)
  /-- Branches run at the same time and are joined before the next step. -/
  | parallel (branches : List Node)
  deriving Repr, Inhabited

namespace Node

/-! ## Equality -/

mutual

def decEq : (a b : Node) → Decidable (a = b)
  | .unit m, .unit n =>
    if h : m = n then isTrue (by rw [h]) else isFalse (by simp [h])
  | .sequence xs, .sequence ys =>
    match decEqList xs ys with
    | isTrue h => isTrue (by rw [h])
    | isFalse h => isFalse (by simp [h])
  | .conditional c t f, .conditional c' t' f' =>
    match decEq c c', decEq t t', decEq f f' with
    | isTrue hc, isTrue ht, isTrue hf => isTrue (by rw [hc, ht, hf])
    | isFalse h, _, _ => isFalse (by simp [h])
    | _, isFalse h, _ => isFalse (by simp [h])
    | _, _, isFalse h => isFalse (by simp [h])
  | .parallel xs, .parallel ys =>
    match decEqList xs ys with
    | isTrue h => isTrue (by rw [h])
    | isFalse h => isFalse (by simp [h])
  | .unit _, .sequence _ | .unit _, .conditional .. | .unit _, .parallel _
  | .sequence _, .unit _ | .sequence _, .conditional .. | .sequence _, .parallel _
  | .conditional .., .unit _ | .conditional .., .sequence _ | .conditional .., .parallel _
  | .parallel _, .unit _ | .parallel _, .sequence _ | .parallel _, .conditional .. =>
    isFalse (by simp)

def decEqList : (xs ys : List Node) → Decidable (xs = ys)
  | [], [] => isTrue rfl
  | x :: xs, y :: ys =>
    match decEq x y, decEqList xs ys with
    | isTrue h, isTrue hs => isTrue (by rw [h, hs])
    | isFalse h, _ => isFalse (by simp [h])
    | _, isFalse h => isFalse (by simp [h])
  | [], _ :: _ | _ :: _, [] => isFalse (by simp)

end

instance : DecidableEq Node := decEq

/-! ## Building sequences -/

/-- The steps that a node contributes to a sequence around it. -/
def steps : Node → List Node
  | .sequence steps => steps
  | node => [node]

/-- The sequence of the given steps: a step that is itself a sequence gives its own steps, and a
single step stands for itself. -/
def ofSteps (steps : List Node) : Node :=
  match steps.flatMap Node.steps with
  | [step] => step
  | flat => .sequence flat

/-! ## Leaves and emptiness -/

mutual

/-- The unit names in reading order, one per occurrence. -/
def leaves : Node → List String
  | .unit name => [name]
  | .sequence steps => leavesOf steps
  | .conditional condition whenTrue whenFalse =>
    condition.leaves ++ whenTrue.leaves ++ whenFalse.leaves
  | .parallel branches => leavesOf branches

def leavesOf : List Node → List String
  | [] => []
  | node :: rest => node.leaves ++ leavesOf rest

end

mutual

/-- Whether a node is made of nothing but empty sequences and groups. A conditional never is, also
when its three parts are. -/
def isEmpty : Node → Bool
  | .unit _ => false
  | .sequence steps => areEmpty steps
  | .conditional .. => false
  | .parallel branches => areEmpty branches

def areEmpty : List Node → Bool
  | [] => true
  | node :: rest => node.isEmpty && areEmpty rest

end

theorem leavesOf_eq_flatMap (nodes : List Node) : leavesOf nodes = nodes.flatMap leaves := by
  induction nodes with
  | nil => rfl
  | cons node rest ih => simp [leavesOf, ih]

theorem areEmpty_eq_all (nodes : List Node) : areEmpty nodes = nodes.all isEmpty := by
  induction nodes with
  | nil => rfl
  | cons node rest ih => simp [areEmpty, ih]

end Node

end Workflow
