import Workflow.Node

/-!
# Nodes as text

`Node.display` writes a node in the expression language. Parentheses are written only where the
language needs them: around a sequence that is a step, a condition or an arm, and around a
conditional that is a condition. The branches of a group already stand between parentheses and
commas, so a branch of any kind is written as it is.
-/

namespace Workflow.Node

/-- Whether a node needs parentheses as the condition of a conditional. -/
def bracketedAsCondition : Node → Bool
  | .sequence _ | .conditional .. => true
  | .unit _ | .parallel _ => false

/-- Whether a node needs parentheses as a step of a sequence or as an arm of a conditional. -/
def bracketedAsArm : Node → Bool
  | .sequence _ => true
  | .unit _ | .conditional .. | .parallel _ => false

/-- A text, between parentheses when `brackets` holds. -/
def bracketed (brackets : Bool) (text : String) : String :=
  if brackets then "(" ++ text ++ ")" else text

mutual

/-- The node in the expression language. -/
def display : Node → String
  | .unit name => name
  | .sequence steps => " -> ".intercalate (displaySteps steps)
  | .conditional condition whenTrue whenFalse =>
    bracketed condition.bracketedAsCondition condition.display ++ " ? " ++
      bracketed whenTrue.bracketedAsArm whenTrue.display ++ " : " ++
      bracketed whenFalse.bracketedAsArm whenFalse.display
  | .parallel branches => "(" ++ ", ".intercalate (displayBranches branches) ++ ")"

def displaySteps : List Node → List String
  | [] => []
  | step :: rest => bracketed step.bracketedAsArm step.display :: displaySteps rest

def displayBranches : List Node → List String
  | [] => []
  | branch :: rest => branch.display :: displayBranches rest

end

instance : ToString Node := ⟨display⟩

end Workflow.Node
