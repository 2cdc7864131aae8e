import Workflow.Expression.Parser
import Workflow.Plan.Layout

/-!
# The plan cache

Plans do not change, so an executor keeps one for every expression it has run and shares it among
all runs of flows with that text. Looking an expression up, compiling it and keeping the plan are
three steps. Two callers may both find nothing and compile; the plan that is kept first stays and
both get it. A refused expression leaves no trace.

Every plan that is kept gets a stamp of its own, so that "the very same plan" can be told from "an
equal plan".
-/

namespace Workflow

/-- The plan of an expression. What reading an expression yields always has a plan, so the empty
plan never stands in for one. -/
def Plan.ofExpression (expression : String) : Except Expression.Refusal Plan :=
  match Expression.parse expression with
  | .ok node => .ok (node.compile?.getD {})
  | .error error => .error error

structure Plan.Cached where
  stamp : Nat
  plan : Plan

structure Plan.Cache where
  plans : Table String Plan.Cached := ∅
  nextStamp : Nat := 0

namespace Plan.Cache

def get? (c : Plan.Cache) (expression : String) : Option Plan.Cached := c.plans.get? expression

/-- Keeps a plan, unless one is kept already, and answers the one that is kept now. -/
def keep (c : Plan.Cache) (expression : String) (plan : Plan) : Plan.Cached × Plan.Cache :=
  match c.get? expression with
  | some cached => (cached, c)
  | none =>
    let cached : Plan.Cached := ⟨c.nextStamp, plan⟩
    (cached, ⟨c.plans.insert expression cached, c.nextStamp + 1⟩)

/-- The plan of an expression, which is kept from now on. -/
def obtain (c : Plan.Cache) (expression : String) :
    Except Expression.Refusal Plan.Cached × Plan.Cache :=
  match c.get? expression with
  | some cached => (.ok cached, c)
  | none =>
    match Plan.ofExpression expression with
    -- a refusal is not kept
    | .error error => (.error error, c)
    | .ok plan =>
      let (cached, next) := c.keep expression plan
      (.ok cached, next)

def size (c : Plan.Cache) : Nat := c.plans.size

def clear (c : Plan.Cache) : Plan.Cache := { c with plans := ∅ }

end Plan.Cache

end Workflow
