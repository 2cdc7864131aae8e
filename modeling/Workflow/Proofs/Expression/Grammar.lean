import Workflow.Expression.Token
import Workflow.Node

/-!
# The grammar of expressions

The context-free grammar of the language, as the types of its derivation trees:

```text
program     := statement (";"? statement)* ";"?
statement   := ID "=" flow | flow
flow        := conditional ("->" conditional)*
conditional := term ("?" conditional ":" conditional)?
term        := ID | "(" flow ")" | "(" flow ("," flow)+ ")"
```

A tree says two things. `tokens` is the sentence that it derives. `node` is what it means when the
names stand for the nodes that `resolve` gives: a name is looked up, and a flow is one sequence,
into which the sequences among its steps are spliced. `Program.meaning` goes through the statements in
order: an assignment changes what its name stands for from there on, and the last bare flow counts.

Nothing in here knows how a text is read.
-/

namespace Workflow.Expression.Grammar

mutual

/-- `conditional ("->" conditional)*` -/
inductive Flow where
  | mk (first : Conditional) (later : List Conditional)

/-- `term ("?" conditional ":" conditional)?` -/
inductive Conditional where
  | plain (term : Term)
  | choice (condition : Term) (whenTrue whenFalse : Conditional)

/-- `ID | "(" flow ")" | "(" flow ("," flow)+ ")"` -/
inductive Term where
  | name (text : String)
  | brackets (inner : Flow)
  | group (first second : Flow) (later : List Flow)

end

/-! ## Sentences -/

mutual

def Flow.tokens : Flow → List Token
  | .mk first later => first.tokens ++ stepTokens later

def stepTokens : List Conditional → List Token
  | [] => []
  | step :: rest => .arrow :: (step.tokens ++ stepTokens rest)

def Conditional.tokens : Conditional → List Token
  | .plain term => term.tokens
  | .choice condition whenTrue whenFalse =>
    condition.tokens ++ .question :: (whenTrue.tokens ++ .colon :: whenFalse.tokens)

def Term.tokens : Term → List Token
  | .name text => [.name text]
  | .brackets inner => .leftParen :: (inner.tokens ++ [.rightParen])
  | .group first second later =>
    .leftParen ::
      (first.tokens ++ .comma :: (second.tokens ++ (branchTokens later ++ [.rightParen])))

def branchTokens : List Flow → List Token
  | [] => []
  | branch :: rest => .comma :: (branch.tokens ++ branchTokens rest)

end

/-! ## Meaning -/

section Meaning

variable (resolve : String → Node)

mutual

def Flow.node : Flow → Node
  | .mk first later => .ofSteps (first.node :: stepNodes later)

def stepNodes : List Conditional → List Node
  | [] => []
  | step :: rest => step.node :: stepNodes rest

def Conditional.node : Conditional → Node
  | .plain term => term.node
  | .choice condition whenTrue whenFalse =>
    .conditional condition.node whenTrue.node whenFalse.node

def Term.node : Term → Node
  | .name text => resolve text
  | .brackets inner => inner.node
  | .group first second later => .parallel (first.node :: second.node :: branchNodes later)

def branchNodes : List Flow → List Node
  | [] => []
  | branch :: rest => branch.node :: branchNodes rest

end

end Meaning

/-! ## Programs -/

/-- `ID "=" flow | flow` -/
inductive Statement where
  | assign (name : String) (body : Flow)
  | bare (flow : Flow)

def Statement.tokens : Statement → List Token
  | .assign name body => .name name :: .equals :: body.tokens
  | .bare flow => flow.tokens

def semicolonTokens (present : Bool) : List Token := if present then [.semicolon] else []

/-- `statement (";"? statement)* ";"?`. Every later statement says whether a semicolon precedes
it. -/
structure Program where
  first : Statement
  later : List (Bool × Statement)
  closed : Bool

def laterTokens : List (Bool × Statement) → List Token
  | [] => []
  | (separated, statement) :: rest =>
    semicolonTokens separated ++ (statement.tokens ++ laterTokens rest)

def Program.tokens (p : Program) : List Token :=
  p.first.tokens ++ (laterTokens p.later ++ semicolonTokens p.closed)

def Program.statements (p : Program) : List Statement := p.first :: p.later.map Prod.snd

/-- What names stand for after `name` was assigned `node`. -/
def assigned (resolve : String → Node) (name : String) (node : Node) : String → Node :=
  fun other => if other = name then node else resolve other

/-- The node of the last bare flow among some statements, or `last` if there is none. -/
def meaningFrom (resolve : String → Node) (last : Option Node) : List Statement → Option Node
  | [] => last
  | .assign name body :: rest =>
    meaningFrom (assigned resolve name (body.node resolve)) last rest
  | .bare flow :: rest => meaningFrom resolve (some (flow.node resolve)) rest

/-- The node of a program: that of its last bare flow, if it has one. A name that no statement has
assigned is a unit. -/
def Program.meaning (p : Program) : Option Node := meaningFrom .unit none p.statements

/-! ## No stray tokens -/

mutual

theorem Flow.stray_not_mem (c : Char) : ∀ tree : Flow, .stray c ∉ tree.tokens
  | .mk first later => by
    simp [Flow.tokens, first.stray_not_mem c, stray_not_mem_stepTokens c later]

theorem stray_not_mem_stepTokens (c : Char) : ∀ trees, .stray c ∉ stepTokens trees
  | [] => by simp [stepTokens]
  | step :: rest => by
    simp [stepTokens, step.stray_not_mem c, stray_not_mem_stepTokens c rest]

theorem Conditional.stray_not_mem (c : Char) : ∀ tree : Conditional, .stray c ∉ tree.tokens
  | .plain term => term.stray_not_mem c
  | .choice condition whenTrue whenFalse => by
    simp [Conditional.tokens, condition.stray_not_mem c, whenTrue.stray_not_mem c,
      whenFalse.stray_not_mem c]

theorem Term.stray_not_mem (c : Char) : ∀ tree : Term, .stray c ∉ tree.tokens
  | .name text => by simp [Term.tokens]
  | .brackets inner => by simp [Term.tokens, inner.stray_not_mem c]
  | .group first second later => by
    simp [Term.tokens, first.stray_not_mem c, second.stray_not_mem c,
      stray_not_mem_branchTokens c later]

theorem stray_not_mem_branchTokens (c : Char) : ∀ trees, .stray c ∉ branchTokens trees
  | [] => by simp [branchTokens]
  | branch :: rest => by
    simp [branchTokens, branch.stray_not_mem c, stray_not_mem_branchTokens c rest]

end

theorem Statement.stray_not_mem (c : Char) (s : Statement) : .stray c ∉ s.tokens := by
  cases s with
  | assign name body => simp [Statement.tokens, body.stray_not_mem c]
  | bare flow => exact flow.stray_not_mem c

theorem stray_not_mem_semicolonTokens (c : Char) (present : Bool) :
    .stray c ∉ semicolonTokens present := by
  cases present <;> simp [semicolonTokens]

theorem stray_not_mem_laterTokens (c : Char) (later : List (Bool × Statement)) :
    .stray c ∉ laterTokens later := by
  induction later with
  | nil => simp [laterTokens]
  | cons entry rest ih =>
    simp [laterTokens, stray_not_mem_semicolonTokens, entry.2.stray_not_mem c, ih]

theorem Program.stray_not_mem (c : Char) (p : Program) : .stray c ∉ p.tokens := by
  simp [Program.tokens, p.first.stray_not_mem c, stray_not_mem_laterTokens,
    stray_not_mem_semicolonTokens]

end Workflow.Expression.Grammar
