/-!
# Faults of expressions

A refused expression is reported with the place where reading it got stuck and with what was wanted
there. `Furthest` is the bookkeeping behind that report: among the constructs that failed, those
that failed furthest into the text are kept, and a construct replaces what its own parts reported at
the place where it begins itself, unless exactly one part did.

Positions are byte offsets into the UTF-8 form of the text. Lines end at a line feed only; lines and
columns are counted in characters and from 1.
-/

namespace Workflow.Expression

/-- The constructs of the language that a report can name. -/
inductive Construct where
  | endOfInput
  | name
  | program
  | assignment
  | flow
  | conditional
  | group
  deriving Repr, DecidableEq

namespace Construct

def display : Construct → String
  | .endOfInput => "EOI"
  | .name => "ident"
  | .program => "program"
  | .assignment => "assignment"
  | .flow => "flow"
  | .conditional => "conditional"
  | .group => "group"

/-- All constructs, in the order in which a report lists them. -/
def all : List Construct :=
  [.endOfInput, .name, .program, .assignment, .flow, .conditional, .group]

end Construct

/-- The constructs wanted at the furthest place at which one failed, in the order of failing. -/
structure Furthest where
  position : Nat := 0
  wanted : Array Construct := #[]
  deriving Repr, DecidableEq

namespace Furthest

/-- How many constructs are wanted at a place. -/
def countAt (f : Furthest) (position : Nat) : Nat :=
  if position = f.position then f.wanted.size else 0

/-- Reports that a construct failed that begins at `position`, where `before` constructs were wanted
when it was tried. -/
def refuse (f : Furthest) (construct : Construct) (position before : Nat) : Furthest :=
  -- a single report made there by its parts is more telling than its own
  if f.countAt position = before + 1 then f
  else if position = f.position then
    { f with wanted := (f.wanted.shrink before).push construct }
  else if f.position < position then ⟨position, #[construct]⟩
  else f

end Furthest

inductive Fault where
  | empty
  /-- Assignments alone, so that there is nothing to run. -/
  | noFlow
  /-- None of these constructs stands where one has to. -/
  | expected (constructs : List Construct)
  deriving Repr, DecidableEq

/-- The elements of a list as an enumeration with a closing "or". -/
def alternatives : List String → String
  | [] => ""
  | [a] => a
  | [a, b] => a ++ " or " ++ b
  | parts => ", ".intercalate parts.dropLast ++ ", or " ++ parts.getLastD ""

def Fault.message : Fault → String
  | .empty => "empty flow expression"
  | .noFlow => "expression defines aliases but no flow to execute"
  | .expected constructs =>
    "expected " ++
      alternatives ((Construct.all.filter (constructs.contains ·)).map Construct.display)

/-- A refused expression: its whole text, the place of the fault and the fault. -/
structure Refusal where
  input : String
  position : Nat
  fault : Fault
  deriving Repr, DecidableEq

namespace Refusal

/-- The characters that begin before an offset. -/
def charsBefore (offset : Nat) : List Char → List Char
  | [] => []
  | c :: rest => if offset = 0 then [] else c :: charsBefore (offset - c.utf8Size) rest

def before (e : Refusal) : List Char := charsBefore e.position e.input.toList

def line (e : Refusal) : Nat := 1 + e.before.count '\n'

def column (e : Refusal) : Nat := 1 + (e.before.reverse.takeWhile (· ≠ '\n')).length

/-- The whole report in one line. -/
def message (e : Refusal) : String :=
  s!"Invalid flow expression at line {e.line}, column {e.column}: {e.fault.message}" ++
    s!" (input: '{e.input}')"

end Refusal

end Workflow.Expression
