import Workflow.Expression.Fault
import Workflow.Expression.Token
import Workflow.Node
import Workflow.Table
import Workflow.Text.Blank

/-!
# Reading expressions

The language, loosest binding first:

* a program is one or more statements, with an optional semicolon between two of them and after the
  last;
* a statement is an assignment `name = flow` or a flow;
* a flow is conditionals separated by `->`;
* a conditional is a term, or a term, `?`, a conditional, `:` and a conditional;
* a term is a name, a flow in parentheses, or a group: two or more flows separated by commas, in
  parentheses.

A name that an earlier statement assigned stands for what it was assigned last; every other name is
a unit. The flow that counts is the last one of the program.

Alternatives are tried in order and the first that fits is taken; a repetition takes as much as it
can and gives nothing back. Each reading function answers with what it read and the lexemes after
it, or with nothing, and in both cases with the report of the furthest failure so far. That report
decides nothing but the wording of a refusal.

The reading functions call each other with less and less `fuel`. Between an opening parenthesis and
the flow behind it are four calls, so four units for each lexeme and four more are enough for every
text; `parse` provides them.
-/

namespace Workflow.Expression

/-- What a reading function found and the report of failures so far. -/
structure Reading (α : Type) where
  found : Option (α × List Lexeme)
  furthest : Furthest

namespace Reading

variable {α β : Type}

def fail (furthest : Furthest) : Reading α := ⟨none, furthest⟩

/-- A value was read and the lexemes `rest` follow it. -/
def pure (value : α) (rest : List Lexeme) (furthest : Furthest) : Reading α :=
  ⟨some (value, rest), furthest⟩

def andThen (r : Reading α) (next : α → List Lexeme → Furthest → Reading β) : Reading β :=
  match r.found with
  | some (value, rest) => next value rest r.furthest
  | none => fail r.furthest

def orElse (r : Reading α) (other : Furthest → Reading α) : Reading α :=
  match r.found with
  | some _ => r
  | none => other r.furthest

def map (f : α → β) (r : Reading α) : Reading β :=
  ⟨r.found.map fun (value, rest) => (f value, rest), r.furthest⟩

end Reading

/-- Where the next lexeme begins; `stop` is the end of the text. -/
def nextOffset (stop : Nat) : List Lexeme → Nat
  | [] => stop
  | lexeme :: _ => lexeme.offset

/-- Reads a construct that begins at `position` and reports it when it fails. -/
def construct {α : Type} (which : Construct) (position : Nat) (furthest : Furthest)
    (body : Furthest → Reading α) : Reading α :=
  let before := furthest.countAt position
  (body furthest).orElse fun after => .fail (after.refuse which position before)

def mark (token : Token) (lexemes : List Lexeme) (furthest : Furthest) : Reading Unit :=
  match lexemes with
  | lexeme :: rest => if lexeme.token = token then .pure () rest furthest else .fail furthest
  | [] => .fail furthest

def name (stop : Nat) (lexemes : List Lexeme) (furthest : Furthest) : Reading String :=
  construct .name (nextOffset stop lexemes) furthest fun furthest =>
    match lexemes with
    | ⟨.name text, _⟩ :: rest => .pure text rest furthest
    | _ => .fail furthest

def endOfInput (stop : Nat) (lexemes : List Lexeme) (furthest : Furthest) : Reading Unit :=
  construct .endOfInput (nextOffset stop lexemes) furthest fun furthest =>
    match lexemes with
    | [] => .pure () [] furthest
    | _ :: _ => .fail furthest

section Flows

variable (stop : Nat) (resolve : String → Node)

mutual

/-- Reads conditionals separated by arrows, as one sequence. -/
def flow (fuel : Nat) (lexemes : List Lexeme) (furthest : Furthest) : Reading Node :=
  match fuel with
  | 0 => .fail furthest
  | fuel + 1 =>
    construct .flow (nextOffset stop lexemes) furthest fun furthest =>
      (conditional fuel lexemes furthest).andThen fun first rest furthest =>
        (laterSteps fuel rest furthest).map fun later => Node.ofSteps (first :: later)

/-- Reads any number of times an arrow and a conditional. -/
def laterSteps (fuel : Nat) (lexemes : List Lexeme) (furthest : Furthest) :
    Reading (List Node) :=
  match fuel with
  | 0 => .fail furthest
  | fuel + 1 =>
    ((mark .arrow lexemes furthest).andThen fun _ rest furthest =>
      (conditional fuel rest furthest).andThen fun step rest furthest =>
        (laterSteps fuel rest furthest).map (step :: ·)).orElse fun furthest =>
          .pure [] lexemes furthest

/-- Reads a term and, if they follow, the two arms that it chooses between. -/
def conditional (fuel : Nat) (lexemes : List Lexeme) (furthest : Furthest) : Reading Node :=
  match fuel with
  | 0 => .fail furthest
  | fuel + 1 =>
    construct .conditional (nextOffset stop lexemes) furthest fun furthest =>
      (term fuel lexemes furthest).andThen fun condition rest furthest =>
        ((mark .question rest furthest).andThen fun _ rest furthest =>
          (conditional fuel rest furthest).andThen fun whenTrue rest furthest =>
            (mark .colon rest furthest).andThen fun _ rest furthest =>
              (conditional fuel rest furthest).map fun whenFalse =>
                .conditional condition whenTrue whenFalse).orElse fun furthest =>
                  .pure condition rest furthest

/-- Reads a group, a name or a flow in parentheses. -/
def term (fuel : Nat) (lexemes : List Lexeme) (furthest : Furthest) : Reading Node :=
  match fuel with
  | 0 => .fail furthest
  | fuel + 1 =>
    -- the group first: one flow in parentheses begins like a group of several
    ((group fuel lexemes furthest).orElse fun furthest =>
      (name stop lexemes furthest).map resolve).orElse fun furthest =>
        (mark .leftParen lexemes furthest).andThen fun _ rest furthest =>
          (flow fuel rest furthest).andThen fun inner rest furthest =>
            (mark .rightParen rest furthest).map fun _ => inner

/-- Reads two or more flows separated by commas, in parentheses. -/
def group (fuel : Nat) (lexemes : List Lexeme) (furthest : Furthest) : Reading Node :=
  match fuel with
  | 0 => .fail furthest
  | fuel + 1 =>
    construct .group (nextOffset stop lexemes) furthest fun furthest =>
      (mark .leftParen lexemes furthest).andThen fun _ rest furthest =>
        (flow fuel rest furthest).andThen fun first rest furthest =>
          (mark .comma rest furthest).andThen fun _ rest furthest =>
            (flow fuel rest furthest).andThen fun second rest furthest =>
              (laterBranches fuel rest furthest).andThen fun later rest furthest =>
                (mark .rightParen rest furthest).map fun _ =>
                  .parallel (first :: second :: later)

/-- Reads any number of times a comma and a flow. -/
def laterBranches (fuel : Nat) (lexemes : List Lexeme) (furthest : Furthest) :
    Reading (List Node) :=
  match fuel with
  | 0 => .fail furthest
  | fuel + 1 =>
    ((mark .comma lexemes furthest).andThen fun _ rest furthest =>
      (flow fuel rest furthest).andThen fun branch rest furthest =>
        (laterBranches fuel rest furthest).map (branch :: ·)).orElse fun furthest =>
          .pure [] lexemes furthest

end

end Flows

/-- Fuel that is enough for a flow at the head of these lexemes. -/
def fuelFor (lexemes : List Lexeme) : Nat := 4 * lexemes.length + 4

/-- What the statements read so far amount to: what each name was assigned last, and the last flow
that is no assignment. -/
structure Outline where
  aliases : Table String Node := ∅
  root : Option Node := none

namespace Outline

def resolve (o : Outline) (name : String) : Node := (o.aliases.get? name).getD (.unit name)

end Outline

/-- Reads a statement and adds it to the outline. -/
def statement (stop : Nat) (outline : Outline) (lexemes : List Lexeme) (furthest : Furthest) :
    Reading Outline :=
  -- only names that were assigned in earlier statements are resolved
  let readFlow := flow stop outline.resolve (fuelFor lexemes)
  (construct .assignment (nextOffset stop lexemes) furthest fun furthest =>
    (name stop lexemes furthest).andThen fun bound rest furthest =>
      (mark .equals rest furthest).andThen fun _ rest furthest =>
        (readFlow rest furthest).map fun node =>
          { outline with aliases := outline.aliases.insert bound node }).orElse fun furthest =>
    (readFlow lexemes furthest).map fun node => { outline with root := some node }

def skipSemicolon (lexemes : List Lexeme) : List Lexeme :=
  match lexemes with
  | ⟨.semicolon, _⟩ :: rest => rest
  | lexemes => lexemes

/-- Reads any number of statements, each after an optional semicolon. -/
def laterStatements (stop : Nat) :
    (rounds : Nat) → Outline → List Lexeme → Furthest → Reading Outline
  | 0, outline, lexemes, furthest => .pure outline lexemes furthest
  | rounds + 1, outline, lexemes, furthest =>
    let r := statement stop outline (skipSemicolon lexemes) furthest
    match r.found with
    -- a statement takes a lexeme at least, so rounds do not run out before lexemes do
    | some (outline, rest) => laterStatements stop rounds outline rest r.furthest
    -- the semicolon that was skipped is given back
    | none => .pure outline lexemes r.furthest

def program (stop : Nat) (lexemes : List Lexeme) : Reading Outline :=
  construct .program 0 {} fun furthest =>
    (statement stop {} lexemes furthest).andThen fun outline rest furthest =>
      (laterStatements stop rest.length outline rest furthest).andThen fun outline rest furthest =>
        (endOfInput stop (skipSemicolon rest) furthest).map fun _ => outline

/-- Reads an expression: the node of its last flow, or why and where it is refused. -/
def parse (input : String) : Except Refusal Node :=
  if Text.trimmed input = [] then .error ⟨input, 0, .empty⟩
  else
    let stop := byteLength input.toList
    let r := program stop (lex 0 input.toList)
    match r.found with
    | none => .error ⟨input, r.furthest.position, .expected r.furthest.wanted.toList⟩
    | some (outline, _) =>
      match outline.root with
      | some node => .ok node
      | none => .error ⟨input, stop, .noFlow⟩

end Workflow.Expression
