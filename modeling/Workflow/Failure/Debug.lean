import Workflow.Failure
import Workflow.Text.Quoted

/-!
# Failures shown in full

`Failure.debug` shows a failure with the names of all its parts, for people who look into a run. The
errors behind the error of a unit are listed below it, indented, and numbered when there are two or
more.
-/

namespace Workflow

/-- A record with named fields. -/
def debugRecord (name : String) (fields : List (String × String)) : String :=
  name ++ " \x7b " ++ ", ".intercalate (fields.map fun (key, value) => key ++ ": " ++ value) ++
    " \x7d"

def debugTexts (texts : List String) : String :=
  "[" ++ ", ".intercalate (texts.map Text.Quoted.debug) ++ "]"

def debugOption (value : Option String) : String :=
  match value with
  | some text => "Some(" ++ text ++ ")"
  | none => "None"

namespace Phase

def debug : Phase → String
  | .beforeRun => "BeforeRun"
  | .run => "Run"
  | .afterRun => "AfterRun"

end Phase

namespace Cause

/-- A text whose first line begins with `first` and whose other lines begin with `others`. -/
def indent (first others text : String) : String :=
  first ++ ("\n" ++ others).intercalate (text.splitOn "\n")

/-- A number, right-aligned in five places. -/
def ordinal (n : Nat) : String :=
  let digits := toString n
  String.ofList (List.replicate (5 - digits.length) ' ') ++ digits

/-- The errors behind an error, one below the other. -/
def behindLines (texts : List String) : List String :=
  match texts with
  | [text] => [indent "    " "    " text]
  | texts => texts.zipIdx.map fun (text, n) => indent (ordinal n ++ ": ") "       " text

def debug (c : Cause) : String :=
  if c.behind.isEmpty then c.text
  else c.text ++ "\n\nCaused by:" ++ String.join ((behindLines c.behind).map ("\n" ++ ·))

end Cause

namespace Failure

def debug : Failure → String
  | .refused error =>
    let fields := [("input", Text.Quoted.debug error.input), ("position", toString error.position),
      ("line", toString error.line), ("column", toString error.column),
      ("message", Text.Quoted.debug error.fault.message)]
    "Parse(" ++ debugRecord "ParseError" fields ++ ")"
  | .unknownFlow flowId => debugRecord "FlowNotFound" [("flow_id", Text.Quoted.debug flowId)]
  | .unknownUnit unitId => debugRecord "UnitNotFound" [("unit_id", Text.Quoted.debug unitId)]
  | .unitFailed unitId phase cause =>
    debugRecord "UnitExecution" [("unit_id", Text.Quoted.debug unitId), ("phase", phase.debug),
      ("source", cause.debug)]
  | .branchFailed anchor entry source =>
    debugRecord "ParallelGroup" [("anchor", Text.Quoted.debug anchor),
      ("branch", Text.Quoted.debug entry), ("source", source.debug)]
  | .interrupted reason =>
    debugRecord "Interrupted" [("reason", Text.Quoted.debug reason.reason)]
  | .disabled => "Disabled"
  | .misconfigured key fault =>
    debugRecord "Configuration" [("key", Text.Quoted.debug key),
      ("message", Text.Quoted.debug fault.message)]
  | .internal message => "Internal(" ++ Text.Quoted.debug message ++ ")"

end Failure

end Workflow
