import Workflow.Expression.Fault
import Workflow.Text.Numeral

/-!
# Failures

Everything that can go wrong with a flow, from a setting that cannot be read to a unit that fails.
A failure inside a branch of a group is wrapped once for every group around it, outermost first;
`Failure.origin` takes the wrapping off.

A failure says what happened; `Failure.message` is the one place that says how it is worded.
-/

namespace Workflow

/-- The calls that make up one execution of a unit. -/
inductive Phase where
  | beforeRun
  | run
  | afterRun
  deriving Repr, DecidableEq

def Phase.text : Phase → String
  | .beforeRun => "before_run"
  | .run => "run"
  | .afterRun => "after_run"

/-- What a unit reports when it fails: a text, and the texts of the errors behind it, nearest
first. -/
structure Cause where
  text : String
  behind : List String := []
  deriving Repr, DecidableEq

/-- Why running branches came to an end from outside. -/
inductive Interruption where
  | executorClosed
  /-- The pool takes no more branches. -/
  | poolClosed
  /-- The branch was given up when the grace period was over. -/
  | branchCancelled (entry : String)
  | reported (reason : String)
  deriving Repr, DecidableEq

def Interruption.reason : Interruption → String
  | .executorClosed => "flow executor has been shut down"
  | .poolClosed => "worker pool is shut down"
  | .branchCancelled entry => s!"branch '{entry}' was cancelled by worker pool shutdown"
  | .reported reason => reason

/-- What is wrong with a setting. -/
inductive SettingFault where
  /-- The text of a number is no numeral. -/
  | unreadable (raw : String) (fault : Text.NumeralFault)
  /-- The text of a switch, trimmed and in lower case, is none of the accepted words. -/
  | notBoolean (text : String)
  /-- A pool of no worker. -/
  | emptyPool
  /-- An executor without a registry. -/
  | noRegistry
  | reported (message : String)
  deriving Repr, DecidableEq

def SettingFault.message : SettingFault → String
  | .unreadable raw fault => s!"cannot parse '{raw}': {fault.message}"
  | .notBoolean text => s!"expected a boolean, got '{text}'"
  | .emptyPool => "worker pool size must be at least 1"
  | .noRegistry => "a flow registry is required"
  | .reported message => message

/-- What can go wrong with a flow. -/
inductive Failure where
  | refused (error : Expression.Refusal)
  | unknownFlow (flowId : String)
  | unknownUnit (unitId : String)
  | unitFailed (unitId : String) (phase : Phase) (cause : Cause)
  /-- A branch of a group failed. -/
  | branchFailed (anchor entry : String) (source : Failure)
  /-- Branches were refused or given up. -/
  | interrupted (reason : Interruption)
  /-- The configuration switches the engine off. -/
  | disabled
  | misconfigured (key : String) (fault : SettingFault)
  /-- Something that should not happen. -/
  | internal (message : String)
  deriving Repr, DecidableEq, Inhabited

namespace Failure

def message : Failure → String
  | .refused error => error.message
  | .unknownFlow flowId => s!"Flow not found: {flowId}"
  | .unknownUnit unitId => s!"Unit not found: {unitId}"
  | .unitFailed unitId phase cause =>
    s!"Unit '{unitId}' failed in {phase.text}. Source: {cause.text}"
  | .branchFailed anchor entry source =>
    s!"Parallel group forked at '{anchor}' failed in branch '{entry}'. Source: {source.message}"
  | .interrupted reason => s!"Parallel execution interrupted: {reason.reason}"
  | .disabled => "Flow engine is disabled by configuration"
  | .misconfigured key fault => s!"Configuration error for '{key}': {fault.message}"
  | .internal message => s!"Internal flow engine error: {message}"

/-- Whether a look-up in the registry failed. A failed look-up inside a branch does not count. -/
def isMissing : Failure → Bool
  | .unknownFlow _ | .unknownUnit _ => true
  | _ => false

/-- The failure inside all the groups around it. -/
def origin : Failure → Failure
  | .branchFailed _ _ source => source.origin
  | failure => failure

end Failure

end Workflow
