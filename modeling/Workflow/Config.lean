import Workflow.Failure
import Workflow.Text.Blank

/-!
# Configuration

The settings of an executor are read once, from a look-up of variables, or set one by one.
`Config.read` looks at the variables in a fixed order and reports the first one that is wrong; that
a pool needs at least one worker is checked last. A variable that is not there keeps its default.
-/

namespace Workflow

/-- The settings of an executor. -/
structure Config where
  /-- Whether an executor may be built at all. -/
  enabled : Bool := true
  /-- How many runs may be alive at once before it is remarked upon. -/
  runHint : Nat := 1024
  verbose : Bool := true
  /-- How many units of branches may run at once. -/
  poolSize : Nat := 64
  /-- How long a shutdown waits for branches, in milliseconds. -/
  grace : Nat := 5000
  deriving Repr, DecidableEq

namespace Config

/-! ## Single settings -/

inductive Setting where
  | enabled (value : Bool)
  | runHint (value : Nat)
  | verbose (value : Bool)
  | poolSize (value : Nat)
  | grace (milliseconds : Nat)
  deriving Repr, DecidableEq

/-- Makes one change. A pool has at least one worker, whatever size is asked for. -/
def set (c : Config) : Setting → Config
  | .enabled value => { c with enabled := value }
  | .runHint value => { c with runHint := value }
  | .verbose value => { c with verbose := value }
  | .poolSize value => { c with poolSize := max value 1 }
  | .grace milliseconds => { c with grace := milliseconds }

/-! ## Variables -/

namespace Variable

def enabled : String := "FLOW_ENABLED"

def runHint : String := "FLOW_SCOPE_POOL_HINT"

def verbose : String := "FLOW_PRINT_EXECUTION_LOG"

def poolSize : String := "FLOW_WORKER_POOL_SIZE"

def grace : String := "FLOW_SHUTDOWN_GRACE_MS"

end Variable

def onWords : List String := ["1", "true", "yes", "on"]

def offWords : List String := ["0", "false", "no", "off"]

/-- A number, with blanks around it allowed. -/
def readNumber (raw : String) : Except SettingFault Nat :=
  match Text.Numeral.read (Text.trimmed raw) with
  | .ok value => .ok value
  | .error fault => .error (.unreadable raw fault)

/-- A switch, after blanks are taken off its word. The case of ASCII letters does not matter. -/
def readSwitch (raw : String) : Except SettingFault Bool :=
  let word := String.ofList ((Text.trimmed raw).map Char.toLower)
  if onWords.contains word then .ok true
  else if offWords.contains word then .ok false
  else .error (.notBoolean word)

/-- The value of a variable, or a default when it is not there. -/
def readOr {α : Type} (lookUp : String → Option String) (key : String) (default : α)
    (read : String → Except SettingFault α) : Except Failure α :=
  match lookUp key with
  | none => .ok default
  | some raw =>
    match read raw with
    | .ok value => .ok value
    | .error fault => .error (.misconfigured key fault)

/-- The configuration that the variables describe, or the first one that is wrong. -/
def read (lookUp : String → Option String) : Except Failure Config := do
  -- the order of these lines decides which of several faults is reported
  let defaults : Config := {}
  let grace ← readOr lookUp Variable.grace defaults.grace readNumber
  let enabled ← readOr lookUp Variable.enabled defaults.enabled readSwitch
  let hint ← readOr lookUp Variable.runHint defaults.runHint readNumber
  let log ← readOr lookUp Variable.verbose defaults.verbose readSwitch
  let size ← readOr lookUp Variable.poolSize defaults.poolSize readNumber
  if size = 0 then .error (.misconfigured Variable.poolSize .emptyPool)
  else
    .ok { enabled := enabled, runHint := hint, verbose := log,
          poolSize := size, grace := grace }

end Config

end Workflow
