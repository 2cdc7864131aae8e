import Workflow.Behavior

/-!
# The worker pool

Branches of groups run as tasks. There may be any number of tasks, but only as many units of them at
once as the pool has permits: a unit on a branch takes a permit before its first call and gives it
back after its last. A branch that waits for a group of its own holds none.

Who finds no permit waits in line. A permit that is given back while somebody waits is handed to the
first in line and never becomes available in between. `waiting` is the line and `granted` are those
who have been handed a permit and have not gone on yet; both hold the serial numbers of walks.

A closed pool takes no new tasks. Tasks already in flight go on, until they are cancelled all at
once.
-/

namespace Workflow

structure Pool where
  size : Nat
  available : Nat
  waiting : List Nat := []
  granted : List Nat := []
  /-- How many tasks have been started and have not ended. -/
  inFlight : Nat := 0
  closed : Bool := false
  deriving Repr, DecidableEq

namespace Pool

/-- A pool with all its permits. It has at least one. -/
def ofSize (size : Nat) : Pool := { size := max size 1, available := max size 1 }

def view (p : Pool) : PoolView := ⟨p.size, p.available, p.inFlight, p.closed⟩

def take? (p : Pool) : Option Pool :=
  if p.available = 0 then none else some { p with available := p.available - 1 }

def enqueue (p : Pool) (walk : Nat) : Pool := { p with waiting := p.waiting ++ [walk] }

def isGranted (p : Pool) (walk : Nat) : Bool := p.granted.contains walk

/-- A walk that was handed a permit goes on with it. -/
def accept (p : Pool) (walk : Nat) : Pool := { p with granted := p.granted.erase walk }

def release (p : Pool) : Pool :=
  match p.waiting with
  | [] => { p with available := p.available + 1 }
  -- handed on directly, so that nobody who comes later can take it
  | first :: rest => { p with waiting := rest, granted := p.granted ++ [first] }

/-- Counts a new task, unless the pool is closed. -/
def start? (p : Pool) : Option Pool :=
  if p.closed then none else some { p with inFlight := p.inFlight + 1 }

def finish (p : Pool) : Pool := { p with inFlight := p.inFlight - 1 }

def close (p : Pool) : Pool := { p with closed := true }

/-- All tasks are gone, and with them all who hold a permit or wait for one. -/
def cancel (p : Pool) : Pool :=
  { p with available := p.size, waiting := [], granted := [], inFlight := 0 }

end Pool

end Workflow
