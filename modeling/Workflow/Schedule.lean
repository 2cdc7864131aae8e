import Workflow.Executor

/-!
# A schedule

Of all the orders in which the tasks of an executor may move, this is the one of a single worker.
Tasks that need not wait stand in a queue, in the order in which they ceased to wait. The first one
goes on until it has to wait or ends. Time passes only when the queue is empty, and then up to the
next moment at which something goes on by itself.

A shutdown can be put off to a moment of the schedule. It begins as soon as that moment has come and
the task that is moving has to wait.

`Schedule.step` is one move. The moves of units are finite, but units may ask for runs without end,
so `Schedule.run` counts its moves down from a number given to it.
-/

namespace Workflow

/-- An executor, the queue of its tasks, and when a shutdown is to begin. -/
structure Schedule where
  executor : Executor
  queue : List Nat := []
  shutdownAt : Option Nat := none

namespace Schedule

/-- The queue after some tasks began to wait and others ceased to. -/
def requeue (queue ready : List Nat) : List Nat :=
  queue.filter ready.contains ++ ready.filter fun task => !queue.contains task

def shutdownDue (s : Schedule) : Bool :=
  s.shutdownAt.any fun moment => moment ≤ s.executor.engine.clock

/-- Begins a shutdown that is due and ends one that need not wait any longer, if there is one. -/
def attendShutdown? (s : Schedule) : Option Schedule :=
  if s.shutdownDue then
    some { s with executor := s.executor.beginShutdown.settleShutdown, shutdownAt := none }
  else if s.executor.canSettle then some { s with executor := s.executor.settleShutdown }
  else none

/-- Lets time pass up to the next moment at which something goes on, if there is one. -/
def passTime? (s : Schedule) : Option Schedule :=
  (s.executor.alarms ++ s.shutdownAt.toList).min?.map fun moment =>
    { s with executor := s.executor.wait (moment - s.executor.engine.clock) }

/-- Lets the first task of the queue do one thing; with an empty queue, lets time pass. -/
def advance? (s : Schedule) : Option Schedule :=
  match s.queue with
  | [] => s.passTime?
  | who :: _ => (s.executor.step who).map fun executor => { s with executor := executor }

/-- One move, unless everything has ended. -/
def step (s : Schedule) : Option Schedule :=
  let queue := requeue s.queue s.executor.ready
  let turned := { s with queue := queue }
  -- a shutdown begins or ends only when the task that was moving has to wait
  if queue.isEmpty || queue.head? ≠ s.queue.head? then turned.attendShutdown?.or turned.advance?
  else turned.advance?

/-- Moves until everything has ended, but no more often than `moves` times. -/
def run : (moves : Nat) → Schedule → Schedule
  | 0, s => s
  | moves + 1, s =>
    match s.step with
    | some s => run moves s
    | none => s

end Schedule

/-- How many moves a call waits for. -/
def Executor.patience : Nat := 1000000000000

namespace Executor

/-- Runs what was asked for to its end. With `shutdownAfter`, a shutdown begins that many
milliseconds after the start, and its end is waited for as well. -/
def perform (x : Executor) (request : Request) (context : Context) (shutdownAfter : Option Nat) :
    Option Outcome × Executor :=
  let start : Executor := { x with runs := [] }
  let (refused, opened) := start.launch request context
  let schedule : Schedule :=
    { executor := opened
      queue := opened.runs.map fun run => run.root.serial
      shutdownAt := shutdownAfter.map (x.engine.clock + ·) }
  let last := (schedule.run patience).executor
  let result := refused.or (last.runs.head?.bind Run.result?)
  (result, { last with runs := [] })

/-- Shuts the executor down and waits for the end of it. The answer tells whether all branches ended
by themselves. -/
def close (x : Executor) : Bool × Executor :=
  let last := ({ executor := x.beginShutdown : Schedule }.run patience).executor
  (last.shutdown = .over true, last)

end Executor

end Workflow
