import Workflow.Table

/-!
# Shared cells

A cell holds a list of texts that any number of handles reach. Copying a handle copies no content:
both handles see every change. A guard keeps a cell open for reading or for writing until it is
released; readers share a cell, and a writer has it alone.

`Cells` is the state of all cells, handles and guards together. An attempt (`tryRead`, `tryPush`)
answers at once and finds nothing when a guard is in the way. The operations that would wait for a
guard are taken only when none is in the way.
-/

namespace Workflow

structure CellGuard where
  cell : Nat
  writes : Bool
  deriving Repr, DecidableEq

/-- Cells and handles are numbered in the order in which they came to be. -/
structure Cells where
  contents : List (List String) := []
  /-- The cell of each handle. -/
  handles : List Nat := []
  /-- The guards that are kept, by name. -/
  guards : Table String CellGuard := ∅
  deriving Repr, DecidableEq

namespace Cells

def cellOf (s : Cells) (handle : Nat) : Nat := (s.handles[handle]?).getD 0

def content (s : Cells) (cell : Nat) : List String := (s.contents[cell]?).getD []

def setContent (s : Cells) (cell : Nat) (content : List String) : Cells :=
  { s with contents := s.contents.set cell content }

/-- Whether a guard on the cell keeps readers out. -/
def hasWriter (s : Cells) (cell : Nat) : Bool :=
  s.guards.values.any fun guard => guard.cell = cell && guard.writes

/-- Whether any guard is on the cell. -/
def isGuarded (s : Cells) (cell : Nat) : Bool :=
  s.guards.values.any fun guard => guard.cell = cell

inductive Operation where
  | create (content : List String)
  | copy (handle : Nat)
  | push (handle : Nat) (text : String)
  | write (handle : Nat) (content : List String)
  | read (handle : Nat)
  | sameCell (handle other : Nat)
  | tryRead (handle : Nat)
  | tryPush (handle : Nat) (text : String)
  | hold (handle : Nat) (name : String) (writes : Bool)
  | held (name : String)
  | release (name : String)
  deriving Repr, DecidableEq

inductive Reply where
  | nothing
  | number (n : Nat)
  | flag (b : Bool)
  | texts (content : List String)
  deriving Repr, DecidableEq

/-- Appends a text to the cell of a handle and answers its new length. -/
def append (s : Cells) (handle : Nat) (text : String) : Cells × Reply :=
  let content := s.content (s.cellOf handle) ++ [text]
  (s.setContent (s.cellOf handle) content, .number content.length)

def perform (s : Cells) : Operation → Cells × Reply
  | .create content =>
    ({ s with contents := s.contents ++ [content], handles := s.handles ++ [s.contents.length] },
      .number s.handles.length)
  | .copy handle =>
    ({ s with handles := s.handles ++ [s.cellOf handle] }, .number s.handles.length)
  | .push handle text => s.append handle text
  | .write handle content => (s.setContent (s.cellOf handle) content, .nothing)
  | .read handle => (s, .texts (s.content (s.cellOf handle)))
  | .sameCell handle other => (s, .flag (s.cellOf handle == s.cellOf other))
  | .tryRead handle =>
    if s.hasWriter (s.cellOf handle) then (s, .nothing)
    else (s, .texts (s.content (s.cellOf handle)))
  | .tryPush handle text =>
    if s.isGuarded (s.cellOf handle) then (s, .nothing) else s.append handle text
  -- nobody holds a guard while another one is in the way, so nothing is checked here
  | .hold handle name writes =>
    ({ s with guards := s.guards.insert name ⟨s.cellOf handle, writes⟩ }, .nothing)
  | .held name =>
    match s.guards.get? name with
    | some guard => (s, .texts (s.content guard.cell))
    | none => (s, .nothing)
  | .release name => ({ s with guards := s.guards.erase name }, .flag (s.guards.contains name))

/-- Performs operations in order, with their replies in that order. -/
def performAll (s : Cells) : List Operation → Cells × List Reply
  | [] => (s, [])
  | operation :: rest =>
    let (next, reply) := s.perform operation
    let (last, replies) := next.performAll rest
    (last, reply :: replies)

end Cells

end Workflow
