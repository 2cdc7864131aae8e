import Workflow.Scope
import Workflow.Text.Quoted

/-!
# Replies

What a scripted action answers, and the compact form in which the journal shows it: no blanks, texts
between double quotes, lists in square brackets.
-/

namespace Workflow

inductive Reply where
  | nothing
  | flag (value : Bool)
  | number (value : Int)
  /-- A natural number of 64 bits, which is told apart from an integer. -/
  | natural (value : Nat)
  | text (value : String)
  | list (elements : List Reply)
  deriving Repr, Inhabited

namespace Reply

def texts (elements : List String) : Reply := .list (elements.map .text)

/-- An answer that may be missing. -/
def ofOption (reply : Option Reply) : Reply := reply.getD .nothing

/-- The answer that shows a value of a scope. -/
def ofValue : Value → Reply
  | .integer value => .number value
  | .text value => .text value
  | .flag value => .flag value
  | .texts value => .texts value
  | .natural value => .natural value

mutual

/-- The compact form. -/
def compact : Reply → String
  | .nothing => "null"
  | .flag value => if value then "true" else "false"
  | .number value => toString value
  | .natural value => "\x7b\"u64\":" ++ toString value ++ "\x7d"
  | .text value => Text.Quoted.compact value
  | .list elements => "[" ++ ",".intercalate (compacts elements) ++ "]"

def compacts : List Reply → List String
  | [] => []
  | reply :: rest => reply.compact :: compacts rest

end

end Reply

end Workflow
