/-!
# Tokens of the expression language

A text is cut into names and punctuation marks, each as long as possible. Between them only the
space, the tab, the carriage return and the line feed are skipped. Any other character becomes a
`stray` token, which no construct of the language contains, so cutting a text never fails and a
text with a stray character is refused where that character stands.

Every token carries the offset of its first byte in the UTF-8 form of the text.
-/

namespace Workflow.Expression

inductive Token where
  | name (text : String)
  | arrow
  | question
  | colon
  | comma
  | equals
  | semicolon
  | leftParen
  | rightParen
  | stray (c : Char)
  deriving Repr, DecidableEq

structure Lexeme where
  token : Token
  offset : Nat
  deriving Repr, DecidableEq

/-- The characters skipped between tokens. -/
def isGap (c : Char) : Bool := c == ' ' || c == '\t' || c == '\r' || c == '\n'

def startsName (c : Char) : Bool := c.isAlpha || c == '_'

def continuesName (c : Char) : Bool := c.isAlphanum || c == '_'

/-- How many bytes the characters take in UTF-8. -/
def byteLength : List Char → Nat
  | [] => 0
  | c :: rest => c.utf8Size + byteLength rest

/-- The mark that a single character stands for. -/
def markOf (c : Char) : Token :=
  match c with
  | '?' => .question
  | ':' => .colon
  | ',' => .comma
  | '=' => .equals
  | ';' => .semicolon
  | '(' => .leftParen
  | ')' => .rightParen
  | c => .stray c

theorem length_dropWhile_le (p : Char → Bool) (cs : List Char) :
    (cs.dropWhile p).length ≤ cs.length :=
  (List.dropWhile_suffix p).length_le

/-- The lexemes of a text whose first character has the given offset. -/
def lex (offset : Nat) : List Char → List Lexeme
  | [] => []
  | '-' :: '>' :: rest => ⟨.arrow, offset⟩ :: lex (offset + 2) rest
  | c :: rest =>
    if isGap c then lex (offset + c.utf8Size) rest
    else if startsName c then
      let word := c :: rest.takeWhile continuesName
      ⟨.name (String.ofList word), offset⟩ ::
        lex (offset + byteLength word) (rest.dropWhile continuesName)
    else ⟨markOf c, offset⟩ :: lex (offset + c.utf8Size) rest
termination_by cs => cs.length
decreasing_by
  all_goals have := length_dropWhile_le continuesName rest
  all_goals simp_wf
  all_goals omega

end Workflow.Expression
