import Workflow.Text.Shown

/-!
# Quoted text

Two ways to write a text between double quotes. `Quoted.compact` is the string of compact JSON:
it escapes the quote, the backslash and the control characters below the space, and leaves every
other character as it is. `Quoted.debug` is meant for people: besides the quote and the backslash it
escapes whatever would not show, with the code point of the character in base sixteen.
-/

namespace Workflow.Text.Quoted

def hexDigit (n : Nat) : Char :=
  if n < 10 then Char.ofNat ('0'.toNat + n) else Char.ofNat ('a'.toNat + (n - 10))

/-- How compact JSON writes one character of a string. -/
def compactChar (c : Char) : List Char :=
  match c with
  | '"' => ['\\', '"']
  | '\\' => ['\\', '\\']
  | '\n' => ['\\', 'n']
  | '\r' => ['\\', 'r']
  | '\t' => ['\\', 't']
  | '\x08' => ['\\', 'b']
  | '\x0c' => ['\\', 'f']
  | c =>
    if c.toNat < 0x20 then
      ['\\', 'u', '0', '0', hexDigit (c.toNat / 16), hexDigit (c.toNat % 16)]
    else [c]

/-- A text as a string of compact JSON. -/
def compact (s : String) : String :=
  String.ofList ('"' :: s.toList.flatMap compactChar ++ ['"'])

def hexDigits (n : Nat) : List Char := Nat.toDigits 16 n

/-- How a text for people shows one character. -/
def debugChar (c : Char) : List Char :=
  match c with
  | '"' => ['\\', '"']
  | '\\' => ['\\', '\\']
  | '\n' => ['\\', 'n']
  | '\r' => ['\\', 'r']
  | '\t' => ['\\', 't']
  | '\x00' => ['\\', '0']
  | c => if isShown c then [c] else ['\\', 'u', '\x7b'] ++ hexDigits c.toNat ++ ['\x7d']

/-- A text between double quotes as it is shown to people. -/
def debug (s : String) : String :=
  String.ofList ('"' :: s.toList.flatMap debugChar ++ ['"'])

end Workflow.Text.Quoted
