/-!
# Pieces of text

Parentheses, lists and the emphasis that reports put on their parts.
-/

namespace TypedHoles

/-- Put `text` in parentheses if `condition` holds. -/
def parenthesizeIf (condition : Bool) (text : String) : String :=
  if condition then "(" ++ text ++ ")" else text

/-- The given texts with commas between them. -/
def commaSeparated (texts : List String) : String :=
  ", ".intercalate texts

/-- How a text stands out on a terminal. -/
inductive Emphasis where
  | green
  | red
  | yellow
  | blue
  | dimmed
  /-- Bold and bright, for the words that head a line. -/
  | heading
  deriving DecidableEq, Repr

namespace Emphasis

/-- The control sequence in front of an emphasized text. -/
def start : Emphasis → String
  | green => "\x1b[32m"
  | red => "\x1b[31m"
  | yellow => "\x1b[33m"
  | blue => "\x1b[34m"
  | dimmed => "\x1b[2m"
  | heading => "\x1b[97m\x1b[1m"

/-- The control sequence behind an emphasized text. -/
def stop : Emphasis → String
  | green => "\x1b[39m"
  | red => "\x1b[39m"
  | yellow => "\x1b[39m"
  | blue => "\x1b[39m"
  | dimmed => "\x1b[0m"
  | heading => "\x1b[0m\x1b[39m"

/-- Emphasize a text. -/
def apply (emphasis : Emphasis) (text : String) : String :=
  emphasis.start ++ text ++ emphasis.stop

end Emphasis

end TypedHoles
