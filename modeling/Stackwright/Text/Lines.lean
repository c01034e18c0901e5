/-
  Stackwright.Text.Lines — a text as a list of lines.

  Lines end with a line feed, which a carriage return may precede. What follows the last
  line feed is a line only if it is not empty.
-/

namespace Stackwright.Text

/-- Drops a carriage return at the end. -/
def dropReturn (line : List Char) : List Char :=
  match line.getLast? with
  | some '\r' => line.dropLast
  | _ => line

/-- Cuts after each line feed; `current` is the unfinished line, last character first. -/
def cutLines (current : List Char) : List Char → List String
  | [] => if current.isEmpty then [] else [String.ofList current.reverse]
  | '\n' :: rest => String.ofList (dropReturn current.reverse) :: cutLines [] rest
  | c :: rest => cutLines (c :: current) rest

def lines (s : String) : List String := cutLines [] s.toList

end Stackwright.Text
