import TabularParsing.Text.Blank

/-!
# Lines of a text

A line ends at a line feed; a carriage return directly before the line feed belongs to the line
end. What follows the last line feed is a line if it is not empty.
-/
namespace TabularParsing.Text

def linesOf : List Char → List (List Char)
  | [] => []
  | '\n' :: cs => [] :: linesOf cs
  | '\r' :: '\n' :: cs => [] :: linesOf cs
  | c :: cs =>
    match linesOf cs with
    | [] => [[c]]
    | l :: ls => (c :: l) :: ls

@[simp] theorem linesOf_nil : linesOf [] = [] := rfl
@[simp] theorem linesOf_feed (cs : List Char) : linesOf ('\n' :: cs) = [] :: linesOf cs := rfl

theorem linesOf_return_feed (cs : List Char) :
    linesOf ('\r' :: '\n' :: cs) = [] :: linesOf cs := rfl

def lines (s : String) : List String := (linesOf s.toList).map String.ofList

/-- The part of a line before the first `//`. -/
def beforeComment : List Char → List Char
  | [] => []
  | '/' :: '/' :: _ => []
  | c :: cs => c :: beforeComment cs

/-- The lines that hold something besides blanks and a comment, trimmed and without the comment,
each with its number from 1. -/
def filledLines (text : List Char) : List (Nat × List Char) :=
  (((linesOf text).zipIdx 1).map fun p => (p.2, trimmed (beforeComment p.1))).filter
    fun p => !p.2.isEmpty

/-- The parts before and after the first `->`. -/
def splitArrow : List Char → Option (List Char × List Char)
  | [] => none
  | '-' :: '>' :: cs => some ([], cs)
  | c :: cs => (splitArrow cs).map fun p => (c :: p.1, p.2)

end TabularParsing.Text
