/-!
# Lines

A line ends with a newline, of which a carriage return right before it is a part.  The
last line need not end.
-/

namespace Freshness
namespace Lines

/-- The letters of a line, given in reverse, without the carriage return at its end. -/
def withoutReturn : List Char → List Char
  | '\r' :: letters => letters
  | letters => letters

/-- The lines of a text; `letters` are those of the current line so far, in reverse. -/
def splitFrom (letters : List Char) : List Char → List (List Char)
  | [] => if letters = [] then [] else [letters.reverse]
  | c :: rest =>
      if c = '\n' then (withoutReturn letters).reverse :: splitFrom [] rest
      else splitFrom (c :: letters) rest

/-- The lines of a text that are not empty. -/
def nonempty (text : String) : List String :=
  ((splitFrom [] text.toList).filter (· ≠ [])).map String.ofList

/-- The text with each of the given texts on a line of its own. -/
def ofList (texts : List String) : String :=
  String.ofList (texts.flatMap fun text => text.toList ++ ['\n'])

end Lines
end Freshness
