/-!
# JSON for readers

A document is laid out with one item to a line and two spaces for each level.  Letters
outside ASCII stand for themselves.
-/

namespace Freshness

/-- A JSON document without fractions and nulls; the members of an object keep their
order. -/
inductive Json
  | text (text : String)
  | number (n : Nat)
  | flag (value : Bool)
  | array (items : List Json)
  | object (members : List (String × Json))

namespace Json

/-- How a letter is written in a string. -/
def escape (c : Char) : List Char :=
  match c with
  | '"' => ['\\', '"']
  | '\\' => ['\\', '\\']
  | '\n' => ['\\', 'n']
  | '\r' => ['\\', 'r']
  | '\t' => ['\\', 't']
  | '\x08' => ['\\', 'b']
  | '\x0C' => ['\\', 'f']
  | c =>
      if c < ' ' then
        ['\\', 'u', '0', '0', Nat.digitChar (c.toNat / 16), Nat.digitChar (c.toNat % 16)]
      else [c]

/-- A text as a string. -/
def quote (text : String) : String :=
  String.ofList ('"' :: (text.toList.flatMap escape ++ ['"']))

/-- The beginning of a line within `depth` brackets. -/
def newline (depth : Nat) : String := String.ofList ('\n' :: List.replicate (2 * depth) ' ')

mutual

/-- The text of a document that stands within `depth` brackets. -/
def render (depth : Nat) : Json → String
  | .text t => quote t
  | .number n => toString n
  | .flag value => if value then "true" else "false"
  | .array [] => "[]"
  | .array (first :: rest) =>
      "[" ++ newline (depth + 1) ++ render (depth + 1) first ++ renderItems (depth + 1) rest
        ++ newline depth ++ "]"
  | .object [] => "\x7b\x7d"
  | .object ((key, value) :: rest) =>
      "\x7b" ++ newline (depth + 1) ++ quote key ++ ": " ++ render (depth + 1) value
        ++ renderMembers (depth + 1) rest ++ newline depth ++ "\x7d"

/-- The text of the items after the first. -/
def renderItems (depth : Nat) : List Json → String
  | [] => ""
  | item :: rest => "," ++ newline depth ++ render depth item ++ renderItems depth rest

/-- The text of the members after the first. -/
def renderMembers (depth : Nat) : List (String × Json) → String
  | [] => ""
  | (key, value) :: rest =>
      "," ++ newline depth ++ quote key ++ ": " ++ render depth value ++ renderMembers depth rest

end

/-- The text of a document. -/
def pretty (document : Json) : String := render 0 document

/-- An array of texts. -/
def ofTexts (texts : List String) : Json := .array (texts.map .text)

end Json
end Freshness
