import Std.Data.TreeSet

/-!
# Key and value lines

The part of TOML that a configuration can use: one key and value to a line, where a value
is a string, a truth value or an array of strings.  Numbers, dates, tables and dotted keys
are refused, as nothing in a configuration can have them as its value.
-/

namespace Freshness
namespace Toml

/-- The value of a key. -/
inductive Value
  | text (text : String)
  | flag (value : Bool)
  | texts (items : List String)
deriving DecidableEq, Repr

/-- A word of a document. -/
inductive Token
  | newline
  | equals
  | comma
  | opening
  | closing
  | word (text : String)
  /-- A string within one line. -/
  | quoted (text : String)
  /-- A string that may span several lines. -/
  | block (text : String)
deriving DecidableEq, Repr

/-- What the letters read so far, latest first, belong to. -/
inductive Mode
  | ground
  | comment
  | word (letters : List Char)
  | basic (letters : List Char)
  | literal (letters : List Char)
  | basicBlock (letters : List Char)
  | literalBlock (letters : List Char)
  /-- After a backslash at the end of a line: blanks up to the next text do not count. -/
  | continuation (letters : List Char)
deriving DecidableEq, Repr

/-- Modes that may hand the next letter on to another mode come after that mode. -/
def Mode.rank : Mode → Nat
  | .word _ | .continuation _ => 1
  | _ => 0

/-- A letter that may stand in a comment or a string. -/
def isText (c : Char) : Bool := c = '\t' ∨ (' ' ≤ c ∧ c ≠ '\x7F')

/-- A letter that may stand in a word. -/
def isWordLetter (c : Char) : Bool := c.isAlphanum ∨ c = '-' ∨ c = '_'

/-- The rest of a line is blank, and another line follows. -/
def endsLine : List Char → Bool
  | ' ' :: rest | '\t' :: rest => endsLine rest
  | '\n' :: _ | '\r' :: '\n' :: _ => true
  | _ => false

/-- The letter that a backslash and one letter stand for. -/
def escape? : Char → Option Char
  | 'b' => some '\x08'
  | 't' => some '\t'
  | 'n' => some '\n'
  | 'f' => some '\x0C'
  | 'r' => some '\r'
  | '"' => some '"'
  | '\\' => some '\\'
  | _ => none

/-- The value of a hexadecimal digit. -/
def hexDigit? (c : Char) : Option Nat :=
  if c.isDigit then some (c.toNat - '0'.toNat)
  else if 'a' ≤ c ∧ c ≤ 'f' then some (c.toNat - 'a'.toNat + 10)
  else if 'A' ≤ c ∧ c ≤ 'F' then some (c.toNat - 'A'.toNat + 10)
  else none

/-- The character with the code that the hexadecimal digits spell. -/
def codePoint? (digits : List Char) : Option Char := do
  let n ← digits.foldlM (fun n c => (hexDigit? c).map (n * 16 + ·)) 0
  if n.isValidChar then some (Char.ofNat n) else none

/-- The letter that an escape after a backslash stands for, and how many letters it is
spelled with. -/
def escaped? : List Char → Option (Char × Nat)
  | 'u' :: rest =>
      if (rest.take 4).length < 4 then none else (codePoint? (rest.take 4)).map (·, 5)
  | 'U' :: rest =>
      if (rest.take 8).length < 8 then none else (codePoint? (rest.take 8)).map (·, 9)
  | c :: _ => (escape? c).map (·, 1)
  | [] => none

/-- The text with the given letters, latest first. -/
def spell (letters : List Char) : String := String.ofList letters.reverse

/-- The tokens of a document from within a mode. -/
def tokens? (mode : Mode) (text : List Char) : Option (List Token) :=
  match mode, text with
  | .ground, [] => some []
  | .ground, ' ' :: rest | .ground, '\t' :: rest => tokens? .ground rest
  | .ground, '\n' :: rest | .ground, '\r' :: '\n' :: rest =>
      (tokens? .ground rest).map (.newline :: ·)
  | .ground, '#' :: rest => tokens? .comment rest
  | .ground, '=' :: rest => (tokens? .ground rest).map (.equals :: ·)
  | .ground, ',' :: rest => (tokens? .ground rest).map (.comma :: ·)
  | .ground, '[' :: rest => (tokens? .ground rest).map (.opening :: ·)
  | .ground, ']' :: rest => (tokens? .ground rest).map (.closing :: ·)
  | .ground, '"' :: '"' :: '"' :: '\n' :: rest
  | .ground, '"' :: '"' :: '"' :: '\r' :: '\n' :: rest
  | .ground, '"' :: '"' :: '"' :: rest => tokens? (.basicBlock []) rest
  | .ground, '"' :: rest => tokens? (.basic []) rest
  | .ground, '\x27' :: '\x27' :: '\x27' :: '\n' :: rest
  | .ground, '\x27' :: '\x27' :: '\x27' :: '\r' :: '\n' :: rest
  | .ground, '\x27' :: '\x27' :: '\x27' :: rest => tokens? (.literalBlock []) rest
  | .ground, '\x27' :: rest => tokens? (.literal []) rest
  | .ground, c :: rest => if isWordLetter c then tokens? (.word [c]) rest else none
  | .comment, [] => some []
  | .comment, '\n' :: rest | .comment, '\r' :: '\n' :: rest =>
      (tokens? .ground rest).map (.newline :: ·)
  | .comment, c :: rest => if isText c then tokens? .comment rest else none
  | .word letters, [] => some [.word (spell letters)]
  | .word letters, c :: rest =>
      if isWordLetter c then tokens? (.word (c :: letters)) rest
      else (tokens? .ground (c :: rest)).map (.word (spell letters) :: ·)
  | .basic letters, '"' :: rest => (tokens? .ground rest).map (.quoted (spell letters) :: ·)
  | .basic letters, '\\' :: rest =>
      match escaped? rest with
      | some (c, size) => tokens? (.basic (c :: letters)) (rest.drop size)
      | none => none
  | .basic letters, c :: rest => if isText c then tokens? (.basic (c :: letters)) rest else none
  | .literal letters, '\x27' :: rest => (tokens? .ground rest).map (.quoted (spell letters) :: ·)
  | .literal letters, c :: rest =>
      if isText c then tokens? (.literal (c :: letters)) rest else none
  | .basicBlock letters, '"' :: '"' :: '"' :: '"' :: '"' :: rest =>
      (tokens? .ground rest).map (.block (spell ('"' :: '"' :: letters)) :: ·)
  | .basicBlock letters, '"' :: '"' :: '"' :: '"' :: rest =>
      (tokens? .ground rest).map (.block (spell ('"' :: letters)) :: ·)
  | .basicBlock letters, '"' :: '"' :: '"' :: rest =>
      (tokens? .ground rest).map (.block (spell letters) :: ·)
  | .basicBlock letters, '\n' :: rest | .basicBlock letters, '\r' :: '\n' :: rest =>
      tokens? (.basicBlock ('\n' :: letters)) rest
  | .basicBlock letters, '\\' :: rest =>
      if endsLine rest then tokens? (.continuation letters) rest
      else
        match escaped? rest with
        | some (c, size) => tokens? (.basicBlock (c :: letters)) (rest.drop size)
        | none => none
  | .basicBlock letters, c :: rest =>
      if isText c then tokens? (.basicBlock (c :: letters)) rest else none
  | .continuation letters, ' ' :: rest
  | .continuation letters, '\t' :: rest
  | .continuation letters, '\n' :: rest
  | .continuation letters, '\r' :: '\n' :: rest => tokens? (.continuation letters) rest
  | .continuation letters, c :: rest => tokens? (.basicBlock letters) (c :: rest)
  | .literalBlock letters, '\x27' :: '\x27' :: '\x27' :: '\x27' :: '\x27' :: rest =>
      (tokens? .ground rest).map (.block (spell ('\x27' :: '\x27' :: letters)) :: ·)
  | .literalBlock letters, '\x27' :: '\x27' :: '\x27' :: '\x27' :: rest =>
      (tokens? .ground rest).map (.block (spell ('\x27' :: letters)) :: ·)
  | .literalBlock letters, '\x27' :: '\x27' :: '\x27' :: rest =>
      (tokens? .ground rest).map (.block (spell letters) :: ·)
  | .literalBlock letters, '\n' :: rest | .literalBlock letters, '\r' :: '\n' :: rest =>
      tokens? (.literalBlock ('\n' :: letters)) rest
  | .literalBlock letters, c :: rest =>
      if isText c then tokens? (.literalBlock (c :: letters)) rest else none
  | .basic _, [] | .literal _, [] | .basicBlock _, [] | .literalBlock _, []
  | .continuation _, [] => none
termination_by (text.length, mode.rank)
decreasing_by all_goals simp_wf; simp [Prod.lex_def, Mode.rank]; try omega

/-- What the tokens read so far ask for. -/
inductive Progress
  | lineStart
  | afterKey (key : String)
  | beforeValue (key : String)
  /-- Within an array; `afterItem` says that the latest token is an item. -/
  | inArray (key : String) (items : List String) (afterItem : Bool)
  | lineEnd
deriving DecidableEq, Repr

/-- The keys and values that tokens spell. -/
def entries? (progress : Progress) : List Token → Option (List (String × Value))
  | [] => if progress = .lineStart ∨ progress = .lineEnd then some [] else none
  | token :: rest =>
      match progress, token with
      | .lineStart, .newline | .lineEnd, .newline => entries? .lineStart rest
      | .lineStart, .word key | .lineStart, .quoted key => entries? (.afterKey key) rest
      | .afterKey key, .equals => entries? (.beforeValue key) rest
      | .beforeValue key, .quoted text | .beforeValue key, .block text =>
          (entries? .lineEnd rest).map ((key, .text text) :: ·)
      | .beforeValue key, .word word =>
          if word = "true" then (entries? .lineEnd rest).map ((key, .flag true) :: ·)
          else if word = "false" then (entries? .lineEnd rest).map ((key, .flag false) :: ·)
          else none
      | .beforeValue key, .opening => entries? (.inArray key [] false) rest
      | .inArray key items afterItem, .newline => entries? (.inArray key items afterItem) rest
      | .inArray key items false, .quoted text | .inArray key items false, .block text =>
          entries? (.inArray key (text :: items) true) rest
      | .inArray key items true, .comma => entries? (.inArray key items false) rest
      | .inArray key items _, .closing =>
          (entries? .lineEnd rest).map ((key, .texts items.reverse) :: ·)
      | _, _ => none

/-- The text without a byte order mark in front. -/
def withoutMark : List Char → List Char
  | '\uFEFF' :: rest => rest
  | text => text

/-- No key comes twice. -/
def areDistinct (keys : List String) : Bool :=
  (keys.foldl (fun seen key => seen.insert key) ({} : Std.TreeSet String)).size = keys.length

/-- The keys of a document with their values, in order; no key comes twice. -/
def read? (text : String) : Option (List (String × Value)) := do
  let entries ← entries? .lineStart (← tokens? .ground (withoutMark text.toList))
  if areDistinct (entries.map Prod.fst) then some entries else none

end Toml
end Freshness
