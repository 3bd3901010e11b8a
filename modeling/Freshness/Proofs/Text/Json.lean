import Mathlib
import Freshness.Text.Json

/-!
# Documents can be read again

A reader of documents is given here.  It passes over blanks, and it takes the letters of a string as
themselves, from the sign for them or from their numbers.  What it reads from the text of a document
is the document, so that nothing in a document is lost when it is laid out.
-/

namespace Freshness
namespace Json

/-! ## Reading -/

def isBlank (c : Char) : Bool := c = ' ' ∨ c = '\n' ∨ c = '\r' ∨ c = '\t'

/-- Passes over blanks. -/
def skipBlanks (letters : List Char) : List Char := letters.dropWhile isBlank

/-- The value of a digit in base sixteen. -/
def digitValue? (c : Char) : Option Nat :=
  if c.isDigit then some (c.toNat - 48)
  else if 'a' ≤ c ∧ c ≤ 'f' then some (c.toNat - 87)
  else if 'A' ≤ c ∧ c ≤ 'F' then some (c.toNat - 55)
  else none

/-- The letter that stands for another one after a backslash. -/
def escaped? (c : Char) : Option Char :=
  match c with
  | '"' => some '"'
  | '\\' => some '\\'
  | '/' => some '/'
  | 'n' => some '\n'
  | 'r' => some '\r'
  | 't' => some '\t'
  | 'b' => some '\x08'
  | 'f' => some '\x0C'
  | _ => none

/-- The letter with a number.  Halves of a pair of surrogates stand for no letter by themselves. -/
def letter? (number : Nat) : Option Char :=
  if number.isValidChar then some (Char.ofNat number) else none

/-- What the next letter in a string is. -/
inductive Position
  | plain
  | afterBackslash
  /-- A digit of the number of a letter; `more` are to come after it. -/
  | digit (more value : Nat)

/-- Puts a letter before those that were read. -/
def prepend (c : Char) (read : List Char × List Char) : List Char × List Char :=
  (c :: read.1, read.2)

/-- The letters of a string up to its end, and what follows it. -/
def readLetters : Position → List Char → Option (List Char × List Char)
  | _, [] => none
  | .plain, c :: rest =>
      if c = '"' then some ([], rest)
      else if c = '\\' then readLetters .afterBackslash rest
      else if c < ' ' then none
      else (readLetters .plain rest).map (prepend c)
  | .afterBackslash, c :: rest =>
      if c = 'u' then readLetters (.digit 3 0) rest
      else (escaped? c).bind fun letter => (readLetters .plain rest).map (prepend letter)
  | .digit more value, c :: rest =>
      (digitValue? c).bind fun digit =>
        match more with
        | 0 => (letter? (value * 16 + digit)).bind fun letter =>
            (readLetters .plain rest).map (prepend letter)
        | more + 1 => readLetters (.digit more (value * 16 + digit)) rest

/-- The number that some digits spell, and what follows them. -/
def readDigits (letters : List Char) : Nat × List Char :=
  (Nat.ofDigitChars 10 (letters.takeWhile Char.isDigit) 0, letters.dropWhile Char.isDigit)

section Lists

variable {α : Type} (read : List Char → Option (α × List Char)) (close : Char)

/-- Items with commas between them up to a closing bracket; `count` bounds how many there are. -/
def readSeparated : (count : Nat) → List Char → Option (List α × List Char)
  | 0, _ => none
  | count + 1, letters => do
      let (item, rest) ← read letters
      match skipBlanks rest with
      | [] => none
      | c :: rest =>
          if c = close then some ([item], rest)
          else if c = ',' then
            (readSeparated count rest).map fun read => (item :: read.1, read.2)
          else none

/-- What stands between brackets, of which the first has been read. -/
def readListed (letters : List Char) : Option (List α × List Char) :=
  match skipBlanks letters with
  | [] => none
  | c :: rest =>
      if c = close then some ([], rest) else readSeparated read close letters.length letters

end Lists

/-- A member of an object. -/
def readMember (read : List Char → Option (Json × List Char)) (letters : List Char) :
    Option ((String × Json) × List Char) :=
  match skipBlanks letters with
  | '"' :: rest => do
      let (key, rest) ← readLetters .plain rest
      match skipBlanks rest with
      | ':' :: rest => do
          let (value, rest) ← read rest
          return ((String.ofList key, value), rest)
      | _ => none
  | _ => none

/-- A document and what follows it; `fuel` bounds how deep the brackets are nested. -/
def readValue : (fuel : Nat) → List Char → Option (Json × List Char)
  | 0, _ => none
  | fuel + 1, letters =>
      match skipBlanks letters with
      | [] => none
      | c :: rest =>
          if c.isDigit then
            let (n, rest) := readDigits (c :: rest)
            some (.number n, rest)
          else match c, rest with
          | '"', rest =>
              (readLetters .plain rest).map fun read => (.text (String.ofList read.1), read.2)
          | '[', rest =>
              (readListed (readValue fuel) ']' rest).map fun read => (.array read.1, read.2)
          | '\x7b', rest =>
              (readListed (readMember (readValue fuel)) '\x7d' rest).map fun read =>
                (.object read.1, read.2)
          | 't', 'r' :: 'u' :: 'e' :: rest => some (.flag true, rest)
          | 'f', 'a' :: 'l' :: 's' :: 'e' :: rest => some (.flag false, rest)
          | _, _ => none

/-- The document that a text spells. -/
def read? (text : String) : Option Json := do
  let (document, rest) ← readValue text.toList.length text.toList
  if skipBlanks rest = [] then some document else none

/-! ## Strings -/

theorem letter?_toNat (c : Char) : letter? c.toNat = some c := by
  have hvalid : c.toNat.isValidChar := c.valid
  rw [letter?, if_pos hvalid, Char.ofNat_toNat]

theorem digitValue?_digitChar : ∀ n < 16, digitValue? (Nat.digitChar n) = some n := by
  decide

/-- A letter is read from the way it is written. -/
theorem readLetters_escape (c : Char) (rest : List Char) :
    readLetters .plain (escape c ++ rest) = (readLetters .plain rest).map (prepend c) := by
  unfold escape
  split
  · rfl
  · rfl
  · rfl
  · rfl
  · rfl
  · rfl
  · rfl
  next hquote hbackslash _ _ _ _ _ =>
    split
    next hcontrol =>
      have hlt : c.toNat < 32 := hcontrol
      have hhigh := digitValue?_digitChar (c.toNat / 16) (by omega)
      have hlow := digitValue?_digitChar (c.toNat % 16) (by omega)
      have hzero : digitValue? '0' = some 0 := by decide
      have hvalue : c.toNat / 16 * 16 + c.toNat % 16 = c.toNat := by omega
      simp [readLetters, hzero, hhigh, hlow, hvalue, letter?_toNat]
    next hplain =>
      rw [List.singleton_append, readLetters, if_neg hquote, if_neg hbackslash, if_neg hplain]

theorem readLetters_flatMap_escape (letters rest : List Char) :
    readLetters .plain (letters.flatMap escape ++ '"' :: rest) = some (letters, rest) := by
  induction letters with
  | nil => rfl
  | cons c letters ih =>
      rw [List.flatMap_cons, List.append_assoc, readLetters_escape, ih]
      rfl

theorem toList_quote (text : String) (rest : List Char) :
    (quote text).toList ++ rest = '"' :: (text.toList.flatMap escape ++ '"' :: rest) := by
  simp [quote]

/-! ## Blanks -/

@[simp] theorem skipBlanks_newline_append (depth : Nat) (letters : List Char) :
    skipBlanks ((newline depth).toList ++ letters) = skipBlanks letters := by
  have hspaces : ∀ c ∈ List.replicate (2 * depth) ' ', isBlank c = true := by
    intro c hc
    rw [List.eq_of_mem_replicate hc]
    rfl
  rw [newline, String.toList_ofList, List.cons_append, skipBlanks,
    List.dropWhile_cons_of_pos (by rfl), List.dropWhile_append_of_pos hspaces, skipBlanks]

theorem skipBlanks_cons {c : Char} (h : isBlank c = false) (rest : List Char) :
    skipBlanks (c :: rest) = c :: rest := by
  rw [skipBlanks, List.dropWhile_cons_of_neg (by simp [h])]

theorem not_isDigit_head?_newline (depth : Nat) (rest : List Char) :
    ∀ c ∈ ((newline depth).toList ++ rest).head?, c.isDigit = false := by
  intro c hc
  obtain rfl : '\n' = c := by simpa [newline] using hc
  rfl

/-- A document may begin with this letter, as it is neither a blank nor a closing bracket. -/
structure Begins (c : Char) : Prop where
  not_blank : isBlank c = false
  ne_bracket : c ≠ ']'
  ne_brace : c ≠ '\x7d'

/-- From `text` the item `a` is read, whatever blanks are before it and unless a digit comes after
it. -/
structure Reads {α : Type} (read : List Char → Option (α × List Char)) (text : List Char) (a : α) :
    Prop where
  begins : ∃ c tail, text = c :: tail ∧ Begins c
  read : ∀ {letters rest}, (∀ c ∈ rest.head?, c.isDigit = false) →
    skipBlanks letters = text ++ rest → read letters = some (a, rest)

theorem Reads.skipBlanks_append {α : Type} {read : List Char → Option (α × List Char)}
    {text : List Char} {a : α} (h : Reads read text a) (rest : List Char) :
    skipBlanks (text ++ rest) = text ++ rest := by
  obtain ⟨c, tail, rfl, hc⟩ := h.begins
  exact skipBlanks_cons hc.not_blank _

/-- A closing bracket. -/
inductive Closes : Char → Prop
  | bracket : Closes ']'
  | brace : Closes '\x7d'

theorem Closes.not_blank {close : Char} (h : Closes close) : isBlank close = false := by
  cases h <;> rfl

theorem Closes.ne_comma {close : Char} (h : Closes close) : ',' ≠ close := by
  cases h <;> decide

theorem Begins.ne_close {c close : Char} (h : Begins c) (hclose : Closes close) : c ≠ close := by
  cases hclose with
  | bracket => exact h.ne_bracket
  | brace => exact h.ne_brace

/-! ## Lists -/

section Lists

variable {α : Type} {read : List Char → Option (α × List Char)} {close : Char}
  {write : α → List Char}

/-- The items after the first, each with what stands before it. -/
def others (depth : Nat) (write : α → List Char) (items : List α) : List Char :=
  items.flatMap fun item => ',' :: ((newline depth).toList ++ write item)

theorem others_cons (depth : Nat) (first : α) (rest : List α) :
    others depth write (first :: rest) =
      ',' :: ((newline depth).toList ++ (write first ++ others depth write rest)) := by
  simp [others]

theorem readSeparated_others {inner outer count : Nat} {first : α} {items : List α}
    {letters rest : List Char} (hclose : Closes close)
    (h : ∀ item ∈ first :: items, Reads read (write item) item) (hcount : items.length < count)
    (hletters : skipBlanks letters = write first ++
      (others inner write items ++ ((newline outer).toList ++ close :: rest))) :
    readSeparated read close count letters = some (first :: items, rest) := by
  induction items generalizing first count letters with
  | nil =>
      obtain ⟨count, rfl⟩ := Nat.exists_eq_succ_of_ne_zero (Nat.ne_zero_of_lt hcount)
      have hfirst := h first List.mem_cons_self
      have hread := hfirst.read (not_isDigit_head?_newline _ _) hletters
      rw [readSeparated, hread]
      simp [skipBlanks_cons hclose.not_blank]
  | cons next items ih =>
      obtain ⟨count, rfl⟩ := Nat.exists_eq_succ_of_ne_zero (Nat.ne_zero_of_lt hcount)
      obtain ⟨hfirst, hitems⟩ := List.forall_mem_cons.mp h
      have hnext := hitems next List.mem_cons_self
      rw [others_cons, List.cons_append, List.append_assoc, List.append_assoc] at hletters
      have hread := hfirst.read (by simp) hletters
      have hrest := ih hitems (Nat.lt_of_succ_lt_succ hcount)
        ((skipBlanks_newline_append inner _).trans (hnext.skipBlanks_append _))
      rw [readSeparated, hread]
      dsimp only [bind, Option.bind]
      rw [skipBlanks_cons (by rfl)]
      dsimp only
      rw [if_neg hclose.ne_comma, if_pos rfl, hrest]
      rfl

/-- What is written between brackets. -/
def listed (depth : Nat) (write : α → List Char) (close : Char) : List α → List Char
  | [] => [close]
  | first :: rest => (newline (depth + 1)).toList ++ (write first ++
      (others (depth + 1) write rest ++ ((newline depth).toList ++ [close])))

theorem length_le_others (depth : Nat) (items : List α) :
    items.length ≤ (others depth write items).length := by
  induction items with
  | nil => exact Nat.le_refl 0
  | cons first rest ih =>
      rw [others_cons, List.length_cons, List.length_cons, List.length_append, List.length_append]
      omega

theorem readListed_listed (depth : Nat) {items : List α} (hclose : Closes close)
    (h : ∀ item ∈ items, Reads read (write item) item) (rest : List Char) :
    readListed read close (listed depth write close items ++ rest) = some (items, rest) := by
  cases items with
  | nil => simp [readListed, listed, skipBlanks_cons hclose.not_blank]
  | cons first items =>
      obtain ⟨hfirst, hitems⟩ := List.forall_mem_cons.mp h
      have hletters : skipBlanks (listed depth write close (first :: items) ++ rest) =
          write first ++ (others (depth + 1) write items ++
            ((newline depth).toList ++ close :: rest)) := by
        rw [listed, List.append_assoc, skipBlanks_newline_append]
        simp only [List.append_assoc, List.singleton_append]
        exact hfirst.skipBlanks_append _
      have hcount : items.length <
          (listed depth write close (first :: items) ++ rest).length := by
        have hle := @length_le_others _ write (depth + 1) items
        simp only [listed, List.length_append, List.length_singleton]
        omega
      have hread := readSeparated_others hclose h hcount hletters
      obtain ⟨c, tail, hfirst', hc⟩ := hfirst.begins
      rw [readListed, hread, hletters, hfirst', List.cons_append]
      dsimp only
      rw [if_neg (hc.ne_close hclose)]

end Lists

/-! ## Documents -/

/-- A member of an object as it is laid out. -/
def writeMember (depth : Nat) (member : String × Json) : List Char :=
  (quote member.1).toList ++ ':' :: ' ' :: (render depth member.2).toList

theorem toList_renderItems (depth : Nat) (items : List Json) :
    (renderItems depth items).toList =
      others depth (fun item => (render depth item).toList) items := by
  induction items with
  | nil => simp [renderItems, others]
  | cons first rest ih => simp [renderItems, others_cons, ih]

theorem toList_renderMembers (depth : Nat) (members : List (String × Json)) :
    (renderMembers depth members).toList = others depth (writeMember depth) members := by
  induction members with
  | nil => simp [renderMembers, others]
  | cons first rest ih => simp [renderMembers, others_cons, writeMember, ih]

theorem toList_render_array (depth : Nat) (items : List Json) :
    (render depth (.array items)).toList =
      '[' :: listed depth (fun item => (render (depth + 1) item).toList) ']' items := by
  cases items with
  | nil => simp [render, listed]
  | cons first rest => simp [render, listed, toList_renderItems]

theorem toList_render_object (depth : Nat) (members : List (String × Json)) :
    (render depth (.object members)).toList =
      '\x7b' :: listed depth (writeMember (depth + 1)) '\x7d' members := by
  cases members with
  | nil => simp [render, listed]
  | cons first rest => simp [render, listed, writeMember, toList_renderMembers]

section Values

variable {fuel depth : Nat}

theorem reads_text (text : String) :
    Reads (readValue (fuel + 1)) (render depth (.text text)).toList (.text text) := by
  have hrender : (render depth (.text text)).toList = (quote text).toList := by rw [render]
  rw [hrender]
  constructor
  · rw [← List.append_nil (quote text).toList, toList_quote]
    exact ⟨_, _, rfl, by decide, by decide, by decide⟩
  · intro letters rest _ hletters
    rw [toList_quote] at hletters
    rw [readValue, hletters]
    simp [readLetters_flatMap_escape]

theorem reads_flag (value : Bool) :
    Reads (readValue (fuel + 1)) (render depth (.flag value)).toList (.flag value) := by
  cases value with
  | true =>
      refine ⟨⟨'t', ['r', 'u', 'e'], by simp [render], by decide, by decide, by decide⟩, ?_⟩
      intro letters rest _ hletters
      rw [readValue, hletters]
      simp [render]
  | false =>
      refine ⟨⟨'f', ['a', 'l', 's', 'e'], by simp [render], by decide, by decide, by decide⟩, ?_⟩
      intro letters rest _ hletters
      rw [readValue, hletters]
      simp [render]

theorem begins_of_isDigit {c : Char} (h : c.isDigit = true) : Begins c := by
  refine ⟨?_, ?_, ?_⟩
  · rw [isBlank, decide_eq_false_iff_not]
    rintro (rfl | rfl | rfl | rfl) <;> cases h
  · rintro rfl
    cases h
  · rintro rfl
    cases h

theorem readDigits_append {digits rest : List Char} (hdigits : ∀ c ∈ digits, c.isDigit = true)
    (hrest : ∀ c ∈ rest.head?, c.isDigit = false) :
    readDigits (digits ++ rest) = (Nat.ofDigitChars 10 digits 0, rest) := by
  rw [readDigits, List.takeWhile_append_of_pos hdigits, List.dropWhile_append_of_pos hdigits]
  cases rest with
  | nil => simp
  | cons c rest =>
      have hc : ¬c.isDigit = true := by simp [hrest c rfl]
      rw [List.takeWhile_cons_of_neg hc, List.dropWhile_cons_of_neg hc, List.append_nil]

theorem reads_number (n : Nat) :
    Reads (readValue (fuel + 1)) (render depth (.number n)).toList (.number n) := by
  have hrender : (render depth (.number n)).toList = Nat.toDigits 10 n := by
    rw [render]
    exact Nat.toList_repr
  have hdigits : ∀ c ∈ Nat.toDigits 10 n, c.isDigit = true := by
    intro c hc
    exact Nat.isDigit_of_mem_toDigits (by decide) (by decide) hc
  obtain ⟨c, tail, hcons⟩ := List.exists_cons_of_ne_nil (@Nat.toDigits_ne_nil n 10)
  have hc := hdigits c (by rw [hcons]; exact List.mem_cons_self)
  rw [hrender]
  refine ⟨⟨c, tail, hcons, begins_of_isDigit hc⟩, ?_⟩
  intro letters rest hrest hletters
  have hread : readDigits (Nat.toDigits 10 n ++ rest) = (n, rest) := by
    rw [readDigits_append hdigits hrest, Nat.ofDigitChars_ten_toDigits]
  rw [readValue, hletters, hcons, List.cons_append]
  dsimp only
  rw [if_pos hc, ← List.cons_append, ← hcons, hread]

theorem reads_array {items : List Json}
    (h : ∀ item ∈ items, Reads (readValue fuel) (render (depth + 1) item).toList item) :
    Reads (readValue (fuel + 1)) (render depth (.array items)).toList (.array items) := by
  rw [toList_render_array]
  refine ⟨⟨_, _, rfl, by decide, by decide, by decide⟩, ?_⟩
  intro letters rest _ hletters
  rw [readValue, hletters]
  simp [readListed_listed depth Closes.bracket h]

theorem reads_member {read : List Char → Option (Json × List Char)} {member : String × Json}
    (h : Reads read (render depth member.2).toList member.2) :
    Reads (readMember read) (writeMember depth member) member := by
  obtain ⟨key, value⟩ := member
  rw [writeMember, toList_quote]
  refine ⟨⟨_, _, rfl, by decide, by decide, by decide⟩, ?_⟩
  intro letters rest hrest hletters
  have hspace : skipBlanks (' ' :: ((render depth value).toList ++ rest)) =
      (render depth value).toList ++ rest := by
    rw [skipBlanks, List.dropWhile_cons_of_pos (by rfl)]
    exact h.skipBlanks_append rest
  have hread := h.read hrest hspace
  have hcolon := skipBlanks_cons (show isBlank ':' = false by rfl)
  rw [readMember, hletters]
  simp [readLetters_flatMap_escape, hcolon, hread]

theorem reads_object {members : List (String × Json)}
    (h : ∀ member ∈ members,
      Reads (readValue fuel) (render (depth + 1) member.2).toList member.2) :
    Reads (readValue (fuel + 1)) (render depth (.object members)).toList (.object members) := by
  rw [toList_render_object]
  refine ⟨⟨_, _, rfl, by decide, by decide, by decide⟩, ?_⟩
  intro letters rest _ hletters
  have hmembers : ∀ member ∈ members,
      Reads (readMember (readValue fuel)) (writeMember (depth + 1) member) member := by
    intro member hmember
    exact reads_member (h member hmember)
  rw [readValue, hletters]
  simp [readListed_listed depth Closes.brace hmembers]

end Values

theorem length_lt_listed {α : Type} (write : α → List Char) {a : α} {items : List α}
    (depth : Nat) (close : Char) (hmem : a ∈ items) :
    (write a).length < (listed depth write close items).length := by
  cases items with
  | nil => cases hmem
  | cons first rest =>
      simp only [listed, List.length_append, List.length_singleton]
      rcases List.mem_cons.mp hmem with rfl | hrest
      · omega
      · have hmap : ',' :: ((newline (depth + 1)).toList ++ write a) ∈
            rest.map fun item => ',' :: ((newline (depth + 1)).toList ++ write item) :=
          List.mem_map_of_mem hrest
        have hle := (List.sublist_flatten_of_mem hmap).length_le
        rw [← List.flatMap_def, List.length_cons, List.length_append] at hle
        rw [others]
        omega

theorem render_ne_nil (depth : Nat) (document : Json) : (render depth document).toList ≠ [] := by
  cases document with
  | text text => simp [render, quote]
  | number n => simp [render]
  | flag value => cases value <;> simp [render]
  | array items => simp [toList_render_array]
  | object members => simp [toList_render_object]

theorem reads_render (document : Json) {fuel depth : Nat}
    (h : (render depth document).toList.length ≤ fuel) :
    Reads (readValue fuel) (render depth document).toList document := by
  -- An item is smaller than the list it is in, and so is its text, for which the fuel is enough.
  induction hsize : sizeOf document using Nat.strong_induction_on
    generalizing document fuel depth with
  | h size ih =>
      subst hsize
      have hpos := List.length_pos_iff.mpr (render_ne_nil depth document)
      obtain ⟨fuel, rfl⟩ := Nat.exists_eq_succ_of_ne_zero (Nat.ne_zero_of_lt (hpos.trans_le h))
      cases document with
      | text text => exact reads_text text
      | number n => exact reads_number n
      | flag value => exact reads_flag value
      | array items =>
          refine reads_array ?_
          intro item hmem
          have hlt : sizeOf item < sizeOf (array items) := by
            have hlt := List.sizeOf_lt_of_mem hmem
            rw [array.sizeOf_spec]
            omega
          have hlength :=
            length_lt_listed (fun item => (render (depth + 1) item).toList) depth ']' hmem
          rw [toList_render_array, List.length_cons] at h
          exact ih _ hlt item (by omega) rfl
      | object members =>
          refine reads_object ?_
          intro member hmem
          have hlt : sizeOf member.2 < sizeOf (object members) := by
            have hlt := List.sizeOf_lt_of_mem hmem
            obtain ⟨key, value⟩ := member
            rw [Prod.mk.sizeOf_spec] at hlt
            rw [object.sizeOf_spec]
            dsimp only
            omega
          have hlength := length_lt_listed (writeMember (depth + 1)) depth '\x7d' hmem
          rw [toList_render_object, List.length_cons] at h
          rw [writeMember, List.length_append, List.length_cons, List.length_cons] at hlength
          exact ih _ hlt member.2 (by omega) rfl

/-- A document is read again from its text. -/
theorem read?_pretty (document : Json) : read? document.pretty = some document := by
  have hreads := reads_render document (Nat.le_refl (render 0 document).toList.length)
  have hread := hreads.read (show ∀ c ∈ ([] : List Char).head?, c.isDigit = false by simp)
    (hreads.skipBlanks_append [])
  rw [List.append_nil] at hread
  rw [read?, pretty, hread]
  rfl

/-- Blanks may stand elsewhere, and a letter may be written by its number. -/
example : read? "\x7b\"a\\u0042\":[ 12 , true ]\x7d" =
    some (.object [("aB", .array [.number 12, .flag true])]) := by
  cbv

end Json
end Freshness
