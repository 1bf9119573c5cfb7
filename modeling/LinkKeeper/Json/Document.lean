import LinkKeeper.Json.Literal
import LinkKeeper.Text.Basic

/-!
# JSON documents

A document is read strictly, into a tree that keeps of its scalars only the strings,
each with the byte where it stands. Objects and lists may be nested 127 deep.

The reader goes down the text once. Every step takes at least one character, so twice
the length of the text, and a little, bounds the steps.
-/

namespace LinkKeeper.Json

open Text

/-- A value: a string, a list, an object with its members in order, or anything else. -/
inductive Value where
  | text (literal : Literal)
  | list (items : List Value)
  | object (members : List (Literal × Value))
  | scalar

/-- The four blanks of the format. -/
def isSpace (c : Char) : Bool := c == ' ' || c == '\n' || c == '\t' || c == '\r'

/-- Passes over blanks, each of which is one byte. -/
def skipSpace (offset : Nat) : List Char → Nat × List Char
  | [] => (offset, [])
  | c :: cs => if isSpace c then skipSpace (offset + 1) cs else (offset, c :: cs)

/-- How deep values may be nested. -/
def deepest : Nat := 127

/-- Passes over the rest of a word such as `true`. -/
def keyword? (word : String) (cs : List Char) : Option (List Char) :=
  word.toList.isPrefixOf? cs

/-- A string behind its opening quote, as a literal, with the place behind it. -/
def literal? (offset : Nat) (cs : List Char) : Option (Literal × Nat × List Char) :=
  (readString 0 [] [] cs).map fun (raw, decoded, rest) =>
    (⟨offset, raw, decoded⟩, offset + width raw + 1, rest)

mutual

/-- The value at the front of the text, with the place behind it. -/
def value? : Nat → Nat → Nat → List Char → Option (Value × Nat × List Char)
  | 0, _, _, _ => none
  | fuel + 1, depth, offset, cs =>
      match skipSpace offset cs with
      | (_, []) => none
      | (offset, c :: cs) =>
          if c = '"' then
            (literal? (offset + 1) cs).map fun (l, place) => (.text l, place)
          else if c = '[' then
            match depth with
            | 0 => none
            | depth + 1 =>
                match skipSpace (offset + 1) cs with
                | (offset, ']' :: rest) => some (.list [], offset + 1, rest)
                | (offset, rest) => items? fuel depth [] offset rest
          else if c = '\x7b' then
            match depth with
            | 0 => none
            | depth + 1 =>
                match skipSpace (offset + 1) cs with
                | (offset, '\x7d' :: rest) => some (.object [], offset + 1, rest)
                | (offset, rest) => members? fuel depth [] offset rest
          else if c = 't' then
            (keyword? "rue" cs).map fun rest => (.scalar, offset + 4, rest)
          else if c = 'f' then
            (keyword? "alse" cs).map fun rest => (.scalar, offset + 5, rest)
          else if c = 'n' then
            (keyword? "ull" cs).map fun rest => (.scalar, offset + 4, rest)
          else
            (number? (c :: cs)).map fun rest =>
              (.scalar, offset + (cs.length + 1 - rest.length), rest)

/-- The items of a list from the next one on; those before it come last first. -/
def items? : Nat → Nat → List Value → Nat → List Char → Option (Value × Nat × List Char)
  | 0, _, _, _, _ => none
  | fuel + 1, depth, before, offset, cs =>
      match value? fuel depth offset cs with
      | none => none
      | some (item, offset, rest) =>
          match skipSpace offset rest with
          | (offset, ',' :: rest) => items? fuel depth (item :: before) (offset + 1) rest
          | (offset, ']' :: rest) => some (.list (item :: before).reverse, offset + 1, rest)
          | _ => none

/-- The members of an object from the next one on; those before it come last first. -/
def members? : Nat → Nat → List (Literal × Value) → Nat → List Char →
    Option (Value × Nat × List Char)
  | 0, _, _, _, _ => none
  | fuel + 1, depth, before, offset, cs =>
      match skipSpace offset cs with
      | (offset, '"' :: rest) =>
          match literal? (offset + 1) rest with
          | none => none
          | some (key, offset, rest) =>
              match skipSpace offset rest with
              | (offset, ':' :: rest) =>
                  match value? fuel depth (offset + 1) rest with
                  | none => none
                  | some (value, offset, rest) =>
                      match skipSpace offset rest with
                      | (offset, ',' :: rest) =>
                          members? fuel depth ((key, value) :: before) (offset + 1) rest
                      | (offset, '\x7d' :: rest) =>
                          some (.object ((key, value) :: before).reverse, offset + 1, rest)
                      | _ => none
              | _ => none
      | _ => none

end

/-- The value that is the whole text. -/
def parse? (cs : List Char) : Option Value :=
  match value? (2 * cs.length + 2) deepest 0 cs with
  | some (value, offset, rest) =>
      if (skipSpace offset rest).2.isEmpty then some value else none
  | none => none

namespace Value

/-- What a reader of strings is told: the key that governs the string, and the string. -/
abbrev Governed := Option (List Char) × Literal

mutual

/--
The strings of a value in the order of the text. A string is governed by the key of the
member it is the value of; a list hands on the key it stands under.
-/
def strings (key : Option (List Char)) : Value → List Governed
  | .text l => [(key, l)]
  | .list items => stringsOfItems key items
  | .object members => stringsOfMembers members
  | .scalar => []

/-- The strings of the items of a list. -/
def stringsOfItems (key : Option (List Char)) : List Value → List Governed
  | [] => []
  | item :: items => strings key item ++ stringsOfItems key items

/-- The strings of the members of an object. -/
def stringsOfMembers : List (Literal × Value) → List Governed
  | [] => []
  | (key, value) :: members => strings (some key.decoded) value ++ stringsOfMembers members

end

end Value

end LinkKeeper.Json
