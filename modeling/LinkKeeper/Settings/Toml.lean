import LinkKeeper.Number.Decimal

/-!
# Flat TOML

The settings file is TOML in which every key stands at the top and holds a truth value,
a number, a text or a list of texts. This reads exactly that part of the language; a
file with tables, dates or nested lists cannot be a settings file, and is refused with
those that are no TOML at all.
-/

namespace LinkKeeper.Toml

open Text Number

/-- A value of a setting. -/
inductive Value where
  | bool (b : Bool)
  | integer (n : Int)
  | real (x : Binary64)
  | text (s : String)
  | texts (items : List String)
  deriving DecidableEq, Repr

/-! ## Space -/

/-- White space inside a line. -/
def isSpace (c : Char) : Bool := c == ' ' || c == '\t'

/-- A character that may stand in a text or a comment. -/
def isVisible (c : Char) : Bool :=
  c == '\t' || (0x20 ≤ c.toNat && c.toNat ≤ 0x7E) || 0x80 ≤ c.toNat

/-- Passes over white space inside a line. -/
def skipSpace (cs : List Char) : List Char := cs.dropWhile isSpace

/-- What follows a line break. -/
def lineBreak? : List Char → Option (List Char)
  | '\n' :: rest => some rest
  | '\r' :: '\n' :: rest => some rest
  | _ => none

/-- Passes over a comment, if there is one. -/
def skipComment : List Char → List Char
  | '#' :: rest => rest.dropWhile isVisible
  | cs => cs

/-- What follows the line break, behind white space and a comment. -/
def restOfLine? (cs : List Char) : Option (List Char) :=
  match skipComment (skipSpace cs) with
  | [] => some []
  | rest => lineBreak? rest

/-- Passes over white space, comments and line breaks. -/
def skipLines : Nat → List Char → List Char
  | 0, cs => cs
  | fuel + 1, cs =>
      let cs := skipComment (skipSpace cs)
      match lineBreak? cs with
      | some rest => skipLines fuel rest
      | none => cs

/-! ## Texts -/

/-- The character that an escape means, and how many characters it takes behind the backslash. -/
def escape? : List Char → Option (Char × Nat)
  | [] => none
  | c :: cs =>
      let coded (length : Nat) : Option (Char × Nat) := do
        let d ← scalar? (← hexNumber? length cs)
        return (d, length + 1)
      match c with
      | 'b' => some ('\x08', 1)
      | 'f' => some ('\x0c', 1)
      | 'n' => some ('\n', 1)
      | 'r' => some ('\r', 1)
      | 't' => some ('\t', 1)
      | '"' => some ('"', 1)
      | '\\' => some ('\\', 1)
      | 'u' => coded 4
      | 'U' => coded 8
      | _ => none

/-- Passes over white space and line breaks. -/
def skipGap : List Char → List Char
  | [] => []
  | '\r' :: '\n' :: cs => skipGap cs
  | c :: cs => if isSpace c || c == '\n' then skipGap cs else c :: cs

/-- What follows an escaped line break, which takes all white space behind it along. -/
def escapedBreak? (cs : List Char) : Option (List Char) :=
  (lineBreak? (skipSpace cs)).map skipGap

/-- Reads a text up to its closing quote; `done` holds its characters, last first. -/
def textBody (quote : Char) (long : Bool) :
    Nat → List Char → List Char → Option (List Char × List Char)
  | 0, _, _ => none
  | _, _, [] => none
  | fuel + 1, done, c :: cs =>
      if c = quote then
        if long then
          let run := ((c :: cs).takeWhile (· == quote)).length
          if run < 3 then textBody quote long fuel (c :: done) cs
          else
            let inside := min (run - 3) 2
            some (done.reverse ++ List.replicate inside quote, (c :: cs).drop (inside + 3))
        else some (done.reverse, cs)
      else if c = '\\' ∧ quote = '"' then
        match if long then escapedBreak? cs else none with
        | some rest => textBody quote long fuel done rest
        | none =>
            match escape? cs with
            | some (d, length) => textBody quote long fuel (d :: done) (cs.drop length)
            | none => none
      else if isVisible c then textBody quote long fuel (c :: done) cs
      else
        match if long then lineBreak? (c :: cs) else none with
        | some rest => textBody quote long fuel ('\n' :: done) rest
        | none => none

/-- Reads a text on one line, from its opening quote. -/
def shortText? (cs : List Char) : Option (List Char × List Char) :=
  match cs with
  | '"' :: rest => textBody '"' false (rest.length + 1) [] rest
  | '\'' :: rest => textBody '\'' false (rest.length + 1) [] rest
  | _ => none

/-- Reads a text. Three quotes open one that may hold line breaks; a first one does not count. -/
def text? (cs : List Char) : Option (List Char × List Char) :=
  let long (quote : Char) (rest : List Char) :=
    let rest := (lineBreak? rest).getD rest
    textBody quote true (rest.length + 1) [] rest
  match cs with
  | '"' :: '"' :: '"' :: rest => long '"' rest
  | '\'' :: '\'' :: '\'' :: rest => long '\'' rest
  | _ => shortText? cs

/-! ## Numbers -/

/-- Digits without the underscores that may stand between two of them. -/
def digits? (isDigit : Char → Bool) : List Char → Option (List Char)
  | [] => none
  | [c] => if isDigit c then some [c] else none
  | c :: '_' :: cs => if isDigit c then (digits? isDigit cs).map (c :: ·) else none
  | c :: cs => if isDigit c then (digits? isDigit cs).map (c :: ·) else none

/-- The digits of a whole number, which begin with no needless zero. -/
def wholeDigits? (cs : List Char) : Option (List Char) :=
  match digits? Char.isDigit cs with
  | some ('0' :: _ :: _) => none
  | other => other

/-- The largest integer. -/
def largest : Nat := 0x7fffffffffffffff

/-- An integer. One in another base than ten has no sign. -/
def integer? (cs : List Char) : Option Int := do
  let based (base : Nat) (rest : List Char) : Option Int := do
    let ds ← digits? (fun c => (hexDigit? c).any (· < base)) rest
    let n ← number? base ds
    if n ≤ largest then some n else none
  match cs with
  | '0' :: 'x' :: rest => based 16 rest
  | '0' :: 'o' :: rest => based 8 rest
  | '0' :: 'b' :: rest => based 2 rest
  | _ =>
      let (negative, unsigned) := leadingSign cs
      let n := decimal (← wholeDigits? unsigned)
      if negative then if n ≤ largest + 1 then some (-n) else none
      else if n ≤ largest then some n else none

/-- The digits behind a point, if there is one, and what follows them. -/
def fraction? (cs : List Char) : Option (List Char × List Char) :=
  match cs with
  | '.' :: rest => do
      let isPart (c : Char) := c.isDigit || c == '_'
      let ds ← digits? Char.isDigit (rest.takeWhile isPart)
      return ('.' :: ds, rest.dropWhile isPart)
  | _ => some ([], cs)

/-- An exponent, without its underscores. -/
def exponent? (cs : List Char) : Option (List Char) :=
  match cs with
  | [] => some []
  | e :: rest =>
      if e = 'e' ∨ e = 'E' then
        let sign := rest.takeWhile fun c => c == '+' || c == '-'
        if 1 < sign.length then none
        else (digits? Char.isDigit (rest.drop sign.length)).map fun ds => 'e' :: sign ++ ds
      else none

/-- A real number: a decimal with a point or an exponent, or a word. Decimals that are too large are refused, but not those that are too small. -/
def real? (cs : List Char) : Option Binary64 := do
  let (negative, unsigned) := leadingSign cs
  if unsigned = "inf".toList then return .infinite negative
  if unsigned = "nan".toList then return .notANumber
  let isWhole (c : Char) := c.isDigit || c == '_'
  let whole ← wholeDigits? (unsigned.takeWhile isWhole)
  let (part, rest) ← fraction? (unsigned.dropWhile isWhole)
  let power ← exponent? rest
  if part.isEmpty && power.isEmpty then none
  else
    let x ← Binary64.ofText? ((if negative then ['-'] else []) ++ whole ++ part ++ power)
    if x = .infinite false then none else some x

/-! ## Values and entries -/

/-- Reads the items of a list on, from behind the bracket or a comma. -/
def items : Nat → List String → List Char → Option (List String × List Char)
  | 0, _, _ => none
  | fuel + 1, done, cs =>
      let cs := skipLines (cs.length + 1) cs
      match cs with
      | ']' :: rest => some (done.reverse, rest)
      | _ => do
          let (item, rest) ← text? cs
          let done := String.ofList item :: done
          match skipLines (rest.length + 1) rest with
          | ',' :: rest => items fuel done rest
          | ']' :: rest => some (done.reverse, rest)
          | _ => none

/-- Whether a character ends a word that is a truth value or a number. -/
def endsWord (c : Char) : Bool := isSpace c || c == '\n' || c == '\r' || c == '#'

/-- What a word means. -/
def word? (cs : List Char) : Option Value :=
  if cs = "true".toList then some (.bool true)
  else if cs = "false".toList then some (.bool false)
  else
    match integer? cs with
    | some n => some (.integer n)
    | none => (real? cs).map .real

/-- Reads a value. -/
def value? (cs : List Char) : Option (Value × List Char) :=
  match cs with
  | [] => none
  | c :: rest =>
      if c = '[' then (items (rest.length + 1) [] rest).map fun (list, rest) => (.texts list, rest)
      else if c = '"' ∨ c = '\'' then
        (text? cs).map fun (text, rest) => (.text (String.ofList text), rest)
      else
        (word? (cs.takeWhile fun c => !endsWord c)).map fun value =>
          (value, cs.dropWhile fun c => !endsWord c)

/-- Reads a key: a word, or a text on one line. -/
def key? (cs : List Char) : Option (String × List Char) :=
  let isBare (c : Char) := c.isAlphanum || c == '_' || c == '-'
  match cs.takeWhile isBare with
  | [] => (shortText? cs).map fun (text, rest) => (String.ofList text, rest)
  | bare => some (String.ofList bare, cs.dropWhile isBare)

/-- Reads entries, each on a line of its own; no key may come twice. -/
def entriesFrom : Nat → List (String × Value) → List Char → Option (List (String × Value))
  | 0, _, _ => none
  | fuel + 1, done, cs =>
      match skipLines (cs.length + 1) cs with
      | [] => some done.reverse
      | cs => do
          let (key, rest) ← key? cs
          match skipSpace rest with
          | '=' :: rest => do
              let (value, rest) ← value? (skipSpace rest)
              let rest ← restOfLine? rest
              if done.any (·.1 == key) then none
              else entriesFrom fuel ((key, value) :: done) rest
          | _ => none

/-- The entries of a file. A byte order mark in front does not count. -/
def entries? (content : String) : Option (List (String × Value)) :=
  let cs := match content.toList with
    | '\uFEFF' :: rest => rest
    | cs => cs
  entriesFrom (cs.length + 1) [] cs

end LinkKeeper.Toml
