import LinkKeeper.Reference

/-!
# References as JSON

A listing of references for other programs: an array of objects, two blanks deeper at
each level, members in the order of their names. Texts stand as they are, except for what
JSON has to escape.
-/

namespace LinkKeeper.Json

/-- The two hexadecimal digits of a number below 256. -/
def hexByte (n : Nat) : List Char := [Nat.digitChar (n / 16), Nat.digitChar (n % 16)]

/-- One character as it stands in a text. -/
def printChar (c : Char) : List Char :=
  if c = '"' then ['\\', '"']
  else if c = '\\' then ['\\', '\\']
  else if c = '\n' then ['\\', 'n']
  else if c = '\r' then ['\\', 'r']
  else if c = '\t' then ['\\', 't']
  else if c = '\x08' then ['\\', 'b']
  else if c = '\x0c' then ['\\', 'f']
  else if c.toNat < 0x20 then ['\\', 'u', '0', '0'] ++ hexByte c.toNat
  else [c]

/-- A text. -/
def printText (s : String) : String :=
  String.ofList ('"' :: s.toList.flatMap printChar ++ ['"'])

/-- The members of a reference, each with its name. -/
def members (r : Reference) : List (String × String) := [
  ("anchor_text", (r.anchorText.map printText).getD "null"),
  ("column_end", toString r.columnEnd),
  ("column_start", toString r.columnStart),
  ("kind", printText r.kind.label),
  ("line", toString r.line),
  ("source", printText r.source),
  ("target", printText r.target)]

/-- A reference, as an object inside an array. -/
def printReference (r : Reference) : String :=
  let lines := (members r).map fun (name, value) => "    " ++ printText name ++ ": " ++ value
  "  \x7b\n" ++ String.intercalate ",\n" lines ++ "\n  \x7d"

/-- References, as an array. -/
def printReferences (references : List Reference) : String :=
  if references.isEmpty then "[]"
  else "[\n" ++ String.intercalate ",\n" (references.map printReference) ++ "\n]"

end LinkKeeper.Json
