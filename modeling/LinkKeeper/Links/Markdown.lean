import LinkKeeper.Links.Quoted

/-!
# Links in Markdown

Three ways of writing are read on each line: inline links `[text](target "title")`,
paths in quotes, and bare paths among the words. A line with an inline link is taken
to be linked deliberately, and its bare words are left alone.

The text of an inline link holds no brackets. An image inside a link is therefore
found as the image alone, and the target of the link around it is what follows `)](`.
-/

namespace LinkKeeper.Links.Markdown

open Text

/-- An inline link: the bytes it takes as a whole, its text, and its target. -/
structure Link where
  whole : Span
  text : Option (List Char)
  target : Piece

/-- A character of a link target. -/
def isTargetChar (c : Char) : Bool := !(c == '(' || c == ')' || isBlank c)

/-- After the target: a title in quotes perhaps, and the closing parenthesis. What follows it. -/
def closing? (cs : List Char) : Option (List Char) :=
  match cs.dropWhile isBlank with
  | ')' :: rest => some rest
  | quote :: more =>
      if isQuote quote then
        match splitFirst? quote more with
        | some (_, after) =>
            match after.dropWhile isBlank with
            | ')' :: rest => some rest
            | _ => none
        | none => none
      else none
  | [] => none

/-- The target of a link, read behind its opening parenthesis, and what follows the link. -/
def destination? (cs : List Char) : Option (Piece × List Char) :=
  let lead := cs.takeWhile isBlank
  let inner := cs.dropWhile isBlank
  match inner.takeWhile isTargetChar with
  | [] => none
  | target =>
      (closing? (inner.dropWhile isTargetChar)).map fun rest => (⟨width lead, target⟩, rest)

/--
What a recogniser of links answers: its text, its target with the column counted from
the front of the match, and the bytes of the match.
-/
abbrev Found := Option (List Char) × Piece × Nat

/-- Completes a match that begins with `opening` and goes on behind its last parenthesis. -/
def found? (opening : List Char) (text : Option (List Char)) (cs : List Char) :
    Option (Found × Nat) :=
  (destination? cs).map fun (target, rest) =>
    let behind := cs.take (cs.length - rest.length)
    ((text, target.shift (width opening), width opening + width behind),
      opening.length + behind.length)

/-- Recognises `[text](target)`. -/
def inlineLink : Recogniser Found := fun _ cs =>
  match cs with
  | '[' :: inside =>
      let isText := fun c => !(c == '[' || c == ']')
      let text := inside.takeWhile isText
      match inside.dropWhile isText with
      | ']' :: '(' :: rest => found? ('[' :: text ++ [']', '(']) (some text) rest
      | _ => none
  | _ => none

/-- Recognises `)](target)`, the end of a link around an image. -/
def imageLinkEnd : Recogniser Found := fun _ cs =>
  match cs with
  | ')' :: ']' :: '(' :: rest => found? [')', ']', '('] none rest
  | _ => none

/-- The links a recogniser finds on a line. -/
def linksOf (find : Recogniser Found) (line : List Char) : List Link :=
  (matchesOf find line).map fun (column, text, target, length) =>
    ⟨⟨column, column + length⟩, text, target.shift column⟩

/-- The inline links of a line, and the links around images that are not among them. -/
def links (line : List Char) : List Link :=
  let inline := linksOf inlineLink line
  inline ++ (linksOf imageLinkEnd line).filter fun l =>
    !l.target.span.isClaimed (inline.map (·.whole))

/-- Beginnings of targets that lead out of the project. -/
def externalStarts : List String := ["http://", "https://", "ftp://", "mailto:", "tel:", "//"]

/-- Whether a target leads out of the project, or to a place in the same file. -/
def isExternal (target : List Char) : Bool :=
  ['#'].isPrefixOf target
    || externalStarts.any fun start => start.toList.isPrefixOf (target.map Char.toLower)

/-- The references of one line. -/
def lineReferences (rule : CandidateRule) (source : String) (number : Nat) (line : List Char) :
    List Reference :=
  let links := links line
  let inline := (links.filter fun l => !isExternal l.target.text).map fun l =>
    { referTo source number .markdownInline l.target with anchorText := l.text.map String.ofList }
  let quoted := unclaimed (links.map (·.whole)) (quotedPaths rule line)
  let inQuotes := quoted.map fun p => (⟨p.start - 1, p.stop + 1⟩ : Span)
  let standalone :=
    if links.isEmpty then unclaimed inQuotes (barePaths rule line) else []
  inline ++ quoted.map (referTo source number .markdownQuoted)
    ++ standalone.map (referTo source number .markdownStandalone)

end LinkKeeper.Links.Markdown
