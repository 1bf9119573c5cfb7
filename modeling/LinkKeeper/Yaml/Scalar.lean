import LinkKeeper.Text.Hex
import LinkKeeper.Yaml.Token

/-!
# Scalars of YAML

A scalar is written plain, in single or double quotes, or as a block. In all but literal
blocks a line break folds: one break is a space, further ones are kept.

`Folding` is what lies between two words of a scalar that may run over several lines:
the blanks on the line, or the first break and the further ones.
-/

namespace LinkKeeper.Yaml

/-- What has been seen since the last word of a scalar. -/
structure Folding where
  /-- Whether a break has been passed. -/
  broken : Bool
  blanks : List Char
  first : List Char
  further : List Char

namespace Folding

/-- Nothing between two words. -/
def none : Folding := ⟨false, [], [], []⟩

/-- What stands in the scalar for what lies between two words. -/
def text (f : Folding) : List Char :=
  if f.broken then
    if f.first = ['\n'] then (if f.further.isEmpty then [' '] else f.further)
    else f.first ++ f.further
  else f.blanks

/-- Passes over one blank; those in front of a line count for nothing. -/
def blank (f : Folding) (c : Char) : Folding :=
  if f.broken then f else { f with blanks := f.blanks ++ [c] }

/-- Passes over one break. -/
def lineBreak (f : Folding) (text : List Char) : Folding :=
  if f.broken then { f with further := f.further ++ text }
  else { f with broken := true, blanks := [], first := text }

end Folding

/-- Passes over blanks and breaks. A tab may not stand left of column `least` in front of a line. -/
def foldSpace (least : Option Int) : Nat → Folding → Place → Option (Folding × Place)
  | 0, f, at_ => some (f, at_)
  | fuel + 1, f, at_ =>
      match at_.peek 0 with
      | some c =>
          if isBlank c then
            if c = '\t' ∧ f.broken ∧ least.any (fun n => (at_.column : Int) < n) then none
            else foldSpace least fuel (f.blank c) (at_.skip 1)
          else if isBreak c then foldSpace least fuel (f.lineBreak at_.breakText) at_.skipBreak
          else some (f, at_)
      | none => some (f, at_)

/-! ## Plain scalars -/

/-- The characters of a plain scalar up to a blank or an indicator that ends it. -/
def plainRun (inFlow : Bool) : List Char → Option (List Char)
  | [] => some []
  | c :: cs =>
      let next := cs.head?
      if isBlank c || isBreak c then some []
      else if inFlow && c == ':' && next.any (fun n => isFlowIndicator n || n == '?') then none
      else if (c == ':' && endsWord next) || (inFlow && isFlowIndicator c) then some []
      else (plainRun inFlow cs).map (c :: ·)

/-- Reads a plain scalar on. Answers its text, whether a break was passed behind it, and the place. -/
def plainFrom (inFlow : Bool) (least : Int) :
    Nat → List Char → Folding → Place → Option (List Char × Bool × Place)
  | 0, text, f, at_ => some (text, f.broken, at_)
  | fuel + 1, text, f, at_ =>
      if at_.atDocumentSign || at_.peek 0 == some '#' then some (text, f.broken, at_)
      else do
        let run ← plainRun inFlow at_.rest
        let behind := at_.skip run.length
        let text := if run.isEmpty then text else text ++ f.text ++ run
        let f := if run.isEmpty then f else .none
        if (behind.peek 0).any fun c => isBlank c || isBreak c then
          let (f, next) ← foldSpace (some least) (behind.rest.length + 1) f behind
          if !inFlow && decide ((next.column : Int) < least) then some (text, f.broken, next)
          else plainFrom inFlow least fuel text f next
        else some (text, f.broken, behind)

/-! ## Scalars in quotes -/

/-- The character an escape means, and its length without the backslash. -/
def escape? : List Char → Option (Char × Nat)
  | [] => none
  | c :: cs =>
      let coded (length : Nat) : Option (Char × Nat) := do
        let d ← Text.scalar? (← Text.hexNumber? length cs)
        return (d, length + 1)
      match c with
      | '0' => some ('\x00', 1)
      | 'a' => some ('\x07', 1)
      | 'b' => some ('\x08', 1)
      | 't' => some ('\t', 1)
      | '\t' => some ('\t', 1)
      | 'n' => some ('\n', 1)
      | 'v' => some ('\x0b', 1)
      | 'f' => some ('\x0c', 1)
      | 'r' => some ('\r', 1)
      | 'e' => some ('\x1b', 1)
      | ' ' => some (' ', 1)
      | '"' => some ('"', 1)
      | '/' => some ('/', 1)
      | '\\' => some ('\\', 1)
      | 'N' => some ('\u0085', 1)
      | '_' => some ('\u00a0', 1)
      | 'L' => some ('\u2028', 1)
      | 'P' => some ('\u2029', 1)
      | 'x' => coded 2
      | 'u' => coded 4
      | 'U' => coded 8
      | _ => none

/--
Reads a word in quotes on, up to a blank, a break, the closing quote, or an escaped
break. Answers the word, last character first, whether a break was escaped, and the place.
-/
def quotedRun (single : Bool) : Nat → List Char → Place → Option (List Char × Bool × Place)
  | 0, word, at_ => some (word, false, at_)
  | fuel + 1, word, at_ =>
      match at_.peek 0 with
      | none => some (word, false, at_)
      | some c =>
          if isBlank c || isBreak c then some (word, false, at_)
          else if single then
            if c = '\'' then
              if at_.peek 1 = some '\'' then quotedRun single fuel ('\'' :: word) (at_.skip 2)
              else some (word, false, at_)
            else quotedRun single fuel (c :: word) (at_.skip 1)
          else if c = '"' then some (word, false, at_)
          else if c = '\\' then
            if (at_.peek 1).any isBreak then some (word, true, (at_.skip 1).skipBreak)
            else
              match escape? (at_.rest.drop 1) with
              | some (d, length) => quotedRun single fuel (d :: word) (at_.skip (length + 1))
              | none => none
          else quotedRun single fuel (c :: word) (at_.skip 1)

/-- Reads a scalar in quotes on, from behind its opening quote. -/
def quotedFrom (single : Bool) : Nat → List Char → Place → Option (List Char × Place)
  | 0, _, _ => none
  | fuel + 1, text, at_ =>
      if at_.atDocumentSign || (at_.peek 0).isNone then none
      else do
        let (word, escaped, behind) ← quotedRun single (at_.rest.length + 1) [] at_
        let text := text ++ word.reverse
        let closing := if single then '\'' else '"'
        if behind.peek 0 = some closing then some (text, behind.skip 1)
        else
          let (f, next) ← foldSpace Option.none (behind.rest.length + 1)
            { Folding.none with broken := escaped } behind
          quotedFrom single fuel (text ++ f.text) next

/-! ## Block scalars -/

/-- What the header of a block says about the breaks at its end. -/
inductive Chomping where
  | strip
  | clip
  | keep
  deriving DecidableEq

/-- What the sign for the breaks at the end says. -/
def Chomping.ofSign? : Option Char → Option Chomping
  | some '+' => some .keep
  | some '-' => some .strip
  | _ => none

/-- A digit for the indentation, if one is here; zero is none. -/
def indentDigit? (at_ : Place) : Option (Option Nat × Place) :=
  match at_.peek 0 with
  | some c =>
      if c.isDigit then
        if c = '0' then none else some (some (c.toNat - '0'.toNat), at_.skip 1)
      else some (Option.none, at_)
  | none => some (Option.none, at_)

/-- The two signs of a header, in either order. -/
def blockHeader? (at_ : Place) : Option (Chomping × Option Nat × Place) :=
  match Chomping.ofSign? (at_.peek 0) with
  | some chomping => do
      let (increment, at_) ← indentDigit? (at_.skip 1)
      return (chomping, increment, at_)
  | none => do
      let (increment, at_) ← indentDigit? at_
      if increment.isSome then
        match Chomping.ofSign? (at_.peek 0) with
        | some chomping => return (chomping, increment, at_.skip 1)
        | none => return (.clip, increment, at_)
      else return (.clip, increment, at_)

/--
Passes over the empty lines of a block and the indentation of the next line. While the
indentation is not known, all spaces count; a tab may not take part in it. Answers the
breaks, the greatest column seen, and the place.
-/
def blockBreaks (indent : Option Nat) :
    Nat → Nat → List Char → Place → Option (List Char × Nat × Place)
  | 0, widest, breaks, at_ => some (breaks, widest, at_)
  | fuel + 1, widest, breaks, at_ =>
      let spaces := (at_.rest.takeWhile (· == ' ')).length
      let at_ := at_.skip (match indent with
        | some n => min spaces (n - at_.column)
        | none => spaces)
      let widest := max widest at_.column
      if at_.peek 0 = some '\t' ∧ indent.all (fun n => at_.column < n) then none
      else if (at_.peek 0).any isBreak then
        blockBreaks indent fuel widest (breaks ++ at_.breakText) at_.skipBreak
      else some (breaks, widest, at_)

/-- The lines of a block, with the first break and the further ones that wait to be written. -/
def blockLines (literal : Bool) (indent : Nat) :
    Nat → List Char → List Char → List Char → Bool → Place →
      Option (List Char × List Char × List Char × Place)
  | 0, text, first, further, _, at_ => some (text, first, further, at_)
  | fuel + 1, text, first, further, wasBlank, at_ =>
      if at_.column = indent ∧ (at_.peek 0).isSome then do
        let isBlankLine := (at_.peek 0).any isBlank
        let joint :=
          if !literal && first == ['\n'] && !wasBlank && !isBlankLine then
            if further.isEmpty then [' '] else []
          else first
        let (body, behind) := at_.take fun c => !isBreak c
        let (breaks, _, next) ← blockBreaks (some indent) (behind.rest.length + 1) 0 []
          behind.skipBreak
        blockLines literal indent fuel (text ++ joint ++ further ++ body) behind.breakText breaks
          isBlankLine next
      else some (text, first, further, at_)

/-- Reads a block scalar from behind its indicator; `outer` is the indentation around it. -/
def block? (literal : Bool) (outer : Int) (at_ : Place) : Option (List Char × Place) := do
  let (chomping, increment, at_) ← blockHeader? at_
  let at_ := (at_.skipAll isBlank).skipComment
  if !at_.atLineEnd then none
  else
    let at_ := at_.skipBreak
    let fuel := at_.rest.length + 1
    let known := increment.map fun n => (if 0 ≤ outer then outer + n else n).toNat
    let (breaks, widest, at_) ← blockBreaks known fuel 0 [] at_
    let indent := known.getD (max widest (max (outer + 1).toNat 1))
    let (text, first, further, at_) ← blockLines literal indent fuel [] [] breaks false at_
    let text := if chomping = .strip then text else text ++ first
    return (if chomping = .keep then text ++ further else text, at_)

end LinkKeeper.Yaml
