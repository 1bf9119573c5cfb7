import LinkKeeper.Yaml.Scalar

/-!
# Cutting a YAML stream into tokens

The cutter goes through the stream once. Two things make its work more than cutting.

*Indentation.* Outside flow collections, a token further in than the one before opens a
block collection, and a token further out closes those it has left.

*Keys.* What turns out to be a key is seen only at the colon behind it. Where a key may
stand, the cutter remembers the place; at the colon it puts a key token, and the start
of a mapping if there is none, in front of the token it remembers. A key must end on
its line and within 1024 characters; a key that has to be one, because it stands at the
indentation of a block mapping, is an error if it does not.
-/

namespace LinkKeeper.Yaml

/-- A place where a key may have begun. -/
structure PendingKey where
  /-- Whether nothing but a key may stand there. -/
  required : Bool
  /-- The number of tokens before it. -/
  token : Nat
  index : Nat
  line : Nat
  column : Nat

/-- The state of the cutter. -/
structure Scanner where
  place : Place
  tokens : Array Token
  /-- The indentation of the block at hand, and of those around it. -/
  indent : Int
  outer : List Int
  /-- Whether a key may begin here. -/
  keyAllowed : Bool
  /-- The pending key of the flow collection at hand, or of the block. -/
  pending : Option PendingKey
  /-- The same for the collections around it, one for each level of flow. -/
  around : List (Option PendingKey)

namespace Scanner

/-- The cutter at the front of a stream. -/
def start (cs : List Char) : Scanner :=
  ⟨.start cs, #[], -1, [], true, none, []⟩

/-- Whether the cutter is inside a flow collection. -/
def inFlow (s : Scanner) : Bool := !s.around.isEmpty

/-- The longest a key may be. -/
def longestKey : Nat := 1024

/-- The character `n` places on. -/
def peek (s : Scanner) (n : Nat) : Option Char := s.place.peek n

/-- Adds a token. -/
def push (s : Scanner) (t : Token) : Scanner := { s with tokens := s.tokens.push t }

/-- Passes over characters of the line. -/
def skip (s : Scanner) (n : Nat) : Scanner := { s with place := s.place.skip n }

/-- Says whether a key may begin next. -/
def allowKey (s : Scanner) (allowed : Bool) : Scanner := { s with keyAllowed := allowed }

/-! ## Keys -/

/-- Whether a pending key is out of reach: on an earlier line, or too far back. -/
def isStale (at_ : Place) (k : PendingKey) : Bool :=
  k.line < at_.line || k.index + longestKey < at_.index

/-- Forgets a pending key that is out of reach; one that was required is an error. -/
def freshen (at_ : Place) : Option PendingKey → Option (Option PendingKey)
  | some k => if isStale at_ k then (if k.required then none else some none) else some (some k)
  | none => some none

/-- Forgets the pending keys that are out of reach. -/
def dropStale (s : Scanner) : Option Scanner := do
  let pending ← freshen s.place s.pending
  let around ← s.around.mapM (freshen s.place)
  return { s with pending, around }

/-- Forgets the pending key at hand; one that was required is an error. -/
def forgetKey (s : Scanner) : Option Scanner :=
  if s.pending.any (·.required) then none else some { s with pending := none }

/-- Remembers this place as one where a key may begin. -/
def rememberKey (s : Scanner) : Option Scanner :=
  if s.keyAllowed then do
    let s ← s.forgetKey
    let required := !s.inFlow && s.indent == (s.place.column : Int)
    let key : PendingKey :=
      ⟨required, s.tokens.size, s.place.index, s.place.line, s.place.column⟩
    return { s with pending := some key }
  else some s

/-! ## Indentation -/

/-- Opens a block collection at a column, with its token at a place among the tokens. -/
def roll (s : Scanner) (column : Nat) (token : Nat) (opening : Token) : Scanner :=
  if !s.inFlow && s.indent < (column : Int) then
    { s with outer := s.indent :: s.outer, indent := column,
             tokens := s.tokens.insertIdxIfInBounds token opening }
  else s

/-- Closes the blocks that are further in than a column; `outer` are those around. -/
def unrollFrom (column : Int) (s : Scanner) : List Int → Scanner
  | [] => s
  | indent :: outer =>
      if column < s.indent then
        unrollFrom column { s.push .blockEnd with indent, outer } outer
      else s

/-- Closes the blocks that are further in than a column. -/
def unroll (s : Scanner) (column : Int) : Scanner :=
  if s.inFlow then s else unrollFrom column s s.outer

/-- What every token at the front of a line does: it ends all blocks and all keys. -/
def leaveAll (s : Scanner) : Option Scanner := do
  let s ← (s.unroll (-1)).forgetKey
  return s.allowKey false

/-! ## Directives and properties -/

/-- A number of a version: at most nine digits. -/
def versionNumber? (at_ : Place) : Option (Nat × Place) :=
  let (digits, behind) := at_.take Char.isDigit
  if digits.isEmpty || 9 < digits.length then none else some (Text.decimal digits, behind)

/-- The byte that a percent sign and two hexadecimal digits spell. -/
def escapedByte? (cs : List Char) : Option Nat :=
  match cs with
  | '%' :: rest => Text.hexNumber? 2 rest
  | _ => none

/-- The number of bytes of the character that begins with a byte. -/
def sequenceLength? (n : Nat) : Option Nat :=
  if n < 0x80 then some 1
  else if n / 0x20 = 6 then some 2
  else if n / 0x10 = 0xE then some 3
  else if n / 8 = 0x1E then some 4
  else none

/-- Escapes for the further bytes of a character. -/
def escapedTail? : Nat → List Char → Option (List UInt8)
  | 0, _ => some []
  | n + 1, cs => do
      let b ← escapedByte? cs
      if b / 0x40 = 2 then return UInt8.ofNat b :: (← escapedTail? n (cs.drop 3)) else none

/-- The bytes of a character written as escapes. -/
def escapedChar? (cs : List Char) : Option (List UInt8) := do
  let b ← escapedByte? cs
  let length ← sequenceLength? b
  return UInt8.ofNat b :: (← escapedTail? (length - 1) (cs.drop 3))

/-- A character that an address may hold; brackets and commas only where nothing else could be meant. -/
def isAddressChar (verbatim : Bool) (c : Char) : Bool :=
  isNameChar c || ";/?:@&=+$.%!~*'()".toList.contains c
    || (verbatim && [',', '[', ']'].contains c)

/-- Reads an address on: the escapes to be passed over, and the bytes so far. -/
def addressFrom (verbatim : Bool) : Nat → Tag → List Char → Option (Tag × List Char)
  | _, done, [] => some (done, [])
  | skip + 1, done, _ :: cs => addressFrom verbatim skip done cs
  | 0, done, c :: cs =>
      if c = '%' then
        match escapedChar? (c :: cs) with
        | some bytes => addressFrom verbatim (3 * bytes.length - 1) (done ++ bytes) cs
        | none => none
      else if isAddressChar verbatim c then
        addressFrom verbatim 0 (done ++ [UInt8.ofNat c.toNat]) cs
      else some (done, c :: cs)

/-- An address behind the part of it that was first taken for a handle. A zero byte ends what counts of it. -/
def address? (verbatim : Bool) (head : List Char) (at_ : Place) : Option (Tag × Place) := do
  let (bytes, rest) ← addressFrom verbatim 0 (asciiBytes (head.drop 1)) at_.rest
  let length := at_.rest.length - rest.length
  if head.isEmpty && length = 0 then none
  else some (bytes.takeWhile (· != 0), at_.skip length)

/-- An exclamation mark, a name perhaps, and a second mark perhaps. -/
def handle? (inDirective : Bool) (at_ : Place) : Option (List Char × Place) :=
  if at_.peek 0 = some '!' then
    let (name, behind) := (at_.skip 1).take isNameChar
    if behind.peek 0 = some '!' then some ('!' :: name ++ ['!'], behind.skip 1)
    else if inDirective && !name.isEmpty then none
    else some ('!' :: name, behind)
  else none

/-- Whether a handle ends in a second mark. -/
def isClosedHandle (handle : List Char) : Bool := 2 ≤ handle.length && handle.getLast? == some '!'

/-- A tag: verbatim, with a handle, or a mark and an address. -/
def tag? (inFlow : Bool) (at_ : Place) : Option (Token × Place) := do
  let (token, behind) ←
    if at_.peek 1 = some '<' then do
      let (suffix, behind) ← address? true [] (at_.skip 2)
      if behind.peek 0 = some '>' then some (Token.tag [] suffix, behind.skip 1) else none
    else do
      let (handle, behind) ← handle? false at_
      if isClosedHandle handle then do
        let (suffix, behind) ← address? false [] behind
        some (Token.tag handle suffix, behind)
      else do
        let (suffix, behind) ← address? false handle behind
        if suffix.isEmpty then some (Token.tag [] (asciiBytes ['!']), behind)
        else some (Token.tag ['!'] suffix, behind)
  if endsWord (behind.peek 0) || (inFlow && behind.peek 0 == some ',') then some (token, behind)
  else none

/-- A directive: its token, and the place on the next line. -/
def directive? (at_ : Place) : Option (Token × Place) := do
  let (name, behind) := (at_.skip 1).take isNameChar
  if name.isEmpty || !endsWord (behind.peek 0) then none
  else
    let (token, behind) ←
      if name = "YAML".toList then do
        let (major, behind) ← versionNumber? (behind.skipAll isBlank)
        if behind.peek 0 = some '.' then do
          let (minor, behind) ← versionNumber? (behind.skip 1)
          some (Token.versionDirective major minor, behind)
        else none
      else if name = "TAG".toList then do
        let (handle, behind) ← handle? true (behind.skipAll isBlank)
        if (behind.peek 0).any isBlank then do
          let (expansion, behind) ← address? true [] (behind.skipAll isBlank)
          if endsWord (behind.peek 0) then some (Token.tagDirective handle expansion, behind)
          else none
        else none
      else none
    let behind := (behind.skipAll isBlank).skipComment
    if behind.atLineEnd then some (token, behind.skipBreak) else none

/-- The name of an anchor or an alias, behind its sign. -/
def anchorName? (at_ : Place) : Option (List Char × Place) :=
  let (name, behind) := at_.take isNameChar
  let ends := endsWord (behind.peek 0)
    || (behind.peek 0).any fun c => ['?', ':', ',', ']', '\x7d', '%', '@', '\x60'].contains c
  if name.isEmpty || !ends then none else some (name, behind)

/-! ## Tokens -/

/-- Passes over blanks, comments and breaks up to the next token. -/
def toToken : Nat → Scanner → Scanner
  | 0, s => s
  | fuel + 1, s =>
      let at_ := if s.place.column = 0 ∧ s.peek 0 = some '\uFEFF' then s.place.skip 1 else s.place
      let at_ := (at_.skipAll fun c =>
        c == ' ' || ((s.inFlow || !s.keyAllowed) && c == '\t')).skipComment
      if (at_.peek 0).any isBreak then
        toToken fuel { s with place := at_.skipBreak, keyAllowed := s.keyAllowed || !s.inFlow }
      else { s with place := at_ }

/-- Opens a flow collection. -/
def openFlow (s : Scanner) (t : Token) : Option Scanner := do
  let s ← s.rememberKey
  return { s.push t with place := s.place.skip 1, keyAllowed := true,
                         around := s.pending :: s.around, pending := none }

/-- Closes a flow collection. -/
def closeFlow (s : Scanner) (t : Token) : Option Scanner := do
  let s ← s.forgetKey
  let s := { s.push t with place := s.place.skip 1, keyAllowed := false }
  match s.around with
  | pending :: around => return { s with pending, around }
  | [] => return s

/-- The sign of a block entry. -/
def blockEntry (s : Scanner) : Option Scanner :=
  if !s.inFlow && !s.keyAllowed then none
  else do
    let s ← (s.roll s.place.column s.tokens.size .blockSequenceStart).forgetKey
    return ((s.skip 1).allowKey true).push .blockEntry

/-- The sign of a key. -/
def keySign (s : Scanner) : Option Scanner :=
  if !s.inFlow && !s.keyAllowed then none
  else do
    let s ← (s.roll s.place.column s.tokens.size .blockMappingStart).forgetKey
    return ((s.skip 1).allowKey !s.inFlow).push .key

/-- The sign of a value. What was pending becomes the key. -/
def valueSign (s : Scanner) : Option Scanner :=
  match s.pending with
  | some k =>
      let s := { s with tokens := s.tokens.insertIdxIfInBounds k.token .key }
      let s := { s.roll k.column k.token .blockMappingStart with pending := none }
      some (((s.skip 1).allowKey false).push .value)
  | none =>
      if !s.inFlow && !s.keyAllowed then none
      else
        let s := s.roll s.place.column s.tokens.size .blockMappingStart
        some (((s.skip 1).allowKey !s.inFlow).push .value)

/-- A token that may be a key, read from where the cutter stands. -/
def keyable (s : Scanner) (read : Place → Option (Token × Place)) : Option Scanner := do
  let s ← s.rememberKey
  let (t, place) ← read s.place
  return { s.push t with place, keyAllowed := false }

/-- A block scalar. -/
def blockScalar (s : Scanner) (literal : Bool) : Option Scanner := do
  let s ← s.forgetKey
  let (text, place) ← block? literal s.indent (s.place.skip 1)
  return { s.push (.scalar text false) with place, keyAllowed := true }

/-- A scalar in quotes. -/
def quotedScalar (s : Scanner) (single : Bool) : Option Scanner :=
  s.keyable fun at_ =>
    (quotedFrom single (at_.rest.length + 1) [] (at_.skip 1)).map fun (text, place) =>
      (.scalar text false, place)

/-- A plain scalar. Behind one that ran over a break a key may begin. -/
def plainScalar (s : Scanner) : Option Scanner := do
  let s ← s.rememberKey
  let (text, broken, place) ←
    plainFrom s.inFlow (s.indent + 1) (s.place.rest.length + 1) [] .none s.place
  return { s.push (.scalar text true) with place, keyAllowed := broken }

/-- Whether a plain scalar may begin with a character, given the next one. -/
def startsPlain (inFlow : Bool) (c : Char) (next : Option Char) : Bool :=
  !(isBlank c || isBreak c || "-?:,[]#&*!|>'\"%@\x60\x7b\x7d".toList.contains c)
    || (c == '-' && !next.any isBlank)
    || (!inFlow && (c == '?' || c == ':') && !endsWord next)

/-- The token that begins with a character. -/
def tokenAt (s : Scanner) (c : Char) : Option Scanner :=
  let blankNext := endsWord (s.peek 1)
  if s.place.column = 0 ∧ c = '%' then do
    let s ← s.leaveAll
    let (t, place) ← directive? s.place
    return { s.push t with place }
  else if s.place.atDocumentSign then do
    let s ← s.leaveAll
    return (s.skip 3).push (if c = '-' then .documentStart else .documentEnd)
  else if c = '[' then s.openFlow .flowSequenceStart
  else if c = '\x7b' then s.openFlow .flowMappingStart
  else if c = ']' then s.closeFlow .flowSequenceEnd
  else if c = '\x7d' then s.closeFlow .flowMappingEnd
  else if c = ',' then do
    let s ← s.forgetKey
    return ((s.skip 1).allowKey true).push .flowEntry
  else if c = '-' && blankNext then s.blockEntry
  else if c = '?' && (s.inFlow || blankNext) then s.keySign
  else if c = ':' && (s.inFlow || blankNext) then s.valueSign
  else if c = '*' then s.keyable fun at_ =>
    (anchorName? (at_.skip 1)).map fun (name, place) => (.alias name, place)
  else if c = '&' then s.keyable fun at_ =>
    (anchorName? (at_.skip 1)).map fun (name, place) => (.anchor name, place)
  else if c = '!' then s.keyable (tag? s.inFlow)
  else if c = '|' && !s.inFlow then s.blockScalar true
  else if c = '>' && !s.inFlow then s.blockScalar false
  else if c = '\'' then s.quotedScalar true
  else if c = '"' then s.quotedScalar false
  else if startsPlain s.inFlow c (s.peek 1) then s.plainScalar
  else none

/-- The end of the stream closes all blocks, as if it stood on a line of its own. -/
def finish (s : Scanner) : Option Scanner := s.leaveAll

/-- Cuts the rest of the stream. -/
def run : Nat → Scanner → Option (Array Token)
  | 0, _ => none
  | fuel + 1, s => do
      let s ← (toToken (s.place.rest.length + 1) s).dropStale
      let s := s.unroll s.place.column
      match s.peek 0 with
      | none => (s.finish).map (·.tokens)
      | some c => run fuel (← s.tokenAt c)

end Scanner

/-- The tokens of a stream. A stream holds only allowed characters. -/
def tokens? (cs : List Char) : Option (List Token) :=
  if cs.all isAllowed then (Scanner.run (cs.length + 2) (.start cs)).map (·.toList) else none

end LinkKeeper.Yaml
