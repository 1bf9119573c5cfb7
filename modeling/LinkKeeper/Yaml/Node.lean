import LinkKeeper.Yaml.Scanner

/-!
# Documents of a YAML stream

A document is a tree of nodes. An alias stays in the tree as a reference to an anchor,
so that a tree is finite even where an anchor stands around its own alias; whoever reads
the tree follows the aliases and has to bound how often.

A `Cursor` is what reading carries along: the tokens to come, and what the document has
said so far. Reading goes down one level of the tree at a time. `Node.read` takes the
depth that is left; the readers of collections take the reader of their nodes and
recurse only along the tokens.
-/

namespace LinkKeeper.Yaml

/-- A node of a document. -/
inductive Node where
  | scalar (tag : Option Tag) (text : List Char) (plain : Bool)
  | sequence (tag : Option Tag) (items : List Node)
  | mapping (tag : Option Tag) (entries : List (Node × Node))
  | alias (anchor : Nat)

/-- The node that stands where nothing is written. -/
def Node.absent : Node := .scalar none [] true

/-- An anchored node: the number of its anchor, the place where it starts, and the node. -/
structure Anchored where
  anchor : Nat
  start : Nat
  node : Node

/-- A document: its root, its size in parts, and its anchored nodes. -/
structure Document where
  root : Node
  /-- A scalar or an alias is one part, a collection two and those inside it. -/
  size : Nat
  anchored : List Anchored

/-- The node an alias means: of those anchored by its number, the one that starts last. -/
def Document.node? (d : Document) (anchor : Nat) : Option Node :=
  (d.anchored.filter (·.anchor == anchor)).foldl
    (fun best a =>
      match best with
      | some b => if b.start < a.start then some a else some b
      | none => some a) (none : Option Anchored)
  |>.map (·.node)

/-- The state of reading a document. -/
structure Cursor where
  rest : List Token
  /-- What the handles of tags stand for. -/
  handles : List (List Char × Tag)
  /-- Parts of the document so far. -/
  size : Nat
  /-- The number that each name of an anchor means at present. -/
  names : List (List Char × Nat)
  anchored : List Anchored

namespace Cursor

/-- Passes over a token. -/
def skip (c : Cursor) : Cursor := { c with rest := c.rest.drop 1 }

/-- Counts parts. -/
def grow (c : Cursor) (parts : Nat) : Cursor := { c with size := c.size + parts }

/-- Gives a name a new number: that of the distinct names so far. -/
def name (c : Cursor) (anchor : Option (List Char)) : Option Nat × Cursor :=
  match anchor with
  | some n =>
      let number := c.names.length
      (some number, { c with names := (n, number) :: c.names.filter (·.1 != n) })
  | none => (none, c)

/-- Notes an anchored node. -/
def note (c : Cursor) (anchor : Option Nat) (start : Nat) (node : Node) : Cursor :=
  match anchor with
  | some n => { c with anchored := ⟨n, start, node⟩ :: c.anchored }
  | none => c

/-- The tag that a handle and a suffix mean. -/
def tag? (c : Cursor) (handle : List Char) (suffix : Tag) : Option Tag :=
  if handle.isEmpty then some suffix
  else (c.handles.lookup handle).map (· ++ suffix)

end Cursor

/-- What kinds of nodes may stand at a place. -/
inductive Setting where
  /-- Everything but a sequence without indentation. -/
  | block
  /-- In a block mapping, a sequence needs no indentation. -/
  | blockEntry
  /-- Only scalars and flow collections. -/
  | flow
  deriving DecidableEq

/-- A reader of something off the tokens. -/
abbrev Reader (α : Type) := Cursor → Option (α × Cursor)

/-- A reader of a node in any setting. -/
abbrev NodeReader := Setting → Reader Node

/-- Reads a node, unless the next token ends the place for it: then nothing is written there. -/
def orAbsent (read : Reader Node) (ends : Option Token → Bool) : Reader Node := fun c =>
  if ends c.rest.head? then some (.absent, c.grow 1) else read c

/-- Whether the next token is one of some. -/
def isOneOf (tokens : List Token) (t : Option Token) : Bool := t.any tokens.contains

/-! ## Collections -/

/-- The entries of a block sequence, up to and with its end. -/
def blockItems (read : NodeReader) : Nat → List Node → Reader (List Node)
  | 0, _, _ => none
  | fuel + 1, done, c =>
      match c.rest.head? with
      | some .blockEntry => do
          let (item, c) ← orAbsent (read .block) (isOneOf [.blockEntry, .blockEnd]) c.skip
          blockItems read fuel (item :: done) c
      | some .blockEnd => some (done.reverse, c.skip)
      | _ => none

/-- The entries of a sequence that has no indentation of its own. -/
def flushItems (read : NodeReader) : Nat → List Node → Reader (List Node)
  | 0, _, _ => none
  | fuel + 1, done, c =>
      match c.rest.head? with
      | some .blockEntry => do
          let (item, c) ← orAbsent (read .block)
            (isOneOf [.blockEntry, .key, .value, .blockEnd]) c.skip
          flushItems read fuel (item :: done) c
      | _ => some (done.reverse, c)

/-- The value of a mapping entry, behind its key. -/
def entryValue (read : Reader Node) (ends : Option Token → Bool) : Reader Node := fun c =>
  if c.rest.head? = some .value then orAbsent read ends c.skip else some (.absent, c.grow 1)

/-- The entries of a block mapping, up to and with its end. -/
def blockPairs (read : NodeReader) : Nat → List (Node × Node) → Reader (List (Node × Node))
  | 0, _, _ => none
  | fuel + 1, done, c =>
      let ends := isOneOf [.key, .value, .blockEnd]
      match c.rest.head? with
      | some .key => do
          let (key, c) ← orAbsent (read .blockEntry) ends c.skip
          let (value, c) ← entryValue (read .blockEntry) ends c
          blockPairs read fuel ((key, value) :: done) c
      | some .blockEnd => some (done.reverse, c.skip)
      | _ => none

/--
A pair among the items of a flow sequence, behind the sign of its key. Where the key is
not written, the token that shows this is passed over.
-/
def flowPair (read : NodeReader) : Reader Node := fun c => do
  let (key, c) ←
    if isOneOf [.value, .flowEntry, .flowSequenceEnd] c.rest.head? then
      some (.absent, (c.skip).grow 1)
    else read .flow c
  let (value, c) ← entryValue (read .flow) (isOneOf [.flowEntry, .flowSequenceEnd]) c
  return (.mapping none [(key, value)], c.grow 2)

/-- Passes over the comma between two entries; the first entry has none before it. -/
def comma? (first : Bool) (c : Cursor) : Option Cursor :=
  if first then some c
  else if c.rest.head? = some .flowEntry then some c.skip
  else none

/-- The items of a flow sequence, up to and with its end. -/
def flowItems (read : NodeReader) : Nat → List Node → Reader (List Node)
  | 0, _, _ => none
  | fuel + 1, done, c =>
      if c.rest.head? = some .flowSequenceEnd then some (done.reverse, c.skip)
      else do
        let c ← comma? done.isEmpty c
        match c.rest.head? with
        | some .flowSequenceEnd => return (done.reverse, c.skip)
        | some .key => do
            let (item, c) ← flowPair read c.skip
            flowItems read fuel (item :: done) c
        | _ => do
            let (item, c) ← read .flow c
            flowItems read fuel (item :: done) c

/-- The entries of a flow mapping, up to and with its end. -/
def flowPairs (read : NodeReader) : Nat → List (Node × Node) → Reader (List (Node × Node))
  | 0, _, _ => none
  | fuel + 1, done, c =>
      if c.rest.head? = some .flowMappingEnd then some (done.reverse, c.skip)
      else do
        let c ← comma? done.isEmpty c
        match c.rest.head? with
        | some .flowMappingEnd => return (done.reverse, c.skip)
        | some .key => do
            let (key, c) ← orAbsent (read .flow)
              (isOneOf [.value, .flowEntry, .flowMappingEnd]) c.skip
            let (value, c) ← entryValue (read .flow) (isOneOf [.flowEntry, .flowMappingEnd]) c
            flowPairs read fuel ((key, value) :: done) c
        | _ => do
            let (key, c) ← read .flow c
            flowPairs read fuel ((key, .absent) :: done) (c.grow 1)

/-! ## Nodes -/

/-- The anchor and the tag in front of a node, in either order. -/
structure Properties where
  anchor : Option (List Char)
  tag : Option (List Char × Tag)

/-- Reads at most one anchor and one tag. -/
def properties (c : Cursor) : Properties × Cursor :=
  match c.rest with
  | .anchor a :: .tag h s :: _ => (⟨some a, some (h, s)⟩, c.skip.skip)
  | .tag h s :: .anchor a :: _ => (⟨some a, some (h, s)⟩, c.skip.skip)
  | .anchor a :: _ => (⟨some a, none⟩, c.skip)
  | .tag h s :: _ => (⟨none, some (h, s)⟩, c.skip)
  | _ => (⟨none, none⟩, c)

/-- The tag that the properties of a node mean. -/
def Properties.tag? (p : Properties) (c : Cursor) : Option (Option Tag) :=
  match p.tag with
  | some (handle, suffix) => (c.tag? handle suffix).map some
  | none => some none

/-- Reads the rest of a collection and puts the tag on it. -/
def collection (make : α → Node) (read : Reader α) : Reader Node := fun c => do
  let (parts, c) ← read (c.grow 1)
  return (make parts, c.grow 1)

/-- Reads what stands behind the properties of a node. -/
def content (read : NodeReader) (setting : Setting) (p : Properties) (tag : Option Tag) :
    Reader Node := fun c =>
  let fuel := c.rest.length + 1
  match c.rest.head? with
  | some .blockEntry =>
      if setting = .blockEntry then collection (.sequence tag) (flushItems read fuel []) c
      else written c
  | some (.scalar text plain) =>
      let tag := if tag = some (asciiBytes ['!']) then none else tag
      some (.scalar tag text plain, c.skip.grow 1)
  | some .flowSequenceStart => collection (.sequence tag) (flowItems read fuel []) c.skip
  | some .flowMappingStart => collection (.mapping tag) (flowPairs read fuel []) c.skip
  | some .blockSequenceStart =>
      if setting = .flow then written c
      else collection (.sequence tag) (blockItems read fuel []) c.skip
  | some .blockMappingStart =>
      if setting = .flow then written c
      else collection (.mapping tag) (blockPairs read fuel []) c.skip
  | _ => written c
where
  /-- Properties alone are a node of their own. -/
  written : Reader Node := fun c =>
    if p.anchor.isSome || p.tag.isSome then some (.scalar tag [] true, c.grow 1) else none

/-- Reads a node that is no deeper than given. -/
def Node.read : Nat → NodeReader
  | 0, _, _ => none
  | depth + 1, setting, c =>
      match c.rest with
      | .alias name :: _ => do
          let anchor ← c.names.lookup name
          return (.alias anchor, c.skip.grow 1)
      | _ => do
          let (p, c) := properties c
          let tag ← p.tag? c
          let (anchor, c) := c.name p.anchor
          let start := c.size
          let (node, c) ← content (Node.read depth) setting p tag c
          return (node, c.note anchor start node)

/-! ## Documents -/

/-- What directives have said. -/
structure Directives where
  version : Bool
  handles : List (List Char × Tag)

/-- The handles that every document knows. -/
def knownHandles : List (List Char × Tag) :=
  [(['!'], asciiBytes ['!']), (['!', '!'], asciiBytes "tag:yaml.org,2002:".toList)]

/-- Reads directives: at most one version, which is 1.1 or 1.2, and each handle once. -/
def directives : Directives → List Token → Option (Directives × List Token)
  | d, .versionDirective major minor :: rest =>
      if d.version || major != 1 || !(minor == 1 || minor == 2) then none
      else directives { d with version := true } rest
  | d, .tagDirective handle expansion :: rest =>
      if (d.handles.lookup handle).isSome then none
      else directives { d with handles := (handle, expansion) :: d.handles } rest
  | d, rest => some (d, rest)

/-- Reads the root of a document, and passes over one sign that the document has ended. -/
def document (handles : List (List Char × Tag)) (explicit : Bool) (rest : List Token) :
    Option (Document × List Token) := do
  let c : Cursor := ⟨rest, handles ++ knownHandles, 0, [], []⟩
  let isOver : Option Token → Bool
    | none | some (.versionDirective _ _) | some (.tagDirective _ _) => explicit
    | some .documentStart | some .documentEnd => explicit
    | _ => false
  let (root, c) ← orAbsent (Node.read (rest.length + 1) .block) isOver c
  let rest := if c.rest.head? = some .documentEnd then c.rest.drop 1 else c.rest
  return (⟨root, c.size, c.anchored⟩, rest)

/-- Reads the documents of a stream; only the first may begin without a sign. -/
def documentsFrom : Nat → Bool → List Token → Option (List Document)
  | 0, _, _ => none
  | fuel + 1, first, tokens => do
      let tokens := if first then tokens else tokens.dropWhile (· == .documentEnd)
      if tokens.isEmpty then return []
      else
        let (d, behind) ← directives ⟨false, []⟩ tokens
        let isDirected := behind.length < tokens.length
        match behind with
        | .documentStart :: rest => do
            let (document, rest) ← document d.handles true rest
            return document :: (← documentsFrom fuel false rest)
        | _ =>
            if first && !isDirected then do
              let (document, rest) ← document [] false tokens
              return document :: (← documentsFrom fuel false rest)
            else none

/-- The documents of a text, if it is well-formed. -/
def documents? (cs : List Char) : Option (List Document) := do
  let tokens ← tokens? cs
  documentsFrom (tokens.length + 1) true tokens

end LinkKeeper.Yaml
