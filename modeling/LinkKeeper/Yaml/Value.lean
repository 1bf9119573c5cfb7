import LinkKeeper.Number.Decimal
import LinkKeeper.Text.Utf8
import LinkKeeper.Yaml.Node

/-!
# Values of YAML documents

A value is what a node means once aliases are followed and plain scalars have been
recognised as numbers, truth values or nothing. A document has a value only if

* no collection lies inside more than 127 others,
* aliases are followed at most a hundred times for each part of the document,
* no mapping has two keys of one value, and
* a scalar that is said to be a number, a truth value or nothing is one.

The first two bounds keep an alias inside its own anchor from going on for ever.
-/

namespace LinkKeeper.Yaml

open Number

/-- The meaning of a node. -/
inductive Value where
  | null
  | bool (b : Bool)
  | integer (n : Int)
  | real (x : Binary64)
  | text (cs : List Char)
  | sequence (items : List Value)
  | mapping (entries : List (Value × Value))
  | tagged (name : Tag) (value : Value)

namespace Value

mutual

/-- Whether two values are the same; the order of a mapping does not matter. -/
def same : Value → Value → Bool
  | .null, .null => true
  | .bool a, .bool b => a == b
  | .integer a, .integer b => a == b
  | .real a, .real b => a.sameValue b
  | .text a, .text b => a == b
  | .sequence as, .sequence bs => sameItems as bs
  | .mapping as, .mapping bs => as.length == bs.length && sameEntries as bs
  | .tagged s a, .tagged t b => s == t && same a b
  | _, _ => false

/-- Whether two lists hold the same values in the same order. -/
def sameItems : List Value → List Value → Bool
  | [], [] => true
  | a :: as, b :: bs => same a b && sameItems as bs
  | _, _ => false

/-- Whether the entries of one list stand somewhere in another. -/
def sameEntries : List (Value × Value) → List (Value × Value) → Bool
  | [], _ => true
  | (k, v) :: rest, bs => bs.any (fun (k', v') => same k k' && same v v') && sameEntries rest bs

end

/-! ## Plain scalars -/

/-- Whether a plain scalar says that nothing is there. -/
def isNull (cs : List Char) : Bool := ["null", "Null", "NULL", "~"].contains (String.ofList cs)

/-- The truth value that a scalar names. -/
def bool? (cs : List Char) : Option Bool :=
  if ["true", "True", "TRUE"].contains (String.ofList cs) then some true
  else if ["false", "False", "FALSE"].contains (String.ofList cs) then some false
  else none

/-- Whether a scalar is digits with a needless zero in front: such a row is text, no number. -/
def hasNeedlessZero (cs : List Char) : Bool :=
  match (leadingSign cs).2 with
  | '0' :: rest => !rest.isEmpty && rest.all Char.isDigit
  | _ => false

/-- The number that digits spell; a mark in front of them may name another base than ten. -/
def magnitude? (cs : List Char) : Option Nat :=
  match cs with
  | '0' :: 'x' :: rest => Text.number? 16 rest
  | '0' :: 'o' :: rest => Text.number? 8 rest
  | '0' :: 'b' :: rest => Text.number? 2 rest
  | _ => Text.number? 10 cs

/-- An integer of at most 128 bits. -/
def integer? (cs : List Char) : Option Int := do
  if hasNeedlessZero cs then none
  else
    let (negative, digits) := leadingSign cs
    let n ← magnitude? digits
    if negative then if n ≤ 0x80000000000000000000000000000000 then some (-n) else none
    else if n ≤ 0xffffffffffffffffffffffffffffffff then some n else none

/-- Whether an integer can be held in 64 bits, with or without a sign. -/
def fitsWord (n : Int) : Bool := -0x8000000000000000 ≤ n && n ≤ 0xffffffffffffffff

/-- A real number: a decimal, or one of the words for the infinite ones and for none. -/
def real? (cs : List Char) : Option Binary64 :=
  let signs := ['+', '-']
  let unsigned := match cs with
    | '+' :: rest => if rest.head?.any signs.contains then none else some rest
    | _ => some cs
  unsigned.bind fun digits =>
    if [".inf", ".Inf", ".INF"].contains (String.ofList digits) then some (.infinite false)
    else if ["-.inf", "-.Inf", "-.INF"].contains (String.ofList cs) then some (.infinite true)
    else if [".nan", ".NaN", ".NAN"].contains (String.ofList cs) then some .notANumber
    else
      match Binary64.ofText? digits with
      | some (.finite negative mantissa exponent) => some (.finite negative mantissa exponent)
      | _ => none

/-- What a plain scalar means. An integer of more than 64 bits means nothing, not even text. -/
def ofPlain? (cs : List Char) : Option Value :=
  if cs.isEmpty || isNull cs then some .null
  else
    match bool? cs, integer? cs with
    | some b, _ => some (.bool b)
    | none, some n => if fitsWord n then some (.integer n) else none
    | none, none =>
        if hasNeedlessZero cs then some (.text cs)
        else
          match real? cs with
          | some x => some (.real x)
          | none => some (.text cs)

/-- What a scalar means under a tag of the language itself. -/
def ofCore? (tag : Tag) (cs : List Char) (plain : Bool) : Option Value :=
  let isCore (name : String) : Bool := tag == asciiBytes ("tag:yaml.org,2002:" ++ name).toList
  if isCore "bool" then (bool? cs).map .bool
  else if isCore "int" then
    (integer? cs).bind fun n => if fitsWord n then some (.integer n) else none
  else if isCore "float" then (real? cs).map .real
  else if isCore "null" then if isNull cs then some .null else none
  else if plain && tag.head? == some 33 then ofPlain? cs
  else some (.text cs)

/-- What a scalar means. -/
def ofScalar? (tag : Option Tag) (cs : List Char) (plain : Bool) : Option Value :=
  match tag with
  | some tag => ofCore? tag cs plain
  | none => if plain then ofPlain? cs else some (.text cs)

/-! ## Nodes -/

/-- A tag without the mark in front of it, unless it is nothing else. -/
def unmarked (tag : Tag) : Tag :=
  match tag with
  | 33 :: b :: rest => b :: rest
  | _ => tag

/-- The name that a tag gives to a value. Only tags with a mark in front are names. -/
def nameOf? (tag : Option Tag) : Option Tag :=
  match tag with
  | some (33 :: rest) =>
      let name := unmarked (33 :: rest)
      if (Text.decode? (ByteArray.mk name.toArray)).isSome then some (unmarked name) else none
  | _ => none

/-- Reads a node as a value, given whether its name has been taken and the aliases followed so far. -/
abbrev Meaning := Bool → Nat → Node → Option (Value × Nat)

/-- Follows an alias, if the node is one. -/
def follow (d : Document) (named : Bool) (jumps : Nat) (node : Node) : Option (Bool × Nat × Node) :=
  match node with
  | .alias anchor =>
      if d.size * 100 < jumps + 1 then none
      else (d.node? anchor).map fun node => (false, jumps + 1, node)
  | _ => some (named, jumps, node)

/-- The values of the items of a sequence. -/
def items (read : Meaning) : Nat → List Node → Option (List Value × Nat)
  | jumps, [] => some ([], jumps)
  | jumps, node :: nodes => do
      let (value, jumps) ← read false jumps node
      let (values, jumps) ← items read jumps nodes
      return (value :: values, jumps)

/-- The entries of a mapping. In a mapping with a name, its keys have none. -/
def entries (read : Meaning) (named : Bool) :
    List (Value × Value) → Nat → List (Node × Node) → Option (List (Value × Value) × Nat)
  | done, jumps, [] => some (done.reverse, jumps)
  | done, jumps, (k, v) :: rest => do
      let (key, jumps) ← read named jumps k
      if done.any fun e => e.1.same key then none
      else
        let (value, jumps) ← read false jumps v
        entries read named ((key, value) :: done) jumps rest

/-- Puts a name on a value. -/
def name (tag : Option Tag) (value : Value) : Value :=
  match tag with
  | some t => tagged t value
  | none => value

/-- Reads a node, given a reader for the nodes in it if it may hold some. -/
def ofContent? (d : Document) (inner : Option Meaning) : Meaning := fun named jumps node => do
  let (named, jumps, node) ← follow d named jumps node
  let nameFor (tag : Option Tag) : Option Tag := if named then none else nameOf? tag
  match node with
  | .alias _ => none
  | .scalar tag cs plain => do
      let own := nameFor tag
      let tag := if named || own.isSome then none else tag
      return (name own (← ofScalar? tag cs plain), jumps)
  | .sequence tag nodes => do
      let (values, jumps) ← items (← inner) jumps nodes
      return (name (nameFor tag) (.sequence values), jumps)
  | .mapping tag nodes => do
      let own := nameFor tag
      let (values, jumps) ← entries (← inner) (named || own.isSome) [] jumps nodes
      return (name own (.mapping values), jumps)

/-- Reads a node with collections nested no deeper than given. -/
def ofNode? (d : Document) : Nat → Meaning
  | 0 => ofContent? d none
  | depth + 1 => ofContent? d (some (ofNode? d depth))

/-- How deep collections may be nested. -/
def deepest : Nat := 128

/-- The value of a document. -/
def ofDocument? (d : Document) : Option Value := (ofNode? d deepest false 0 d.root).map (·.1)

mutual

/-- The strings of a value, in the order of the text. Keys are not among them. -/
def strings : Value → List (List Char)
  | .text cs => [cs]
  | .sequence values => itemStrings values
  | .mapping pairs => entryStrings pairs
  | .tagged _ value => strings value
  | _ => []

/-- The strings of the items of a sequence. -/
def itemStrings : List Value → List (List Char)
  | [] => []
  | value :: values => strings value ++ itemStrings values

/-- The strings of the values of a mapping. -/
def entryStrings : List (Value × Value) → List (List Char)
  | [] => []
  | (_, value) :: rest => strings value ++ entryStrings rest

end

end Value

/-- The values of the documents of a text, if every one has a value. -/
def values? (cs : List Char) : Option (List Value) := do
  let documents ← documents? cs
  documents.mapM Value.ofDocument?

end LinkKeeper.Yaml
