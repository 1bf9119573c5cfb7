import LinkKeeper.Reference
import Std.Data.TreeMap
import Std.Data.TreeSet

/-!
# The index of references

The index holds every reference of a tree as a record with a number of its own. It is
asked in two ways: which references does a file contain, and which references may mean
a path. For either there are buckets of record numbers: by the file, and by the `key` of
the reference, which is its link read from the root. A bucket is never empty.

A move re-files a whole bucket under a new key at once. The text of the records then
still says the old one until their files are read again.
-/

namespace LinkKeeper

/-- A record: a reference and the key it is filed under. -/
structure Record where
  key : String
  reference : Reference
  deriving DecidableEq, Repr

/-- Whether a reference may mean something inside the tree. -/
def Reference.isInside (r : Reference) : Bool :=
  !r.rooted.isEmpty && !(Path.escapes r.rooted && Path.escapes r.resolved)

/-- Buckets of record numbers, oldest first. -/
abbrev Buckets := Std.TreeMap String (List Nat)

namespace Buckets

/-- The numbers in a bucket. -/
def numbers (b : Buckets) (name : String) : List Nat := (b[name]?).getD []

/-- Puts numbers at the end of a bucket. -/
def append (b : Buckets) (name : String) (ids : List Nat) : Buckets :=
  b.alter name fun old => some (old.getD [] ++ ids)

/-- Takes a number out of a bucket; a bucket that is left empty goes. -/
def remove (b : Buckets) (name : String) (id : Nat) : Buckets :=
  b.alter name fun
    | some ids => match ids.filter (· != id) with
      | [] => none
      | rest => some rest
    | none => none

end Buckets

/-- The index. -/
structure Index where
  /-- Records by the file they stand in. -/
  bySource : Buckets
  /-- Records by their key. -/
  byTarget : Buckets
  /-- The number of the next record. -/
  next : Nat
  records : Std.TreeMap Nat Record

/-- How much an index holds. -/
structure IndexSize where
  records : Nat
  sources : Nat
  targets : Nat
  deriving DecidableEq, Repr

namespace Index

/-- The index of an empty tree. -/
def empty : Index := ⟨∅, ∅, 0, ∅⟩

/-- Files a reference. -/
def insert (ix : Index) (r : Reference) : Index where
  bySource := ix.bySource.append r.source [ix.next]
  byTarget := ix.byTarget.append r.rooted [ix.next]
  next := ix.next + 1
  records := ix.records.insert ix.next ⟨r.rooted, r⟩

/-- Drops a record. -/
def drop (ix : Index) (id : Nat) : Index :=
  match ix.records[id]? with
  | some record =>
      { ix with byTarget := ix.byTarget.remove record.key id, records := ix.records.erase id }
  | none => ix

/-- Drops the records of a file. -/
def removeSource (ix : Index) (source : String) : Index :=
  (ix.bySource.numbers source).foldl drop { ix with bySource := ix.bySource.erase source }

/-- The number of records of a file. -/
def countFrom (ix : Index) (source : String) : Nat := (ix.bySource.numbers source).length

/-- Puts references in place of the records of a file. Those that lead out of the tree are not filed. -/
def replaceSource (ix : Index) (source : String) (references : List Reference) : Index :=
  (references.filter (·.isInside)).foldl insert (ix.removeSource source)

/-- The references behind record numbers. -/
def references (ix : Index) (ids : List Nat) : List Reference :=
  ids.filterMap fun id => (ix.records[id]?).map (·.reference)

/-- Whether the reference of a record has a property. -/
def holds (ix : Index) (p : Reference → Bool) (id : Nat) : Bool :=
  (ix.records[id]?).any fun record => p record.reference

/--
The numbers of the records that may mean a path: those filed under it, those filed under
its last segment whose file lies in the same directory, and those with the same last
segment that lead there from their own directory.
-/
def matching (ix : Index) (target : String) : List Nat :=
  let wanted := Path.normalize target
  let name := Path.baseName wanted
  let siblings :=
    if name = wanted then []
    else (ix.byTarget.numbers name).filter
      (ix.holds fun r => Path.parent r.source == Path.parent wanted)
  let relatives := ix.byTarget.toList.flatMap fun (key, ids) =>
    if key = wanted ∨ Path.baseName key ≠ name then []
    else ids.filter (ix.holds fun r => r.resolved == wanted)
  (Std.TreeSet.ofList (ix.byTarget.numbers wanted ++ siblings ++ relatives)).toList

/-- The references that may mean a path, oldest first. -/
def lookup (ix : Index) (target : String) : List Reference := ix.references (ix.matching target)

/-- The references in a file, oldest first. -/
def recordsFrom (ix : Index) (source : String) : List Reference :=
  ix.references (ix.bySource.numbers source)

/-- The files that hold one of some records, in order. -/
def sourcesOf (ix : Index) (ids : List Nat) : List String :=
  (Std.TreeSet.ofList ((ix.references ids).map (·.source))).toList

/-- Files the records under one key under another. Answers the files they stand in. -/
def rekey (ix : Index) (old new : String) : Index × List String :=
  let oldKey := Path.normalize old
  let newKey := Path.normalize new
  let ids := ix.byTarget.numbers oldKey
  if oldKey = newKey ∨ ids.isEmpty then (ix, [])
  else
    let filed (records : Std.TreeMap Nat Record) (id : Nat) :=
      records.modify id fun record => { record with key := newKey }
    ({ ix with
        byTarget := Buckets.append (ix.byTarget.erase oldKey) newKey ids
        records := ids.foldl filed ix.records }, ix.sourcesOf ids)

/-- The keys at or below a directory, in order. -/
def keysUnder (ix : Index) (dir : String) : List String := ix.byTarget.keys.filter (Path.isUnder dir)

/-- The files at or below a directory that hold references, in order. -/
def sourcesUnder (ix : Index) (dir : String) : List String :=
  ix.bySource.keys.filter (Path.isUnder dir)

/-- The paths at or below a directory that some record may mean, in order. -/
def targetsUnder (ix : Index) (dir : String) : List String :=
  let meant := ix.records.values.flatMap fun record => [record.key, record.reference.resolved]
  (Std.TreeSet.ofList (meant.filter (Path.isUnder dir))).toList

/-- Every reference, grouped by key. -/
def snapshot (ix : Index) : List (String × List Reference) :=
  ix.byTarget.toList.map fun (key, ids) => (key, ix.references ids)

/-- Every reference, in the order of places. -/
def all (ix : Index) : List Reference :=
  (ix.snapshot.flatMap (·.2)).mergeSort Reference.precedes

/-- How much the index holds. -/
def size (ix : Index) : IndexSize := ⟨ix.records.size, ix.bySource.size, ix.byTarget.size⟩

end Index

end LinkKeeper
