import LinkKeeper.Text.Basic
import Std.Data.TreeMap

/-!
# A tree of files

A file system as a value: names from the top, and what stands under each. A location is
looked up the way an operating system does it, segment by segment, with `.` and `..`
taken as they come and links followed on the way; a look-up that passes more than forty
links is given up. Whoever asks says whether a link at the very end is followed too.

Every operation either answers a new tree or says why it was refused, and a refusal
leaves no trace. Only the directories on the way to a place are made one after the other,
and those that have been made stay when the next one is refused.
-/

namespace LinkKeeper

/-- Why the file system refused. -/
inductive SystemError where
  | alreadyThere
  | isDirectory
  | intoItself
  | nameTooLong
  | noEntry
  | notDirectory
  | notEmpty
  | tooManyLinks
  deriving DecidableEq, Repr

namespace SystemError

/-- The reason as the system words it. -/
def message : SystemError → String
  | alreadyThere => "File exists (os error 17)"
  | isDirectory => "Is a directory (os error 21)"
  | intoItself => "Invalid argument (os error 22)"
  | nameTooLong => "File name too long (os error 36)"
  | noEntry => "No such file or directory (os error 2)"
  | notDirectory => "Not a directory (os error 20)"
  | notEmpty => "Directory not empty (os error 39)"
  | tooManyLinks => "Too many levels of symbolic links (os error 40)"

end SystemError

/-- What stands under a name. -/
inductive Entry where
  | directory
  | file (content : ByteArray) (mode : Nat)
  | link (target : String)

/-- Whether an entry is a directory. -/
def Entry.isDirectory : Entry → Bool
  | directory => true
  | _ => false

/-- Names from the top of the file system. -/
abbrev Spine := List String

/-- A file system. The top is a directory and has no entry. -/
structure FileTree where
  entries : Std.TreeMap Spine Entry

/-- What a look-up ends with: an entry, or a free name in a directory. -/
inductive Spot where
  | found (spine : Spine) (entry : Entry)
  | vacant (spine : Spine)

namespace FileTree

/-- The file system that holds nothing. -/
def empty : FileTree := ⟨∅⟩

/-- The segments of a location. -/
def segments (location : String) : List String :=
  (Text.splitWhere (· == '/') location.toList).map String.ofList

/-- The location of names from the top. -/
def location (spine : Spine) : String := "/" ++ String.intercalate "/" spine

/-- The longest a name may be, in bytes. -/
def longestName : Nat := 255

/-- Goes down from a directory, given how to go on at a link. -/
def descend (t : FileTree) (follow : Bool)
    (atLink : Option (Spine → List String → Except SystemError Spot)) :
    Spine → List String → Except SystemError Spot
  | dir, [] => .ok (.found dir .directory)
  | dir, name :: rest =>
      if name = "" ∨ name = "." then descend t follow atLink dir rest
      else if name = ".." then descend t follow atLink dir.dropLast rest
      else if longestName < name.utf8ByteSize then .error .nameTooLong
      else
        let there := dir ++ [name]
        match t.entries[there]? with
        | none => if rest.isEmpty then .ok (.vacant there) else .error .noEntry
        | some .directory => descend t follow atLink there rest
        | some (.file content mode) =>
            if rest.isEmpty then .ok (.found there (.file content mode)) else .error .notDirectory
        | some (.link target) =>
            if rest.isEmpty && !follow then .ok (.found there (.link target))
            else
              match atLink with
              | none => .error .tooManyLinks
              | some go =>
                  go (if target.toList.head? = some '/' then [] else dir) (segments target ++ rest)

/-- Goes down from a directory past so many links at most. -/
def walk (t : FileTree) (follow : Bool) : Nat → Spine → List String → Except SystemError Spot
  | 0 => t.descend follow none
  | links + 1 => t.descend follow (some (walk t follow links))

/-- How many links a look-up may pass. -/
def mostLinks : Nat := 40

/-- Looks an absolute location up. -/
def look (t : FileTree) (follow : Bool) (location : String) : Except SystemError Spot :=
  if location.isEmpty then .error .noEntry else t.walk follow mostLinks [] (segments location)

/-- The entry at a location, and where it really is. -/
def entry (t : FileTree) (follow : Bool) (location : String) :
    Except SystemError (Spine × Entry) :=
  match t.look follow location with
  | .ok (.found spine entry) => .ok (spine, entry)
  | .ok (.vacant _) => .error .noEntry
  | .error e => .error e

/-! ## Questions -/

/-- Whether something is there, at the end of all links. -/
def isThere (t : FileTree) (location : String) : Bool := (t.entry true location).isOk

/-- Whether a directory is there, at the end of all links. -/
def isDirectory (t : FileTree) (location : String) : Bool :=
  match t.entry true location with
  | .ok (_, .directory) => true
  | _ => false

/-- Whether a file is there, at the end of all links. -/
def isFile (t : FileTree) (location : String) : Bool :=
  match t.entry true location with
  | .ok (_, .file _ _) => true
  | _ => false

/-- The bytes of a file. -/
def read (t : FileTree) (location : String) : Except SystemError ByteArray :=
  match t.entry true location with
  | .ok (_, .file content _) => .ok content
  | .ok _ => .error .isDirectory
  | .error e => .error e

/-- The location without links, `.` and `..`. -/
def realLocation (t : FileTree) (location : String) : Except SystemError String :=
  (t.entry true location).map fun (spine, _) => FileTree.location spine

/-- What lies below a directory, by names from there, each directory before what is in it. -/
def below (t : FileTree) (dir : Spine) : List (Spine × Entry) :=
  t.entries.toList.filterMap fun (spine, entry) =>
    match dir.isPrefixOf? spine with
    | some [] => none
    | some rest => some (rest, entry)
    | none => none

/-! ## Changes -/

/-- Puts an entry under a name. -/
def put (t : FileTree) (spine : Spine) (entry : Entry) : FileTree := ⟨t.entries.insert spine entry⟩

/-- The permissions of a new file. -/
def newMode : Nat := 0o644

/-- Writes a file. One that was there keeps its permissions, a new one gets those given. -/
def write (t : FileTree) (location : String) (content : ByteArray) (mode : Nat) :
    Except SystemError FileTree :=
  match t.look true location with
  | .ok (.found spine (.file _ old)) => .ok (t.put spine (.file content old))
  | .ok (.found _ _) => .error .isDirectory
  | .ok (.vacant spine) => .ok (t.put spine (.file content mode))
  | .error e => .error e

/-- Opens a file for more to be written at its end; a new one is empty. -/
def openEnd (t : FileTree) (location : String) : Except SystemError FileTree :=
  match t.look true location with
  | .ok (.found _ (.file _ _)) => .ok t
  | .ok (.found _ _) => .error .isDirectory
  | .ok (.vacant spine) => .ok (t.put spine (.file ByteArray.empty newMode))
  | .error e => .error e

/-- Changes the permissions of a file. -/
def setMode (t : FileTree) (location : String) (mode : Nat) : Except SystemError FileTree :=
  match t.entry true location with
  | .ok (spine, .file content _) => .ok (t.put spine (.file content mode))
  | .ok _ => .ok t
  | .error e => .error e

/-- Copies a file, permissions included. -/
def copy (t : FileTree) (source target : String) : Except SystemError FileTree :=
  match t.entry true source with
  | .ok (_, .file content mode) => do
      let t ← t.write target content mode
      t.setMode target mode
  | .ok _ => .error .isDirectory
  | .error e => .error e

/-- Puts a new file in the place of what is there, a link included, with the permissions that the old file had. -/
def replace (t : FileTree) (location : String) (content : ByteArray) :
    Except SystemError FileTree :=
  match t.entry true location, t.look false location with
  | .ok (_, .file _ mode), .ok (.found spine _) => .ok (t.put spine (.file content mode))
  | .ok _, _ => .error .isDirectory
  | .error e, _ => .error e

/-- Puts a link under a free name. -/
def link (t : FileTree) (location target : String) : Except SystemError FileTree :=
  match t.look false location with
  | .ok (.vacant spine) => .ok (t.put spine (.link target))
  | .ok (.found _ _) => .error .alreadyThere
  | .error e => .error e

/-- Puts a directory under a free name. -/
def makeDirectory (t : FileTree) (location : String) : Except SystemError FileTree :=
  match t.look false location with
  | .ok (.vacant spine) => .ok (t.put spine .directory)
  | .ok (.found _ _) => .error .alreadyThere
  | .error e => .error e

/-- Makes a directory, unless it is there. -/
def ensureDirectory (t : FileTree) (location : String) : FileTree × Option SystemError :=
  match t.makeDirectory location with
  | .ok t => (t, none)
  | .error e => (t, if t.isDirectory location then none else some e)

/-- Makes a directory and those above it, given the segments of its location, last first. -/
def makeAll (t : FileTree) : List String → FileTree × Option SystemError
  | [] => (t, none)
  | name :: above =>
      let place := location (name :: above).reverse
      match t.makeDirectory place with
      | .error .noEntry =>
          match makeAll t above with
          | (t, none) => t.ensureDirectory place
          | (t, some e) => (t, some e)
      | _ => t.ensureDirectory place

/-- Makes a directory and those above it, as far as they are not there, up to one that is refused. -/
def makeWay (t : FileTree) (location : String) : FileTree × Option SystemError :=
  t.makeAll ((segments location).filter (fun s => s != "" && s != ".")).reverse

/-- Makes a directory and those above it, if none is refused. -/
def makeDirectories (t : FileTree) (location : String) : Except SystemError FileTree :=
  match t.makeWay location with
  | (t, none) => .ok t
  | (_, some e) => .error e

/-- Drops an entry and all below it. -/
def prune (t : FileTree) (spine : Spine) : FileTree :=
  ⟨t.entries.filter fun other _ => !spine.isPrefixOf other⟩

/-- Removes a file or a link. -/
def removeFile (t : FileTree) (location : String) : Except SystemError FileTree :=
  match t.entry false location with
  | .ok (_, .directory) => .error .isDirectory
  | .ok (spine, _) => .ok (t.prune spine)
  | .error e => .error e

/-- Removes whatever is there, with all below it. -/
def remove (t : FileTree) (location : String) : Except SystemError FileTree :=
  (t.entry false location).map fun (spine, _) => t.prune spine

/-- Puts an entry and all below it elsewhere. -/
def graft (t : FileTree) (source target : Spine) : FileTree :=
  let moved := t.entries.toList.filterMap fun (spine, entry) =>
    (source.isPrefixOf? spine).map fun rest => (target ++ rest, entry)
  ⟨moved.foldl (fun entries (spine, entry) => entries.insert spine entry)
    ((t.prune source).prune target).entries⟩

/-- Why an entry may not take the place of another. -/
def replaceError? (t : FileTree) (entry : Entry) (place : Spine) (old : Entry) : Option SystemError :=
  match entry, old with
  | .directory, .directory => if (t.below place).isEmpty then none else some .notEmpty
  | .directory, _ => some .notDirectory
  | _, .directory => some .isDirectory
  | _, _ => none

/-- Moves an entry, with all below it. A link is moved as such. -/
def rename (t : FileTree) (source target : String) : Except SystemError FileTree := do
  let (spine, entry) ← t.entry false source
  match ← t.look false target with
  | .found place old =>
      if place = spine then return t
      else if entry.isDirectory ∧ spine.isPrefixOf place then throw .intoItself
      else if place.isPrefixOf spine then throw .notEmpty
      else
        match t.replaceError? entry place old with
        | some e => throw e
        | none => return t.graft spine place
  | .vacant place =>
      if entry.isDirectory ∧ spine.isPrefixOf place then throw .intoItself
      else return t.graft spine place

end FileTree

end LinkKeeper
