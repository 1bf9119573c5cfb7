import LinkKeeper.Digest
import LinkKeeper.FileTree
import Std.Data.TreeMap

/-!
# Remembered digests

The digest of a file can tell after the file is gone what was in it, if it was taken in
time. Digests are remembered for a while; the clock may stand still or even go back, and
an entry from the future is simply fresh.
-/

namespace LinkKeeper

/-- The digest of a file that is not too large; links are followed. -/
def FileTree.digest? (t : FileTree) (location : String) (limit : Nat) : Option String :=
  match t.entry true location with
  | .ok (_, .file content _) => if content.size < limit then some (Digest.sha256 content) else none
  | _ => none

/-- Digests by path, each with the time when it was taken. -/
structure DigestMemory where
  entries : Std.TreeMap String (String × Nat)
  /-- How long a digest is remembered. -/
  lifetime : Nat

namespace DigestMemory

/-- A memory that holds nothing. -/
def empty (lifetime : Nat) : DigestMemory := ⟨∅, lifetime⟩

/-- Whether something taken at one time is still fresh at another. -/
def isFresh (m : DigestMemory) (now taken : Nat) : Bool := now - taken ≤ m.lifetime

/-- Remembers a digest. -/
def insert (m : DigestMemory) (path digest : String) (now : Nat) : DigestMemory :=
  { m with entries := m.entries.insert path (digest, now) }

/-- Takes the digest of a path out, and answers it if it is fresh. -/
def take (m : DigestMemory) (path : String) (now : Nat) : DigestMemory × Option String :=
  ({ m with entries := m.entries.erase path },
    match m.entries[path]? with
    | some (digest, taken) => if m.isFresh now taken then some digest else none
    | none => none)

/-- Forgets what is no longer fresh. -/
def prune (m : DigestMemory) (now : Nat) : DigestMemory :=
  { m with entries := m.entries.filter fun _ (_, taken) => m.isFresh now taken }

/-- How many digests are remembered. -/
def size (m : DigestMemory) : Nat := m.entries.size

end DigestMemory

end LinkKeeper
