import LinkKeeper.Path
import LinkKeeper.Text.LowerCase

/-!
# What counts as a path

Most texts give no sign that a word is a path. A word counts as one when it is made of
path characters and ends in an extension, and does not look like something else: an
address on the net, a version number, a host name, a property of an object.

With a separator in it the shape is enough. Without one the extension decides: a word
with a single dot needs an extension from the list, since `value.length` has the same
shape; a word with more dots needs one of at most ten characters.
-/

namespace LinkKeeper

open Text

/-- A character that a path may hold. -/
def isPathChar (c : Char) : Bool :=
  c.isAlphanum || c == '_' || c == '-' || c == '.' || Path.isSeparator c

/-- Beginnings that mark an address or a package. -/
def foreignStarts : List String :=
  ["http://", "https://", "ftp://", "mailto:", "tel:", "package:", "//"]

/-- The last parts of common host names. -/
def hostEndings : List String :=
  ["com", "org", "net", "io", "dev", "edu", "gov", "mil", "int", "co", "uk", "de", "fr", "jp",
    "cn", "ru", "us", "eu", "app", "ai", "info", "biz", "me", "tv", "xyz"]

/-- The longest extension of a word without a separator. -/
def longestExtension : Nat := 10

/-- Digits and single dots, such as `1.2.3`; at least one dot. -/
def isVersion (cs : List Char) : Bool :=
  let parts := splitWhere (· == '.') cs
  2 ≤ parts.length && parts.all fun part => !part.isEmpty && part.all Char.isDigit

/-- Labels of letters, digits and hyphens, the last of them a common ending; case does not matter. -/
def isHostName (cs : List Char) : Bool :=
  let labels := splitWhere (· == '.') (cs.map Char.toLower)
  2 ≤ labels.length
    && labels.dropLast.all (fun label =>
      !label.isEmpty && label.all fun c => c.isAlphanum || c == '-')
    && hostEndings.contains (String.ofList (labels.getLast?.getD []))

/-- Path characters and then a dot and an extension of letters and digits. -/
def hasPathShape (cs : List Char) : Bool :=
  cs.all isPathChar &&
    match splitLast? '.' cs with
    | some (stem, extension) => !stem.isEmpty && !extension.isEmpty && extension.all Char.isAlphanum
    | none => false

/-- The rule for candidates: the extensions that make `name.ext` a file. -/
structure CandidateRule where
  /-- Extensions in lower case, without the dot. -/
  extensions : List String
  deriving DecidableEq, Repr

namespace CandidateRule

/-- The rule for a list of extensions; their case does not matter. -/
def ofExtensions (extensions : List String) : CandidateRule := ⟨extensions.map lower⟩

/-- Whether a word without a separator, split at its last dot, is a file name. -/
def acceptsName (rule : CandidateRule) (stem extension : List Char) : Bool :=
  extension.length ≤ longestExtension &&
    (stem.contains '.' || rule.extensions.contains (lower (String.ofList extension)))

/-- Whether a word counts as a path. -/
def accepts (rule : CandidateRule) (cs : List Char) : Bool :=
  let separated := cs.any Path.isSeparator
  3 ≤ width cs
    && !foreignStarts.any (fun start => start.toList.isPrefixOf cs)
    && !isVersion cs
    && (separated || !isHostName cs)
    && hasPathShape cs
    && (separated ||
      match splitLast? '.' cs with
      | some (stem, extension) => rule.acceptsName stem extension
      | none => false)

end CandidateRule

end LinkKeeper
