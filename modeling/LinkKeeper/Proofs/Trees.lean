import LinkKeeper.Proofs.Locations
import LinkKeeper.Revision
import Std.Data.TreeMap.Lemmas

/-!
# Trees without links

Below its root the tree that is kept holds directories and files and no links. Then
looking a path up is looking its names up in the table of entries, and each change of
the tree is a change of that table. `Sound` is what this needs: names that a directory
may hold, each entry in a directory, and no links. It is the form that every tree has
which a file system builds, and the changes made here keep it.
-/

namespace LinkKeeper

/-- Whether an entry is a link. -/
def Entry.isLink : Entry → Bool
  | link _ => true
  | _ => false

-- there is a second one, and which of them is found would depend on what is imported
instance (priority := 1100) decEqBytes : DecidableEq ByteArray := ByteArray.instDecidableEq

deriving instance DecidableEq for Entry

theorem Entry.isDirectory_iff {entry : Entry} : entry.isDirectory = true ↔ entry = .directory := by
  cases entry <;> simp [Entry.isDirectory]

namespace FileTree

/-- Whether names from the top lead to a directory. -/
def Holds (t : FileTree) (spine : Spine) : Prop :=
  spine = [] ∨ t.entries[spine]? = some .directory

instance (t : FileTree) (spine : Spine) : Decidable (t.Holds spine) :=
  decidable_of_iff (spine = [] ∨ (t.entries[spine]?).any Entry.isDirectory = true) (by
    rw [Holds, Option.any_eq_true]
    simp [Entry.isDirectory_iff])

/-- A root to which directories lead. -/
structure Grounded (t : FileTree) (root : Spine) : Prop where
  names : ∀ name ∈ root, IsFileName name
  holds : ∀ above, above <+: root → t.Holds above

/-- A tree whose part below a root is well-formed and holds no links. -/
structure Sound (t : FileTree) (root : Spine) : Prop where
  rootNames : ∀ name ∈ root, IsFileName name
  rootHolds : ∀ above, above <+: root → t.Holds above
  names : ∀ (rest : Spine) (entry : Entry), t.entries[root ++ rest]? = some entry →
    ∀ name ∈ rest, IsFileName name
  held : ∀ (rest : Spine) (name : String) (entry : Entry),
    t.entries[root ++ rest ++ [name]]? = some entry → t.Holds (root ++ rest)
  linkless : ∀ (rest : Spine) (target : String), t.entries[root ++ rest]? ≠ some (.link target)

variable {t : FileTree} {root : Spine}

theorem Sound.grounded (h : t.Sound root) : t.Grounded root :=
  ⟨h.rootNames, h.rootHolds⟩

/-! ## Looking up -/

theorem descend_step {name : String} (h : IsFileName name) (t : FileTree) (follow : Bool)
    (go : Option (Spine → List String → Except SystemError Spot)) (dir rest : Spine) :
    t.descend follow go dir (name :: rest) =
      match t.entries[dir ++ [name]]? with
      | none => if rest.isEmpty then .ok (.vacant (dir ++ [name])) else .error .noEntry
      | some .directory => t.descend follow go (dir ++ [name]) rest
      | some (.file content mode) =>
          if rest.isEmpty then .ok (.found (dir ++ [name]) (.file content mode))
          else .error .notDirectory
      | some (.link target) =>
          if rest.isEmpty && !follow then .ok (.found (dir ++ [name]) (.link target))
          else
            match go with
            | none => .error .tooManyLinks
            | some go => go (if target.toList.head? = some '/' then [] else dir)
                (segments target ++ rest) := by
  have hdots : ¬ (name = "" ∨ name = ".") := not_or.mpr ⟨h.nonempty, h.notHere⟩
  rw [descend]
  exact (if_neg hdots).trans
    ((if_neg h.notAbove).trans (if_neg (Nat.not_lt.mpr h.short)))

/-- A look-up goes through directories. -/
theorem descend_append {follow : Bool}
    {go : Option (Spine → List String → Except SystemError Spot)} {dir as : Spine}
    (hn : ∀ name ∈ as, IsFileName name)
    (hd : ∀ front, front <+: as → front ≠ [] → t.entries[dir ++ front]? = some .directory)
    (rest : Spine) :
    t.descend follow go dir (as ++ rest) = t.descend follow go (dir ++ as) rest := by
  induction as generalizing dir with
  | nil => simp
  | cons a as ih =>
      have hfirst : t.entries[dir ++ [a]]? = some .directory :=
        hd [a] (by simp) (by simp)
      rw [List.cons_append, descend_step (hn a (by simp)), hfirst]
      dsimp only
      rw [ih fun name hname => hn name (by simp [hname])]
      · simp
      · intro front hf hne
        have := hd (a :: front) (List.cons_prefix_cons.mpr ⟨rfl, hf⟩) (by simp)
        simpa using this

/-- What a look-up finds where there are no links stands under the names that were asked for. -/
theorem of_descend {follow : Bool}
    {go : Option (Spine → List String → Except SystemError Spot)} {dir names : Spine}
    (hn : ∀ name ∈ names, name ≠ "" ∧ name ≠ "." ∧ name ≠ "..")
    (hl : ∀ front target, front <+: names → t.entries[dir ++ front]? ≠ some (.link target))
    {spine : Spine} {entry : Entry} (h : t.descend follow go dir names = .ok (.found spine entry)) :
    spine = dir ++ names ∧ (names ≠ [] → t.entries[spine]? = some entry) := by
  induction names generalizing dir with
  | nil =>
      obtain ⟨rfl, _⟩ : dir = spine ∧ Entry.directory = entry := by
        simpa [descend] using h
      simp
  | cons name names ih =>
      obtain ⟨hempty, hhere, habove⟩ := hn name (by simp)
      rw [descend, if_neg (by simp [hempty, hhere]), if_neg habove] at h
      split at h
      · exact absurd h (by simp)
      · dsimp only at h
        split at h
        · split at h <;> exact absurd h (by simp)
        · rename_i hdir
          obtain ⟨hs, he⟩ := ih (fun n hmem => hn n (by simp [hmem])) (by
            intro front target hf
            have := hl (name :: front) target (List.cons_prefix_cons.mpr ⟨rfl, hf⟩)
            simpa using this) h
          refine ⟨by simpa using hs, fun _ => ?_⟩
          by_cases hnil : names = []
          · subst hnil
            obtain ⟨_, rfl⟩ : _ ∧ Entry.directory = entry := by simpa [descend] using h
            rw [hs, List.append_nil]
            exact hdir
          · exact he hnil
        · rename_i content mode hfile
          split at h
          · rename_i hnil
            obtain rfl := List.isEmpty_iff.mp hnil
            obtain ⟨rfl, rfl⟩ : dir ++ [name] = spine ∧ Entry.file content mode = entry := by
              simpa using h
            exact ⟨rfl, fun _ => hfile⟩
          · exact absurd h (by simp)
        · rename_i target hlink
          exact absurd hlink (hl [name] target (by simp))

/-- Where each entry stands in a directory, directories lead to it from the root. -/
theorem holds_above (held : ∀ (rest : Spine) (name : String) (entry : Entry),
      t.entries[root ++ rest ++ [name]]? = some entry → t.Holds (root ++ rest))
    {rest more : Spine} {entry : Entry} (he : t.entries[root ++ (rest ++ more)]? = some entry)
    (hne : more ≠ []) : t.Holds (root ++ rest) := by
  induction more using List.reverseRecOn generalizing entry with
  | nil => exact absurd rfl hne
  | append_singleton more name ih =>
      have hhere : t.Holds (root ++ (rest ++ more)) :=
        held (rest ++ more) name entry (by simpa using he)
      by_cases hm : more = []
      · simpa [hm] using hhere
      · rcases hhere with hnil | hdir
        · exact absurd hnil (by simp [hm])
        · exact ih hdir hm

/-- The directories on the way to an entry. -/
theorem Sound.directory_above (h : t.Sound root) {rest front : Spine} {entry : Entry}
    (he : t.entries[root ++ rest]? = some entry) (hf : front <+: root ++ rest)
    (hne : front ≠ []) (hlt : front ≠ root ++ rest) : t.entries[front]? = some .directory := by
  have hholds : t.Holds front := by
    obtain ⟨more, hmore⟩ := hf
    rcases List.append_eq_append_iff.mp hmore with ⟨mid, hroot, _⟩ | ⟨mid, rfl, hrest⟩
    · exact h.rootHolds front ⟨mid, hroot.symm⟩
    · rw [hrest] at he
      exact holds_above h.held he fun hm => hlt (by rw [hrest, hm, List.append_nil])
  exact hholds.resolve_left hne

/-- A free name that a look-up ends with may be taken: it is a name, and a directory holds it. -/
theorem of_descend_vacant {follow : Bool}
    {go : Option (Spine → List String → Except SystemError Spot)} {dir names : Spine}
    (hdir : t.Holds dir) (hn : ∀ name ∈ names, name ≠ "" ∧ name ≠ "." ∧ name ≠ "..")
    (hl : ∀ front target, front <+: names → t.entries[dir ++ front]? ≠ some (.link target))
    {spine : Spine} (h : t.descend follow go dir names = .ok (.vacant spine)) :
    spine = dir ++ names ∧ t.entries[spine]? = none ∧ t.Holds (dir ++ names.dropLast) ∧
      ∀ name ∈ names, name.utf8ByteSize ≤ longestName := by
  induction names generalizing dir with
  | nil => simp [descend] at h
  | cons name names ih =>
      obtain ⟨hempty, hhere, habove⟩ := hn name (by simp)
      rw [descend, if_neg (by simp [hempty, hhere]), if_neg habove] at h
      split at h
      · exact absurd h (by simp)
      · rename_i hlong
        have hshort : name.utf8ByteSize ≤ longestName := Nat.not_lt.mp hlong
        dsimp only at h
        split at h
        · rename_i hnone
          split at h
          · rename_i hnil
            obtain rfl := List.isEmpty_iff.mp hnil
            obtain rfl : dir ++ [name] = spine := by simpa using h
            exact ⟨rfl, hnone, by simpa using hdir, by simpa using hshort⟩
          · exact absurd h (by simp)
        · rename_i hentry
          obtain ⟨hs, hnone, hholds, hall⟩ := ih (Or.inr hentry)
            (fun n hmem => hn n (by simp [hmem])) (by
            intro front target hf
            have := hl (name :: front) target (List.cons_prefix_cons.mpr ⟨rfl, hf⟩)
            simpa using this) h
          have hne : names ≠ [] := by
            rintro rfl
            simp [descend] at h
          refine ⟨by simpa using hs, hnone, ?_, ?_⟩
          · rw [List.dropLast_cons_of_ne_nil hne]
            simpa using hholds
          · intro n hmem
            rcases List.mem_cons.mp hmem with rfl | hmem
            · exact hshort
            · exact hall n hmem
        · split at h <;> exact absurd h (by simp)
        · rename_i target hlink
          exact absurd hlink (hl [name] target (by simp))

/-! ## Paths below the root -/

open Path (locate spine Proper)

/-- What stands under a path below the root. -/
def entryAt (t : FileTree) (root : Spine) (path : String) : Option Entry :=
  t.entries[root ++ spine path]?

theorem name_of_spine {path : String} (h : Proper path) :
    ∀ name ∈ spine path, name ≠ "" ∧ name ≠ "." ∧ name ≠ ".." := by
  intro name hname
  obtain ⟨s, hs, rfl⟩ := List.mem_map.mp hname
  have hhere : "." = String.ofList Path.here := rfl
  have habove : ".." = String.ofList Path.above := rfl
  have hempty : "" = String.ofList [] := rfl
  rw [hhere, habove, hempty, Ne, Ne, Ne, String.ofList_inj, String.ofList_inj, String.ofList_inj]
  exact h.names s hs

/-- Looking up goes to the root first, and from there by the names of the path. -/
theorem Grounded.look_locate (h : t.Grounded root) {path : String} (hp : Proper path)
    (follow : Bool) : ∃ go,
      t.look follow (locate (location root) path) = t.descend follow go root (spine path) := by
  refine ⟨some (t.walk follow 39), ?_⟩
  have hwalk : t.walk follow mostLinks = t.descend follow (some (t.walk follow 39)) := rfl
  rw [look, Path.isEmpty_locate root hp.isAbsolute, if_neg (by simp),
    Path.segments_locate h.names hp, hwalk, descend, if_pos (Or.inl rfl)]
  refine (descend_append h.names ?_ (spine path)).trans (by rw [List.nil_append])
  intro front hf hne
  exact (h.holds front hf).resolve_left hne

/-- The root itself is found as a directory. -/
theorem Grounded.entry_root (h : t.Grounded root) (follow : Bool) :
    t.entry follow (locate (location root) "") = .ok (root, .directory) := by
  have hwalk : t.walk follow mostLinks = t.descend follow (some (t.walk follow 39)) := rfl
  have hdescend : t.descend follow (some (t.walk follow 39)) [] ("" :: (root ++ [""])) =
      .ok (.found root .directory) := by
    rw [descend, if_pos (Or.inl rfl), descend_append h.names, List.nil_append, descend,
      if_pos (Or.inl rfl), descend]
    intro front hf hne
    exact (h.holds front hf).resolve_left hne
  rw [FileTree.entry, look, Path.isEmpty_locate root (by decide), if_neg (by simp),
    Path.segments_locate_empty h.names, hwalk, hdescend]

theorem Sound.linkless_below (h : t.Sound root) (names : Spine) :
    ∀ front target, front <+: names → t.entries[root ++ front]? ≠ some (.link target) :=
  fun front target _ => h.linkless front target

/-- A look-up by path finds what stands under the path. -/
theorem Sound.look_some (h : t.Sound root) {path : String} (hp : Proper path) {entry : Entry}
    (he : t.entryAt root path = some entry) (follow : Bool) :
    t.look follow (locate (location root) path) = .ok (.found (root ++ spine path) entry) := by
  obtain ⟨go, hlook⟩ := h.grounded.look_locate hp follow
  rw [hlook]
  obtain ⟨front, last, hsplit⟩ : ∃ front last, spine path = front ++ [last] := by
    rcases List.eq_nil_or_concat (spine path) with hnil | ⟨front, last, hc⟩
    · exact absurd hnil hp.spine_ne_nil
    · exact ⟨front, last, by rw [hc, List.concat_eq_append]⟩
  have hnames : ∀ name ∈ front ++ [last], IsFileName name := by
    rw [← hsplit]
    exact h.names _ entry he
  have hlast : t.entries[root ++ front ++ [last]]? = some entry := by
    rw [List.append_assoc, ← hsplit]
    exact he
  rw [hsplit, descend_append fun name hname => hnames name (List.mem_append_left _ hname)]
  · rw [descend_step (hnames last (by simp)), hlast]
    cases entry with
    | directory => simp [descend]
    | file content mode => simp
    | link target =>
        rw [List.append_assoc] at hlast
        exact absurd hlast (h.linkless _ target)
  · rintro more ⟨rest, rfl⟩ hne
    rw [entryAt, hsplit] at he
    refine h.directory_above he ⟨rest ++ [last], by simp⟩ (by simp [hne]) ?_
    intro heq
    have := congrArg List.length heq
    simp at this

/-- Where nothing stands a look-up by path finds nothing. -/
theorem Sound.look_none (h : t.Sound root) {path : String} (hp : Proper path)
    (he : t.entryAt root path = none) (follow : Bool) (found : Spine) (entry : Entry) :
    t.look follow (locate (location root) path) ≠ .ok (.found found entry) := by
  intro hfound
  obtain ⟨go, hlook⟩ := h.grounded.look_locate hp follow
  rw [hlook] at hfound
  obtain ⟨rfl, hentry⟩ := of_descend (name_of_spine hp) (h.linkless_below _) hfound
  rw [entryAt] at he
  rw [he] at hentry
  exact absurd (hentry hp.spine_ne_nil) (by simp)

/-- A look-up of a free name in a directory says that it is free, unless it is too long. -/
theorem Sound.look_free (h : t.Sound root) {path : String} (hp : Proper path)
    (hheld : t.Holds (root ++ (spine path).dropLast)) (hfree : t.entryAt root path = none)
    (follow : Bool) :
    t.look follow (locate (location root) path) =
      if longestName < ((spine path).getLast hp.spine_ne_nil).utf8ByteSize then .error .nameTooLong
      else .ok (.vacant (root ++ spine path)) := by
  obtain ⟨go, hlook⟩ := h.grounded.look_locate hp follow
  obtain ⟨front, last, hsplit⟩ : ∃ front last, spine path = front ++ [last] :=
    ⟨_, _, (List.dropLast_concat_getLast hp.spine_ne_nil).symm⟩
  have hfront : ∀ more, more <+: front → more ≠ [] →
      t.entries[root ++ more]? = some .directory := by
    intro more hmore hne
    rw [hsplit, List.dropLast_concat] at hheld
    have hentry := hheld.resolve_left fun hnil =>
      hne (List.prefix_nil.mp ((List.append_eq_nil_iff.mp hnil).2 ▸ hmore))
    by_cases hall : more = front
    · rw [hall]
      exact hentry
    · refine h.directory_above hentry ((List.prefix_append_right_inj root).mpr hmore) ?_ ?_
      · simp [hne]
      · exact fun he => hall (List.append_cancel_left he)
  have hnames : ∀ name ∈ front, IsFileName name := by
    by_cases hnil : front = []
    · simp [hnil]
    · exact h.names front _ (hfront front (List.prefix_refl front) hnil)
  obtain ⟨hempty, hhere, habove⟩ := name_of_spine hp last (by rw [hsplit]; simp)
  have hlast : t.entries[root ++ front ++ [last]]? = none := by
    rw [List.append_assoc, ← hsplit]
    exact hfree
  have hget : (spine path).getLast hp.spine_ne_nil = last := by
    simp only [hsplit, List.getLast_concat]
  rw [hlook, hget, hsplit, descend_append hnames hfront, descend,
    if_neg (by simp [hempty, hhere]), if_neg habove]
  split
  · rfl
  · rw [List.append_assoc] at hlast
    simp [hlast]

theorem Sound.entry_some (h : t.Sound root) {path : String} (hp : Proper path) {entry : Entry}
    (he : t.entryAt root path = some entry) (follow : Bool) :
    t.entry follow (locate (location root) path) = .ok (root ++ spine path, entry) := by
  rw [FileTree.entry, h.look_some hp he]

theorem Sound.entry_none (h : t.Sound root) {path : String} (hp : Proper path)
    (he : t.entryAt root path = none) (follow : Bool) :
    ∃ e, t.entry follow (locate (location root) path) = .error e := by
  rw [FileTree.entry]
  split
  · rename_i found entry hfound
    exact absurd hfound (h.look_none hp he follow found entry)
  · exact ⟨_, rfl⟩
  · exact ⟨_, rfl⟩

/-! ## Questions -/

theorem Sound.isDirectory_iff (h : t.Sound root) {path : String} (hp : Proper path) :
    t.isDirectory (locate (location root) path) = true ↔
      t.entryAt root path = some .directory := by
  rw [isDirectory]
  cases he : t.entryAt root path with
  | none =>
      obtain ⟨e, herr⟩ := h.entry_none hp he true
      simp [herr]
  | some entry =>
      rw [h.entry_some hp he]
      cases entry <;> simp

theorem Sound.isFile_iff (h : t.Sound root) {path : String} (hp : Proper path) :
    t.isFile (locate (location root) path) = true ↔
      ∃ content mode, t.entryAt root path = some (.file content mode) := by
  rw [isFile]
  cases he : t.entryAt root path with
  | none =>
      obtain ⟨e, herr⟩ := h.entry_none hp he true
      simp [herr]
  | some entry =>
      rw [h.entry_some hp he]
      cases entry <;> simp

theorem Sound.isThere_iff (h : t.Sound root) {path : String} (hp : Proper path) :
    t.isThere (locate (location root) path) = true ↔ t.entryAt root path ≠ none := by
  rw [isThere]
  cases he : t.entryAt root path with
  | none =>
      obtain ⟨e, herr⟩ := h.entry_none hp he true
      simp [herr, Except.isOk, Except.toBool]
  | some entry =>
      rw [h.entry_some hp he]
      simp [Except.isOk, Except.toBool]

/-- The bytes of a file as text. -/
def asText? (lenient : Bool) (bytes : ByteArray) : Option String :=
  match Text.decode? bytes with
  | some text => some text
  | none => if lenient then some (Text.decodeLenient bytes) else none

/-- A path is read as text exactly when a file stands there whose bytes are text. -/
theorem Sound.readText_eq_ok (h : t.Sound root) {path : String} (hp : Proper path)
    {lenient : Bool} {content : String} :
    t.readText (locate (location root) path) lenient = .ok content ↔
      ∃ bytes mode, t.entryAt root path = some (.file bytes mode) ∧
        asText? lenient bytes = some content := by
  rw [readText, read]
  cases he : t.entryAt root path with
  | none =>
      obtain ⟨e, herr⟩ := h.entry_none hp he true
      rw [herr]
      cases e <;> simp
  | some entry =>
      rw [h.entry_some hp he]
      cases entry with
      | directory => simp
      | link target => simp
      | file bytes mode =>
          simp only [Option.some.injEq, Entry.file.injEq, asText?]
          constructor
          · intro hread
            refine ⟨bytes, mode, ⟨rfl, rfl⟩, ?_⟩
            cases hd : Text.decode? bytes with
            | some text => simpa [hd] using hread
            | none => cases lenient <;> simp_all
          · rintro ⟨_, _, ⟨rfl, rfl⟩, htext⟩
            cases hd : Text.decode? bytes with
            | some text => simpa [hd] using htext
            | none => cases lenient <;> simp_all

/-! ## Writing a file -/

theorem getElem?_put (t : FileTree) (place other : Spine) (entry : Entry) :
    (t.put place entry).entries[other]? =
      if place = other then some entry else t.entries[other]? := by
  rw [put, Std.TreeMap.getElem?_insert]
  simp only [Std.compare_eq_iff_eq]

/-- A file may be put under a name that a directory holds and that is not a directory itself. -/
theorem Sound.put_file (h : t.Sound root) {rest : Spine}
    (hn : ∀ name ∈ rest, IsFileName name) (hd : t.Holds (root ++ rest.dropLast))
    (hold : t.entries[root ++ rest]? ≠ some .directory) (content : ByteArray) (mode : Nat) :
    (t.put (root ++ rest) (.file content mode)).Sound root := by
  have hdir : ∀ other, t.Holds other →
      (t.put (root ++ rest) (.file content mode)).Holds other := by
    intro other ho
    refine ho.imp_right fun hentry => ?_
    rw [getElem?_put, if_neg]
    · exact hentry
    · rintro rfl
      exact hold hentry
  refine ⟨h.rootNames, fun above ha => hdir above (h.rootHolds above ha), ?_, ?_, ?_⟩
  · intro more entry he
    rw [getElem?_put] at he
    split at he
    · rename_i hsame
      rw [← List.append_cancel_left hsame]
      exact hn
    · exact h.names more entry he
  · intro more name entry he
    rw [getElem?_put] at he
    split at he
    · rename_i hsame
      have hrest : rest = more ++ [name] := by
        rw [List.append_assoc] at hsame
        exact List.append_cancel_left hsame
      rw [hrest, List.dropLast_concat] at hd
      exact hdir _ hd
    · exact hdir _ (h.held more name entry he)
  · intro more target he
    rw [getElem?_put] at he
    split at he
    · exact absurd he (by simp)
    · exact h.linkless more target he

/-- The directory of an entry below the root. -/
theorem Sound.holds_dropLast (h : t.Sound root) {rest : Spine} {entry : Entry} (hne : rest ≠ [])
    (he : t.entries[root ++ rest]? = some entry) : t.Holds (root ++ rest.dropLast) := by
  rcases List.eq_nil_or_concat rest with rfl | ⟨front, last, rfl⟩
  · exact absurd rfl hne
  · rw [List.concat_eq_append] at he ⊢
    rw [List.dropLast_concat]
    exact h.held front last entry (by simpa using he)

/-- Replacing a file by path replaces what stands under the path. -/
theorem Sound.replace_file (h : t.Sound root) {path : String} (hp : Proper path)
    {old : ByteArray} {mode : Nat} (he : t.entryAt root path = some (.file old mode))
    (content : ByteArray) :
    t.replace (locate (location root) path) content =
      .ok (t.put (root ++ spine path) (.file content mode)) := by
  rw [replace, h.entry_some hp he, h.look_some hp he]

theorem Sound.sound_replaced (h : t.Sound root) {path : String} (hp : Proper path)
    {old : ByteArray} {mode : Nat} (he : t.entryAt root path = some (.file old mode))
    (content : ByteArray) :
    (t.put (root ++ spine path) (.file content mode)).Sound root := by
  rw [entryAt] at he
  refine h.put_file (h.names _ _ he) (h.holds_dropLast hp.spine_ne_nil he) ?_ _ _
  rw [he]
  simp

/-- A free name that a look-up ends with lies in a directory, and nothing stands under it. -/
theorem Sound.of_vacant (h : t.Sound root) {path : String} (hp : Proper path) {place : Spine}
    {follow : Bool} (hv : t.look follow (locate (location root) path) = .ok (.vacant place)) :
    place = root ++ spine path ∧ t.entryAt root path = none ∧
      t.Holds (root ++ (spine path).dropLast) ∧ ∀ name ∈ spine path, IsFileName name := by
  obtain ⟨go, hlook⟩ := h.grounded.look_locate hp follow
  rw [hlook] at hv
  obtain ⟨rfl, hnone, hholds, hshort⟩ := of_descend_vacant
    (h.rootHolds root (List.prefix_refl root)) (name_of_spine hp) (h.linkless_below _) hv
  refine ⟨rfl, hnone, hholds, fun name hname => ?_⟩
  obtain ⟨hempty, hhere, habove⟩ := name_of_spine hp name hname
  refine ⟨hempty, hhere, habove, ?_, hshort name hname⟩
  obtain ⟨s, hs, rfl⟩ := List.mem_map.mp hname
  rw [String.toList_ofList]
  exact Path.slash_not_mem ((Path.tidy_segments path).plain s hs)

theorem Sound.sound_vacant (h : t.Sound root) {path : String} (hp : Proper path) {place : Spine}
    {follow : Bool} (hv : t.look follow (locate (location root) path) = .ok (.vacant place))
    (content : ByteArray) (mode : Nat) :
    place = root ++ spine path ∧ (t.put place (.file content mode)).Sound root := by
  obtain ⟨rfl, hnone, hholds, hnames⟩ := h.of_vacant hp hv
  refine ⟨rfl, h.put_file hnames hholds ?_ _ _⟩
  rw [entryAt] at hnone
  rw [hnone]
  simp

/-- What a copy comes to, given what a look-up of its path says. -/
theorem Sound.copy_eq (h : t.Sound root) {source : String} {path : String} (hp : Proper path)
    {place : Spine} {content : ByteArray} {mode : Nat}
    (hsource : t.entry true source = .ok (place, .file content mode)) :
    match t.look true (locate (location root) path) with
    | .error e => t.copy source (locate (location root) path) = .error e
    | .ok (.found _ .directory) | .ok (.found _ (.link _)) =>
        t.copy source (locate (location root) path) = .error .isDirectory
    | .ok (.found _ (.file _ _)) | .ok (.vacant _) =>
        ∃ copied, t.copy source (locate (location root) path) = .ok copied ∧ copied.Sound root ∧
          ∀ other : Spine, copied.entries[other]? =
            if root ++ spine path = other then some (.file content mode) else t.entries[other]? := by
  rw [copy, hsource]
  -- a file that has been written is there, and so its permissions can be set
  have hwritten : ∀ kept, (t.put (root ++ spine path) (.file content kept)).Sound root →
      ∃ copied, (t.put (root ++ spine path) (.file content kept)).setMode
          (locate (location root) path) mode = .ok copied ∧ copied.Sound root ∧
        ∀ other : Spine, copied.entries[other]? =
          if root ++ spine path = other then some (.file content mode) else t.entries[other]? := by
    intro kept hsound
    have hentry : (t.put (root ++ spine path) (.file content kept)).entryAt root path =
        some (.file content kept) := by
      rw [entryAt, getElem?_put, if_pos rfl]
    rw [setMode, hsound.entry_some hp hentry]
    refine ⟨_, rfl, ?_, fun other => ?_⟩
    · rw [entryAt] at hentry
      refine hsound.put_file (hsound.names _ _ hentry)
        (hsound.holds_dropLast hp.spine_ne_nil hentry) ?_ _ _
      rw [hentry]
      simp
    · rw [getElem?_put, getElem?_put]
      split <;> rfl
  cases hlook : t.look true (locate (location root) path) with
  | error e => simp [write, hlook, bind, Except.bind]
  | ok spot =>
      cases spot with
      | vacant free =>
          obtain ⟨rfl, hsound⟩ := h.sound_vacant hp hlook content mode
          simpa [write, hlook, bind, Except.bind] using hwritten mode hsound
      | found found entry =>
          have hfound : t.entryAt root path = some entry ∧ found = root ++ spine path := by
            cases he : t.entryAt root path with
            | none => exact absurd hlook (h.look_none hp he true found entry)
            | some other =>
                rw [h.look_some hp he] at hlook
                simp_all
          obtain ⟨he, rfl⟩ := hfound
          cases entry with
          | file old kept =>
              simpa [write, hlook, bind, Except.bind] using
                hwritten kept (h.sound_replaced hp he content)
          | directory => simp [write, hlook, bind, Except.bind]
          | link target => simp [write, hlook, bind, Except.bind]

/-- Copying to a path changes nothing but what stands there, and leaves a file. -/
theorem Sound.of_copy (h : t.Sound root) {source : String} {path : String} (hp : Proper path)
    {copied : FileTree} (hc : t.copy source (locate (location root) path) = .ok copied) :
    copied.Sound root ∧ t.entryAt root path ≠ some .directory ∧
    ∃ content mode, ∀ other : Spine, copied.entries[other]? =
      if root ++ spine path = other then some (.file content mode) else t.entries[other]? := by
  have hnotdir : ∀ {follow : Bool} {spot : Except SystemError Spot},
      t.look follow (locate (location root) path) = spot →
      (∀ found, spot ≠ .ok (.found found .directory)) → t.entryAt root path ≠ some .directory :=
    fun hlook hne hdir => hne _ (hlook.symm.trans (h.look_some hp hdir _))
  cases hsource : t.entry true source with
  | error e => simp [copy, hsource] at hc
  | ok pair =>
      obtain ⟨place, entry⟩ := pair
      cases entry with
      | directory => simp [copy, hsource] at hc
      | link target => simp [copy, hsource] at hc
      | file content mode =>
          have heq := h.copy_eq hp hsource
          rw [hc] at heq
          split at heq
          · exact absurd heq (by simp)
          · exact absurd heq (by simp)
          · exact absurd heq (by simp)
          all_goals
            rename_i hlook
            obtain ⟨_, hcopied, hsound, hentries⟩ := heq
            obtain rfl := Except.ok.inj hcopied
            exact ⟨hsound, hnotdir hlook (by simp), content, mode, hentries⟩

/-! ## Going through all that lies below -/

theorem mem_below {dir rest : Spine} {entry : Entry} :
    (rest, entry) ∈ t.below dir ↔ rest ≠ [] ∧ t.entries[dir ++ rest]? = some entry := by
  rw [below, List.mem_filterMap]
  constructor
  · rintro ⟨⟨spine, e⟩, hmem, hsome⟩
    rw [Std.TreeMap.mem_toList_iff_getElem?_eq_some] at hmem
    dsimp only at hsome
    split at hsome
    · exact absurd hsome (by simp)
    · rename_i more hne hmore
      obtain ⟨rfl, rfl⟩ := Prod.mk.inj (Option.some.inj hsome)
      rw [Text.isPrefixOf?_eq_some] at hmore
      exact ⟨fun he => hne (by rw [he]), hmore ▸ hmem⟩
    · exact absurd hsome (by simp)
  · rintro ⟨hne, he⟩
    refine ⟨(dir ++ rest, entry), Std.TreeMap.mem_toList_iff_getElem?_eq_some.mpr he, ?_⟩
    have hp : dir.isPrefixOf? (dir ++ rest) = some rest := Text.isPrefixOf?_eq_some.mpr rfl
    dsimp only
    rw [hp]
    cases rest with
    | nil => exact absurd rfl hne
    | cons name rest => rfl

/-- Trees can be checked, entry by entry. -/
theorem sound_of_below (hroot : root ≠ []) (hnames : ∀ name ∈ root, IsFileName name)
    (hholds : ∀ n < root.length + 1, t.Holds (root.take n))
    (hbelow : ∀ pair ∈ t.below root, (∀ name ∈ pair.1, IsFileName name) ∧
      t.Holds (root ++ pair.1.dropLast) ∧ pair.2.isLink = false) : t.Sound root where
  rootNames := hnames
  rootHolds := by
    intro above ha
    rw [List.prefix_iff_eq_take.mp ha]
    exact hholds above.length (Nat.lt_succ_of_le ha.length_le)
  names := by
    intro rest entry he
    by_cases hrest : rest = []
    · simp [hrest]
    · exact (hbelow _ (mem_below.mpr ⟨hrest, he⟩)).1
  held := by
    intro rest name entry he
    have hmem : (rest ++ [name], entry) ∈ t.below root :=
      mem_below.mpr ⟨by simp, by rw [← List.append_assoc]; exact he⟩
    have hheld := (hbelow _ hmem).2.1
    rw [List.dropLast_concat] at hheld
    exact hheld
  linkless := by
    intro rest target he
    by_cases hrest : rest = []
    · rw [hrest, List.append_nil] at he
      have hdir := hholds root.length (Nat.lt_succ_self _)
      rw [List.take_length] at hdir
      exact absurd (he.symm.trans (hdir.resolve_left hroot)) (by simp)
    · have hlink := (hbelow _ (mem_below.mpr ⟨hrest, he⟩)).2.2
      exact Bool.noConfusion hlink

end FileTree

end LinkKeeper
