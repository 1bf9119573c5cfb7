import LinkKeeper.FileTree
import LinkKeeper.Proofs.Subtrees

/-!
# Locations and paths

A file is named in two ways: by its path below the root, and by its location, which is
text from the top of the file system. The one is turned into the other each time a file
is touched. Here the root is the location of a list of names, its `Spine`, and the text
in between is shown not to matter: a path leads to the names of the root followed by its
own, and from there back to itself.
-/

namespace LinkKeeper

open Text

/-- A name that a directory may hold. -/
structure IsFileName (name : String) : Prop where
  nonempty : name ≠ ""
  notHere : name ≠ "."
  notAbove : name ≠ ".."
  plain : '/' ∉ name.toList
  short : name.utf8ByteSize ≤ FileTree.longestName

instance (name : String) : Decidable (IsFileName name) :=
  decidable_of_iff (name ≠ "" ∧ name ≠ "." ∧ name ≠ ".." ∧ '/' ∉ name.toList ∧
      name.utf8ByteSize ≤ FileTree.longestName)
    ⟨fun ⟨h1, h2, h3, h4, h5⟩ => ⟨h1, h2, h3, h4, h5⟩,
      fun h => ⟨h.nonempty, h.notHere, h.notAbove, h.plain, h.short⟩⟩

namespace Path

/-- The names along a path. -/
def spine (path : String) : Spine := (segments path).map String.ofList

@[simp] theorem spine_empty : spine "" = [] := rfl

theorem spine_join {ss : List (List Char)} (h : Tidy ss) : spine (join ss) = ss.map String.ofList := by
  rw [spine, segments_join h]

theorem map_ofList_injective {as bs : List (List Char)}
    (h : as.map String.ofList = bs.map String.ofList) : as = bs := by
  have := congrArg (List.map String.toList) h
  simpa [Function.comp_def] using this

/-- Normal forms are told apart by their names. -/
theorem eq_of_spine_eq {a b : String} (ha : normalize a = a) (hb : normalize b = b)
    (h : spine a = spine b) : a = b :=
  eq_of_segments_eq ha hb (map_ofList_injective h)

theorem spine_prefix_iff {a b : String} : spine a <+: spine b ↔ segments a <+: segments b := by
  constructor
  · intro h
    have := h.map String.toList
    simpa [spine, Function.comp_def] using this
  · exact fun h => h.map String.ofList

/-- What lies under a directory has the names of the directory in front. -/
theorem isUnder_iff_spine {dir path : String} (hd : normalize dir = dir)
    (hp : normalize path = path) : isUnder dir path = true ↔ spine dir <+: spine path := by
  rw [isUnder_iff hd hp, spine_prefix_iff]

theorem Proper.spine_ne_nil {path : String} (h : Proper path) : spine path ≠ [] := by
  rw [spine, Ne, List.map_eq_nil_iff]
  exact h.segments_ne_nil

theorem map_toList_spine (path : String) : (spine path).map String.toList = segments path := by
  rw [spine, List.map_map]
  simp [Function.comp_def]

theorem not_isSlash {cs : List Char} (h : '/' ∉ cs) : ∀ c ∈ cs, (c == '/') = false := by
  intro c hc
  rw [beq_eq_false_iff_ne]
  rintro rfl
  exact h hc

/-- Between its slashes a proper path has its segments. -/
theorem Proper.splitWhere_slash {path : String} (h : Proper path) :
    splitWhere (· == '/') path.toList = segments path := by
  have hp : path.toList = ['/'].intercalate (segments path) := by
    rw [← toList_join, join_segments h.normal]
  rw [hp, splitWhere_intercalate (p := (· == '/')) rfl h.segments_ne_nil]
  intro s hs
  exact not_isSlash (slash_not_mem ((tidy_segments path).plain s hs))

theorem isAbsolute_eq (path : String) : isAbsolute path = (path.toList.head? == some '/') := by
  rw [isAbsolute]
  cases path.toList with
  | nil => rfl
  | cons c cs =>
      have : "/".toList = ['/'] := rfl
      rw [this, List.isPrefixOf_cons_cons]
      by_cases h : c = '/'
      · simp [h]
      · simp [h, Ne.symm h]

theorem Proper.isAbsolute {path : String} (h : Proper path) : isAbsolute path = false := by
  have hr := isRootAbsolute_of_normal h.normal
  rw [isRootAbsolute] at hr
  rw [isAbsolute_eq]
  cases hc : path.toList with
  | nil => rfl
  | cons c cs =>
      rw [hc] at hr
      rw [List.head?_cons, beq_eq_false_iff_ne]
      intro he
      rw [Option.some.inj he] at hr
      exact Bool.noConfusion hr

/-! ## The text of a location -/

variable {root : Spine}

theorem toList_location (root : Spine) :
    (FileTree.location root).toList = '/' :: ['/'].intercalate (root.map String.toList) := by
  have : "/".toList = ['/'] := rfl
  rw [FileTree.location, String.toList_append, String.toList_intercalate, this]
  rfl

theorem isEmpty_location (root : Spine) : (FileTree.location root).isEmpty = false := by
  rw [← Bool.not_eq_true, String.isEmpty_iff, ← String.toList_inj, toList_location]
  simp

/-- A location ends in a slash at the top only. -/
theorem getLast?_location (hroot : ∀ name ∈ root, IsFileName name) :
    ((FileTree.location root).toList.getLast? == some '/') = decide (root = []) := by
  rcases List.eq_nil_or_concat root with rfl | ⟨front, last, rfl⟩
  · rfl
  · rw [List.concat_eq_append] at hroot ⊢
    have hlast := hroot last (by simp)
    have hne : last.toList ≠ [] := fun he => hlast.nonempty (String.toList_eq_nil_iff.mp he)
    obtain ⟨cs, c, hc⟩ : ∃ cs c, last.toList = cs ++ [c] := by
      rcases List.eq_nil_or_concat last.toList with he | ⟨cs, c, he⟩
      · exact absurd he hne
      · exact ⟨cs, c, by rw [he, List.concat_eq_append]⟩
    have hends : ∃ ds, (FileTree.location (front ++ [last])).toList = ds ++ [c] := by
      rw [toList_location, List.map_append]
      by_cases hf : front = []
      · exact ⟨'/' :: cs, by simp [hf, hc]⟩
      · refine ⟨'/' :: (['/'].intercalate (front.map String.toList) ++ '/' :: cs), ?_⟩
        rw [intercalate_append (by simpa using hf) (by simp)]
        simp [hc]
    obtain ⟨ds, hds⟩ := hends
    have hslash : c ≠ '/' := by
      rintro rfl
      exact hlast.plain (by rw [hc]; simp)
    simp [hds, hslash]

/-- Between the slashes of a location stand an empty piece, the names of the root, and the path. -/
theorem splitWhere_locate (hroot : ∀ name ∈ root, IsFileName name) {path : String}
    (hp : isAbsolute path = false) :
    splitWhere (· == '/') (locate (FileTree.location root) path).toList =
      [] :: root.map String.toList ++ splitWhere (· == '/') path.toList := by
  have hfirst : ∀ cs, splitWhere (· == '/') ('/' :: cs) = [] :: splitWhere (· == '/') cs :=
    fun cs => splitWhere_append_cons (p := (· == '/')) rfl [] cs
  rw [locate, hp, isEmpty_location, getLast?_location hroot, Bool.or_false, if_neg (by simp)]
  by_cases hr : root = []
  · subst hr
    have : FileTree.location [] = "/" := rfl
    rw [decide_eq_true rfl, if_pos rfl, this, String.toList_append]
    exact hfirst path.toList
  · have hne : root.map String.toList ≠ [] := by simpa using hr
    have hslash : "/".toList = ['/'] := rfl
    rw [if_neg (by simpa using hr), String.toList_append, String.toList_append, hslash,
      List.append_assoc, List.singleton_append,
      splitWhere_append_cons (p := (· == '/')) rfl, toList_location, hfirst,
      splitWhere_intercalate (p := (· == '/')) rfl hne]
    intro s hs
    obtain ⟨name, hname, rfl⟩ := List.mem_map.mp hs
    exact not_isSlash (hroot name hname).plain

/-- No segment of a location has a slash in it. -/
theorem not_mem_fileSegments (place : String) :
    ∀ name ∈ FileTree.segments place, '/' ∉ name.toList := by
  intro name hname hslash
  obtain ⟨piece, hpiece, rfl⟩ := List.mem_map.mp hname
  rw [String.toList_ofList] at hslash
  exact absurd (of_mem_splitWhere hpiece '/' hslash) (by simp)

/-- The segments of a located path. -/
theorem segments_locate (hroot : ∀ name ∈ root, IsFileName name) {path : String}
    (hp : Proper path) :
    FileTree.segments (locate (FileTree.location root) path) = "" :: (root ++ spine path) := by
  rw [FileTree.segments, splitWhere_locate hroot hp.isAbsolute, hp.splitWhere_slash]
  simp [spine, Function.comp_def]

/-- The segments of the root itself. -/
theorem segments_locate_empty (hroot : ∀ name ∈ root, IsFileName name) :
    FileTree.segments (locate (FileTree.location root) "") = "" :: (root ++ [""]) := by
  rw [FileTree.segments, splitWhere_locate hroot (by decide)]
  simp [Function.comp_def, splitWhere]

theorem isEmpty_locate (root : Spine) {path : String} (hp : isAbsolute path = false) :
    (locate (FileTree.location root) path).isEmpty = false := by
  have hne : FileTree.location root ≠ "" := by
    rw [Ne, ← String.isEmpty_iff, isEmpty_location]
    simp
  rw [locate, hp, isEmpty_location, Bool.or_false, if_neg (by simp), ← Bool.not_eq_true,
    String.isEmpty_iff]
  split <;> simp [hne]

/-- A proper path below a root is a longer location. -/
theorem locate_eq_location (hroot : ∀ name ∈ root, IsFileName name) {path : String}
    (hp : Proper path) :
    locate (FileTree.location root) path = FileTree.location (root ++ spine path) := by
  have htext : path.toList = ['/'].intercalate (segments path) := by
    rw [← toList_join, join_segments hp.normal]
  rw [← String.toList_inj, toList_location, List.map_append, map_toList_spine, locate,
    hp.isAbsolute, isEmpty_location, getLast?_location hroot, Bool.or_false, if_neg (by simp)]
  by_cases hr : root = []
  · subst hr
    rw [decide_eq_true rfl, if_pos rfl, String.toList_append, htext]
    rfl
  · have hne : root.map String.toList ≠ [] := by simpa using hr
    have hslash : "/".toList = ['/'] := rfl
    rw [if_neg (by simpa using hr), intercalate_append hne hp.segments_ne_nil,
      String.toList_append, String.toList_append, toList_location, hslash, htext]
    simp

/-- The root may be named with a slash at its end. -/
theorem locate_locate_empty (hroot : ∀ name ∈ root, IsFileName name) {path : String}
    (hp : isAbsolute path = false) :
    locate (locate (FileTree.location root) "") path = locate (FileTree.location root) path := by
  have hends : ((locate (FileTree.location root) "").toList.getLast? == some '/') = true := by
    rw [locate, isEmpty_location, getLast?_location hroot]
    by_cases hr : root = []
    · subst hr
      rfl
    · have hslash : "/".toList = ['/'] := rfl
      simp [hr, isAbsolute, hslash]
  have hleft : locate (locate (FileTree.location root) "") path =
      locate (FileTree.location root) "" ++ path := by
    rw [locate.eq_1 (locate (FileTree.location root) ""), hp, isEmpty_locate root (by decide),
      Bool.or_false, if_neg (by simp), if_pos hends]
  rw [hleft, locate, locate, hp, isEmpty_location, getLast?_location hroot]
  by_cases hr : root = []
  · simp [hr, isAbsolute]
  · simp [hr, isAbsolute]

/-! ## Back to the path -/

/-- A segment that counts in a location. -/
theorem isNamed_of_isFileName {name : String} (h : IsFileName name) :
    decide (name.toList ≠ [] ∧ name.toList ≠ here) = true := by
  have hhere : ".".toList = here := rfl
  rw [decide_eq_true_iff]
  refine ⟨fun he => h.nonempty (String.toList_eq_nil_iff.mp he), fun he => h.notHere ?_⟩
  rw [← String.toList_inj, he, hhere]

theorem filter_named {names : Spine} (h : ∀ name ∈ names, IsFileName name) :
    ((names.map String.toList).filter fun s => s ≠ [] ∧ s ≠ here) = names.map String.toList := by
  rw [List.filter_eq_self]
  intro s hs
  obtain ⟨name, hname, rfl⟩ := List.mem_map.mp hs
  exact isNamed_of_isFileName (h name hname)

theorem components_location (hroot : ∀ name ∈ root, IsFileName name) :
    components (FileTree.location root) = ['/'] :: root.map String.toList := by
  have hfirst : ∀ cs, splitWhere (· == '/') ('/' :: cs) = [] :: splitWhere (· == '/') cs :=
    fun cs => splitWhere_append_cons (p := (· == '/')) rfl [] cs
  rw [components, toList_location, hfirst]
  dsimp only
  rw [if_pos rfl, isEmpty_location, if_neg (by simp)]
  by_cases hr : root = []
  · subst hr
    rfl
  · rw [splitWhere_intercalate (p := (· == '/')) rfl (by simpa using hr), filter_named hroot]
    intro s hs
    obtain ⟨name, hname, rfl⟩ := List.mem_map.mp hs
    exact not_isSlash (hroot name hname).plain

theorem components_locate (hroot : ∀ name ∈ root, IsFileName name) {path : String}
    (hp : isAbsolute path = false) :
    components (locate (FileTree.location root) path) =
      ['/'] :: (root.map String.toList ++
        (splitWhere (· == '/') path.toList).filter fun s => s ≠ [] ∧ s ≠ here) := by
  rw [components, splitWhere_locate hroot hp]
  dsimp only [List.cons_append]
  rw [if_pos rfl, isEmpty_locate root hp, if_neg (by simp), List.filter_append, filter_named hroot]

/-- What a root makes of a location that is written below a longer one. -/
theorem fromRoot?_locate {dir : Spine} (hroot : ∀ name ∈ root ++ dir, IsFileName name)
    {path : String} (hp : isAbsolute path = false) :
    fromRoot? (FileTree.location root) (locate (FileTree.location (root ++ dir)) path) =
      let p := normalize (join (dir.map String.toList ++
        (splitWhere (· == '/') path.toList).filter fun s => s ≠ [] ∧ s ≠ here))
      if escapes p then none else some p := by
  have hpre : ∀ rest, (components (FileTree.location root)).isPrefixOf?
      (['/'] :: ((root ++ dir).map String.toList ++ rest)) =
        some (dir.map String.toList ++ rest) := by
    intro rest
    rw [components_location fun name hname => hroot name (List.mem_append_left _ hname),
      isPrefixOf?_eq_some]
    simp
  rw [fromRoot?, components_locate hroot hp, hpre, Option.bind_eq_bind, Option.bind_some]

/-- All segments of a path count in a location. -/
theorem Proper.filter_named {path : String} (h : Proper path) :
    ((splitWhere (· == '/') path.toList).filter fun s => s ≠ [] ∧ s ≠ here) = segments path := by
  rw [h.splitWhere_slash, List.filter_eq_self]
  exact fun s hs => decide_eq_true ⟨(h.names s hs).1, (h.names s hs).2.1⟩

/-- A path is read back from its location. -/
theorem Proper.fromRoot? {path : String} (h : Proper path)
    (hroot : ∀ name ∈ root, IsFileName name) :
    fromRoot? (FileTree.location root) (locate (FileTree.location root) path) = some path := by
  have := @fromRoot?_locate root [] (by simpa using hroot) path h.isAbsolute
  rw [List.append_nil] at this
  rw [this, h.filter_named, List.map_nil, List.nil_append, join_segments h.normal, h.normal]
  exact if_neg (by rw [h.inside]; simp)

/-- What is read back is in normal form and inside. -/
theorem normal_of_fromRoot? {root location path : String} (h : fromRoot? root location = some path) :
    normalize path = path ∧ escapes path = false := by
  rw [fromRoot?] at h
  obtain ⟨rest, _, hrest⟩ := Option.bind_eq_some_iff.mp h
  dsimp only at hrest
  split at hrest
  · exact absurd hrest (by simp)
  · rename_i hin
    obtain rfl := Option.some.inj hrest
    exact ⟨normalize_normalize _, by simpa using hin⟩

end Path

end LinkKeeper
