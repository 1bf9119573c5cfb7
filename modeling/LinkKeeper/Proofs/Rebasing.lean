import LinkKeeper.Proofs.Subtrees

/-!
# One subtree in place of another

`rebase?` gives what lies below one directory its place below another. What is behind the directory
in the path stays as it is, so nothing is lost: the way back is `rebase?` again, and two paths do not
fall together.

A link is read by what is behind the directory too, as long as it climbs no further than up to it.
So when a directory moves as a whole, the links inside it lead where they did, to the same files at
their new places, and need no edit.
-/

namespace LinkKeeper.Path

variable {source target : String}

/-! ## Which paths have a place, and which one -/

theorem isSome_rebase?_iff {path : String} (hs : Proper source) (ht : Proper target)
    (hp : normalize path = path) :
    (rebase? path source target).isSome = true ↔ isUnder source path = true := by
  constructor
  · intro h
    obtain ⟨new, hnew⟩ := Option.isSome_iff_exists.mp h
    exact (isUnder_of_rebase? hp hs ht hnew).1
  · intro h
    exact Option.isSome_iff_exists.mpr (exists_rebase? hs h target)

/-- Segments of the old place are replaced by those of the new one. -/
theorem rebase?_of_segments {path new : String} {more : List (List Char)} (hs : Proper source)
    (ht : Proper target) (hp : normalize path = path) (hnew : normalize new = new)
    (hpath : segments path = segments source ++ more)
    (hmore : segments new = segments target ++ more) : rebase? path source target = some new := by
  rw [← join_segments hp, ← join_segments hs.normal, ← join_segments ht.normal,
    ← join_segments hnew, hpath, hmore]
  exact rebase?_join hs.segments_ne_nil (tidy_segments target) ht.segments_ne_nil
    (tidy_segments source) (hpath ▸ tidy_segments path)

/-- What has gone to a new place comes back from it. -/
theorem rebase?_back {path new : String} (hs : Proper source) (ht : Proper target)
    (hp : normalize path = path) (hnew : rebase? path source target = some new) :
    rebase? new target source = some path := by
  obtain ⟨more, hpath, hmore, hproper⟩ := rebase?_eq_some hp hs ht hnew
  exact rebase?_of_segments ht hs hproper.normal hp hmore hpath

/-- What has gone to one place comes from one place. -/
theorem rebase?_injective {a b new : String} (ha : normalize a = a) (hb : normalize b = b)
    (hs : Proper source) (ht : Proper target) (hna : rebase? a source target = some new)
    (hnb : rebase? b source target = some new) : a = b :=
  Option.some.inj ((rebase?_back hs ht ha hna).symm.trans (rebase?_back hs ht hb hnb))

/-! ## Links inside the subtree -/

/-- How many levels a link climbs before it goes down to anything. -/
def climb (raw : String) : Nat := (segments raw).count above

/-- A link climbs, and then it goes down along names. -/
theorem segments_eq_climb (raw : String) :
    ∃ names, segments raw = List.replicate (climb raw) above ++ names ∧ ∀ s ∈ names, IsName s := by
  obtain ⟨ups, names, hraw, hnames⟩ := (tidy_segments raw).collapsed
  refine ⟨names, ?_, hnames⟩
  have hdown : names.count above = 0 :=
    List.count_eq_zero.mpr fun hmem => (hnames above hmem).2.2 rfl
  rw [climb, hraw, List.count_append, List.count_replicate_self, hdown, Nat.add_zero]

/-- A way that climbs no further than up to a directory is read behind it. -/
theorem collapse_behind {dir behind names : List (List Char)} (hdir : ∀ s ∈ dir ++ behind, IsName s)
    (hnames : ∀ s ∈ names, IsName s) {n : Nat} (hn : n ≤ behind.length) :
    collapse (dir ++ behind ++ (List.replicate n above ++ names)) =
      dir ++ (behind.take (behind.length - n) ++ names) := by
  have hle : n ≤ (dir ++ behind).length := by
    rw [List.length_append]
    omega
  have hcut : dir.length + behind.length - n - dir.length = behind.length - n := by omega
  rw [collapse_up_down hdir hnames hle, List.length_append, List.take_append, hcut,
    List.take_of_length_le (by omega), List.append_assoc]

/-- Where a file lies behind the directory that holds it, and its directory. -/
theorem segments_parent_below {file : String} {below : List (List Char)} (hf : Proper file)
    (hdir : normalize source = source) (hne : file ≠ source)
    (hfile : segments file = segments source ++ below) :
    segments (parent file) = segments source ++ below.dropLast := by
  have hbelow : below ≠ [] := by
    rintro rfl
    rw [List.append_nil] at hfile
    exact hne (eq_of_segments_eq hf.normal hdir hfile)
  rw [segments_parent hf, hfile, List.dropLast_append_of_ne_nil hbelow]

/--
A link in a file below a directory that climbs no further than up to it leads to the same place from
where the file lies when the directory has moved.
-/
theorem rebase?_resolve {file raw : String} (hs : Proper source) (ht : Proper target)
    (hfile : normalize file = file) (hunder : isUnder source file = true) (hne : file ≠ source)
    (hraw : isRootAbsolute raw = false)
    (hclimb : (segments source).length + climb raw ≤ (segments (parent file)).length) :
    ∃ host, rebase? file source target = some host ∧
      rebase? (resolve (parent file) raw) source target = some (resolve (parent host) raw) := by
  have hproper := hs.of_isUnder hfile hunder
  obtain ⟨host, hhost⟩ := exists_rebase? hs hunder target
  obtain ⟨below, hbelow, hmoved, hhostProper⟩ := rebase?_eq_some hfile hs ht hhost
  have hhostNe : host ≠ target := by
    rintro rfl
    have hself : rebase? source source host = some host := by
      rw [rebase?, beq_self_eq_true, if_pos rfl]
    exact hne (rebase?_injective hfile hs.normal hs ht hhost hself)
  have hdir := segments_parent_below hproper hs.normal hne hbelow
  have hdir' := segments_parent_below hhostProper ht.normal hhostNe hmoved
  obtain ⟨names, hway, hnames⟩ := segments_eq_climb raw
  have hn : climb raw ≤ below.dropLast.length := by
    rw [hdir, List.length_append] at hclimb
    omega
  have hthere : segments (resolve (parent file) raw) =
      segments source ++ (below.dropLast.take (below.dropLast.length - climb raw) ++ names) := by
    rw [segments_resolve, hraw, if_neg Bool.false_ne_true, hway, hdir]
    exact collapse_behind (hdir ▸ hproper.names_parent) hnames hn
  have hhere : segments (resolve (parent host) raw) =
      segments target ++ (below.dropLast.take (below.dropLast.length - climb raw) ++ names) := by
    rw [segments_resolve, hraw, if_neg Bool.false_ne_true, hway, hdir']
    exact collapse_behind (hdir' ▸ hhostProper.names_parent) hnames hn
  exact ⟨host, hhost, rebase?_of_segments hs ht (normalize_resolve _ _) (normalize_resolve _ _)
    hthere hhere⟩

/--
**A subtree moves without loss, and the links inside it lead to the same files.**

Let two directories be proper paths. A path in normal form has a new place exactly when it lies at or
below the old directory. From the new place `rebase?` leads back to the path, and distinct paths have
distinct new places. And let a file lie below the old directory, and a relative link in it climb no
further than up to that directory: from the new place of the file it leads to the new place of what it
led to. One directory may lie in the other, or have a name that begins with the name of the other.
-/
theorem rebase?_moves_subtree (hs : Proper source) (ht : Proper target) :
    (∀ path, normalize path = path →
      ((rebase? path source target).isSome = true ↔ isUnder source path = true)) ∧
    (∀ path new, normalize path = path → rebase? path source target = some new →
      rebase? new target source = some path) ∧
    (∀ a b new, normalize a = a → normalize b = b → rebase? a source target = some new →
      rebase? b source target = some new → a = b) ∧
    ∀ file raw, normalize file = file → isUnder source file = true → file ≠ source →
      isRootAbsolute raw = false →
      (segments source).length + climb raw ≤ (segments (parent file)).length →
      ∃ host, rebase? file source target = some host ∧
        rebase? (resolve (parent file) raw) source target = some (resolve (parent host) raw) :=
  ⟨fun _ => isSome_rebase?_iff hs ht, fun _ _ => rebase?_back hs ht,
    fun _ _ _ ha hb => rebase?_injective ha hb hs ht, fun _ _ => rebase?_resolve hs ht⟩

/--
A directory moves into itself. A link in it that climbs up to it is read at the new place as before;
a neighbour whose name begins alike has no new place.
-/
theorem rebase?_moves_subtree_inward :
    (Proper "doc" ∧ Proper "doc/old") ∧
    (rebase? "docs/x.md" "doc" "doc/old").isSome = false ∧
    rebase? "doc/api/a.md" "doc" "doc/old" = some "doc/old/api/a.md" ∧
    rebase? "doc/old/api/a.md" "doc/old" "doc" = some "doc/api/a.md" ∧
    (segments "doc").length + climb "./../b.md" = (segments (parent "doc/api/a.md")).length ∧
    rebase? (resolve (parent "doc/api/a.md") "./../b.md") "doc" "doc/old" =
      some (resolve (parent "doc/old/api/a.md") "./../b.md") := by
  have hs : Proper "doc" := by decide +kernel
  have ht : Proper "doc/old" := by decide +kernel
  obtain ⟨hwhich, hback, -, hlinks⟩ := rebase?_moves_subtree hs ht
  have hnormal : normalize "docs/x.md" = "docs/x.md" := by decide +kernel
  have hbeside : isUnder "doc" "docs/x.md" = false := by decide +kernel
  have hfile : normalize "doc/api/a.md" = "doc/api/a.md" := by decide +kernel
  have hunder : isUnder "doc" "doc/api/a.md" = true := by decide +kernel
  have hraw : isRootAbsolute "./../b.md" = false := by decide +kernel
  have hclimb : (segments "doc").length + climb "./../b.md" =
      (segments (parent "doc/api/a.md")).length := by decide +kernel
  have hplace : rebase? "doc/api/a.md" "doc" "doc/old" = some "doc/old/api/a.md" := by
    decide +kernel
  obtain ⟨host, hhost, hleads⟩ := hlinks _ _ hfile hunder (by decide) hraw (Nat.le_of_eq hclimb)
  obtain rfl := Option.some.inj (hplace.symm.trans hhost)
  refine ⟨⟨hs, ht⟩, ?_, hplace, hback _ _ hfile hplace, hclimb, hleads⟩
  rw [← Bool.not_eq_true, hwhich _ hnormal, hbeside]
  exact Bool.false_ne_true

end LinkKeeper.Path
