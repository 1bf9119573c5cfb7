import LinkKeeper.Proofs.Retargeting
import LinkKeeper.Proofs.Rebasing

/-!
# What a link in a moved file reads

When a file and what it links to have moved together, the link is read from another
directory, and what it should lead to has another path. The new link is computed from the
new directory, and leads there, but for one case: a link that also reads as what has moved
from the root is taken for one that is written from the root. Where nothing is edited, the
link is one that does nothing but climb, and it climbs to the same place from either
directory.
-/

namespace LinkKeeper

namespace Path

/-! ## Ways up -/

/-- A way that only climbs and stays inside takes names off. -/
theorem collapse_ups {dir : List (List Char)} (hd : ∀ s ∈ dir, IsName s) {n : Nat}
    (h : ∀ s ∈ collapse (dir ++ List.replicate n above), IsName s) :
    n ≤ dir.length ∧ collapse (dir ++ List.replicate n above) = dir.take (dir.length - n) := by
  have hup : ∀ m, m ≤ dir.length →
      collapse (dir ++ List.replicate m above) = dir.take (dir.length - m) := by
    intro m hm
    have hdown := @collapse_up_down dir [] hd (by simp) m hm
    rw [List.append_nil, List.append_nil] at hdown
    exact hdown
  rcases Nat.lt_or_ge dir.length n with hlt | hle
  · -- one step more than there are names leads out of the root
    obtain ⟨m, rfl⟩ : ∃ m, n = dir.length + (m + 1) := ⟨n - dir.length - 1, by omega⟩
    have hall := hup dir.length (Nat.le_refl _)
    rw [Nat.sub_self, List.take_zero] at hall
    have hups := @collapse_replicate_append (m + 1) [] (by simp)
    rw [List.append_nil] at hups
    rw [← List.replicate_append_replicate, ← List.append_assoc, ← collapse_collapse_append, hall,
      List.nil_append, hups] at h
    exact absurd rfl (h above (by simp)).2.2
  · exact ⟨hle, hup n hle⟩

/-- Of a link inside the tree both readings have the same name, unless it only climbs. -/
theorem baseName_resolve {dir raw : String} (ha : isRootAbsolute raw = false) :
    baseName (normalize raw) = baseName (resolve dir raw) ∨
      ∃ n, segments raw = List.replicate n above := by
  obtain ⟨⟨ups, names, hseg, hn⟩, hplain⟩ := tidy_segments raw
  rcases List.eq_nil_or_concat names with rfl | ⟨front, last, rfl⟩
  · exact .inr ⟨ups, by rw [hseg, List.append_nil]⟩
  · left
    have hlast : IsName last := hn last (by simp)
    have hl : ∀ c ∈ last, isSeparator c = false := hplain last (by rw [hseg]; simp)
    have hraw : segments raw = (List.replicate ups above ++ front) ++ [last] := by
      rw [hseg, List.concat_eq_append, List.append_assoc]
    have hresolved : segments (resolve dir raw) =
        collapse (segments dir ++ (List.replicate ups above ++ front)) ++ [last] := by
      rw [segments_resolve, ha, if_neg (by simp), hraw, ← List.append_assoc,
        collapse_append_singleton, push_name hlast, List.reverse_cons, List.reverse_reverse]
    rw [normalize, hraw, baseName_join hl, ← normalize_resolve, normalize, hresolved,
      baseName_join hl]

/-- A way that only climbs does not lead to the file it begins at. -/
theorem resolve_ups_ne {file raw : String} (hf : Proper file) (ha : isRootAbsolute raw = false)
    {n : Nat} (hraw : segments raw = List.replicate n above) : resolve (parent file) raw ≠ file := by
  intro hres
  rw [resolve_eq_iff hf.normal, ha, if_neg (by simp), hraw] at hres
  obtain ⟨hle, htake⟩ := collapse_ups hf.names_parent (by rw [hres]; exact hf.names)
  rw [hres] at htake
  have hlength := congrArg List.length htake
  rw [List.length_take, segments_parent hf, List.length_dropLast] at hlength
  have hpos := List.length_pos_iff.mpr hf.segments_ne_nil
  omega

/-! ## Rebasing -/

/-- What was below a directory keeps its name. -/
theorem baseName_rebased {source target path new : String} (hs : Proper source) (ht : Proper target)
    (hp : Proper path) (hne : path ≠ source) (hnew : rebase? path source target = some new) :
    baseName new = baseName path := by
  obtain ⟨below, hpath, hnew', hproper⟩ := rebase?_eq_some hp.normal hs ht hnew
  rcases List.eq_nil_or_concat below with rfl | ⟨front, last, rfl⟩
  · rw [List.append_nil] at hpath
    exact absurd (eq_of_segments_eq hp.normal hs.normal hpath) hne
  · rw [List.concat_eq_append, ← List.append_assoc] at hpath hnew'
    have hl : ∀ c ∈ last, isSeparator c = false :=
      (tidy_segments path).plain last (by rw [hpath]; simp)
    rw [← join_segments hp.normal, ← join_segments hproper.normal, hpath, hnew', baseName_join hl,
      baseName_join hl]

/-- A way that only climbs leads from the new place of a file to the new place of where it led. -/
theorem resolve_rebased {source target file host old new raw : String} (hs : Proper source)
    (ht : Proper target) (hf : Proper file) (hne : file ≠ source)
    (hhost : rebase? file source target = some host) (hold : Proper old)
    (hnew : rebase? old source target = some new) (ha : isRootAbsolute raw = false) {n : Nat}
    (hraw : segments raw = List.replicate n above) (hres : resolve (parent file) raw = old) :
    resolve (parent host) raw = new := by
  have hunder := (isUnder_of_rebase? hf.normal hs ht hhost).1
  -- what it leads to lies below the directory that has moved, so it climbs no further than up to that
  have hclimb : (segments source).length + climb raw ≤ (segments (parent file)).length := by
    have hdeep := (isUnder_iff hs.normal hold.normal).mp
      (isUnder_of_rebase? hold.normal hs ht hnew).1
    have hreads := (resolve_eq_iff hold.normal).mp hres
    rw [ha, if_neg Bool.false_ne_true, hraw] at hreads
    obtain ⟨hle, htake⟩ := collapse_ups hf.names_parent (by rw [hreads]; exact hold.names)
    have hlength := hdeep.length_le
    rw [← hreads, htake, List.length_take] at hlength
    rw [climb, hraw, List.count_replicate_self]
    omega
  obtain ⟨host', hhost', hleads⟩ := rebase?_resolve hs ht hf.normal hunder hne ha hclimb
  obtain rfl := Option.some.inj (hhost.symm.trans hhost')
  rw [hres, hnew] at hleads
  exact (Option.some.inj hleads).symm

end Path

namespace Edit

open Path (Proper isRootAbsolute normalize resolve parent segments)

/-! ## Signs of a fragment -/

/-- A path without the sign of a fragment is read off from a link that was made of it. -/
theorem splitFragment_spelled {r : Reference} {path : String} (h : '#' ∉ path.toList) :
    (Path.splitFragment (r.spelled path)).1 = path := by
  rw [Reference.spelled]
  split
  · rename_i fragment _
    have hsplit : Text.splitFirst? '#' (path ++ "#" ++ fragment).toList =
        some (path.toList, fragment.toList) := by
      have hlist : (path ++ "#" ++ fragment).toList = path.toList ++ '#' :: fragment.toList := by
        simp [String.toList_append]
      rw [hlist]
      exact Text.splitFirst?_append_cons h _
    rw [Path.splitFragment, hsplit]
    exact String.ofList_toList
  · rw [Path.splitFragment, Text.splitFirst?_eq_none.mpr h]

theorem mem_segments {path : String} {s : List Char} {c : Char} (hs : s ∈ segments path)
    (hc : c ∈ s) : c ∈ path.toList := by
  rw [Path.segments_eq] at hs
  exact Text.mem_of_mem_splitWhere (Path.mem_of_mem_collapse hs) hc

/-- A new path is written with what the path of the place has, and with signs of its own. -/
theorem mem_relative {dir target : String} {c : Char}
    (hc : c ∈ (Path.relative dir target).toList) : c = '/' ∨ c = '.' ∨ c ∈ target.toList := by
  rw [Path.relative_eq] at hc
  split at hc
  · exact .inr (.inl (by simpa using hc))
  · rw [Path.toList_join] at hc
    rcases Text.of_mem_intercalate hc with hslash | ⟨s, hs, hcs⟩
    · exact .inl hslash
    · rcases List.mem_append.mp hs with hs | hs
      · rw [List.eq_of_mem_replicate hs] at hcs
        exact .inr (.inl (by simpa [Path.above] using hcs))
      · exact .inr (.inr (mem_segments (List.mem_of_mem_drop hs) hcs))

theorem mem_baseName {path : String} {c : Char} (hc : c ∈ (Path.baseName path).toList) :
    c ∈ path.toList := by
  rw [Path.baseName] at hc
  split at hc
  · rename_i front name hsplit
    rw [String.toList_ofList] at hc
    rw [← Text.append_of_splitLast? hsplit]
    exact List.mem_append_right _ (List.mem_cons_of_mem _ hc)
  · exact hc

theorem mem_retarget {written hostDir : String} {m : Move} {c : Char}
    (hc : c ∈ (retarget written hostDir m).toList) :
    c = '/' ∨ c = '.' ∨ c ∈ m.target.toList := by
  rw [retarget] at hc
  split at hc
  · rw [String.toList_append] at hc
    rcases List.mem_append.mp hc with hc | hc
    · exact .inl (by simpa using hc)
    · exact .inr (.inr hc)
  · split at hc
    · exact .inr (.inr (mem_baseName hc))
    · split at hc
      · exact .inr (.inr hc)
      · rw [keepHere] at hc
        split at hc
        · rw [String.toList_append] at hc
          rcases List.mem_append.mp hc with hc | hc
          · have hsign : c = '.' ∨ c = '/' := by simpa using hc
            exact hsign.elim (fun he => .inr (.inl he)) .inl
          · exact mem_relative hc
        · exact mem_relative hc

/-- Nothing brings the sign of a fragment in but the path of the new place. -/
theorem hash_not_mem {written hostDir : String} {kind : ReferenceKind} {m : Move}
    (h : '#' ∉ m.target.toList) :
    '#' ∉ (withSeparators written kind (retarget written hostDir m)).toList := by
  intro hc
  rw [withSeparators_eq, String.toList_ofList, Text.replaceChar, List.mem_flatMap] at hc
  obtain ⟨c, hc, hin⟩ := hc
  split at hin
  · have hsep := isSeparator_of_mem_separatorOf hin
    exact absurd hsep (by decide)
  · obtain rfl := List.mem_singleton.mp hin
    rcases mem_retarget hc with he | he | he
    · exact absurd he (by decide)
    · exact absurd he (by decide)
    · exact h he

end Edit

/--
A link that stands in place of a reference and leads, from the directory of a file, to a
target: a path with the fragment of the old link. Where the target has no sign of a
fragment in its path, this path is also what is read off from the link.
-/
def Reference.Leads (r : Reference) (new host target : String) : Prop :=
  ∃ path, new = r.spelled path ∧ Path.resolve (Path.parent host) path = target ∧
    ('#' ∉ target.toList → (Path.splitFragment new).1 = path)

/-- A link that is left as it is leads where its own path does. -/
theorem Reference.leads_target {r : Reference} {host target : String}
    (h : Path.resolve (Path.parent host) r.targetPath = target) : r.Leads r.target host target :=
  ⟨r.targetPath, (Edit.spelled_targetPath r).symm, h, fun _ => rfl⟩

namespace Edit

open Path (Proper isRootAbsolute normalize resolve parent segments)

/-- A link to what has moved leads to the new place, unless it was read from the root in vain. -/
theorem leads_outcome {r : Reference} {m : Move} (hmeans : means r m.source = true)
    (hhost : Proper m.host) (ht : Proper m.target)
    (hroot : isRootAbsolute r.targetPath = false → r.rooted = m.source →
      segments (parent m.host) = [] ∨
        (isBare r.targetPath = true ∧ parent m.target = parent m.host)) :
    r.Leads (outcome r (inbound? r m)) m.host m.target := by
  refine ⟨_, outcome_inbound? hmeans, ?_, fun hhash => ?_⟩
  · rw [resolve_withSeparators]
    refine resolve_retarget ht (fun _ s hs => ?_) hroot
    rw [Path.segments_parent hhost] at hs
    exact hhost.names s (List.dropLast_subset _ hs)
  · rw [outcome_inbound? hmeans]
    exact splitFragment_spelled (hash_not_mem hhash)

end Edit

end LinkKeeper
