import LinkKeeper.Edit
import LinkKeeper.Proofs.Resolution

/-!
# Where a rewritten link leads

A link to something that has moved is written anew in the look of the old one: from the
root, as a bare name, or as the shortest way; with slashes or backslashes; with `./` in
front or without. The look never matters for where the link leads. So it is enough to
follow the way that `retarget` chooses, and to see that the reading which the old link
had is the reading under which the new one leads to the new place.
-/

namespace LinkKeeper

open Text Path

/-- The text of a reference with another path and the fragment it has. -/
def Reference.spelled (r : Reference) (path : String) : String :=
  match (splitFragment r.target).2 with
  | some fragment => path ++ "#" ++ fragment
  | none => path

namespace Edit

/-- The text of a reference once an edit of it, if there is one, is made. -/
def outcome (r : Reference) (edit : Option Edit) : String :=
  (edit.map (·.replacement)).getD r.target

/-! ## The look of a link -/

/-- Separators in front only make empty pieces. -/
theorem filter_splitWhere_separators {seps cs : List Char} (h : ∀ c ∈ seps, isSeparator c = true) :
    (splitWhere isSeparator (seps ++ cs)).filter (· ≠ []) =
      (splitWhere isSeparator cs).filter (· ≠ []) := by
  induction seps with
  | nil => rfl
  | cons c seps ih =>
      have hc : isSeparator c = true := h c (by simp)
      rw [List.cons_append, splitWhere, if_pos hc, List.filter_cons_of_neg (by simp),
        ih (fun d hd => h d (by simp [hd]))]

/-- Writing another separator changes nothing but empty pieces. -/
theorem filter_splitWhere_replaceChar {sep : List Char} (hne : sep ≠ [])
    (hsep : ∀ c ∈ sep, isSeparator c = true) (before cs : List Char)
    (hb : ∀ c ∈ before, isSeparator c = false) :
    (splitWhere isSeparator (before ++ replaceChar '/' sep cs)).filter (· ≠ []) =
      (splitWhere isSeparator (before ++ cs)).filter (· ≠ []) := by
  induction cs generalizing before with
  | nil => rfl
  | cons c cs ih =>
      have hnil : ∀ d ∈ ([] : List Char), isSeparator d = false := by simp
      have hcons : replaceChar '/' sep (c :: cs) =
          (if c = '/' then sep else [c]) ++ replaceChar '/' sep cs := rfl
      rw [hcons]
      by_cases hc : isSeparator c = true
      · -- a border: what is gathered so far is a piece of its own on both sides
        have hkey : ∀ d ds, isSeparator d = true → (∀ x ∈ ds, isSeparator x = true) →
            (splitWhere isSeparator (before ++ d :: (ds ++ replaceChar '/' sep cs))).filter
                (· ≠ []) =
              (splitWhere isSeparator (before ++ c :: cs)).filter (· ≠ []) := by
          intro d ds hd hds
          rw [splitWhere_append_cons hd, splitWhere_append_cons hc, List.filter_append,
            List.filter_append, filter_splitWhere_separators hds]
          simpa using ih [] hnil
        by_cases hs : c = '/'
        · rw [if_pos hs]
          cases hsp : sep with
          | nil => exact absurd hsp hne
          | cons d ds =>
              rw [hsp] at hsep hkey
              exact hkey d ds (hsep d (by simp)) (fun x hx => hsep x (by simp [hx]))
        · rw [if_neg hs]
          exact hkey c [] hc (by simp)
      · have hs : c ≠ '/' := fun he => hc (by rw [he]; rfl)
        have := ih (before ++ [c]) (fun d hd => by
          rcases List.mem_append.mp hd with hd | hd
          · exact hb d hd
          · rw [List.mem_singleton.mp hd]
            simpa using hc)
        rw [if_neg hs]
        simpa using this

/-- The separators of another link. -/
def separatorOf (written : String) (kind : ReferenceKind) : List Char :=
  if kind = .jsonValue ∧ hasDoubled written then ['\\', '\\']
  else if written.toList.contains '\\' then ['\\']
  else ['/']

theorem withSeparators_eq (written : String) (kind : ReferenceKind) (path : String) :
    withSeparators written kind path =
      String.ofList (replaceChar '/' (separatorOf written kind) path.toList) := rfl

theorem separatorOf_ne_nil (written : String) (kind : ReferenceKind) :
    separatorOf written kind ≠ [] := by
  rw [separatorOf]
  split
  · simp
  · split <;> simp

theorem isSeparator_of_mem_separatorOf {written : String} {kind : ReferenceKind} {c : Char}
    (h : c ∈ separatorOf written kind) : isSeparator c = true := by
  rw [separatorOf] at h
  split at h
  · simp_all [isSeparator]
  · split at h <;> simp_all [isSeparator]

/-- Other separators lead the same way. -/
@[simp] theorem segments_withSeparators (written : String) (kind : ReferenceKind)
    (path : String) : segments (withSeparators written kind path) = segments path := by
  rw [segments_eq, segments_eq, ← collapse_filter, ← collapse_filter (pieces path), pieces,
    pieces, withSeparators_eq, String.toList_ofList]
  have := filter_splitWhere_replaceChar (separatorOf_ne_nil written kind)
    (fun _ => isSeparator_of_mem_separatorOf) [] path.toList (by simp)
  rw [List.nil_append, List.nil_append] at this
  rw [this]

/-- A link begins at the root with one separator as with another. -/
@[simp] theorem isRootAbsolute_withSeparators (written : String) (kind : ReferenceKind)
    (path : String) : isRootAbsolute (withSeparators written kind path) = isRootAbsolute path := by
  rw [isRootAbsolute, isRootAbsolute, withSeparators_eq, String.toList_ofList]
  cases path.toList with
  | nil => rfl
  | cons c cs =>
      by_cases hc : c = '/'
      · cases hs : separatorOf written kind with
        | nil => exact absurd hs (separatorOf_ne_nil written kind)
        | cons d ds =>
            have hd : isSeparator d = true :=
              isSeparator_of_mem_separatorOf (by rw [hs]; exact List.mem_cons_self)
            rw [hc]
            simpa [replaceChar, isSeparator_slash] using hd
      · simp [replaceChar, hc]

@[simp] theorem resolve_withSeparators (dir written : String) (kind : ReferenceKind)
    (path : String) : resolve dir (withSeparators written kind path) = resolve dir path := by
  refine eq_of_segments_eq (normalize_resolve _ _) (normalize_resolve _ _) ?_
  simp [segments_resolve]

/-- A sign for the directory itself in front leads nowhere else. -/
theorem segments_keepHere (written path : String) :
    segments (keepHere written path) = segments path := by
  rw [keepHere]
  split
  · have : "./" ++ path = "." ++ "/" ++ path := by
      rw [← String.toList_inj]
      simp [String.toList_append]
    rw [this, segments_append_slash, show segments "." = [] from rfl, List.nil_append,
      (tidy_segments path).collapse_eq]
  · rfl

theorem isRootAbsolute_keepHere {written path : String} (h : isRootAbsolute path = false) :
    isRootAbsolute (keepHere written path) = false := by
  rw [keepHere]
  split
  · simp [isRootAbsolute, isSeparator, String.toList_append]
  · exact h

/-! ## The edit of a reference -/

/-- Whether or not it changes anything, putting a path in place of another gives its text. -/
theorem outcome_replacing? (r : Reference) (path : String) :
    outcome r (replacing? r path) = r.spelled path := by
  rw [replacing?, outcome, Reference.spelled]
  split <;> split <;> simp_all

/-- The path of a text of a reference is determined by the text. -/
theorem spelled_injective {r : Reference} {a b : String} (h : r.spelled a = r.spelled b) :
    a = b := by
  rw [Reference.spelled, Reference.spelled] at h
  split at h
  · simpa [← String.toList_inj, String.toList_append] using h
  · exact h

/-- A reference is its own path with its own fragment. -/
theorem spelled_targetPath (r : Reference) : r.spelled r.targetPath = r.target := by
  rw [Reference.spelled, Reference.targetPath, splitFragment]
  cases h : splitFirst? '#' r.target.toList with
  | none => rfl
  | some parts =>
      obtain ⟨front, back⟩ := parts
      have := append_of_splitFirst? h
      rw [← String.toList_inj]
      simpa [String.toList_append] using this

theorem outcome_inbound? {r : Reference} {m : Move} (h : means r m.source = true) :
    outcome r (inbound? r m) =
      r.spelled (withSeparators r.targetPath r.kind (retarget r.targetPath (parent m.host) m)) := by
  rw [inbound?, if_pos h, outcome_replacing?]

theorem inbound?_of_not_means {r : Reference} {m : Move} (h : means r m.source = false) :
    inbound? r m = none := by
  rw [inbound?, if_neg (by simp [h])]

/-! ## Readings -/

/-- A name read from the directory it lies in. -/
theorem resolve_parent_baseName {path : String} (h : Proper path) :
    resolve (parent path) (baseName path) = path := by
  obtain ⟨front, last, hs, hp, hpar, hb⟩ := h.exists_join
  have htidy : Tidy (front ++ [last]) := hs ▸ tidy_segments path
  have hlast : Tidy [last] :=
    tidy_names (fun s hs' => h.names s (by rw [hs]; simp_all))
      (fun s hs' => htidy.plain s (by simp_all))
  have hbase : baseName path = join [last] := by
    rw [hb, join, intercalate_singleton]
  rw [resolve_eq_iff h.normal, hbase, isRootAbsolute_join hlast, hpar, segments_join htidy.left,
    segments_join hlast, hs, htidy.collapse_eq]
  rfl

/-- A reference means a path when one of its two readings leads there. -/
theorem means_iff {r : Reference} {path : String} (h : Proper path) :
    means r path = true ↔ r.rooted = path ∨ r.resolved = path := by
  rw [means, Bool.or_eq_true, Bool.or_eq_true, Bool.and_eq_true, Bool.and_eq_true, beq_iff_eq,
    beq_iff_eq, beq_iff_eq, beq_iff_eq]
  constructor
  · rintro ((hr | ⟨⟨_, hb⟩, hd⟩) | hr)
    · exact Or.inl hr
    · right
      rw [Reference.resolved, hb, ← hd, resolve_parent_baseName h]
    · exact Or.inr hr
  · rintro (hr | hr)
    · exact Or.inl (Or.inl hr)
    · exact Or.inr hr

/-- Nothing takes back a first step out of the root. -/
theorem getLast?_push {stack : List (List Char)} (h : stack.getLast? = some above)
    (s : List Char) : (push stack s).getLast? = some above := by
  cases stack with
  | nil => simp at h
  | cons top rest =>
      rcases segment_cases s with hs | rfl | hs
      · rw [push_skip hs]
        exact h
      · rw [push.eq_def, if_neg (not_or.mpr ⟨above_ne_nil, above_ne_here⟩), if_pos rfl]
        dsimp only
        split
        · simpa using h
        · rename_i ht
          cases rest with
          | nil => exact absurd (by simpa using h) ht
          | cons t ts => simpa using h
      · rw [push_name hs]
        simpa using h

theorem head?_collapse_above (ss : List (List Char)) :
    (collapse (above :: ss)).head? = some above := by
  have h : ∀ stack : List (List Char), stack.getLast? = some above →
      (ss.foldl push stack).getLast? = some above := by
    induction ss with
    | nil => intro stack hs; exact hs
    | cons s ss ih => intro stack hs; exact ih _ (getLast?_push hs s)
  rw [collapse, List.foldl_cons, List.head?_reverse]
  exact h _ (by decide)

/-- A directory from which some link stays inside the tree lies inside the tree itself. -/
theorem names_of_collapse_append {dir ss : List (List Char)} (hd : Collapsed dir)
    (h : ∀ s ∈ collapse (dir ++ ss), IsName s) : ∀ s ∈ dir, IsName s := by
  refine hd.names fun hh => ?_
  cases dir with
  | nil => simp at hh
  | cons d dir =>
      obtain rfl : d = above := by simpa using hh
      have := head?_collapse_above (dir ++ ss)
      exact (h above (List.mem_of_mem_head? this)).2.2 rfl

/-- Where both readings of a link agree inside the tree, it is read from the root. -/
theorem segments_nil_of_readings_agree {dir raw target : String} (ht : Proper target)
    (ha : isRootAbsolute raw = false) (hrel : resolve dir raw = target)
    (hroot : normalize raw = target) : segments dir = [] := by
  rw [resolve_eq_iff ht.normal, ha, if_neg (by simp)] at hrel
  rw [normalize_eq_iff ht.normal] at hroot
  have hd : ∀ s ∈ segments dir, IsName s :=
    names_of_collapse_append (tidy_segments dir).collapsed (hrel ▸ ht.names)
  have hall : Collapsed (segments dir ++ segments raw) := .of_names fun s hs =>
    (List.mem_append.mp hs).elim (hd s) (fun h => ht.names s (hroot ▸ h))
  rw [hall.collapse_eq, hroot] at hrel
  simpa using hrel

theorem resolve_of_isRootAbsolute {raw : String} (h : isRootAbsolute raw = true) (dir : String) :
    resolve dir raw = normalize raw := by
  rw [resolve, h, Bool.true_or, if_pos rfl]

/-- From the root, a slash in front of a path changes nothing. -/
theorem normalize_slash {path : String} (hp : Proper path) : normalize ("/" ++ path) = path := by
  have hslash : "/" ++ path = "" ++ "/" ++ path := by
    rw [← String.toList_inj]
    simp [String.toList_append]
  rw [normalize_eq_iff hp.normal, hslash, segments_append_slash, segments_empty,
    List.nil_append, (tidy_segments path).collapse_eq]

/-- A link from the root is written from the root again. -/
theorem retarget_of_isRootAbsolute {written : String} (h : isRootAbsolute written = true)
    (hostDir : String) {m : Move} (ht : Proper m.target) :
    isRootAbsolute (retarget written hostDir m) = true ∧
      normalize (retarget written hostDir m) = m.target := by
  rw [retarget, if_pos h]
  exact ⟨by simp [isRootAbsolute, isSeparator, String.toList_append], normalize_slash ht⟩

/-- The new link, read from the directory of its file, leads to the new place, unless it
was written from the root there and the directory is another one. -/
theorem resolve_retarget {written hostDir : String} {m : Move} (ht : Proper m.target)
    (hd : isRootAbsolute written = false → ∀ s ∈ segments hostDir, IsName s)
    (hroot : isRootAbsolute written = false → normalize written = m.source →
      segments hostDir = [] ∨ (isBare written = true ∧ parent m.target = hostDir)) :
    resolve hostDir (retarget written hostDir m) = m.target := by
  by_cases ha : isRootAbsolute written = true
  · obtain ⟨habs, hn⟩ := retarget_of_isRootAbsolute ha hostDir ht
    rw [resolve_of_isRootAbsolute habs, hn]
  · rw [Bool.not_eq_true] at ha
    rw [retarget, if_neg (by simp [ha])]
    by_cases hb : isBare written = true ∧ parent m.target = hostDir
    · rw [if_pos (by simpa using hb), ← hb.2, resolve_parent_baseName ht]
    · rw [if_neg (by simpa using hb)]
      by_cases hn : normalize written = m.source
      · have hseg : segments hostDir = [] := (hroot ha hn).resolve_right hb
        rw [if_pos hn, resolve_of_segments_nil hseg, ht.normal]
      · have habs : isRootAbsolute (keepHere written (relative hostDir m.target)) = false :=
          isRootAbsolute_keepHere (isRootAbsolute_relative ht.names)
        rw [if_neg hn, resolve_eq_iff ht.normal, habs, if_neg (by simp), segments_keepHere,
          segments_relative ht.names, collapse_waySegments (hd ha) ht.names]

@[simp] theorem normalize_withSeparators (written : String) (kind : ReferenceKind)
    (path : String) : normalize (withSeparators written kind path) = normalize path := by
  rw [Path.normalize, segments_withSeparators, Path.normalize]

/--
**A link in a file that stays follows what has moved, in the reading it had.**

Whatever was put in its place is the link with some path in front of its old fragment. A
link from the root stays one and leads to the new place. A link that led to the old place
from its own directory leads to the new one from there. A link that only did so from the
root leads to the new place in one of the two readings. And a link that did not mean what
has moved is left alone.
-/
theorem inbound?_follows {r : Reference} {m : Move} (hhost : m.host = r.source)
    (hs : Proper m.source) (ht : Proper m.target) :
    (means r m.source = true →
      ∃ path, outcome r (inbound? r m) = r.spelled path ∧
        (isRootAbsolute r.targetPath = true →
          isRootAbsolute path = true ∧ normalize path = m.target) ∧
        (r.resolved = m.source → resolve (parent m.host) path = m.target) ∧
        (r.resolved ≠ m.source →
          normalize path = m.target ∨ resolve (parent m.host) path = m.target)) ∧
    (means r m.source = false → inbound? r m = none) := by
  refine ⟨fun hm => ⟨_, outcome_inbound? hm, ?_, ?_, ?_⟩, inbound?_of_not_means⟩
  · intro ha
    rw [isRootAbsolute_withSeparators, normalize_withSeparators]
    exact retarget_of_isRootAbsolute ha _ ht
  · intro hr
    rw [Reference.resolved, ← hhost] at hr
    rw [resolve_withSeparators]
    refine resolve_retarget ht ?_ fun ha hn =>
      Or.inl (segments_nil_of_readings_agree hs ha hr hn)
    intro ha
    have hseg := (resolve_eq_iff hs.normal).mp hr
    rw [ha, if_neg (by simp)] at hseg
    exact names_of_collapse_append (tidy_segments _).collapsed (hseg ▸ hs.names)
  · intro hr
    have hn : normalize r.targetPath = m.source := ((means_iff hs).mp hm).resolve_right hr
    rw [resolve_withSeparators, normalize_withSeparators]
    by_cases ha : isRootAbsolute r.targetPath = true
    · exact Or.inl (retarget_of_isRootAbsolute ha _ ht).2
    · rw [Bool.not_eq_true] at ha
      rw [retarget, if_neg (by simp [ha])]
      by_cases hb : isBare r.targetPath = true ∧ parent m.target = parent m.host
      · right
        rw [if_pos (by simpa using hb), ← hb.2, resolve_parent_baseName ht]
      · left
        rw [if_neg (by simpa using hb), if_pos hn, ht.normal]

/-- A link with a fragment, spelled with backslashes and a detour, in a file two levels down. -/
def detourLink : Reference where
  anchorText := none
  columnEnd := 30
  columnStart := 4
  kind := .markdownInline
  line := 1
  source := "docs/api/index.md"
  target := "..\\.\\old\\..\\guide.md#top"

/-- What the link means moves to another directory. -/
def detourMove : Move := ⟨"docs/api/index.md", "docs/guide.md", "manual/guide.md"⟩

theorem inbound?_follows_detour :
    detourMove.host = detourLink.source ∧ Proper detourMove.source ∧ Proper detourMove.target ∧
      means detourLink detourMove.source = true ∧
      outcome detourLink (inbound? detourLink detourMove) =
        detourLink.spelled "..\\..\\manual\\guide.md" ∧
      resolve (parent detourMove.host) "..\\..\\manual\\guide.md" = detourMove.target := by
  have hs : Proper detourMove.source := ⟨by decide, by decide, by decide⟩
  have ht : Proper detourMove.target := ⟨by decide, by decide, by decide⟩
  have hm : means detourLink detourMove.source = true := by decide
  have ho : outcome detourLink (inbound? detourLink detourMove) =
      detourLink.spelled "..\\..\\manual\\guide.md" := by decide
  obtain ⟨path, hp, _, hrel, _⟩ := (inbound?_follows (r := detourLink) rfl hs ht).1 hm
  rw [spelled_injective (hp.symm.trans ho)] at hrel
  exact ⟨rfl, hs, ht, hm, ho, hrel (by decide)⟩

end Edit

end LinkKeeper
