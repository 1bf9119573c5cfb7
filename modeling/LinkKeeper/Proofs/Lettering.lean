import LinkKeeper.Proofs.Companions
import LinkKeeper.Proofs.Rereading

/-!
# What a new link is written with

A new link is put together from the path of the new place, signs for the directory and for
the one above, separators, and the fragment of the old link. So it has no character that was
not there before, it is never empty, and it does not begin like an address on the net.
Where the names in a project are made of path characters the new link is the old one with
another path of path characters in it.
-/

namespace LinkKeeper

open Path (Proper isSeparator isRootAbsolute normalize resolve parent)

/-- Whether a path is made of some characters. -/
def MadeOf (p : Char → Prop) (path : String) : Prop := ∀ c ∈ path.toList, p c

instance (p : Char → Prop) [DecidablePred p] (path : String) : Decidable (MadeOf p path) :=
  List.decidableBAll p path.toList

/-- Whether a path is made of the characters that a path may hold where nothing else tells it from a word. -/
abbrev IsPlain (path : String) : Prop := MadeOf (fun c => isPathChar c = true) path

namespace Edit

variable {p : Char → Prop} {r : Reference} {m : Move} {e : Edit}

/-! ## Characters -/

theorem madeOf_withSeparators (hsep : ∀ c, isSeparator c = true → p c) (written : String)
    (kind : ReferenceKind) {path : String} (h : MadeOf p path) :
    MadeOf p (withSeparators written kind path) := by
  intro c hc
  rw [withSeparators_eq, String.toList_ofList, Text.replaceChar, List.mem_flatMap] at hc
  obtain ⟨d, hd, hc⟩ := hc
  split at hc
  · exact hsep c (isSeparator_of_mem_separatorOf hc)
  · obtain rfl := List.mem_singleton.mp hc
    exact h c hd

theorem madeOf_keepHere (hsep : ∀ c, isSeparator c = true → p c) (hdot : p '.') (written : String)
    {path : String} (h : MadeOf p path) : MadeOf p (keepHere written path) := by
  intro c hc
  rw [keepHere] at hc
  split at hc
  · rw [String.toList_append] at hc
    rcases List.mem_append.mp hc with hc | hc
    · have hsign : c = '.' ∨ c = '/' := by simpa using hc
      rcases hsign with rfl | rfl
      · exact hdot
      · exact hsep _ rfl
    · exact h c hc
  · exact h c hc

theorem madeOf_relative (hsep : ∀ c, isSeparator c = true → p c) (hdot : p '.') (dir : String)
    {path : String} (h : MadeOf p path) : MadeOf p (Path.relative dir path) := by
  intro c hc
  rcases mem_relative hc with rfl | rfl | hc
  · exact hsep _ rfl
  · exact hdot
  · exact h c hc

theorem madeOf_retarget (hsep : ∀ c, isSeparator c = true → p c) (hdot : p '.')
    (written hostDir : String) (h : MadeOf p m.target) : MadeOf p (retarget written hostDir m) := by
  intro c hc
  rcases mem_retarget hc with rfl | rfl | hc
  · exact hsep _ rfl
  · exact hdot
  · exact h c hc

/-- The normal form of a path has no more characters than the path, and slashes. -/
theorem madeOf_normalize (hsep : ∀ c, isSeparator c = true → p c) {path : String}
    (h : MadeOf p path) : MadeOf p (normalize path) := by
  intro c hc
  rw [Path.normalize, Path.toList_join] at hc
  rcases Text.of_mem_intercalate hc with rfl | ⟨s, hs, hcs⟩
  · exact hsep _ rfl
  · exact h c (mem_segments hs hcs)

theorem madeOf_parent {path : String} (h : MadeOf p path) : MadeOf p (parent path) := by
  intro c hc
  rw [Path.parent] at hc
  split at hc
  · rename_i front name hsplit
    rw [String.toList_ofList] at hc
    refine h c ?_
    rw [← Text.append_of_splitLast? hsplit]
    exact List.mem_append_left _ hc
  · simp at hc

theorem madeOf_resolve (hsep : ∀ c, isSeparator c = true → p c) {dir path : String}
    (hd : MadeOf p dir) (h : MadeOf p path) : MadeOf p (resolve dir path) := by
  rw [Path.resolve]
  split
  · exact madeOf_normalize hsep h
  · refine madeOf_normalize hsep fun c hc => ?_
    rw [String.toList_append, String.toList_append, List.mem_append, List.mem_append] at hc
    rcases hc with (hc | hc) | hc
    · exact hd c hc
    · obtain rfl : c = '/' := by simpa using hc
      exact hsep _ rfl
    · exact h c hc

/-! ## No link is empty -/

theorem withSeparators_ne_empty (written : String) (kind : ReferenceKind) {path : String}
    (h : path ≠ "") : withSeparators written kind path ≠ "" := by
  intro he
  have hlist := congrArg String.toList he
  rw [withSeparators_eq, String.toList_ofList, Text.replaceChar] at hlist
  cases hcs : path.toList with
  | nil => exact h (String.toList_inj.mp hcs)
  | cons c cs =>
      rw [hcs, List.flatMap_cons] at hlist
      have hnil : (if c = '/' then separatorOf written kind else [c]) = [] :=
        (List.append_eq_nil_iff.mp hlist).1
      split at hnil
      · exact separatorOf_ne_nil written kind hnil
      · simp at hnil

theorem keepHere_ne_empty (written : String) {path : String} (h : path ≠ "") :
    keepHere written path ≠ "" := by
  rw [keepHere]
  split
  · intro he
    have hlist := congrArg String.toList he
    simp [String.toList_append] at hlist
  · exact h

theorem relative_ne_empty (dir : String) {path : String} (h : ∀ s ∈ Path.segments path, Path.IsName s) :
    Path.relative dir path ≠ "" := by
  rw [Path.relative_eq]
  split
  · decide
  · rename_i hne
    intro he
    exact hne ((Path.join_eq_empty
      (Path.tidy_waySegments h (Path.tidy_segments path).plain)).mp he)

/-- A path that does not begin at the root does not begin like an address on the net. -/
theorem not_slashes_of_relative {path : String} (h : isRootAbsolute path = false) :
    ¬ ['/', '/'] <+: path.toList := by
  rintro ⟨rest, hrest⟩
  rw [isRootAbsolute, ← hrest] at h
  exact absurd h (by simp [isSeparator])

theorem retarget_starts (written hostDir : String) (ht : Proper m.target) :
    retarget written hostDir m ≠ "" ∧ ¬ ['/', '/'] <+: (retarget written hostDir m).toList := by
  obtain ⟨front, last, hsegments, -, -, hname⟩ := ht.exists_join
  rw [retarget]
  split
  · constructor
    · intro he
      have hlist := congrArg String.toList he
      simp [String.toList_append] at hlist
    · rintro ⟨rest, hrest⟩
      have hlist : ("/" ++ m.target).toList = '/' :: m.target.toList := by
        simp [String.toList_append]
      rw [hlist] at hrest
      have htarget : m.target.toList = '/' :: rest := (List.cons_eq_cons.mp hrest).2.symm
      have habsolute := Path.isRootAbsolute_of_normal ht.normal
      rw [isRootAbsolute, htarget] at habsolute
      exact absurd habsolute (by simp [isSeparator])
  · split
    · have htidy : Path.Tidy [last] := Path.tidy_names
        (fun s hs => ht.names s (by rw [hsegments]; simp_all))
        fun s hs => (Path.tidy_segments m.target).plain s (by rw [hsegments]; simp_all)
      have hjoin : Path.baseName m.target = Path.join [last] := by
        rw [hname, Path.join, Text.intercalate_singleton]
      rw [hjoin]
      exact ⟨fun he => absurd ((Path.join_eq_empty htidy).mp he) (by simp),
        not_slashes_of_relative (Path.isRootAbsolute_join htidy)⟩
    · split
      · exact ⟨ht.nonempty, not_slashes_of_relative (Path.isRootAbsolute_of_normal ht.normal)⟩
      · exact ⟨keepHere_ne_empty _ (relative_ne_empty _ ht.names), not_slashes_of_relative
          (isRootAbsolute_keepHere (Path.isRootAbsolute_relative ht.names))⟩

/-- Other separators do not make a path begin like an address. -/
theorem not_slashes_withSeparators (written : String) (kind : ReferenceKind) {path : String}
    (h : ¬ ['/', '/'] <+: path.toList) :
    ¬ ['/', '/'] <+: (withSeparators written kind path).toList := by
  rw [withSeparators_eq, String.toList_ofList, Text.replaceChar]
  by_cases hslash : separatorOf written kind = ['/']
  · have hsame : (path.toList.flatMap fun c => if c = '/' then separatorOf written kind else [c]) =
        path.toList := by
      rw [hslash]
      refine (List.flatMap_congr fun c _ => ?_).trans (List.flatMap_singleton' path.toList)
      split
      · rename_i he
        rw [he]
      · rfl
    rwa [hsame]
  · rintro ⟨rest, hrest⟩
    have hmem : '/' ∈ path.toList.flatMap fun c =>
        if c = '/' then separatorOf written kind else [c] := by
      rw [← hrest]
      exact List.mem_cons_self
    obtain ⟨c, -, hc⟩ := List.mem_flatMap.mp hmem
    split at hc
    · rw [separatorOf] at hc hslash
      split at hc
      · simp at hc
      · rename_i hdoubled
        rw [if_neg hdoubled] at hslash
        split at hc
        · simp at hc
        · rename_i hback
          exact hslash (if_neg hback)
    · rename_i hne
      exact hne (List.mem_singleton.mp hc).symm

/-! ## The whole link -/

/-- Behind the path of a link comes its fragment, whatever the path is. -/
theorem exists_fragment (r : Reference) :
    ∃ rest : List Char, (rest = [] ∨ ∃ cs, rest = '#' :: cs) ∧
      ∀ path, (r.spelled path).toList = path.toList ++ rest := by
  cases hfragment : (Path.splitFragment r.target).2 with
  | none =>
      refine ⟨[], .inl rfl, fun path => ?_⟩
      rw [Reference.spelled, hfragment, List.append_nil]
  | some fragment =>
      refine ⟨'#' :: fragment.toList, .inr ⟨_, rfl⟩, fun path => ?_⟩
      rw [Reference.spelled, hfragment]
      simp [String.toList_append]

/-- A link that gets another path of path characters. -/
theorem repathed_spelled {path : String} (hold : IsPlain r.targetPath) (hne : r.targetPath ≠ "")
    (hnew : IsPlain path) (hne' : path ≠ "") :
    Links.Repathed r.target.toList (r.spelled path).toList := by
  obtain ⟨rest, -, hspelled⟩ := exists_fragment r
  refine ⟨r.targetPath.toList, path.toList, rest, ?_, hspelled path,
    ⟨fun he => hne (String.toList_inj.mp he), fun he => hne' (String.toList_inj.mp he)⟩, hold, hnew⟩
  rw [← hspelled, spelled_targetPath]

/-- What begins a text of two parts begins the first one, unless it has what begins the second. -/
theorem prefix_of_prefix_append {start front rest : List Char} {c : Char}
    (h : start <+: front ++ rest) (hc : c ∉ start) (hrest : rest = [] ∨ ∃ cs, rest = c :: cs) :
    start <+: front := by
  rcases List.prefix_or_prefix_of_prefix h (List.prefix_append front rest) with hpre | ⟨more, hmore⟩
  · exact hpre
  · rw [← hmore, List.prefix_append_right_inj] at h
    rcases hrest with rfl | ⟨cs, rfl⟩
    · obtain rfl := List.prefix_nil.mp h
      exact ⟨[], by simpa using hmore.symm⟩
    · cases more with
      | nil => exact ⟨[], by simpa using hmore.symm⟩
      | cons d more =>
          obtain rfl := (List.cons_prefix_cons.mp h).1
          exact absurd (by simp [← hmore]) hc

/-- Only capital letters have another lower case, and this is a letter. -/
theorem toLower_cases (c : Char) : c.toLower = c ∨ 97 ≤ c.toLower.toNat := by
  unfold Char.toLower
  split
  · rename_i hcapital
    right
    have hlow : 65 ≤ c.toNat := UInt32.le_iff_toNat_le.mp hcapital.1
    have hhigh : c.toNat ≤ 90 := UInt32.le_iff_toNat_le.mp hcapital.2
    change 97 ≤ (c.val + 32).toNat
    rw [UInt32.toNat_add]
    change 97 ≤ (c.toNat + 32) % 2 ^ 32
    omega
  · exact .inl rfl

theorem of_mem_externalStarts : ∀ start ∈ Links.Markdown.externalStarts, '#' ∉ start.toList ∧
    (':' ∈ start.toList ∨ start.toList = ['/', '/']) := by
  decide

/-- **A link of path characters stays in the project**, unless it begins with two slashes. -/
theorem isExternal_spelled {path : String} (hplain : IsPlain path) (hne : path ≠ "")
    (hslashes : ¬ ['/', '/'] <+: path.toList) :
    Links.Markdown.isExternal (r.spelled path).toList = false := by
  obtain ⟨rest, hrest, hspelled⟩ := exists_fragment r
  rw [hspelled]
  obtain ⟨a, cs, hpath⟩ := List.exists_cons_of_ne_nil fun he => hne (String.toList_inj.mp he)
  unfold IsPlain MadeOf at hplain
  rw [hpath] at hslashes hplain ⊢
  have hnone : ∀ start ∈ Links.Markdown.externalStarts,
      ¬ start.toList <+: (a :: cs ++ rest).map Char.toLower := by
    intro start hmem hpre
    obtain ⟨hhash, hkind⟩ := of_mem_externalStarts start hmem
    rw [List.map_append] at hpre
    have hfront : start.toList <+: (a :: cs).map Char.toLower := by
      refine prefix_of_prefix_append hpre hhash ?_
      rcases hrest with rfl | ⟨fragment, rfl⟩
      · exact .inl rfl
      · exact .inr ⟨fragment.map Char.toLower, rfl⟩
    -- neither sign that such a beginning has is the lower case of another character
    have hsame : ∀ c : Char, c.toLower.toNat < 97 → c.toLower = c := fun c hlow =>
      (toLower_cases c).resolve_right (by omega)
    rcases hkind with hcolon | hslash
    · obtain ⟨c, hc, hlower⟩ := List.mem_map.mp (hfront.subset hcolon)
      rw [hsame c (by rw [hlower]; decide)] at hlower
      exact absurd (hplain c hc) (by rw [hlower]; decide)
    · rw [hslash, List.map_cons, List.cons_prefix_cons] at hfront
      obtain ⟨ha, hrest'⟩ := hfront
      rw [hsame a (by rw [← ha]; decide)] at ha
      cases cs with
      | nil => simp at hrest'
      | cons b cs =>
          rw [List.map_cons, List.cons_prefix_cons] at hrest'
          obtain ⟨hb, -⟩ := hrest'
          rw [hsame b (by rw [← hb]; decide)] at hb
          exact hslashes ⟨cs, by rw [← ha, ← hb]; rfl⟩
  rw [Links.Markdown.isExternal, Bool.or_eq_false_iff, List.any_eq_false]
  constructor
  · refine Bool.eq_false_iff.mpr fun h => ?_
    obtain ⟨rfl, -⟩ := List.cons_prefix_cons.mp (List.isPrefixOf_iff_prefix.mp h)
    exact absurd (hplain _ List.mem_cons_self) (by decide)
  · exact fun start hmem h => hnone start hmem (List.isPrefixOf_iff_prefix.mp h)

/-- A link to something that has moved stays in the project where names are made of path characters. -/
theorem isExternal_outcome (hmeans : means r m.source = true) (ht : Proper m.target)
    (hplain : IsPlain m.target) :
    Links.Markdown.isExternal (outcome r (inbound? r m)).toList = false := by
  have hseparator : ∀ c, isSeparator c = true → isPathChar c = true := fun c hc => by
    simp [isPathChar, hc]
  obtain ⟨hne, hslashes⟩ := retarget_starts r.targetPath (parent m.host) ht
  rw [outcome_inbound? hmeans]
  exact isExternal_spelled
    (madeOf_withSeparators hseparator _ _ (madeOf_retarget hseparator rfl _ _ hplain))
    (withSeparators_ne_empty _ _ hne) (not_slashes_withSeparators _ _ hslashes)

/-! ## What an edit writes -/

/-- A link that is the old one with another path, written with the characters of some other paths. -/
def Respells (r : Reference) (sources : List String) (new : String) : Prop :=
  ∃ path, new = r.spelled path ∧ path ≠ "" ∧ ∀ p : Char → Prop,
    (∀ c, isSeparator c = true → p c) → p '.' → (∀ s ∈ sources, MadeOf p s) → MadeOf p path

theorem Respells.mono {sources more : List String} {new : String} (h : Respells r sources new)
    (hmore : sources ⊆ more) : Respells r more new := by
  obtain ⟨path, hnew, hne, hmade⟩ := h
  exact ⟨path, hnew, hne, fun p hsep hdot hall => hmade p hsep hdot fun s hs => hall s (hmore hs)⟩

theorem Respells.ne_nil {sources : List String} {new : String} (h : Respells r sources new) :
    new.toList ≠ [] := by
  obtain ⟨path, rfl, hne, -⟩ := h
  obtain ⟨rest, -, hspelled⟩ := exists_fragment r
  rw [hspelled]
  exact fun hnil => hne (String.toList_inj.mp (List.append_eq_nil_iff.mp hnil).1)

/-- A new link has no character that was not there before. -/
theorem Respells.not_mem {sources : List String} {new : String} (h : Respells r sources new) {c : Char}
    (hsep : isSeparator c = false) (hdot : '.' ≠ c) (hsources : ∀ s ∈ sources, c ∉ s.toList)
    (hold : c ∉ r.target.toList) : c ∉ new.toList := by
  obtain ⟨path, rfl, -, hmade⟩ := h
  obtain ⟨rest, -, hspelled⟩ := exists_fragment r
  rw [← spelled_targetPath r, hspelled, List.mem_append, not_or] at hold
  rw [hspelled, List.mem_append, not_or]
  refine ⟨fun hc => ?_, hold.2⟩
  refine hmade (· ≠ c) (fun d hd he => ?_) hdot (fun s hs d hd he => ?_) c hc rfl
  · rw [he, hsep] at hd
    exact absurd hd (by simp)
  · rw [he] at hd
    exact hsources s hs hd

theorem respells_of_inbound? (ht : Proper m.target) (he : inbound? r m = some e) :
    Respells r [m.target] e.replacement := by
  have houtcome := outcome_inbound? (of_inbound? he).2
  rw [he] at houtcome
  refine ⟨_, houtcome, withSeparators_ne_empty _ _ (retarget_starts _ _ ht).1,
    fun p hsep hdot hall => madeOf_withSeparators hsep _ _ ?_⟩
  exact madeOf_retarget hsep hdot _ _ (hall _ (by simp))

theorem respells_of_outbound? {isThere : String → Bool} {source target : String}
    (he : outbound? isThere r source target = some e) :
    r.targetPath ≠ "" ∧ Respells r [source, r.targetPath] e.replacement := by
  unfold outbound? at he
  dsimp only at he
  split at he
  · exact absurd he (by simp)
  · rename_i hout
    simp only [Bool.or_eq_true, not_or, Bool.not_eq_true, beq_eq_false_iff_ne] at hout
    obtain ⟨⟨⟨⟨⟨hempty, -⟩, -⟩, hinside⟩, -⟩, -⟩ := hout
    have houtcome := outcome_replacing? r (withSeparators r.targetPath r.kind
      (keepHere r.targetPath (Path.relative (parent target) (resolve (parent source) r.targetPath))))
    rw [he] at houtcome
    have hnames : ∀ s ∈ Path.segments (resolve (parent source) r.targetPath), Path.IsName s :=
      Path.names_of_not_escapes (by rwa [Path.normalize_resolve])
    refine ⟨?_, _, houtcome,
      withSeparators_ne_empty _ _ (keepHere_ne_empty _ (relative_ne_empty _ hnames)),
      fun p hsep hdot hall => madeOf_withSeparators hsep _ _ (madeOf_keepHere hsep hdot _
        (madeOf_relative hsep hdot _ (madeOf_resolve hsep (madeOf_parent (hall _ (by simp)))
          (hall _ (by simp)))))⟩
    rintro hnil
    rw [hnil] at hempty
    exact absurd hempty (by decide)

end Edit

end LinkKeeper
