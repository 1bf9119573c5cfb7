import LinkKeeper.Proofs.Slots
import Mathlib.Data.List.Nodup

/-!
# Bare paths in prose

A bare path is a word of a line without links: what stands between blanks, once the punctuation
around it is off. A word that counts as a path as it stands begins with no punctuation but
underscores, and ends with none, since it ends in an extension. So the reader takes underscores
off its front and nothing else, and what it finds in the word is at most one reference: to all
of it if it begins with something else, and otherwise to what is behind the underscores, if that
counts as a path still.
-/

namespace LinkKeeper

open Text

namespace Text

/-! ## Runs -/

/-- A longest run of characters of a class on a line. -/
structure Piece.IsRun (p : Char → Bool) (line : List Char) (q : Piece) : Prop where
  some : q.text ≠ []
  all : ∀ c ∈ q.text, p c = true
  stands : ∃ front back, line = front ++ (q.text ++ back) ∧ q.start = width front ∧
    (∀ c ∈ front.getLast?, p c = false) ∧ ∀ c ∈ back.head?, p c = false

theorem takeWhile_run {p : Char → Bool} {text back : List Char} (hall : ∀ c ∈ text, p c = true)
    (hback : ∀ c ∈ back.head?, p c = false) : (text ++ back).takeWhile p = text := by
  rw [List.takeWhile_append_of_pos hall]
  cases back with
  | nil => rw [List.takeWhile_nil, List.append_nil]
  | cons c back => rw [List.takeWhile_cons_of_neg (by simp [hback c rfl]), List.append_nil]

/-- A run does not go past a stranger. -/
theorem length_takeWhile_le {p : Char → Bool} {as : List Char} {c : Char} (hc : c ∈ as)
    (hp : p c = false) (bs : List Char) : ((as ++ bs).takeWhile p).length ≤ as.length := by
  rw [List.takeWhile_append]
  split
  · rename_i hlength
    have hall := List.takeWhile_eq_self_iff.mp ((List.takeWhile_prefix p).eq_of_length hlength)
    exact Bool.noConfusion (hp.symm.trans (hall c hc))
  · exact (List.takeWhile_prefix p).length_le

/--
A run is come upon, by induction on what stands in front of it. What has been found before is
passed over, and it does not reach into the run because there is a stranger in between.
-/
theorem mem_matchesFrom_run {p : Char → Bool} {text back : List Char} (hsome : text ≠ [])
    (hall : ∀ c ∈ text, p c = true) (hback : ∀ c ∈ back.head?, p c = false) {front : List Char}
    (hfront : ∀ c ∈ front.getLast?, p c = false) (column : Nat) (before : Option Char) {skip : Nat}
    (hskip : skip ≤ front.length) :
    (column + width front, text) ∈ matchesFrom (runOf p) column before skip (front ++ (text ++ back)) := by
  induction front generalizing column before skip with
  | nil =>
      obtain rfl : skip = 0 := by simpa using hskip
      have hfind : runOf p before (text ++ back) = some (text, text.length) := by
        rw [runOf, takeWhile_run hall hback]
        split
        · exact absurd rfl hsome
        · rfl
      obtain ⟨last, hlast⟩ := matchesFrom_found hsome hfind column
      rw [List.nil_append, hlast]
      exact List.mem_cons_self
  | cons c front ih =>
      have hlater : ∀ c ∈ front.getLast?, p c = false := by
        intro d hd
        refine hfront d ?_
        rw [List.getLast?_cons, Option.mem_def.mp hd]
        rfl
      have hcolumn : column + width (c :: front) = column + c.utf8Size + width front := by
        rw [width_cons, Nat.add_assoc]
      rw [List.cons_append, hcolumn]
      cases skip with
      | succ skip =>
          rw [matchesFrom]
          exact ih hlater _ _ (Nat.le_of_succ_le_succ hskip)
      | zero =>
          rw [matchesFrom]
          split
          · rename_i found length hfind
            refine List.mem_cons_of_mem _ (ih hlater _ _ ?_)
            obtain ⟨last, hlast⟩ : ∃ last, (c :: front).getLast? = some last :=
              ⟨_, List.getLast?_eq_some_getLast (by simp)⟩
            have hle := length_takeWhile_le (List.mem_of_getLast? hlast) (hfront last hlast)
              (text ++ back)
            obtain ⟨rfl, -, rfl⟩ := Links.runOf_eq_some hfind
            rw [List.cons_append, List.length_cons] at hle
            omega
          · exact ih hlater _ _ (Nat.zero_le _)

theorem Piece.IsRun.mem_runs {p : Char → Bool} {line : List Char} {q : Piece} (h : q.IsRun p line) :
    q ∈ runs p line := by
  obtain ⟨front, back, rfl, hstart, hfront, hback⟩ := h.stands
  have hmem := mem_matchesFrom_run h.some h.all hback hfront 0 none (Nat.zero_le _)
  rw [Nat.zero_add, ← hstart] at hmem
  exact List.mem_map_of_mem (f := fun m : Nat × List Char => (⟨m.1, m.2⟩ : Piece)) hmem

/-- A run can be told by looking at it and at what touches it. -/
theorem Piece.isRun_of_checks {p : Char → Bool} {line front back : List Char} {q : Piece}
    (hsome : q.text ≠ []) (hall : q.text.all p = true) (hline : line = front ++ (q.text ++ back))
    (hstart : q.start = width front) (hfront : front.getLast?.any p = false)
    (hback : back.head?.any p = false) : q.IsRun p line where
  some := hsome
  all := List.all_eq_true.mp hall
  stands := ⟨front, back, hline, hstart, (Option.any_eq_false _ _).mp hfront,
    (Option.any_eq_false _ _).mp hback⟩

/-- A word of a line: what stands between blanks. -/
abbrev Piece.IsWord (line : List Char) (q : Piece) : Prop := q.IsRun (fun c => !isBlank c) line

/-- What is behind the underscores that a piece begins with. -/
def Piece.pastUnderscores (q : Piece) : Piece :=
  ⟨q.start + width (q.text.takeWhile (· == '_')), q.text.dropWhile (· == '_')⟩

end Text

namespace Links

variable {rule : CandidateRule} {source content : String} {number : Nat} {line : List Char}
  {p : Piece} {r : Reference}

/-! ## What comes off a word that counts as a path -/

theorem isLeading_iff {c : Char} (hc : isPathChar c = true) : isLeading c = (c == '_') := by
  by_cases hunderscore : c = '_'
  · rw [hunderscore]
    rfl
  · rw [beq_false_of_ne hunderscore, ← Bool.not_eq_true]
    intro hlead
    have hmem : c ∈ ['(', '[', '<', '*', '_', '\x60', '"', '\''] := by
      simpa [isLeading] using hlead
    simp only [List.mem_cons, List.not_mem_nil, or_false] at hmem
    rcases hmem with rfl | rfl | rfl | rfl | rfl | rfl | rfl | rfl
    all_goals first | exact hunderscore rfl | exact absurd hc (by decide)

theorem isTrailing_eq_false {c : Char} (hc : c.isAlphanum = true) : isTrailing c = false := by
  rw [← Bool.not_eq_true]
  intro htrail
  have hmem : c ∈ [')', ']', '>', ',', '.', ';', ':', '!', '?', '*', '_', '\x60', '"', '\''] := by
    simpa [isTrailing] using htrail
  simp only [List.mem_cons, List.not_mem_nil, or_false] at hmem
  rcases hmem with rfl | rfl | rfl | rfl | rfl | rfl | rfl | rfl | rfl | rfl | rfl | rfl | rfl | rfl
  all_goals exact absurd hc (by decide)

/-- Classes that agree on the characters of a text take the same off its front. -/
theorem takeWhile_congr {p q : Char → Bool} {cs : List Char} (h : ∀ c ∈ cs, p c = q c) :
    cs.takeWhile p = cs.takeWhile q ∧ cs.dropWhile p = cs.dropWhile q := by
  induction cs with
  | nil => exact ⟨rfl, rfl⟩
  | cons c cs ih =>
      obtain ⟨htake, hdrop⟩ := ih fun d hd => h d (List.mem_cons_of_mem _ hd)
      have hc := h c List.mem_cons_self
      rw [List.takeWhile_cons, List.takeWhile_cons, List.dropWhile_cons, List.dropWhile_cons, hc,
        htake, hdrop]
      exact ⟨rfl, rfl⟩

/-- From a word that counts as a path only underscores at its front are taken off. -/
theorem strip_of_accepts (h : rule.accepts p.text = true) :
    p.strip isLeading isTrailing = p.pastUnderscores := by
  obtain ⟨htake, hdrop⟩ := takeWhile_congr fun c hc => isLeading_iff (isPathChar_of_accepts h c hc)
  obtain ⟨stem, extension, htext, -, hne, halnum⟩ := exists_extension h
  obtain ⟨front, last, hsplit⟩ : ∃ front last, p.text = front ++ [last] ∧ last.isAlphanum = true := by
    refine ⟨stem ++ '.' :: extension.dropLast, extension.getLast hne, ?_,
      halnum _ (List.getLast_mem hne)⟩
    rw [htext, List.append_assoc, List.cons_append, List.dropLast_concat_getLast]
  have hkept : ∃ more, p.text.dropWhile (· == '_') = more ++ [last] := by
    have hlast : (last == '_') = false := by
      rw [beq_eq_false_iff_ne]
      rintro rfl
      exact absurd hsplit.2 (by decide)
    refine ⟨front.dropWhile (· == '_'), ?_⟩
    rw [hsplit.1, List.dropWhile_append]
    split
    · rename_i hnil
      rw [List.isEmpty_iff.mp hnil, List.dropWhile_cons_of_neg (by simp [hlast]), List.nil_append]
    · rfl
  obtain ⟨more, hmore⟩ := hkept
  unfold Piece.strip Piece.pastUnderscores
  dsimp only
  rw [htake, hdrop, hmore, List.reverse_append, List.reverse_singleton, List.singleton_append,
    List.dropWhile_cons_of_neg (by simp [isTrailing_eq_false hsplit.2]), List.reverse_cons,
    List.reverse_reverse]

/-- Nothing comes off a word that begins with something else. -/
theorem pastUnderscores_eq_self_iff : p.pastUnderscores = p ↔ p.text.head? ≠ some '_' := by
  obtain ⟨start, text⟩ := p
  cases text with
  | nil => simp [Piece.pastUnderscores]
  | cons c cs =>
      rw [List.head?_cons, ne_eq, Option.some.injEq]
      constructor
      · rintro hsame rfl
        have htext : cs.dropWhile (· == '_') = '_' :: cs := congrArg Piece.text hsame
        have hle := (List.dropWhile_suffix (l := cs) (· == '_')).length_le
        rw [htext, List.length_cons] at hle
        omega
      · intro hc
        rw [Piece.pastUnderscores, List.takeWhile_cons_of_neg (by simpa using hc),
          List.dropWhile_cons_of_neg (by simpa using hc)]
        rfl

/-! ## One line -/

/-- Without quotes there is nothing in quotes. -/
theorem quotedPaths_eq_nil (rule : CandidateRule) (hquotes : ∀ c ∈ line, isQuote c = false) :
    quotedPaths rule line = [] := by
  rw [quotedPaths, List.map_eq_nil_iff, List.eq_nil_iff_forall_not_mem]
  intro m hm
  obtain ⟨front, rest, before, length, rfl, -, hfind⟩ := mem_matchesOf hm
  unfold quotedPath at hfind
  split at hfind
  · exact absurd hfind (by simp)
  · rename_i quote more
    rw [hquotes quote (by simp)] at hfind
    exact absurd hfind (by simp)

/-- A line without links and quotes gives its bare paths. -/
theorem Markdown.lineReferences_of_prose (hlinks : links line = [])
    (hquotes : ∀ c ∈ line, isQuote c = false) :
    lineReferences rule source number line =
      (barePaths rule line).map (referTo source number .markdownStandalone) := by
  have hfree : unclaimed [] (barePaths rule line) = barePaths rule line :=
    List.filter_eq_self.mpr fun q _ => rfl
  unfold lineReferences
  dsimp only
  rw [quotedPaths_eq_nil rule hquotes, hlinks]
  exact congrArg (List.map _) hfree

/-- A line with links gives no bare paths. -/
theorem Markdown.kind_of_links (hlinks : links line ≠ [])
    (hr : r ∈ lineReferences rule source number line) : r.kind ≠ .markdownStandalone := by
  rw [lineReferences_of_links hlinks] at hr
  rcases List.mem_append.mp hr with hr | hr
  · obtain ⟨l, -, rfl⟩ := List.mem_map.mp hr
    exact ReferenceKind.noConfusion
  · obtain ⟨q, -, rfl⟩ := List.mem_map.mp hr
    exact ReferenceKind.noConfusion

/-- Whether a reference is to a bare path that begins in a piece of a row. -/
def beginsIn (number : Nat) (p : Piece) (r : Reference) : Bool :=
  r.kind == .markdownStandalone && r.line == number && p.start ≤ r.columnStart && r.columnStart < p.stop

theorem beginsIn_iff : beginsIn number p r = true ↔
    r.kind = .markdownStandalone ∧ r.line = number ∧ p.start ≤ r.columnStart ∧
      r.columnStart < p.stop := by
  simp [beginsIn, and_assoc]

/-- What begins in a word is what its own stripping leaves: other words share no byte with it. -/
theorem eq_strip_of_begins {q : Piece} (hp : p.IsWord line) (hq : q ∈ barePaths rule line)
    (hstart : p.start ≤ q.start) (hstop : q.start < p.stop) : q = p.strip isLeading isTrailing := by
  obtain ⟨hmem, haccepts⟩ := List.mem_filter.mp hq
  obtain ⟨w, hw, rfl⟩ := List.mem_map.mp hmem
  have hwithin := ((on_of_mem_runs hw).strip isLeading isTrailing).2
  have hwidth : 0 < width (w.strip isLeading isTrailing).text :=
    width_pos_of_ne_nil (some_of_accepts haccepts).1
  have : Std.Symm fun a b : Piece => a.span.Apart b.span := ⟨fun _ _ hab => hab.symm⟩
  by_contra hne
  have hdiffer : w ≠ p := fun hsame => hne (by rw [hsame])
  have hapart := (apart_runs _ line).forall hw hp.mem_runs hdiffer
  have hstops : (w.strip isLeading isTrailing).stop =
    (w.strip isLeading isTrailing).start + width (w.strip isLeading isTrailing).text := rfl
  simp only [Span.Apart, Span.Within, Piece.span] at hapart hwithin
  omega

/-- The bare paths of a line that begin in a word which counts as a path. -/
theorem Markdown.mem_and_beginsIn (hquotes : ∀ c ∈ line, isQuote c = false) (hp : p.IsWord line)
    (hpath : rule.accepts p.text = true) :
    (r ∈ lineReferences rule source number line ∧ beginsIn number p r = true) ↔
      (links line = [] ∧ rule.accepts p.pastUnderscores.text = true) ∧
        r = referTo source number .markdownStandalone p.pastUnderscores := by
  by_cases hlinks : links line = []
  · rw [lineReferences_of_prose hlinks hquotes, List.mem_map, beginsIn_iff]
    constructor
    · rintro ⟨⟨q, hq, rfl⟩, -, -, hstart, hstop⟩
      have hsame := (eq_strip_of_begins hp hq hstart hstop).trans (strip_of_accepts hpath)
      exact ⟨⟨hlinks, hsame ▸ (List.mem_filter.mp hq).2⟩, by rw [hsame]⟩
    · rintro ⟨⟨-, haccepts⟩, rfl⟩
      have hmem : p.pastUnderscores ∈ barePaths rule line := by
        have hword := List.mem_map.mpr ⟨p, hp.mem_runs, strip_of_accepts hpath⟩
        exact List.mem_filter.mpr ⟨hword, haccepts⟩
      refine ⟨⟨_, hmem, rfl⟩, rfl, rfl, Nat.le_add_right _ _, ?_⟩
      show p.start + width (p.text.takeWhile (· == '_')) < p.start + width p.text
      have hwidth : width (p.text.takeWhile (· == '_')) + width p.pastUnderscores.text =
          width p.text := by
        rw [← width_append]
        exact congrArg width List.takeWhile_append_dropWhile
      have hpos := width_pos_of_ne_nil (some_of_accepts haccepts).1
      omega
  · constructor
    · rintro ⟨hr, hbegins⟩
      exact absurd (beginsIn_iff.mp hbegins).1 (kind_of_links hlinks hr)
    · rintro ⟨⟨hnone, -⟩, -⟩
      exact absurd hnone hlinks

/-! ## A file -/

/-- The references of a Markdown file that begin in a word are those of its row. -/
theorem mem_find_and_beginsIn (hformat : Format.ofPath source = .markdown)
    (hrow : (number, line) ∈ numbered content.toList) :
    (r ∈ (find rule source content).references ∧ beginsIn number p r = true) ↔
      r ∈ Markdown.lineReferences rule source number line ∧ beginsIn number p r = true := by
  refine and_congr_left fun hbegins => ?_
  rw [mem_find_markdown hformat, perLine, List.mem_flatMap]
  constructor
  · rintro ⟨⟨other, row⟩, hother, hr⟩
    have hnumber := ((Markdown.given rule source other row).line r hr).symm.trans
      (beginsIn_iff.mp hbegins).2.1
    obtain ⟨index, body, hbody, hindex, rfl⟩ := mem_numbered hrow
    obtain ⟨index', body', hbody', hindex', rfl⟩ := mem_numbered hother
    obtain rfl : index = index' := by omega
    rw [hbody] at hbody'
    obtain rfl := Option.some.inj hbody'
    exact hnumber ▸ hr
  · exact fun hr => ⟨(number, line), hrow, hr⟩

/--
**A word that counts as a path is found past its underscores.**

On a line of a Markdown file that has no quotes, let a word count as a path as it stands. Then one
bare path begins in it at most: what is behind the underscores at its front, if the line has no
links and that still counts as a path. So the word is found whole, and nothing begins in the midst
of it, exactly if the line has no links and the word does not begin with an underscore.
-/
theorem filter_beginsIn (hformat : Format.ofPath source = .markdown)
    (hrow : (number, line) ∈ numbered content.toList) (hquotes : ∀ c ∈ line, isQuote c = false)
    (hp : p.IsWord line) (hpath : rule.accepts p.text = true) :
    (find rule source content).references.filter (beginsIn number p) =
      (if Markdown.links line = [] ∧ rule.accepts p.pastUnderscores.text = true then
        [referTo source number .markdownStandalone p.pastUnderscores]
      else []) ∧
    ((find rule source content).references.filter (beginsIn number p) =
        [referTo source number .markdownStandalone p] ↔
      Markdown.links line = [] ∧ p.text.head? ≠ some '_') := by
  have hmem : ∀ r, r ∈ (find rule source content).references.filter (beginsIn number p) ↔
      (Markdown.links line = [] ∧ rule.accepts p.pastUnderscores.text = true) ∧
        r = referTo source number .markdownStandalone p.pastUnderscores := by
    intro r
    rw [List.mem_filter, mem_find_and_beginsIn hformat hrow, Markdown.mem_and_beginsIn hquotes hp hpath]
  have hnodup : ((find rule source content).references.filter (beginsIn number p)).Nodup := by
    refine ((pairwise_find rule source content).imp ?_).filter _
    rintro a b hbefore rfl
    unfold Before at hbefore
    omega
  have hfirst : (find rule source content).references.filter (beginsIn number p) =
      if Markdown.links line = [] ∧ rule.accepts p.pastUnderscores.text = true then
        [referTo source number .markdownStandalone p.pastUnderscores]
      else [] := by
    split
    · rename_i hfound
      refine List.perm_singleton.mp ((List.perm_ext_iff_of_nodup hnodup (List.nodup_singleton _)).mpr ?_)
      intro r
      rw [hmem, List.mem_singleton, and_iff_right hfound]
    · rename_i hnone
      exact List.eq_nil_iff_forall_not_mem.mpr fun r hr => hnone ((hmem r).mp hr).1
  refine ⟨hfirst, ?_⟩
  rw [hfirst, ← pastUnderscores_eq_self_iff]
  constructor
  · intro hwhole
    split at hwhole
    · rename_i hfound
      have hpiece := congrArg Reference.piece (List.singleton_inj.mp hwhole)
      rw [piece_referTo, piece_referTo] at hpiece
      exact ⟨hfound.1, hpiece⟩
    · exact absurd hwhole (by simp)
  · rintro ⟨hlinks, hsame⟩
    rw [hsame, if_pos ⟨hlinks, hpath⟩]

/-- A line with a path in it, and with a name that begins with an underscore. -/
def proseLine : List Char := "see docs/a.md and _config.yml now".toList

def proseText : String := "see docs/a.md and _config.yml now\n"

/-- The path is found whole. -/
theorem filter_beginsIn_proseText :
    Format.ofPath "n.md" = .markdown ∧ (1, proseLine) ∈ numbered proseText.toList ∧
    (∀ c ∈ proseLine, isQuote c = false) ∧ (⟨4, "docs/a.md".toList⟩ : Piece).IsWord proseLine ∧
    (CandidateRule.ofExtensions ["md", "yml"]).accepts "docs/a.md".toList = true ∧
    (find (.ofExtensions ["md", "yml"]) "n.md" proseText).references.filter
        (beginsIn 1 ⟨4, "docs/a.md".toList⟩) =
      [⟨none, 13, 4, .markdownStandalone, 1, "n.md", "docs/a.md"⟩] := by
  have hformat : Format.ofPath "n.md" = .markdown := by decide +kernel
  have hrow : (1, proseLine) ∈ numbered proseText.toList := by decide +kernel
  have hquotes : ∀ c ∈ proseLine, isQuote c = false := by
    have hnone : proseLine.any isQuote = false := by decide +kernel
    exact fun c hc => Bool.eq_false_iff.mpr (List.any_eq_false.mp hnone c hc)
  have hline : proseLine = "see ".toList ++ ("docs/a.md".toList ++ " and _config.yml now".toList) := by
    decide +kernel
  have hword : (⟨4, "docs/a.md".toList⟩ : Piece).IsWord proseLine :=
    Piece.isRun_of_checks (by decide) (by decide +kernel) hline (by decide +kernel)
      (by decide +kernel) (by decide +kernel)
  have hpath : (CandidateRule.ofExtensions ["md", "yml"]).accepts "docs/a.md".toList = true := by
    decide +kernel
  have hwhole := (filter_beginsIn hformat hrow hquotes hword hpath).2.mpr
    ⟨by decide +kernel, by decide +kernel⟩
  exact ⟨hformat, hrow, hquotes, hword, hpath, hwhole⟩

/-- A line with nothing but a name that begins with an underscore among its words. -/
def configLine : List Char := "See _config.yml here".toList

/--
**A name that begins with an underscore is not found whole**: it counts as a path as it stands, and
what is found is the name of another file.
-/
theorem config_found_in_part :
    (1, configLine) ∈ numbered "See _config.yml here\n".toList ∧ Markdown.links configLine = [] ∧
    (∀ c ∈ configLine, isQuote c = false) ∧ (⟨4, "_config.yml".toList⟩ : Piece).IsWord configLine ∧
    (CandidateRule.ofExtensions ["md", "yml"]).accepts "_config.yml".toList = true ∧
    (find (.ofExtensions ["md", "yml"]) "n.md" "See _config.yml here\n").references =
      [⟨none, 15, 5, .markdownStandalone, 1, "n.md", "config.yml"⟩] := by
  have hquotes : configLine.any isQuote = false := by decide +kernel
  have hline : configLine = "See ".toList ++ ("_config.yml".toList ++ " here".toList) := by
    decide +kernel
  have hword : (⟨4, "_config.yml".toList⟩ : Piece).IsWord configLine :=
    Piece.isRun_of_checks (by decide) (by decide +kernel) hline (by decide +kernel)
      (by decide +kernel) (by decide +kernel)
  exact ⟨by decide +kernel, by decide +kernel,
    fun c hc => Bool.eq_false_iff.mpr (List.any_eq_false.mp hquotes c hc), hword,
    by decide +kernel, by decide +kernel⟩

end Links

end LinkKeeper
