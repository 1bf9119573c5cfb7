import LinkKeeper.Proofs.Respelling
import LinkKeeper.Proofs.Slots

/-!
# Reading a text again after an edit

A reference to an inline link or to a string of a document says all that an edit needs, and the
edit leaves a text in which the same reader finds the same references. Nothing is lost, nothing
comes up that was not there, and every other reference is where it has to be. Whoever keeps the
references of a file may therefore carry them along instead of reading the file again.

There is one exception, in Markdown. A quote that stands in the path of a link ends a title that
is open there, and with the path this quote is gone.
-/

namespace LinkKeeper

open Text Links

/-- The link of a reference with another path, as its format writes it. -/
def Reference.rewritten (r : Reference) (path : String) : String :=
  if r.kind = .jsonValue then String.ofList (replaceChar '\\' ['\\', '\\'] path.toList)
  else r.spelled path

namespace Links

variable {rule : CandidateRule} {source content text path : String} {r : Reference} {link : String}

/-! ## What is found and how -/

/-- It is enough to look at what is found in the format of the file, before and after. -/
theorem find_of_references? (hr : r ∈ (find rule source content).references) (hne : link.toList ≠ [])
    {references : List Reference}
    (hold : (Format.ofPath source).references? rule source content.toList = some references)
    (hnew : (Format.ofPath source).references? rule source text.toList =
      some (references.map (r.carry link))) :
    find rule source text = ⟨(find rule source content).references.map (r.carry link),
      (find rule source content).fallback⟩ := by
  have hreferences := find_carried hr hne (show gathered rule source text = _ by
    rw [gathered, gathered, hold, hnew]
    rfl)
  have hfallback : (find rule source text).fallback = (find rule source content).fallback := by
    rw [fallback_find, fallback_find, hold, hnew]
    rfl
  rw [← hreferences, ← hfallback]

/-! ## Markdown -/

theorem length_of_accepts {cs : List Char} (h : rule.accepts cs = true) : 1 < cs.length := by
  obtain ⟨stem, extension, rfl, hstem, -, -⟩ := exists_extension h
  have := List.length_pos_iff.mpr hstem
  simp only [List.length_append, List.length_cons]
  omega

theorem not_slashes_of_accepts {cs : List Char} (h : rule.accepts cs = true) : ¬ ['/', '/'] <+: cs := by
  unfold CandidateRule.accepts at h
  simp only [Bool.and_eq_true, Bool.not_eq_true', List.any_eq_false] at h
  intro hpre
  exact h.1.1.1.1.2 "//" (by decide) (List.isPrefixOf_iff_prefix.mpr hpre)

/-- **An inline link gets another path**, and the text is read again. -/
theorem Markdown.find_again (hr : r ∈ (find rule source content).references)
    (hkind : r.kind = .markdownInline) (haccepts : rule.accepts path.toList = true)
    (htitle : ¬ ShutsTitle content.toList r) :
    find rule source (Edit.splice content [r.editTo (r.spelled path)]).text =
      ⟨(find rule source content).references.map (r.carry (r.spelled path)),
        (find rule source content).fallback⟩ := by
  have hformat := format_of_inline hr hkind
  have hplain := isPathChar_of_accepts haccepts
  have hlong := length_of_accepts haccepts
  have hpath : path ≠ "" := by
    rintro rfl
    exact absurd hlong (by decide)
  obtain ⟨tail, htail, hspelled⟩ := Edit.exists_fragment r
  have hold : r.target.toList = r.targetPath.toList ++ tail := by
    rw [← hspelled, Edit.spelled_targetPath]
  have hmem := (mem_find_markdown hformat).mp hr
  have hlaid := laid_find rule source content
  have hne : (r.spelled path).toList ≠ [] := by
    rw [hspelled]
    exact fun hnil => hpath (String.toList_inj.mp (List.append_eq_nil_iff.mp hnil).1)
  have hsome := (hlaid.stands r hr).some
  -- with nothing in front of its fragment the link would not be one of the project
  have hne' : r.targetPath.toList ≠ [] := by
    intro hnil
    rw [hnil, List.nil_append] at hold
    obtain ⟨index, line, -, -, hline⟩ := mem_perLine (given rule source) hmem
    obtain ⟨l, -, -, hinside⟩ := mem_lineReferences hline hkind
    rcases htail with rfl | ⟨cs, rfl⟩
    · exact hsome.1 hold
    · rw [hold] at hinside
      exact absurd hinside (by simp [isExternal])
  obtain ⟨above, front, back, below, hreplaced⟩ := Edit.splice_replaced hlaid hr hne (by
    intro c hc
    rw [hspelled] at hc
    rcases List.mem_append.mp hc with hc | hc
    · exact inLine_of_isPathChar (hplain c hc)
    · exact hsome.2 c (by
        show c ∈ r.target.toList
        rw [hold]
        exact List.mem_append_right _ hc))
  refine find_of_references? hr hne (by rw [hformat]; rfl) ?_
  rw [hformat]
  refine congrArg some (perLine_carried hreplaced hmem hkind hold hne' htail (hspelled path) hlong
    hplain ?_ fun front back quote hnumbered hcolumn hquote hisQuote hopen => ?_)
  · rw [← hspelled]
    exact Edit.isExternal_spelled hplain hpath (not_slashes_of_accepts haccepts)
  · exact htitle ⟨front, back, quote, hnumbered, hcolumn, ⟨hquote, hisQuote⟩, hopen⟩

/-! ## JSON -/

namespace Json

open LinkKeeper.Json

/-- A path with its backslashes doubled spells the path. -/
theorem spelt_doubled {cs : List Char} (h : ∀ c ∈ cs, isPathChar c = true) :
    Spelt (replaceChar '\\' ['\\', '\\'] cs) cs := by
  refine spelt_doubled_iff.mpr ⟨rfl, fun c hc => ⟨?_, ?_⟩⟩
  · rintro rfl
    exact absurd (h _ hc) (by decide)
  · have hcode := Markdown.code_of_isPathChar (h c hc)
    omega

/-- A reference to a string was found in a document, and is one to a link among its strings. -/
theorem exists_document (hr : r ∈ (find rule source content).references)
    (hkind : r.kind = .jsonValue) : Format.ofPath source = .json ∧ ∃ v g,
      parse? content.toList = some v ∧ g ∈ v.strings none ∧ isLink rule g = true ∧
      r = reference source content.toList g.2 := by
  obtain ⟨references, hfound, hmem, hkinds⟩ := exists_references_of_kind hr (by rw [hkind]; decide)
  rw [hkind] at hkinds
  have hformat : Format.ofPath source = .json := by
    cases hformat : Format.ofPath source with
    | json => rfl
    | _ =>
        rw [hformat] at hkinds
        exact absurd hkinds (by decide)
  rw [hformat, Format.references?, references?_eq] at hfound
  obtain ⟨v, hparse, rfl⟩ := Option.map_eq_some_iff.mp hfound
  obtain ⟨g, hg, rfl⟩ := List.mem_map.mp hmem
  obtain ⟨hg, hlink⟩ := List.mem_filter.mp hg
  exact ⟨hformat, v, g, hparse, hg, hlink, rfl⟩

/-- An edit at the reference to a string spells the string anew. -/
theorem new_of_replaced {e : Respelling} {text : List Char} {above below : List (List Char)}
    {front back : List Char}
    (h : Replaced e.old text (reference source e.old e.literal) e.newRaw above front back below) :
    text = e.new := by
  obtain ⟨hold, hnew⟩ := h.content_eq
  have hsplit : e.old = (e.ahead ++ ['"']) ++ (e.raw ++ '"' :: e.behind) := by simp [Respelling.old]
  have hstart : e.literal.start = width (e.ahead ++ ['"']) := by
    rw [width_append]
    rfl
  obtain ⟨above', start, hahead, -, hlines, hplace⟩ := place_eq (e.ahead ++ ['"']) (e.raw ++ '"' :: e.behind)
  rw [← hsplit, ← hstart] at hplace
  have hnumber := h.number
  have hcolumn := h.column
  have hline : (reference source e.old e.literal).line = (keepEnds above').length + 1 :=
    congrArg Prod.fst hplace
  have hcolumn' : (reference source e.old e.literal).columnStart = width start :=
    congrArg Prod.snd hplace
  -- the lines above are the same lines, so the front of the text is the same
  have habove : above = keepEnds above' := by
    have hsame := h.lines.symm.trans ((congrArg keepEnds hsplit).trans hlines)
    exact (List.append_inj hsame (by omega)).1
  have hflatten : above.flatten = above' := by rw [habove, flatten_keepEnds]
  have htarget : (reference source e.old e.literal).target.toList = e.raw := String.toList_ofList
  rw [hflatten, htarget] at hold
  obtain ⟨hfront, hrest⟩ : above' ++ front = e.ahead ++ ['"'] ∧
      e.raw ++ (back ++ below.flatten) = e.raw ++ '"' :: e.behind := by
    refine append_inj_of_width ?_ ?_
    · rw [← hsplit, hold]
      simp
    · rw [hahead, width_append, width_append]
      omega
  have hback : back ++ below.flatten = '"' :: e.behind := List.append_cancel_left hrest
  rw [hnew, hflatten, Respelling.new]
  calc above' ++ (front ++ (e.newRaw ++ back)) ++ below.flatten
      = (above' ++ front) ++ (e.newRaw ++ (back ++ below.flatten)) := by simp
    _ = e.ahead ++ '"' :: (e.newRaw ++ '"' :: e.behind) := by
      rw [hfront, hback]
      simp

/-- **A string of a document gets another path**, and the text is read again. -/
theorem find_again (hr : r ∈ (find rule source content).references) (hkind : r.kind = .jsonValue)
    (haccepts : rule.accepts path.toList = true)
    (hlink : link = String.ofList (replaceChar '\\' ['\\', '\\'] path.toList)) :
    find rule source (Edit.splice content [r.editTo link]).text =
      ⟨(find rule source content).references.map (r.carry link),
        (find rule source content).fallback⟩ ∧
      (parse? (Edit.splice content [r.editTo link]).text.toList).isSome = true := by
  obtain ⟨hformat, v, g, hparse, hg, hislink, rfl⟩ := exists_document hr hkind
  obtain ⟨key, l⟩ := g
  have hmem := Value.mem_literals_of_mem_strings hg
  obtain ⟨stop, horder⟩ := inOrder_of_parse? hparse none
  have hspelt : Spelt l.raw l.decoded := horder.spelt _ hmem
  obtain ⟨ahead, behind, hcontent, hstart⟩ := horder.stands _ hmem
  have hplain := isPathChar_of_accepts haccepts
  have hdoubled := spelt_doubled hplain
  obtain ⟨e, he⟩ : ∃ e : Respelling, e = ⟨ahead, l.raw, l.decoded,
    replaceChar '\\' ['\\', '\\'] path.toList, path.toList, behind, hspelt, hdoubled⟩ := ⟨_, rfl⟩
  have hold : e.old = content.toList := by
    rw [he, hcontent]
    rfl
  have hliteral : e.literal = l := by
    have hplace : e.start = l.start := by
      rw [he, hstart]
      rfl
    rw [Respelling.literal, hplace, he]
  have hnewRaw : link.toList = e.newRaw := by rw [hlink, String.toList_ofList, he]
  have hne : link.toList ≠ [] := by
    have hlong := length_of_accepts haccepts
    obtain ⟨c, cs, hcs⟩ := List.exists_cons_of_length_pos (Nat.lt_trans Nat.zero_lt_one hlong)
    rw [hlink, String.toList_ofList, hcs, replaceChar, List.flatMap_cons]
    split <;> simp
  have hinline : ∀ c ∈ link.toList, InLine c := by
    intro c hc
    rw [hlink, String.toList_ofList, replaceChar, List.mem_flatMap] at hc
    obtain ⟨d, hd, hc⟩ := hc
    split at hc
    · have hslash : c = '\\' := by simpa using hc
      rw [hslash]
      constructor <;> decide
    · rw [List.mem_singleton.mp hc]
      exact inLine_of_isPathChar (hplain d hd)
  obtain ⟨above, front, back, below, hreplaced⟩ :=
    Edit.splice_replaced (laid_find rule source content) hr hne hinline
  have htext : (Edit.splice content [(reference source content.toList l).editTo link]).text.toList =
      e.new := by
    dsimp only at hreplaced
    rw [hnewRaw, ← hold, ← hliteral] at hreplaced
    rw [← hold, ← hliteral]
    exact new_of_replaced hreplaced
  rw [← hliteral] at hmem
  rw [← hold] at hparse
  obtain ⟨v', hparse', hstrings⟩ := Respelling.parse?_new hparse hmem
  have hclear := Respelling.clear_of_parse? hparse hmem
  obtain ⟨hacceptsOld, hwritable⟩ : rule.accepts l.decoded = true ∧ isWritable l = true := by
    cases key with
    | none => exact absurd hislink (by simp [isLink])
    | some key =>
        simp only [isLink, Bool.and_eq_true] at hislink
        exact ⟨hislink.1.2, hislink.2⟩
  have hraw : e.raw ≠ [] := by
    have hsome := ((laid_find rule source content).stands _ hr).some.1
    rw [reference, piece_referTo] at hsome
    rw [he]
    exact hsome
  have hcarried := @linksAmong_carry e rule source hraw _
    (fun g hg => hclear _ (Value.mem_literals_of_mem_strings hg))
    ⟨by rw [he]; exact hacceptsOld, by rw [hliteral]; exact hwritable⟩
    ⟨by rw [he]; exact haccepts, by rw [he]; simp [isWritable, Respelling.newLiteral]⟩
  refine ⟨find_of_references? hr hne (show _ = some (linksAmong rule source e.old (v.strings none)) from ?_) ?_, ?_⟩
  · rw [hformat, Format.references?, references?_eq, ← hold, hparse]
    rfl
  · rw [hformat, Format.references?, references?_eq, htext, hparse', Option.map_some, hstrings,
      hcarried, hliteral, hold, ← hnewRaw, String.ofList_toList]
  · rw [htext, hparse']
    rfl

end Json

/-! ## Both -/

/--
**Editing and reading again agree.**

A reference to an inline link or to a string of a document gets another path, which is written as
its format writes it, and the text is read again. Then the references are those from before, in
their order: those on other lines and those in front of it as they were, this one with its new
link, and those behind it on its line moved by as many bytes as the link has grown. A document
stays one. Of an inline link it is asked that its path holds no quote of a title that is open in
front of it.
-/
theorem find_edited (hr : r ∈ (find rule source content).references)
    (hkind : r.kind = .markdownInline ∨ r.kind = .jsonValue)
    (haccepts : rule.accepts path.toList = true)
    (htitle : r.kind = .markdownInline → ¬ Markdown.ShutsTitle content.toList r) :
    find rule source (Edit.splice content [r.editTo (r.rewritten path)]).text =
        ⟨(find rule source content).references.map (r.carry (r.rewritten path)),
          (find rule source content).fallback⟩ ∧
      (r.kind = .jsonValue → (LinkKeeper.Json.parse?
        (Edit.splice content [r.editTo (r.rewritten path)]).text.toList).isSome = true) := by
  rcases hkind with hkind | hkind
  · have hlink : r.rewritten path = r.spelled path := by
      rw [Reference.rewritten, if_neg (by rw [hkind]; decide)]
    rw [hlink]
    exact ⟨Markdown.find_again hr hkind haccepts (htitle hkind),
      fun hjson => absurd (hkind.symm.trans hjson) (by decide)⟩
  · obtain ⟨hfound, hparse⟩ := Json.find_again hr hkind haccepts (if_pos hkind : r.rewritten path = _)
    exact ⟨hfound, fun _ => hparse⟩

/-- A link with a fragment, a path in quotes, and a link around an image. -/
def mixedText : String := "see [a](b.md#x), \"c.md\" and [![i](d.md)](e.md)"

/-- The reference to the first link. -/
def mixedReference : Reference := ⟨some "a", 14, 8, .markdownInline, 1, "n.md", "b.md#x"⟩

theorem find_edited_mixed :
    mixedReference ∈ (find (.ofExtensions ["md"]) "n.md" mixedText).references ∧
      mixedReference.rewritten "sub/f.md" = "sub/f.md#x" ∧
      find (.ofExtensions ["md"]) "n.md"
          (Edit.splice mixedText [mixedReference.editTo (mixedReference.rewritten "sub/f.md")]).text =
        ⟨(find (.ofExtensions ["md"]) "n.md" mixedText).references.map
            (mixedReference.carry (mixedReference.rewritten "sub/f.md")),
          (find (.ofExtensions ["md"]) "n.md" mixedText).fallback⟩ := by
  have hr : mixedReference ∈ (find (.ofExtensions ["md"]) "n.md" mixedText).references :=
    (mem_find_markdown (by decide +kernel)).mpr (by decide +kernel)
  refine ⟨hr, by decide +kernel, (find_edited hr (.inl rfl) (by decide +kernel) fun _ => ?_).1⟩
  rintro ⟨front, back, quote, -, -, ⟨hmem, hquote⟩, -⟩
  have hnone := List.all_eq_true.mp
    (by decide +kernel : mixedReference.targetPath.toList.all (fun c => !isQuote c) = true) quote hmem
  rw [hquote] at hnone
  exact Bool.noConfusion hnone

/-- A link whose path holds a quote, and with this the quote of a title that is open in front of it. -/
def titledText : String := "[a](t.md \"[x](y\"z.md)\")"

/-- The reference to this link. The link around it is none. -/
def titledReference : Reference := ⟨some "x", 20, 14, .markdownInline, 1, "n.md", "y\"z.md"⟩

theorem find_edited_titled :
    titledReference ∈ (find (.ofExtensions ["md"]) "n.md" titledText).references ∧
      (CandidateRule.ofExtensions ["md"]).accepts "w.md".toList = true ∧
      (find (.ofExtensions ["md"]) "n.md"
          (Edit.splice titledText [titledReference.editTo (titledReference.rewritten "w.md")]).text).references ≠
        (find (.ofExtensions ["md"]) "n.md" titledText).references.map
          (titledReference.carry (titledReference.rewritten "w.md")) := by
  have hformat : Format.ofPath "n.md" = .markdown := by decide +kernel
  have htext : (Edit.splice titledText
      [titledReference.editTo (titledReference.rewritten "w.md")]).text =
        "[a](t.md \"[x](w.md)\")" := by
    rw [Edit.splice, Edit.ordered_singleton]
    decide +kernel
  refine ⟨(mem_find_markdown hformat).mpr (by decide +kernel), by decide +kernel, fun hsame => ?_⟩
  rw [htext] at hsame
  -- the link with the title is found now
  have hmem : (⟨some "a", 8, 4, .markdownInline, 1, "n.md", "t.md"⟩ : Reference) ∈
      (find (.ofExtensions ["md"]) "n.md" "[a](t.md \"[x](w.md)\")").references :=
    (mem_find_markdown hformat).mpr (by decide +kernel)
  rw [hsame] at hmem
  obtain ⟨q, hq, hcarried⟩ := List.mem_map.mp hmem
  have hone : perLine (Markdown.lineReferences (.ofExtensions ["md"]) "n.md") titledText.toList =
      [titledReference] := by
    decide +kernel
  rw [mem_find_markdown hformat, hone] at hq
  rw [List.mem_singleton.mp hq] at hcarried
  exact absurd hcarried (by decide +kernel)

end Links

end LinkKeeper
