import LinkKeeper.Proofs.Landing
import LinkKeeper.Proofs.Spans

/-!
# One link of a file is replaced

An edit for one reference changes one line of the text, and of that line only the bytes of
the link. A reader that goes by the same rules before and after should then find what it
found before: the references of other lines and those in front of the link where they were,
this one with its new link, and those behind it as much further as the link has grown.

Whether it does is a question for each format. Here is said what changes in the text, and
what the answer has to be; and that it is enough to look at what is found, in the order in
which it is found, since sorting puts both in the same order.
-/

namespace LinkKeeper

open Text

namespace Reference

/-- The edit that puts a link in the place of a reference. -/
def editTo (r : Reference) (link : String) : Edit :=
  ⟨r.columnEnd, r.columnStart, r.line, r.target, link⟩

theorem isFor_editTo (r : Reference) (link : String) : (r.editTo link).IsFor r :=
  ⟨rfl, rfl, rfl, rfl⟩

/-- What becomes of a reference of the same text when this one has another link. -/
def carry (r : Reference) (link : String) (q : Reference) : Reference :=
  if q.line = r.line then
    if q.columnStart < r.columnStart then q
    else if q.columnStart = r.columnStart then
      { q with columnEnd := r.columnStart + link.utf8ByteSize, target := link }
    else
      { q with
        columnEnd := q.columnEnd + link.utf8ByteSize - r.target.utf8ByteSize
        columnStart := q.columnStart + link.utf8ByteSize - r.target.utf8ByteSize }
  else q

variable {r q : Reference} {link : String}

theorem carry_of_line (h : q.line ≠ r.line) : r.carry link q = q := by
  rw [carry, if_neg h]

theorem carry_of_lt (h : q.columnStart < r.columnStart) : r.carry link q = q := by
  by_cases hline : q.line = r.line
  · rw [carry, if_pos hline, if_pos h]
  · exact carry_of_line hline

theorem carry_self (r : Reference) (link : String) : r.carry link r =
    { r with columnEnd := r.columnStart + link.utf8ByteSize, target := link } := by
  rw [carry, if_pos rfl, if_neg (Nat.lt_irrefl _), if_pos rfl]

theorem carry_of_gt (hline : q.line = r.line) (h : r.columnStart < q.columnStart) :
    r.carry link q = { q with
      columnEnd := q.columnEnd + link.utf8ByteSize - r.target.utf8ByteSize
      columnStart := q.columnStart + link.utf8ByteSize - r.target.utf8ByteSize } := by
  rw [carry, if_pos hline, if_neg (by omega), if_neg (by omega)]

theorem line_carry (r : Reference) (link : String) (q : Reference) :
    (r.carry link q).line = q.line := by
  unfold carry
  split
  · split
    · rfl
    · split <;> rfl
  · rfl

/-- The same reference for another piece of its line. -/
def withPiece (q : Reference) (p : Piece) : Reference :=
  { q with columnEnd := p.stop, columnStart := p.start, target := String.ofList p.text }

/-- A reference at the same place has the new link. -/
theorem carry_at (hline : q.line = r.line) (hcolumn : q.columnStart = r.columnStart) :
    r.carry link q = q.withPiece ⟨r.columnStart, link.toList⟩ := by
  rw [carry, if_pos hline, if_neg (by omega), if_pos hcolumn, withPiece, String.ofList_toList, ← hcolumn,
    Piece.stop, ← utf8ByteSize_eq_width]

/-- A reference behind goes as much further as the link has grown. -/
theorem carry_behind {p : Piece} (hline : q.line = r.line) (hpiece : q.piece = p)
    (hends : q.columnEnd = p.stop) (hpos : 0 < r.target.utf8ByteSize)
    (hle : r.columnStart + r.target.utf8ByteSize ≤ p.start) :
    r.carry link q = q.withPiece ⟨p.start + link.utf8ByteSize - r.target.utf8ByteSize, p.text⟩ := by
  subst hpiece
  have hcolumn : q.piece.start = q.columnStart := rfl
  have hstop : q.columnEnd + link.utf8ByteSize - r.target.utf8ByteSize =
      q.columnStart + link.utf8ByteSize - r.target.utf8ByteSize + width q.piece.text := by
    have hpiece : q.piece.stop = q.columnStart + width q.piece.text := rfl
    omega
  rw [carry_of_gt hline (by omega), withPiece, hcolumn, show q.piece.text = q.target.toList from rfl,
    String.ofList_toList, Piece.stop, hstop]
  rfl

end Reference

namespace Links

variable {content : List Char} {references : List Reference}

/-- Of two references on a line the one further left ends before the other one begins. -/
theorem Laid.le_of_lt (h : Laid content references) {a b : Reference} (ha : a ∈ references)
    (hb : b ∈ references) (hline : a.line = b.line) (hlt : a.columnStart < b.columnStart) :
    a.columnEnd ≤ b.columnStart := by
  have hends : ∀ r ∈ references, r.columnStart ≤ r.columnEnd := by
    intro r hr
    rw [(h.stands r hr).ends]
    exact Nat.le_add_right _ _
  have horder : references.Pairwise fun a b => a.line = b.line →
      a.columnEnd ≤ b.columnStart ∨ b.columnEnd ≤ a.columnStart := by
    refine h.apart.imp fun hab hline => ?_
    omega
  have : Std.Symm fun a b : Reference => a.line = b.line →
      a.columnEnd ≤ b.columnStart ∨ b.columnEnd ≤ a.columnStart :=
    ⟨fun _ _ hab hline => (hab hline.symm).symm⟩
  have hne : a ≠ b := by
    rintro rfl
    omega
  have hends := hends b hb
  have := horder.forall ha hb hne hline
  omega

end Links

/-! ## The text -/

/-- A text, and what comes of it when one reference has another link. -/
structure Replaced (content text : List Char) (r : Reference) (link : List Char)
    (above : List (List Char)) (front back : List Char) (below : List (List Char)) : Prop where
  lines : keepEnds content = above ++ (front ++ (r.target.toList ++ back)) :: below
  lines' : keepEnds text = above ++ (front ++ (link ++ back)) :: below
  number : r.line = above.length + 1
  column : r.columnStart = width front

theorem Replaced.content_eq {content text : List Char} {r : Reference} {link : List Char}
    {above : List (List Char)} {front back : List Char} {below : List (List Char)}
    (h : Replaced content text r link above front back below) :
    content = above.flatten ++ (front ++ (r.target.toList ++ back)) ++ below.flatten ∧
      text = above.flatten ++ (front ++ (link ++ back)) ++ below.flatten := by
  constructor
  · rw [← flatten_keepEnds content, h.lines]
    simp
  · rw [← flatten_keepEnds text, h.lines']
    simp

/-- The line of the reference, as it was. -/
theorem Replaced.line_eq {content text : List Char} {r : Reference} {link : List Char}
    {above : List (List Char)} {front back : List Char} {below : List (List Char)}
    (h : Replaced content text r link above front back below) {index : Nat} {line : List Char}
    (hindex : (keepEnds content)[index]? = some line) (hnumber : r.line = index + 1) :
    line = front ++ (r.target.toList ++ back) := by
  have hlength : above.length = index := by
    have := h.number
    omega
  rw [h.lines, ← hlength, List.getElem?_append_right (Nat.le_refl _), Nat.sub_self] at hindex
  exact (Option.some.inj hindex).symm

namespace Edit

theorem ordered_singleton (e : Edit) : ordered [e] = [e] := by
  simp [ordered, distinct]

/-- **One edit changes one link.** -/
theorem splice_replaced {content : String} {references : List Reference}
    (hlaid : Links.Laid content.toList references) {r : Reference} (hr : r ∈ references)
    {link : String} (hne : link.toList ≠ []) (hline : ∀ c ∈ link.toList, Links.InLine c) :
    ∃ above front back below, Replaced content.toList
      (splice content [r.editTo link]).text.toList r link.toList above front back below := by
  obtain ⟨index, line, hindex, hnumber, front, back, hon, hstart⟩ := (hlaid.stands r hr).on
  have hon : line = front ++ (r.target.toList ++ back) := hon
  have hstart : r.columnStart = width front := hstart
  obtain ⟨hlt, -⟩ := List.getElem?_eq_some_iff.mp hindex
  have hlines : keepEnds content.toList = (keepEnds content.toList).take index ++
      (front ++ (r.target.toList ++ back)) :: (keepEnds content.toList).drop (index + 1) := by
    have hget : (keepEnds content.toList)[index] = front ++ (r.target.toList ++ back) :=
      (Option.some.inj ((List.getElem?_eq_getElem hlt).symm.trans hindex)).trans hon
    rw [← hget, ← List.drop_eq_getElem_cons hlt, List.take_append_drop]
  have hstep : splice content [r.editTo link] =
      ⟨(keepEnds content.toList).set index (front ++ (link.toList ++ back)), 1, []⟩ := by
    have happly := applyToLine?_eq (r.isFor_editTo link) (hlaid.stands r hr).some
      (hlaid.stands r hr).ends hstart back
    rw [← hon] at happly
    rw [splice, ordered_singleton, List.foldl_cons, List.foldl_nil,
      Splice.step_eq hnumber hindex happly]
    rfl
  have htext : (splice content [r.editTo link]).text.toList =
      ((keepEnds content.toList).set index (front ++ (link.toList ++ back))).flatten := by
    rw [hstep, Splice.text, String.toList_ofList]
  have hset : (keepEnds content.toList).set index (front ++ (link.toList ++ back)) =
      (keepEnds content.toList).take index ++
        (front ++ (link.toList ++ back)) :: (keepEnds content.toList).drop (index + 1) := by
    rw [List.set_eq_take_append_cons_drop, if_pos hlt]
  refine ⟨_, front, back, _, hlines, ?_, ?_, hstart⟩
  · rw [htext, ← hset]
    refine ((cut_keepEnds content.toList).swapped List.length_set fun i other hi => ?_).keepEnds_flatten
    by_cases hindex' : index = i
    · subst hindex'
      rw [hindex] at hi
      obtain rfl := Option.some.inj hi
      refine ⟨front.map .keep ++ ⟨r.target.toList, link.toList⟩ :: back.map .keep, ?_, ?_, ?_⟩
      · intro s hs
        rcases List.mem_append.mp hs with hs | hs
        · obtain ⟨c, -, rfl⟩ := List.mem_map.mp hs
          exact .inl ⟨c, rfl⟩
        · rcases List.mem_cons.mp hs with rfl | hs
          · have hsome := (hlaid.stands r hr).some
            exact .inr ⟨⟨hsome.1, hne⟩, fun c hc => (hsome.2 c hc).1, fun c hc => (hline c hc).1⟩
          · obtain ⟨c, -, rfl⟩ := List.mem_map.mp hs
            exact .inl ⟨c, rfl⟩
      · simpa using hon.symm
      · rw [List.getElem?_set_self hlt]
        simp
    · refine ⟨other.map .keep, fun s hs => ?_, by simp, ?_⟩
      · obtain ⟨c, -, rfl⟩ := List.mem_map.mp hs
        exact .inl ⟨c, rfl⟩
      · rw [List.getElem?_set_ne hindex', hi]
        simp
  · rw [List.length_take_of_le (by omega)]
    exact hnumber

end Edit

/-! ## What is found -/

namespace Links

variable {rule : CandidateRule} {source content text : String} {r : Reference} {link : String}

/-- References keep their order when one of them has another link. -/
theorem startsBefore_carry (hlaid : Laid content.toList (find rule source content).references)
    (hr : r ∈ (find rule source content).references) (hne : link.toList ≠ []) {a b : Reference}
    (ha : a ∈ (find rule source content).references)
    (hb : b ∈ (find rule source content).references) :
    startsBefore a b = startsBefore (r.carry link a) (r.carry link b) := by
  have hends := (hlaid.stands r hr).ends
  have hwidth : r.piece.stop = r.columnStart + r.target.utf8ByteSize := by
    rw [utf8ByteSize_eq_width]
    rfl
  have hpositive : ∀ s : String, s.toList ≠ [] → 0 < s.utf8ByteSize := by
    intro s hs
    rw [utf8ByteSize_eq_width]
    exact width_pos_of_ne_nil hs
  have hpos := hpositive link hne
  have hpos' := hpositive r.target (hlaid.stands r hr).some.1
  -- a place in front stays, the place itself stays, and places behind go on by one distance
  have hplace : ∀ q ∈ (find rule source content).references, (q.line ≠ r.line ∧
        (r.carry link q).columnStart = q.columnStart) ∨
      (q.line = r.line ∧ q.columnStart ≤ r.columnStart ∧
        (r.carry link q).columnStart = q.columnStart) ∨
      (q.line = r.line ∧ r.columnEnd ≤ q.columnStart ∧ (r.carry link q).columnStart =
        q.columnStart + link.utf8ByteSize - r.target.utf8ByteSize) := by
    intro q hq
    by_cases hline : q.line = r.line
    · rcases Nat.lt_trichotomy q.columnStart r.columnStart with hlt | heq | hgt
      · exact .inr (.inl ⟨hline, Nat.le_of_lt hlt, by rw [Reference.carry_of_lt hlt]⟩)
      · obtain rfl := hlaid.eq_of_place hq hr hline heq
        exact .inr (.inl ⟨rfl, Nat.le_refl _, by rw [Reference.carry_self]⟩)
      · exact .inr (.inr ⟨hline, hlaid.le_of_lt hr hq hline.symm hgt, by
          rw [Reference.carry_of_gt hline hgt]⟩)
    · exact .inl ⟨hline, by rw [Reference.carry_of_line hline]⟩
  rw [Bool.eq_iff_iff, startsBefore_iff, startsBefore_iff, Reference.line_carry,
    Reference.line_carry]
  have hpa := hplace a ha
  have hpb := hplace b hb
  omega

/-- **It is enough to look at what is found**, in the order in which it is found. -/
theorem find_carried (hr : r ∈ (find rule source content).references) (hne : link.toList ≠ [])
    (h : gathered rule source text = (gathered rule source content).map (r.carry link)) :
    (find rule source text).references =
      (find rule source content).references.map (r.carry link) := by
  rw [find_eq_mergeSort, find_eq_mergeSort, h]
  refine (List.map_mergeSort fun a ha b hb => ?_).symm
  exact startsBefore_carry (laid_find rule source content) hr hne (mem_find_iff.mpr ha)
    (mem_find_iff.mpr hb)

/-! ## Line by line -/

theorem perLine_append {find : Nat → List Char → List Reference} {cs : List Char}
    {above below : List (List Char)} (h : keepEnds cs = above ++ below) :
    perLine find cs = (above.zipIdx.flatMap fun (line, i) => find (i + 1) (splitEnding line).1) ++
      (below.zipIdx above.length).flatMap fun (line, i) => find (i + 1) (splitEnding line).1 := by
  rw [perLine, numbered, bodies, h, List.flatMap_map, List.zipIdx_map, List.flatMap_map,
    List.zipIdx_append, List.flatMap_append, Nat.zero_add]
  rfl

/--
**Where references are found line by line, one line has to be looked at.** On the others nothing
has changed.
-/
theorem perLine_replaced {find : Nat → List Char → List Reference}
    (hgiven : ∀ number line, Given number line (find number line)) {cs cs' : List Char}
    {above below : List (List Char)} {front back : List Char}
    (h : Replaced cs cs' r link.toList above front back below)
    (hline : find r.line (splitEnding (front ++ (link.toList ++ back))).1 =
      (find r.line (splitEnding (front ++ (r.target.toList ++ back))).1).map (r.carry link)) :
    perLine find cs' = (perLine find cs).map (r.carry link) := by
  have hother : ∀ number body, number ≠ r.line →
      (find number body).map (r.carry link) = find number body := by
    intro number body hne
    refine (List.map_congr_left fun q hq => ?_).trans (List.map_id _)
    exact Reference.carry_of_line fun he => hne (((hgiven number body).line q hq).symm.trans he)
  have hkept : ∀ (lines : List (List Char)) (n : Nat), (∀ i, n ≤ i → i < n + lines.length →
      i + 1 ≠ r.line) →
      ((lines.zipIdx n).flatMap fun (line, i) => find (i + 1) (splitEnding line).1).map
        (r.carry link) = (lines.zipIdx n).flatMap fun (line, i) => find (i + 1) (splitEnding line).1 := by
    intro lines n hn
    rw [List.map_flatMap]
    refine List.flatMap_congr fun pair hpair => hother _ _ ?_
    exact hn _ (List.le_snd_of_mem_zipIdx hpair) (List.snd_lt_add_of_mem_zipIdx hpair)
  have hnumber := h.number
  rw [perLine_append h.lines, perLine_append h.lines', List.zipIdx_cons, List.zipIdx_cons,
    List.flatMap_cons, List.flatMap_cons, List.map_append, List.map_append,
    hkept above 0 (fun i _ hi => by omega), hkept below _ (fun i hi _ => by omega)]
  dsimp only
  rw [← hnumber, hline]

end Links

end LinkKeeper
