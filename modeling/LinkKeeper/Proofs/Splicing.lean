import LinkKeeper.Edit
import LinkKeeper.Proofs.Standing

/-!
# What fresh edits make of a text

Edits of references that stand where they say go to exactly these places, whatever
other edits do: they are applied from the last place to the first, and so nothing has
moved yet where an edit applies. The text that comes of it is the old one with the link
of each reference replaced by the one that its edit wants, and no other character touched.
-/

namespace LinkKeeper

open Text

/-! ## Widths -/

namespace Text

theorem eq_nil_of_width {cs : List Char} (h : width cs = 0) : cs = [] := by
  cases cs with
  | nil => rfl
  | cons c cs =>
      have hsize := Char.utf8Size_pos c
      rw [width_cons] at h
      omega

theorem width_pos_of_ne_nil {cs : List Char} (h : cs ≠ []) : 0 < width cs :=
  Nat.pos_of_ne_zero fun hzero => h (eq_nil_of_width hzero)

/-- Of two beginnings of a text the narrower one is a beginning of the other. -/
theorem prefix_of_width_le {as bs cs : List Char} (ha : as <+: cs) (hb : bs <+: cs)
    (h : width as ≤ width bs) : as <+: bs := by
  rcases List.prefix_or_prefix_of_prefix ha hb with hab | ⟨more, rfl⟩
  · exact hab
  · rw [width_append] at h
    have hnil : more = [] := eq_nil_of_width (by omega)
    exact ⟨[], by simp [hnil]⟩

/-- A text is divided at a width in one way only. -/
theorem append_inj_of_width {as bs cs ds : List Char} (h : as ++ bs = cs ++ ds)
    (hw : width as = width cs) : as = cs ∧ bs = ds := by
  have hpre := prefix_of_width_le ⟨bs, h⟩ (List.prefix_append cs ds) (Nat.le_of_eq hw)
  have hpre' := prefix_of_width_le (List.prefix_append cs ds) ⟨bs, h⟩ (Nat.le_of_eq hw.symm)
  obtain rfl := hpre.eq_of_length_le hpre'.length_le
  exact ⟨rfl, List.append_cancel_left h⟩

theorem cut?_append (front rest : List Char) :
    cut? (front ++ rest) (width front) = some (front, rest) := by
  induction front with
  | nil => cases rest <;> rfl
  | cons c front ih =>
      have hsize := Char.utf8Size_pos c
      rw [List.cons_append, width_cons]
      obtain ⟨n, hn⟩ : ∃ n, c.utf8Size + width front = n + 1 :=
        ⟨c.utf8Size + width front - 1, by omega⟩
      have hrest : n + 1 - c.utf8Size = width front := by omega
      rw [hn, cut?, if_pos (by omega), hrest, ih]
      rfl

theorem slice?_append (front middle back : List Char) :
    slice? (front ++ (middle ++ back)) (width front) (width front + width middle) =
      some middle := by
  rw [slice?, if_pos (Nat.le_add_right _ _), cut?_append, Nat.add_sub_cancel_left]
  show (cut? (middle ++ back) (width middle)).bind (fun p => some p.1) = some middle
  rw [cut?_append]
  rfl

theorem width_of_cut? {cs front back : List Char} {n : Nat} (h : cut? cs n = some (front, back)) :
    width front = n := by
  induction cs generalizing n front with
  | nil =>
      cases n with
      | zero =>
          obtain ⟨rfl, -⟩ := Prod.mk.inj (Option.some.inj h)
          rfl
      | succ n => exact absurd h (by simp [cut?])
  | cons c cs ih =>
      cases n with
      | zero =>
          obtain ⟨rfl, -⟩ := Prod.mk.inj (Option.some.inj h)
          rfl
      | succ n =>
          rw [cut?] at h
          split at h
          · rename_i hfits
            obtain ⟨⟨some, _⟩, hcut, hpair⟩ := Option.map_eq_some_iff.mp h
            obtain ⟨rfl, rfl⟩ := Prod.mk.inj hpair
            rw [width_cons, ih hcut]
            omega
          · exact absurd h (by simp)

/-- Where a part of a text stands. -/
theorem exists_of_slice? {cs part : List Char} {start stop : Nat}
    (h : slice? cs start stop = some part) :
    ∃ front back, cs = front ++ (part ++ back) ∧ start = width front ∧
      stop = width front + width part := by
  rw [slice?] at h
  split at h
  · rename_i hle
    obtain ⟨⟨front, rest⟩, hfront, h⟩ := Option.bind_eq_some_iff.mp h
    obtain ⟨⟨middle, back⟩, hmiddle, h⟩ := Option.bind_eq_some_iff.mp h
    obtain rfl := Option.some.inj h
    have hstart := width_of_cut? hfront
    have hstop := width_of_cut? hmiddle
    refine ⟨front, back, ?_, hstart.symm, by omega⟩
    rw [append_of_cut? hmiddle, append_of_cut? hfront]
  · exact absurd h (by simp)

theorem utf8ByteSize_eq_width (s : String) : s.utf8ByteSize = width s.toList := by
  have hofList : ∀ cs : List Char, (String.ofList cs).utf8ByteSize = width cs := by
    intro cs
    induction cs with
    | nil => rfl
    | cons c cs ih =>
        have hsplit : String.ofList (c :: cs) = String.singleton c ++ String.ofList cs := by
          rw [← String.toList_inj]
          simp
        rw [hsplit, String.utf8ByteSize_append, String.utf8ByteSize_singleton, ih, width_cons]
  rw [← hofList, String.ofList_toList]

/--
The ending of a line begins behind a part of it that does not end in a line feed, unless the part
ends in a carriage return and a line feed is all that comes behind it.
-/
theorem exists_splitEnding_of {as rest : List Char} (hfeed : '\n' ∉ as.getLast?)
    (hreturn : '\r' ∈ as.getLast? → rest ≠ ['\n']) :
    ∃ back, (splitEnding (as ++ rest)).1 = as ++ back ∧ back ++ (splitEnding (as ++ rest)).2 = rest := by
  have hends : ∀ line : List Char, (splitEnding line).2 = ['\r', '\n'] ∨
      (splitEnding line).2 = ['\n'] ∨ (splitEnding line).2 = [] := by
    intro line
    unfold splitEnding
    split
    · exact .inl rfl
    · exact .inr (.inl rfl)
    · exact .inr (.inr rfl)
  have hsplit := splitEnding_append (as ++ rest)
  rcases List.append_eq_append_iff.mp hsplit with ⟨mid, has, hending⟩ | ⟨back, hbody, hrest⟩
  · -- what the part has of the ending is nothing
    obtain rfl : mid = [] := by
      rcases List.eq_nil_or_concat mid with hmid | ⟨front, c, rfl⟩
      · exact hmid
      · have hlast : as.getLast? = some c := by
          rw [has, List.concat_eq_append, ← List.append_assoc, List.getLast?_concat]
        rw [hlast, Option.mem_some_iff] at hfeed hreturn
        rw [List.concat_eq_append, List.append_assoc] at hending
        rcases hends (as ++ rest) with he | he | he
        · rw [he] at hending
          rcases front with _ | ⟨d, _ | ⟨e, more⟩⟩
          · obtain ⟨rfl, hrest⟩ := List.cons.inj hending
            exact absurd hrest.symm (hreturn rfl)
          · exact absurd (List.cons.inj (List.cons.inj hending).2).1.symm hfeed
          · simp at hending
        · rw [he] at hending
          rcases front with _ | ⟨d, more⟩
          · exact absurd (List.cons.inj hending).1.symm hfeed
          · simp at hending
        · rw [he] at hending
          simp at hending
    rw [List.append_nil] at has
    refine ⟨[], by rw [List.append_nil, ← has], ?_⟩
    rw [hending]
    rfl
  · exact ⟨back, hbody, hrest.symm⟩

/-- The ending of a line begins behind every character that ends no line. -/
theorem exists_splitEnding {as : List Char}
    (hlast : ∀ c ∈ as.getLast?, Links.InLine c) (rest : List Char) :
    ∃ back, (splitEnding (as ++ rest)).1 = as ++ back ∧ back ++ (splitEnding (as ++ rest)).2 = rest :=
  exists_splitEnding_of (fun hfeed => (hlast _ hfeed).1 rfl)
    fun hreturn => absurd rfl (hlast _ hreturn).2

end Text

/-! ## Woven texts -/

/--
A line from a column on, and the line that comes of it when each of some references gets
another link. The references are given in order, and what is between them stays.
-/
inductive Woven (link : Reference → String) : Nat → List Reference → List Char → List Char → Prop
  | rest (column : Nat) (cs : List Char) : Woven link column [] cs cs
  | next {column : Nat} {gap cs cs' : List Char} {r : Reference} {rs : List Reference}
      (hstart : r.columnStart = column + width gap) (h : Woven link r.piece.stop rs cs cs') :
      Woven link column (r :: rs) (gap ++ (r.target.toList ++ cs)) (gap ++ ((link r).toList ++ cs'))

variable {link : Reference → String} {column : Nat} {rs : List Reference} {cs cs' : List Char}

theorem Woven.le_columnStart (h : Woven link column rs cs cs') {r : Reference} (hr : r ∈ rs) :
    column ≤ r.columnStart := by
  induction h with
  | rest => simp at hr
  | @next column gap cs cs' first rs hstart h ih =>
      rcases List.mem_cons.mp hr with rfl | hr
      · omega
      · have hle : first.columnStart + width first.target.toList ≤ r.columnStart := ih hr
        omega

theorem Woven.congr {other : Reference → String} (h : Woven link column rs cs cs')
    (hsame : ∀ r ∈ rs, other r = link r) : Woven other column rs cs cs' := by
  induction h with
  | rest => exact .rest _ _
  | next hstart h ih =>
      rw [← hsame _ List.mem_cons_self]
      exact .next hstart (ih fun r hr => hsame r (List.mem_cons_of_mem _ hr))

/-- References that stand on a line one behind the other are woven into it. -/
theorem woven_of_on (hon : ∀ r ∈ rs, ∃ front back, cs = front ++ (r.target.toList ++ back) ∧
      r.columnStart = column + width front)
    (happart : rs.Pairwise fun a b => a.piece.stop ≤ b.columnStart) :
    Woven (·.target) column rs cs cs := by
  induction rs generalizing column cs with
  | nil => exact .rest _ _
  | cons r rs ih =>
      obtain ⟨gap, back, rfl, hstart⟩ := hon r List.mem_cons_self
      refine .next hstart (ih (fun s hs => ?_) happart.of_cons)
      obtain ⟨front, rest, hcs, hcolumn⟩ := hon s (List.mem_cons_of_mem _ hs)
      have hbehind : r.columnStart + width r.target.toList ≤ s.columnStart :=
        List.rel_of_pairwise_cons happart hs
      -- what comes before the later reference begins with the earlier one
      have hwidth : width (gap ++ r.target.toList) ≤ width front := by
        rw [width_append]
        omega
      have hfront : front <+: gap ++ (r.target.toList ++ back) := ⟨_, hcs.symm⟩
      have hgap : gap ++ r.target.toList <+: gap ++ (r.target.toList ++ back) :=
        ⟨back, List.append_assoc _ _ _⟩
      obtain ⟨more, rfl⟩ := prefix_of_width_le hgap hfront hwidth
      refine ⟨more, rest, ?_, ?_⟩
      · simpa using hcs
      · show s.columnStart = r.columnStart + width r.target.toList + width more
        rw [width_append, width_append] at hcolumn
        omega

/--
**One more edit.** As long as nothing up to a reference has changed, it is still where it
was, and another link may be put there.
-/
theorem Woven.replace (h : Woven link column rs cs cs') (hnodup : rs.Nodup) {r : Reference}
    (hr : r ∈ rs) (hsame : ∀ s ∈ rs, s.columnStart ≤ r.columnStart → link s = s.target) :
    ∃ front back, cs' = front ++ (r.target.toList ++ back) ∧
      r.columnStart = column + width front ∧
      ∀ other : Reference → String, (∀ s ∈ rs, s ≠ r → other s = link s) →
        Woven other column rs cs (front ++ ((other r).toList ++ back)) := by
  induction h with
  | rest => simp at hr
  | @next column gap cs cs' first rs hstart h ih =>
      obtain ⟨hnot, hnodup⟩ := List.nodup_cons.mp hnodup
      rcases List.mem_cons.mp hr with rfl | hr
      · refine ⟨gap, cs', ?_, hstart, fun other hother => .next hstart (h.congr ?_)⟩
        · rw [hsame r List.mem_cons_self (Nat.le_refl _)]
        · intro s hs
          refine hother s (List.mem_cons_of_mem _ hs) ?_
          rintro rfl
          exact hnot hs
      · have hle : first.columnStart + width first.target.toList ≤ r.columnStart :=
          h.le_columnStart hr
        obtain ⟨front, back, hcs', hcolumn, hother⟩ := ih hnodup hr fun s hs =>
          hsame s (List.mem_cons_of_mem _ hs)
        have hfirst : link first = first.target := hsame first List.mem_cons_self (by omega)
        refine ⟨gap ++ (first.target.toList ++ front), back, ?_, ?_, fun other hsame' => ?_⟩
        · rw [hfirst, hcs']
          simp
        · have hcolumn : r.columnStart = first.columnStart + width first.target.toList + width front :=
            hcolumn
          rw [width_append, width_append]
          omega
        · have hne : first ≠ r := by
            rintro rfl
            exact hnot hr
          have hkept : other first = first.target := by
            rw [hsame' first List.mem_cons_self hne, hfirst]
          have htail := hother other fun s hs hneq => hsame' s (List.mem_cons_of_mem _ hs) hneq
          have hnext := Woven.next hstart htail
          rw [hkept] at hnext
          simpa using hnext

/-! ## Applying one edit -/

namespace Edit

/-- An edit is for a reference: it wants another link at the same place. -/
structure IsFor (e : Edit) (r : Reference) : Prop where
  line : e.line = r.line
  columnStart : e.columnStart = r.columnStart
  columnEnd : e.columnEnd = r.columnEnd
  expected : e.expected = r.target

theorem isFor_of_replacing? {r : Reference} {path : String} {e : Edit}
    (h : replacing? r path = some e) : e.IsFor r := by
  unfold replacing? at h
  obtain ⟨-, h⟩ := Option.ite_none_left_eq_some.mp h
  obtain rfl := Option.some.inj h
  exact ⟨rfl, rfl, rfl, rfl⟩

theorem of_inbound? {r : Reference} {m : Move} {e : Edit} (h : inbound? r m = some e) :
    e.IsFor r ∧ means r m.source = true := by
  rw [inbound?] at h
  split at h
  · rename_i hmeans
    exact ⟨isFor_of_replacing? h, hmeans⟩
  · exact absurd h (by simp)

theorem isFor_of_outbound? {isThere : String → Bool} {r : Reference} {source target : String}
    {e : Edit} (h : outbound? isThere r source target = some e) : e.IsFor r := by
  unfold outbound? at h
  dsimp only at h
  split at h
  · exact absurd h (by simp)
  · exact isFor_of_replacing? h

/-- An edit applies where its link stands, as long as that is before the ending of the line. -/
theorem applyToLine?_append {e : Edit} {front back : List Char}
    (hstart : e.columnStart = width front)
    (hstop : e.columnEnd = width front + width e.expected.toList)
    (hending : ∃ behind,
      (splitEnding (front ++ (e.expected.toList ++ back))).1 =
        front ++ (e.expected.toList ++ behind) ∧
      behind ++ (splitEnding (front ++ (e.expected.toList ++ back))).2 = back) :
    e.applyToLine? (front ++ (e.expected.toList ++ back)) =
      some (front ++ (e.replacement.toList ++ back)) := by
  obtain ⟨behind, hbody, hending⟩ := hending
  have hcolumn : e.column? (front ++ (e.expected.toList ++ behind)) = some (width front) := by
    have hslice := slice?_append front e.expected.toList behind
    rw [column?, hstart, hstop, hslice, if_pos rfl]
  have happly : e.applyTo? (front ++ (e.expected.toList ++ behind)) =
      some (front ++ e.replacement.toList ++ behind) := by
    rw [applyTo?, hcolumn]
    show (cut? (front ++ (e.expected.toList ++ behind)) (width front)).bind _ = _
    rw [cut?_append]
    show (cut? (e.expected.toList ++ behind) e.expected.utf8ByteSize).bind _ = _
    rw [utf8ByteSize_eq_width, cut?_append]
    rfl
  rw [applyToLine?]
  dsimp only
  rw [hbody, happly, Option.map_some]
  conv_rhs => rw [← hending]
  simp

/-- An edit applies where the link of its reference stands. -/
theorem applyToLine?_eq {e : Edit} {r : Reference} (hfor : e.IsFor r)
    (hsome : r.piece.text ≠ [] ∧ ∀ c ∈ r.piece.text, Links.InLine c)
    (hends : r.columnEnd = r.piece.stop) {front : List Char}
    (hstart : r.columnStart = width front) (back : List Char) :
    e.applyToLine? (front ++ (r.target.toList ++ back)) =
      some (front ++ (e.replacement.toList ++ back)) := by
  have hlast : ∀ c ∈ (front ++ r.target.toList).getLast?, Links.InLine c := by
    intro c hc
    have hne : r.target.toList ≠ [] := hsome.1
    rw [List.getLast?_append_of_ne_nil _ hne] at hc
    exact hsome.2 c (List.mem_of_getLast? hc)
  have hending := exists_splitEnding hlast back
  simp only [List.append_assoc] at hending
  have hstop : e.columnEnd = width front + width r.target.toList := by
    rw [hfor.columnEnd, hends, ← hstart]
    rfl
  rw [← hfor.expected] at hending hstop ⊢
  exact applyToLine?_append (hfor.columnStart.trans hstart) hstop hending

/-- An edit that applies to its line changes that line alone. -/
theorem Splice.step_eq {s : Splice} {e : Edit} {index : Nat} {line changed : List Char}
    (hnumber : e.line = index + 1) (hline : s.lines[index]? = some line)
    (happly : e.applyToLine? line = some changed) :
    s.step e = { s with lines := s.lines.set index changed, applied := s.applied + 1 } := by
  unfold Splice.step
  rw [hnumber]
  dsimp only
  rw [hline]
  dsimp only
  rw [happly]

end Edit

/-! ## Lines of a text -/

/-- The lines of a text, and the lines that come of them when its references get other links. -/
structure LinesWoven (link : Reference → String) (references : List Reference)
    (lines lines' : List (List Char)) : Prop where
  length : lines'.length = lines.length
  woven : ∀ index line, lines[index]? = some line → ∃ line', lines'[index]? = some line' ∧
    Woven link 0 (references.filter (·.line == index + 1)) line line'

variable {content : List Char} {references : List Reference}

theorem Links.Laid.nodup (h : Links.Laid content references) : references.Nodup := by
  refine h.apart.imp_of_mem fun {a b} ha _ hab he => ?_
  have hsome := (h.stands a ha).some.1
  have hends := (h.stands a ha).ends
  have hwidth := width_pos_of_ne_nil hsome
  have hstop : a.piece.stop = a.columnStart + width a.piece.text := rfl
  subst he
  omega

/-- Two references of a text that share a place are one. -/
theorem Links.Laid.eq_of_place (h : Links.Laid content references) {a b : Reference}
    (ha : a ∈ references) (hb : b ∈ references) (hline : a.line = b.line)
    (hcolumn : a.columnStart = b.columnStart) : a = b := by
  by_contra hne
  have hwidth : ∀ r ∈ references, r.columnStart < r.columnEnd := by
    intro r hr
    have hpos := width_pos_of_ne_nil (h.stands r hr).some.1
    rw [(h.stands r hr).ends]
    show r.columnStart < r.columnStart + width r.piece.text
    omega
  have hsym : references.Pairwise fun a b => ¬ (a.line = b.line ∧ a.columnStart = b.columnStart) := by
    refine h.apart.imp_of_mem fun {x y} hx _ hxy => ?_
    have := hwidth x hx
    omega
  have : Std.Symm fun a b : Reference =>
      ¬ (a.line = b.line ∧ a.columnStart = b.columnStart) :=
    ⟨fun _ _ hn he => hn ⟨he.1.symm, he.2.symm⟩⟩
  exact hsym.forall ha hb hne ⟨hline, hcolumn⟩

/-- The references of a text are woven into its lines. -/
theorem Links.Laid.linesWoven (h : Links.Laid content references) :
    LinesWoven (·.target) references (keepEnds content) (keepEnds content) := by
  refine ⟨rfl, fun index line hline => ⟨line, hline, woven_of_on ?_ ?_⟩⟩
  · intro r hr
    obtain ⟨hr, hnumber⟩ := List.mem_filter.mp hr
    obtain ⟨other, line', hline', hother, front, back, hon, hstart⟩ := (h.stands r hr).on
    rw [beq_iff_eq] at hnumber
    obtain rfl : other = index := by omega
    rw [hline] at hline'
    obtain rfl := Option.some.inj hline'
    exact ⟨front, back, hon, by rw [Nat.zero_add]; exact hstart⟩
  · refine List.Pairwise.imp_of_mem ?_ (h.apart.filter _)
    intro a b ha hb hab
    obtain ⟨ha, hline⟩ := List.mem_filter.mp ha
    have hline' := (List.mem_filter.mp hb).2
    rw [beq_iff_eq] at hline hline'
    rw [← (h.stands a ha).ends]
    omega

/-- One edit of a line that is unchanged up to its place. -/
theorem LinesWoven.step (other : Reference → String) (hlaid : Links.Laid content references)
    {s : Edit.Splice}
    (h : LinesWoven link references (keepEnds content) s.lines) {e : Edit} {r : Reference}
    (hr : r ∈ references) (hfor : e.IsFor r)
    (hsame : ∀ q ∈ references, q.line = r.line → q.columnStart ≤ r.columnStart → link q = q.target)
    (hedit : other r = e.replacement)
    (hother : ∀ q ∈ references, q ≠ r → other q = link q) :
    LinesWoven other references (keepEnds content) (s.step e).lines ∧
      (s.step e).applied = s.applied + 1 ∧ (s.step e).stale = s.stale := by
  obtain ⟨index, line, hline, hnumber, -⟩ := (hlaid.stands r hr).on
  obtain ⟨line', hline', hwoven⟩ := h.woven index line hline
  have hmem : r ∈ references.filter (·.line == index + 1) :=
    List.mem_filter.mpr ⟨hr, by rw [beq_iff_eq]; exact hnumber⟩
  obtain ⟨front, back, rfl, hstart, hwoven'⟩ := hwoven.replace (hlaid.nodup.filter _) hmem
    fun q hq => by
      obtain ⟨hq, hqline⟩ := List.mem_filter.mp hq
      rw [beq_iff_eq] at hqline
      exact hsame q hq (by omega)
  rw [Nat.zero_add] at hstart
  have happly := Edit.applyToLine?_eq hfor (hlaid.stands r hr).some (hlaid.stands r hr).ends
    hstart back
  rw [Edit.Splice.step_eq (hfor.line.trans hnumber) hline' happly]
  refine ⟨⟨by simpa using h.length, ?_⟩, rfl, rfl⟩
  intro i other' hi
  by_cases hindex : index = i
  · subst hindex
    rw [hline] at hi
    obtain rfl := Option.some.inj hi
    obtain ⟨hlt, -⟩ := List.getElem?_eq_some_iff.mp hline'
    refine ⟨_, List.getElem?_set_self hlt, ?_⟩
    rw [← hedit]
    exact hwoven' other fun q hq hne => hother q (List.mem_filter.mp hq).1 hne
  · obtain ⟨kept, hkept, hwoven⟩ := h.woven i other' hi
    refine ⟨kept, by rw [← hkept]; exact List.getElem?_set_ne hindex, hwoven.congr ?_⟩
    intro q hq
    obtain ⟨hq, hqline⟩ := List.mem_filter.mp hq
    rw [beq_iff_eq] at hqline
    refine hother q hq ?_
    rintro rfl
    omega

/-! ## Edits in order -/

namespace Edit

/-- One edit is for an earlier place than another. -/
def Earlier (a b : Edit) : Prop :=
  a.line < b.line ∨ (a.line = b.line ∧ a.columnStart < b.columnStart)

theorem laterFirst_iff {a b : Edit} : laterFirst a b = true ↔
    b.line < a.line ∨ (b.line = a.line ∧ b.columnStart ≤ a.columnStart) := by
  simp [laterFirst]

theorem distinct_sublist (edits : List Edit) : (distinct edits).Sublist edits := by
  induction edits with
  | nil => exact .slnil
  | cons e rest ih =>
      rw [distinct]
      split
      · rename_i f others hd
        rw [hd] at ih
        split
        · exact ((List.sublist_cons_self f others).trans ih).cons_cons e
        · exact ih.cons_cons e
      · exact (List.nil_sublist rest).cons_cons e

/-- Some edit is kept for every place. -/
theorem exists_startsAt {edits : List Edit} {e : Edit} (he : e ∈ edits) :
    ∃ f ∈ distinct edits, f.line = e.line ∧ f.columnStart = e.columnStart := by
  induction edits with
  | nil => simp at he
  | cons first rest ih =>
      rw [distinct]
      rcases List.mem_cons.mp he with rfl | he
      · split
        · split <;> exact ⟨e, List.mem_cons_self, rfl, rfl⟩
        · exact ⟨e, List.mem_cons_self, rfl, rfl⟩
      · obtain ⟨f, hf, hline, hcolumn⟩ := ih he
        split
        · rename_i g others hd
          rw [hd] at hf
          split
          · rename_i hsame
            rw [startsAt, Bool.and_eq_true, beq_iff_eq, beq_iff_eq] at hsame
            rcases List.mem_cons.mp hf with rfl | hf
            · exact ⟨first, List.mem_cons_self, by omega, by omega⟩
            · exact ⟨f, List.mem_cons_of_mem _ hf, hline, hcolumn⟩
          · exact ⟨f, List.mem_cons_of_mem _ hf, hline, hcolumn⟩
        · rename_i hd
          rw [hd] at hf
          exact absurd hf (by simp)

theorem pairwise_distinct {edits : List Edit}
    (h : edits.Pairwise fun a b => laterFirst a b = true) :
    (distinct edits).Pairwise fun a b => b.Earlier a := by
  induction edits with
  | nil => exact .nil
  | cons e rest ih =>
      have htail := ih h.of_cons
      have hhead : ∀ f ∈ distinct rest, laterFirst e f = true := fun f hf =>
        List.rel_of_pairwise_cons h ((distinct_sublist rest).mem hf)
      rw [distinct]
      split
      · rename_i f others hd
        rw [hd] at htail hhead
        have hlater : ∀ g ∈ others, g.Earlier e := by
          intro g hg
          have hef := laterFirst_iff.mp (hhead f List.mem_cons_self)
          have hfg := List.rel_of_pairwise_cons htail hg
          unfold Earlier at hfg ⊢
          omega
        split
        · exact .cons hlater htail.of_cons
        · rename_i hdiffer
          refine .cons (fun g hg => ?_) htail
          rcases List.mem_cons.mp hg with rfl | hg
          · have heg := laterFirst_iff.mp (hhead g List.mem_cons_self)
            have hne : ¬ (e.line = g.line ∧ e.columnStart = g.columnStart) := by
              simpa [startsAt] using hdiffer
            unfold Earlier
            omega
          · exact hlater g hg
      · exact .cons (by simp) .nil

/-- In the order of application every edit is for a place before those of the edits ahead of it. -/
theorem pairwise_ordered (edits : List Edit) :
    (ordered edits).Pairwise fun a b => b.Earlier a := by
  refine pairwise_distinct (List.pairwise_mergeSort ?_ ?_ _)
  · intro a b c hab hbc
    rw [laterFirst_iff] at hab hbc ⊢
    omega
  · intro a b
    rw [Bool.or_eq_true, laterFirst_iff, laterFirst_iff]
    omega

theorem mem_of_mem_ordered {edits : List Edit} {e : Edit} (h : e ∈ ordered edits) : e ∈ edits :=
  (List.mergeSort_perm _ _).mem_iff.mp ((distinct_sublist _).mem h)

/-- The link that a reference has once some edits are applied. -/
def linkOf : List Edit → Reference → String
  | [], r => r.target
  | e :: es, r =>
      if e.line = r.line ∧ e.columnStart = r.columnStart then e.replacement else linkOf es r

theorem linkOf_cases (es : List Edit) (r : Reference) :
    (∃ e ∈ es, (e.line = r.line ∧ e.columnStart = r.columnStart) ∧ linkOf es r = e.replacement) ∨
    ((∀ e ∈ es, ¬ (e.line = r.line ∧ e.columnStart = r.columnStart)) ∧
      linkOf es r = r.target) := by
  induction es with
  | nil => exact .inr ⟨by simp, rfl⟩
  | cons e es ih =>
      by_cases hat : e.line = r.line ∧ e.columnStart = r.columnStart
      · exact .inl ⟨e, List.mem_cons_self, hat, by rw [linkOf, if_pos hat]⟩
      · rw [linkOf, if_neg hat]
        rcases ih with ⟨f, hf, hfor⟩ | ⟨hnone, hlink⟩
        · exact .inl ⟨f, List.mem_cons_of_mem _ hf, hfor⟩
        · refine .inr ⟨fun f hf => ?_, hlink⟩
          rcases List.mem_cons.mp hf with rfl | hf
          · exact hat
          · exact hnone f hf

/-- Whether an edit is for the place of a reference. -/
def isAt (r : Reference) (e : Edit) : Bool := e.line == r.line && e.columnStart == r.columnStart

theorem isAt_iff {r : Reference} {e : Edit} :
    isAt r e = true ↔ e.line = r.line ∧ e.columnStart = r.columnStart := by
  rw [isAt, Bool.and_eq_true, beq_iff_eq, beq_iff_eq]

theorem linkOf_eq (es : List Edit) (r : Reference) :
    linkOf es r = ((es.find? (isAt r)).map (·.replacement)).getD r.target := by
  induction es with
  | nil => rfl
  | cons e es ih =>
      rw [linkOf, List.find?_cons]
      by_cases hat : isAt r e = true
      · rw [if_pos (isAt_iff.mp hat), hat]
        rfl
      · rw [if_neg fun h => hat (isAt_iff.mpr h), ih, Bool.not_eq_true _ |>.mp hat]

/-- Of two lists of edits the second one counts where the first has nothing to say. -/
theorem linkOf_append (es fs : List Edit) (r : Reference) :
    linkOf (es ++ fs) r =
      (((es.find? (isAt r)).or (fs.find? (isAt r))).map (·.replacement)).getD r.target := by
  rw [linkOf_eq, List.find?_append]

/-- Where no edit has the place of a reference it keeps its link. -/
theorem linkOf_of_none {es : List Edit} {r : Reference}
    (h : ∀ e ∈ es, ¬ (e.line = r.line ∧ e.columnStart = r.columnStart)) : linkOf es r = r.target := by
  rcases linkOf_cases es r with ⟨e, he, hat, -⟩ | ⟨-, hlink⟩
  · exact absurd hat (h e he)
  · exact hlink

/-- Whether an edit begins at a place. -/
def begins (line column : Nat) (e : Edit) : Bool := e.line == line && e.columnStart == column

theorem begins_iff {line column : Nat} {e : Edit} :
    begins line column e = true ↔ e.line = line ∧ e.columnStart = column := by
  rw [begins, Bool.and_eq_true, beq_iff_eq, beq_iff_eq]

/-- Leaving out what starts where its neighbour does never leaves out the first at a place. -/
theorem find?_distinct (line column : Nat) (es : List Edit) :
    (distinct es).find? (begins line column) = es.find? (begins line column) := by
  induction es with
  | nil => rfl
  | cons e rest ih =>
      have hrest : (e :: distinct rest).find? (begins line column) =
          (e :: rest).find? (begins line column) := by
        rw [List.find?_cons, List.find?_cons, ih]
      rw [← hrest, distinct]
      split
      · rename_i f others hd
        split
        · rename_i hsame
          rw [startsAt, Bool.and_eq_true, beq_iff_eq, beq_iff_eq] at hsame
          have hat : begins line column f = begins line column e := by
            rw [begins, begins, hsame.1, hsame.2]
          rw [hd, List.find?_cons, List.find?_cons, List.find?_cons, hat]
          cases begins line column e <;> rfl
        · rw [hd]
      · rename_i hd
        rw [hd]

/-- Edits for one place keep their order when edits are sorted. -/
theorem filter_mergeSort (line column : Nat) (es : List Edit) :
    (es.mergeSort laterFirst).filter (begins line column) = es.filter (begins line column) := by
  have hsub : (es.filter (begins line column)).Sublist (es.mergeSort laterFirst) := by
    refine List.sublist_mergeSort ?_ ?_ ?_ List.filter_sublist
    · intro a b c hab hbc
      rw [laterFirst_iff] at hab hbc ⊢
      omega
    · intro a b
      rw [Bool.or_eq_true, laterFirst_iff, laterFirst_iff]
      omega
    · refine List.Pairwise.imp_of_mem ?_ (List.pairwise_of_forall fun _ _ => trivial)
      intro a b ha hb _
      have ha := begins_iff.mp (List.mem_filter.mp ha).2
      have hb := begins_iff.mp (List.mem_filter.mp hb).2
      rw [laterFirst_iff]
      omega
  have hkept := hsub.filter (begins line column)
  rw [List.filter_filter, List.filter_congr fun e _ => Bool.and_self (begins line column e)] at hkept
  exact (hkept.eq_of_length (((List.mergeSort_perm _ _).filter _).length_eq).symm).symm

/-- Of the edits for a place the first one is kept. -/
theorem find?_ordered (line column : Nat) (es : List Edit) :
    (ordered es).reverse.find? (begins line column) = es.find? (begins line column) := by
  have hone : ((ordered es).filter (begins line column)).reverse =
      (ordered es).filter (begins line column) := by
    have hpairwise := (pairwise_ordered es).filter (begins line column)
    cases hkept : (ordered es).filter (begins line column) with
    | nil => rfl
    | cons e rest =>
        cases rest with
        | nil => rfl
        | cons f rest =>
            rw [hkept] at hpairwise
            have hearlier := List.rel_of_pairwise_cons hpairwise (List.mem_cons_self ..)
            have hmem : ∀ g ∈ e :: f :: rest, begins line column g = true := fun g hg => by
              rw [← hkept] at hg
              exact (List.mem_filter.mp hg).2
            have he := begins_iff.mp (hmem e (by simp))
            have hf := begins_iff.mp (hmem f (by simp))
            unfold Earlier at hearlier
            omega
  rw [← List.head?_filter, List.filter_reverse, hone, List.head?_filter, ordered, find?_distinct,
    ← List.head?_filter, filter_mergeSort, List.head?_filter]

theorem linkOf_ordered (es : List Edit) (r : Reference) :
    linkOf (ordered es).reverse r = linkOf es r := by
  have hfind : (ordered es).reverse.find? (isAt r) = es.find? (isAt r) :=
    find?_ordered r.line r.columnStart es
  rw [linkOf_eq, linkOf_eq, hfind]

/-- Edits applied from the last to the first, each for a reference, with the earliest one at the front of the list. -/
theorem foldr_step (hlaid : Links.Laid content references) {es : List Edit}
    (hasc : es.Pairwise Earlier) (hfor : ∀ e ∈ es, ∃ r ∈ references, e.IsFor r) :
    LinesWoven (linkOf es) references (keepEnds content)
      (es.foldr (fun e s => Splice.step s e) ⟨keepEnds content, 0, []⟩).lines ∧
    (es.foldr (fun e s => Splice.step s e) ⟨keepEnds content, 0, []⟩).applied = es.length ∧
    (es.foldr (fun e s => Splice.step s e) ⟨keepEnds content, 0, []⟩).stale = [] := by
  induction es with
  | nil => exact ⟨hlaid.linesWoven, rfl, rfl⟩
  | cons e es ih =>
      obtain ⟨hwoven, happlied, hstale⟩ :=
        ih hasc.of_cons fun f hf => hfor f (List.mem_cons_of_mem _ hf)
      obtain ⟨r, hr, her⟩ := hfor e List.mem_cons_self
      have hline := her.line
      have hcolumn := her.columnStart
      have hstep := hwoven.step (linkOf (e :: es)) hlaid hr her ?_ ?_ ?_
      · rw [List.foldr_cons]
        refine ⟨hstep.1, ?_, hstep.2.2.trans hstale⟩
        rw [hstep.2.1, happlied, List.length_cons]
      · -- what has been applied so far is for later places
        intro q hq hqline hqcolumn
        rcases linkOf_cases es q with ⟨f, hf, hat, -⟩ | ⟨-, hlink⟩
        · have hearlier : e.Earlier f := List.rel_of_pairwise_cons hasc hf
          unfold Earlier at hearlier
          omega
        · exact hlink
      · rw [linkOf, if_pos ⟨hline, hcolumn⟩]
      · intro q hq hne
        rw [linkOf, if_neg]
        intro hat
        exact hne (hlaid.eq_of_place hq hr (by omega) (by omega))

end Edit

/-- A text that comes of another when each of its references gets a link, and nothing else changes. -/
def Relinked (link : Reference → String) (references : List Reference) (content text : String) :
    Prop :=
  ∃ lines, text.toList = lines.flatten ∧
    LinesWoven link references (keepEnds content.toList) lines

/-- Fresh edits all apply, one for each place, and every reference has the link of its first edit then. -/
theorem Edit.splice_fresh {content : String} (hlaid : Links.Laid content.toList references)
    {edits : List Edit} (hfor : ∀ e ∈ edits, ∃ r ∈ references, e.IsFor r) :
    Relinked (linkOf edits) references content (splice content edits).text ∧
      (splice content edits).stale = [] ∧
      (splice content edits).applied = (ordered edits).length := by
  have hfold : splice content edits = (ordered edits).reverse.foldr
      (fun e s => Splice.step s e) ⟨keepEnds content.toList, 0, []⟩ := by
    rw [splice, List.foldr_reverse]
  have hasc : (ordered edits).reverse.Pairwise Earlier :=
    List.pairwise_reverse.mpr (pairwise_ordered edits)
  obtain ⟨hwoven, happlied, hstale⟩ := foldr_step hlaid hasc fun e he =>
    hfor e (mem_of_mem_ordered (List.mem_reverse.mp he))
  rw [← hfold] at hwoven happlied hstale
  rw [funext (linkOf_ordered edits)] at hwoven
  exact ⟨⟨_, String.toList_ofList, hwoven⟩, hstale, happlied.trans List.length_reverse⟩

theorem Edit.ordered_eq_nil {edits : List Edit} (h : ordered edits = []) : edits = [] := by
  refine List.eq_nil_iff_forall_not_mem.mpr fun e he => ?_
  have hsorted : e ∈ edits.mergeSort laterFirst := (List.mergeSort_perm _ _).mem_iff.mpr he
  obtain ⟨f, hf, -⟩ := exists_startsAt hsorted
  have hf : f ∈ ordered edits := hf
  rw [h] at hf
  exact absurd hf List.not_mem_nil

/-- **Fresh edits go where they are meant to.** Every reference has the link of its first edit then. -/
theorem Edit.splice_relinked {content : String} (hlaid : Links.Laid content.toList references)
    {edits : List Edit} (hfor : ∀ e ∈ edits, ∃ r ∈ references, e.IsFor r) :
    Relinked (linkOf edits) references content (splice content edits).text ∧
      (splice content edits).stale = [] ∧
      ((splice content edits).applied = 0 → edits = []) := by
  obtain ⟨hrelinked, hstale, happlied⟩ := splice_fresh hlaid hfor
  refine ⟨hrelinked, hstale, fun hzero => ordered_eq_nil ?_⟩
  exact List.eq_nil_of_length_eq_zero (happlied.symm.trans hzero)

/-- The link of a reference is the one that an edit for it wants, or its own if there is none. -/
theorem Edit.linkOf_for (hlaid : Links.Laid content references) {edits : List Edit}
    (hfor : ∀ e ∈ edits, ∃ r ∈ references, e.IsFor r) {r : Reference} (hr : r ∈ references) :
    (∃ e ∈ edits, e.IsFor r ∧ linkOf edits r = e.replacement) ∨
      ((∀ e ∈ edits, ¬ e.IsFor r) ∧ linkOf edits r = r.target) := by
  rcases linkOf_cases edits r with ⟨e, he, hat, hlink⟩ | ⟨hnone, hlink⟩
  · obtain ⟨q, hq, heq⟩ := hfor e he
    have hline := heq.line
    have hcolumn := heq.columnStart
    obtain rfl := hlaid.eq_of_place hq hr (by omega) (by omega)
    exact .inl ⟨e, he, heq, hlink⟩
  · exact .inr ⟨fun e he her => hnone e he ⟨her.line, her.columnStart⟩, hlink⟩

/-- With its own links a text is relinked to itself. -/
theorem Links.Laid.relinked {content : String} (h : Links.Laid content.toList references) :
    Relinked (·.target) references content content :=
  ⟨_, (flatten_keepEnds _).symm, h.linesWoven⟩

end LinkKeeper
