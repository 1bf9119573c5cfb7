import LinkKeeper.Proofs.Landing
import LinkKeeper.Proofs.Lookups
import LinkKeeper.Proofs.Rewriting

/-!
# Edits as one substitution

Edits are applied one by one, from the last place to the first, and each of them looks for what
it is for on the line as it is then. What should come of it is said here without any order: in
the text as it was read, each span is replaced by what its edit wants, and all else stays.
`substitute` does so from left to right.

That the two agree is an induction over the edits from the last one: what has been done so far is
behind the next edit, so its own span is still where it was. Only the border of the line ending
may have moved. It is looked for on the line as it is, and when all between a carriage return and
the line feed has gone, then the carriage return is taken for a part of the ending. An edit that
is for this carriage return no longer applies; `Clear` says of an edit that it is not one of those.
-/

namespace LinkKeeper

open Text

namespace Edit

/-- The first edit for each place. -/
def firsts : List Edit → List Edit
  | [] => []
  | e :: rest => e :: (firsts rest).filter fun f => !startsAt e f

/--
A line from a column on, with other text in the place of what some edits are for. An edit is
looked up at each column that no other edit covers; the characters that one covers come first.
-/
def substitute (first : Nat → Option Edit) : Nat → Nat → List Char → List Char
  | _, _, [] => []
  | covered + 1, column, c :: cs => substitute first covered (column + c.utf8Size) cs
  | 0, column, c :: cs =>
      match first column with
      | some e =>
          e.replacement.toList ++
            substitute first (e.expected.toList.length - 1) (column + c.utf8Size) cs
      | none => c :: substitute first 0 (column + c.utf8Size) cs

/-- The first edit for a column of a line. -/
def firstAt (edits : List Edit) (line column : Nat) : Option Edit :=
  edits.find? (begins line column)

/-- The lines of a text, each with the edits for it. -/
def substituteAll (edits : List Edit) (lines : List (List Char)) : List (List Char) :=
  lines.mapIdx fun index line => substitute (firstAt edits (index + 1)) 0 0 line

variable {first other : Nat → Option Edit} {column covered : Nat} {as bs cs : List Char}

theorem substitute_covered (as bs : List Char) (column : Nat) :
    substitute first as.length column (as ++ bs) =
      substitute first 0 (column + width as) bs := by
  induction as generalizing column with
  | nil => rfl
  | cons c as ih =>
      rw [List.length_cons, List.cons_append, substitute, ih, width_cons, Nat.add_assoc]

/-- What no edit begins in stays. -/
theorem substitute_clear (h : ∀ k, column ≤ k → k < column + width as → first k = none) :
    substitute first 0 column (as ++ bs) = as ++ substitute first 0 (column + width as) bs := by
  induction as generalizing column with
  | nil => rfl
  | cons c as ih =>
      have hsize := Char.utf8Size_pos c
      rw [width_cons] at h ⊢
      rw [List.cons_append, substitute, h column (Nat.le_refl _) (by omega)]
      dsimp only
      rw [ih fun k hk hlt => h k (by omega) (by omega), List.cons_append, Nat.add_assoc]

/-- What an edit is for is replaced as a whole. -/
theorem substitute_at {e : Edit} (h : first column = some e) (hsome : e.expected ≠ "") :
    substitute first 0 column (e.expected.toList ++ bs) =
      e.replacement.toList ++ substitute first 0 (column + width e.expected.toList) bs := by
  obtain ⟨c, as, hexpected⟩ := List.exists_cons_of_ne_nil
    fun hnil => hsome (String.toList_eq_nil_iff.mp hnil)
  rw [hexpected, List.cons_append, substitute, h]
  dsimp only
  rw [hexpected, List.length_cons, Nat.add_sub_cancel, substitute_covered, width_cons,
    Nat.add_assoc]

/-- Only the edits further on matter. -/
theorem substitute_congr (h : ∀ k, column ≤ k → first k = other k) :
    substitute first covered column cs = substitute other covered column cs := by
  induction cs generalizing column covered with
  | nil => cases covered <;> rfl
  | cons c cs ih =>
      have hrest : ∀ k, column + c.utf8Size ≤ k → first k = other k := fun k hk => h k (by omega)
      cases covered with
      | zero =>
          rw [substitute, substitute, h column (Nat.le_refl _)]
          cases other column with
          | none => exact congrArg (c :: ·) (ih hrest)
          | some e => exact congrArg (e.replacement.toList ++ ·) (ih hrest)
      | succ covered => exact ih hrest

/-! ## Edits that are fresh -/

/-- What an edit is for stands where it says, before the ending of its line. -/
structure StandsIn (content : List Char) (e : Edit) : Prop where
  on : ∃ index line, (keepEnds content)[index]? = some line ∧ e.line = index + 1 ∧
    slice? (splitEnding line).1 e.columnStart e.columnEnd = some e.expected.toList
  nonempty : e.expected ≠ ""

theorem standsIn_iff {content : List Char} {e : Edit} : e.StandsIn content ↔
    e.line ≠ 0 ∧ (((keepEnds content)[e.line - 1]?).bind fun line =>
      slice? (splitEnding line).1 e.columnStart e.columnEnd) = some e.expected.toList ∧
    e.expected ≠ "" := by
  constructor
  · rintro ⟨⟨index, line, hline, hnumber, hslice⟩, hsome⟩
    refine ⟨by omega, ?_, hsome⟩
    rw [hnumber, Nat.add_sub_cancel, hline, Option.bind_some, hslice]
  · rintro ⟨hzero, hbind, hsome⟩
    obtain ⟨line, hline, hslice⟩ := Option.bind_eq_some_iff.mp hbind
    exact ⟨⟨e.line - 1, line, hline, by omega, hslice⟩, hsome⟩

instance (content : List Char) (e : Edit) : Decidable (e.StandsIn content) :=
  decidable_of_iff _ standsIn_iff.symm

/-- Two edits share no byte. -/
def Apart (a b : Edit) : Prop :=
  a.line = b.line → a.columnEnd ≤ b.columnStart ∨ b.columnEnd ≤ a.columnStart

instance (a b : Edit) : Decidable (a.Apart b) := inferInstanceAs (Decidable (_ → _))

/-- What comes behind an edit on its line when all further edits are done. -/
def behind (edits : List Edit) (content : List Char) (e : Edit) : List Char :=
  match ((keepEnds content)[e.line - 1]?).bind fun line => cut? line e.columnEnd with
  | some (_, back) => substitute (firstAt edits e.line) 0 e.columnEnd back
  | none => []

/--
What an edit is for does not come to be part of a line ending: it ends in no carriage return, or
in one that no line feed alone comes behind.
-/
def Clear (edits : List Edit) (content : List Char) (e : Edit) : Prop :=
  '\r' ∈ e.expected.toList.getLast? → behind edits content e ≠ ['\n']

instance (edits : List Edit) (content : List Char) (e : Edit) :
    Decidable (Clear edits content e) := inferInstanceAs (Decidable (_ → _))

variable {content : List Char} {e f : Edit} {es : List Edit} {line : Nat}

/-- The line of an edit, divided where it applies. -/
structure Divided (content : List Char) (e : Edit) (index : Nat) (front back : List Char) :
    Prop where
  number : e.line = index + 1
  line : (keepEnds content)[index]? = some (front ++ (e.expected.toList ++ back))
  start : e.columnStart = width front
  stop : e.columnEnd = width front + width e.expected.toList
  feedless : '\n' ∉ e.expected.toList

theorem StandsIn.exists_divided (h : e.StandsIn content) :
    ∃ index front back, Divided content e index front back := by
  obtain ⟨index, line, hline, hnumber, hslice⟩ := h.on
  obtain ⟨front, rest, hbody, hstart, hstop⟩ := exists_of_slice? hslice
  have hfeed := (cut_keepEnds content).not_mem_body (List.mem_of_getElem? hline)
  rw [hbody] at hfeed
  refine ⟨index, front, rest ++ (splitEnding line).2, hnumber, ?_, hstart, hstop, fun hin => ?_⟩
  · rw [hline]
    have hsplit := splitEnding_append line
    rw [hbody, List.append_assoc, List.append_assoc] at hsplit
    rw [hsplit]
  · exact hfeed (List.mem_append_right _ (List.mem_append_left _ hin))

theorem Divided.columnStart_lt {index : Nat} {front back : List Char}
    (h : Divided content e index front back) (hsome : e.expected ≠ "") :
    e.columnStart < e.columnEnd := by
  have hpos : 0 < width e.expected.toList := Nat.pos_of_ne_zero fun hzero =>
    hsome (String.toList_eq_nil_iff.mp (eq_nil_of_width hzero))
  have hstart := h.start
  have hstop := h.stop
  omega

theorem StandsIn.columnStart_lt (h : e.StandsIn content) : e.columnStart < e.columnEnd := by
  obtain ⟨index, front, back, hdivided⟩ := h.exists_divided
  exact hdivided.columnStart_lt h.nonempty

theorem firstAt_cons_of_ne (h : ¬ (e.line = line ∧ e.columnStart = column)) :
    firstAt (e :: es) line column = firstAt es line column :=
  List.find?_cons_of_neg fun hat => h (begins_iff.mp hat)

theorem firstAt_self : firstAt (e :: es) e.line e.columnStart = some e :=
  List.find?_cons_of_pos (begins_iff.mpr ⟨rfl, rfl⟩)

theorem firstAt_eq_none (h : ∀ f ∈ es, f.line = line → f.columnStart ≠ column) :
    firstAt es line column = none := by
  refine List.find?_eq_none.mpr fun f hf hat => ?_
  obtain ⟨hline, hcolumn⟩ := begins_iff.mp hat
  exact h f hf hline hcolumn

theorem getElem?_substituteAll (es : List Edit) (lines : List (List Char)) (index : Nat) :
    (substituteAll es lines)[index]? =
      (lines[index]?).map fun line => substitute (firstAt es (index + 1)) 0 0 line := by
  rw [substituteAll, List.getElem?_mapIdx]

/-- What comes behind an edit is up to the edits that begin there. -/
theorem behind_congr {fs : List Edit}
    (h : ∀ k, e.columnEnd ≤ k → firstAt es e.line k = firstAt fs e.line k) :
    behind es content e = behind fs content e := by
  unfold behind
  split
  · exact substitute_congr h
  · rfl

namespace Divided

variable {index : Nat} {front back : List Char}

theorem width_front (h : Divided content e index front back) :
    width (front ++ e.expected.toList) = e.columnEnd := by
  rw [width_append, h.stop]

/-- The line when the edits further on are done. -/
theorem substitute_later (h : Divided content e index front back)
    (hlater : ∀ f ∈ es, f.line = e.line → e.columnEnd ≤ f.columnStart) :
    substitute (firstAt es e.line) 0 0 (front ++ (e.expected.toList ++ back)) =
      front ++ (e.expected.toList ++ substitute (firstAt es e.line) 0 e.columnEnd back) := by
  have hnone : ∀ k, 0 ≤ k → k < 0 + width (front ++ e.expected.toList) →
      firstAt es e.line k = none := by
    intro k _ hk
    rw [h.width_front] at hk
    refine firstAt_eq_none fun f hf hline => ?_
    have := hlater f hf hline
    omega
  rw [← List.append_assoc, substitute_clear hnone, Nat.zero_add, h.width_front, List.append_assoc]

/-- The line when the edit is done as well. -/
theorem substitute_cons (h : Divided content e index front back) (hsome : e.expected ≠ "")
    (hlater : ∀ f ∈ es, f.line = e.line → e.columnEnd ≤ f.columnStart) :
    substitute (firstAt (e :: es) e.line) 0 0 (front ++ (e.expected.toList ++ back)) =
      front ++ (e.replacement.toList ++ substitute (firstAt es e.line) 0 e.columnEnd back) := by
  have hstart := h.start
  have hstop := h.stop
  have hfront : ∀ k, 0 ≤ k → k < 0 + width front → firstAt (e :: es) e.line k = none := by
    intro k _ hk
    rw [firstAt_cons_of_ne fun hat => by omega]
    refine firstAt_eq_none fun f hf hline => ?_
    have := hlater f hf hline
    omega
  have hself : firstAt (e :: es) e.line (width front) = some e := hstart ▸ firstAt_self
  -- behind the edit nothing begins where it does
  have hback : ∀ k, e.columnEnd ≤ k → firstAt (e :: es) e.line k = firstAt es e.line k := by
    intro k hk
    have hspan := h.columnStart_lt hsome
    exact firstAt_cons_of_ne fun hat => by omega
  rw [substitute_clear hfront, Nat.zero_add, substitute_at hself hsome, ← hstop,
    substitute_congr hback]

theorem behind_eq (h : Divided content e index front back) (es : List Edit) :
    behind es content e = substitute (firstAt es e.line) 0 e.columnEnd back := by
  have hcut := cut?_append (front ++ e.expected.toList) back
  rw [h.width_front, List.append_assoc] at hcut
  rw [behind, h.number, Nat.add_sub_cancel, h.line, Option.bind_some, hcut]

/-- The ending of the line is behind the edit still when the edits further on are done. -/
theorem exists_ending (h : Divided content e index front back) (hsome : e.expected ≠ "")
    (hclear : Clear es content e) :
    ∃ more, (splitEnding (front ++ (e.expected.toList ++ behind es content e))).1 =
        front ++ (e.expected.toList ++ more) ∧
      more ++ (splitEnding (front ++ (e.expected.toList ++ behind es content e))).2 =
        behind es content e := by
  have hlast : (front ++ e.expected.toList).getLast? = e.expected.toList.getLast? :=
    List.getLast?_append_of_ne_nil _ fun hnil => hsome (String.toList_eq_nil_iff.mp hnil)
  have hfeed : '\n' ∉ (front ++ e.expected.toList).getLast? := fun hin =>
    h.feedless (List.mem_of_getLast? (hlast ▸ hin))
  have hreturn : '\r' ∈ (front ++ e.expected.toList).getLast? → behind es content e ≠ ['\n'] :=
    fun hin => hclear (hlast ▸ hin)
  simpa only [List.append_assoc] using exists_splitEnding_of hfeed hreturn

end Divided

/--
**One more edit.** When all edits further on are done, an edit still finds what it is for, and puts
its own text there.
-/
theorem step_substituteAll (hstands : e.StandsIn content)
    (hlater : ∀ f ∈ es, f.line = e.line → e.columnEnd ≤ f.columnStart)
    (hclear : Clear es content e) {s : Splice}
    (hlines : s.lines = substituteAll es (keepEnds content)) :
    s.step e = ⟨substituteAll (e :: es) (keepEnds content), s.applied + 1, s.stale⟩ := by
  obtain ⟨index, front, back, hdivided⟩ := hstands.exists_divided
  have hnow : s.lines[index]? =
      some (front ++ (e.expected.toList ++ behind es content e)) := by
    rw [hlines, getElem?_substituteAll, hdivided.line, Option.map_some, ← hdivided.number,
      hdivided.substitute_later hlater, hdivided.behind_eq]
  have happly := applyToLine?_append hdivided.start hdivided.stop
    (hdivided.exists_ending hstands.nonempty hclear)
  rw [Splice.step_eq hdivided.number hnow happly]
  congr 1
  refine List.ext_getElem? fun i => ?_
  rw [List.getElem?_set, hlines, getElem?_substituteAll, getElem?_substituteAll]
  by_cases hi : index = i
  · subst hi
    obtain ⟨hlt, -⟩ := List.getElem?_eq_some_iff.mp hnow
    rw [if_pos rfl, if_pos (hlines ▸ hlt), hdivided.line, Option.map_some, ← hdivided.number,
      hdivided.substitute_cons hstands.nonempty hlater, hdivided.behind_eq]
  · -- an edit of another line
    rw [if_neg hi]
    have hsame : firstAt (e :: es) (i + 1) = firstAt es (i + 1) := by
      have hnumber := hdivided.number
      funext k
      exact firstAt_cons_of_ne fun hat => hi (by omega)
    rw [hsame]

theorem substituteAll_nil (lines : List (List Char)) : substituteAll [] lines = lines := by
  refine List.ext_getElem? fun index => ?_
  rw [getElem?_substituteAll]
  cases lines[index]? with
  | none => rfl
  | some line =>
      have hclear := @substitute_clear (firstAt [] (index + 1)) 0 line [] fun _ _ _ => rfl
      rw [List.append_nil, substitute, List.append_nil] at hclear
      rw [Option.map_some, hclear]

/-- An edit that begins before the end of another one has no part in what comes behind that one. -/
theorem Clear.of_cons (h : Clear (e :: es) content f)
    (hbefore : e.line = f.line → e.columnStart < f.columnEnd) : Clear es content f := by
  have hsame : behind (e :: es) content f = behind es content f :=
    behind_congr fun k hk => firstAt_cons_of_ne fun hat => by
      have := hbefore hat.1
      omega
  exact fun hreturn => hsame ▸ h hreturn

/-- Edits applied from the last to the first put their texts in their places all at once. -/
theorem foldr_step_eq (hasc : es.Pairwise Earlier) (hstands : ∀ e ∈ es, e.StandsIn content)
    (hapart : ∀ a ∈ es, ∀ b ∈ es, a ≠ b → a.Apart b) (hclear : ∀ e ∈ es, Clear es content e) :
    es.foldr (fun e s => Splice.step s e) ⟨keepEnds content, 0, []⟩ =
      ⟨substituteAll es (keepEnds content), es.length, []⟩ := by
  induction es with
  | nil => rw [substituteAll_nil]; rfl
  | cons e es ih =>
      have hearlier : ∀ f ∈ es, e.Earlier f := fun f hf => List.rel_of_pairwise_cons hasc hf
      have hspan : ∀ f ∈ e :: es, f.columnStart < f.columnEnd := fun f hf =>
        (hstands f hf).columnStart_lt
      have hlater : ∀ f ∈ es, f.line = e.line → e.columnEnd ≤ f.columnStart := by
        intro f hf hline
        have hef := hearlier f hf
        unfold Earlier at hef
        have hne : e ≠ f := by
          rintro rfl
          omega
        have hfspan := hspan f (List.mem_cons_of_mem _ hf)
        have := hapart e List.mem_cons_self f (List.mem_cons_of_mem _ hf) hne hline.symm
        omega
      -- those further on are done already, and this edit has no part in what is behind them
      have hrest := ih hasc.of_cons (fun f hf => hstands f (List.mem_cons_of_mem _ hf))
        (fun a ha b hb => hapart a (List.mem_cons_of_mem _ ha) b (List.mem_cons_of_mem _ hb))
        fun f hf => (hclear f (List.mem_cons_of_mem _ hf)).of_cons fun hline => by
          have hef := hearlier f hf
          have hfspan := hspan f (List.mem_cons_of_mem _ hf)
          unfold Earlier at hef
          omega
      have hown : Clear es content e := (hclear e List.mem_cons_self).of_cons fun _ =>
        hspan e List.mem_cons_self
      rw [List.foldr_cons, hrest,
        step_substituteAll (hstands e List.mem_cons_self) hlater hown rfl, List.length_cons]

/-! ## One edit for each place -/

theorem firstAt_firsts (es : List Edit) (line column : Nat) :
    firstAt (firsts es) line column = firstAt es line column := by
  induction es with
  | nil => rfl
  | cons e es ih =>
      rw [firsts, firstAt, firstAt, List.find?_cons, List.find?_cons]
      cases hat : begins line column e with
      | true => rfl
      | false =>
          dsimp only
          -- what begins here does not begin where the edit does
          have hkept : ∀ f ∈ firsts es,
              (begins line column f && !startsAt e f) = begins line column f := by
            intro f _
            cases hf : begins line column f with
            | false => rw [Bool.false_and]
            | true =>
                have hne : startsAt e f = false := by
                  rw [begins_iff] at hf
                  rw [← Bool.not_eq_true, begins_iff] at hat
                  rw [← Bool.not_eq_true, startsAt, Bool.and_eq_true, beq_iff_eq, beq_iff_eq]
                  omega
                rw [hne]
                rfl
          rw [← List.head?_filter, List.filter_filter, List.filter_congr hkept, List.head?_filter]
          exact ih

/-- No two edits begin at one place. -/
def Single (es : List Edit) : Prop :=
  es.Pairwise fun a b => ¬ (a.line = b.line ∧ a.columnStart = b.columnStart)

theorem single_firsts (es : List Edit) : Single (firsts es) := by
  induction es with
  | nil => exact .nil
  | cons e es ih =>
      refine .cons (fun f hf hsame => ?_) (List.Pairwise.filter _ ih)
      have hnot := (List.mem_filter.mp hf).2
      rw [startsAt, beq_iff_eq.mpr hsame.1, beq_iff_eq.mpr hsame.2] at hnot
      exact absurd hnot (by decide)

theorem single_ordered (es : List Edit) : Single (ordered es).reverse := by
  refine (List.pairwise_reverse.mpr (pairwise_ordered es)).imp fun {a b} hab hsame => ?_
  unfold Earlier at hab
  omega

theorem Single.perm {fs : List Edit} (h : Single es) (hp : es.Perm fs) : Single fs :=
  hp.pairwise h fun hab hsame => hab ⟨hsame.1.symm, hsame.2.symm⟩

/-- Each of them is the first for its place. -/
theorem Single.mem_iff (h : Single es) : f ∈ es ↔ firstAt es f.line f.columnStart = some f := by
  constructor
  · intro hf
    induction es with
    | nil => exact absurd hf List.not_mem_nil
    | cons e es ih =>
        rcases List.mem_cons.mp hf with rfl | hf
        · exact firstAt_self
        · rw [firstAt_cons_of_ne (List.rel_of_pairwise_cons h hf)]
          exact ih h.of_cons hf
  · exact List.mem_of_find?_eq_some

theorem Single.nodup (h : Single es) : es.Nodup :=
  h.imp fun hab he => hab ⟨congrArg line he, congrArg columnStart he⟩

theorem firstAt_ordered (es : List Edit) (line column : Nat) :
    firstAt (ordered es).reverse line column = firstAt es line column := find?_ordered line column es

theorem Single.perm_of_firstAt {fs : List Edit} (h : Single es) (h' : Single fs)
    (hsame : ∀ line column, firstAt es line column = firstAt fs line column) : es.Perm fs :=
  (List.perm_ext_iff_of_nodup h.nodup h'.nodup).mpr fun f => by rw [h.mem_iff, h'.mem_iff, hsame]

/-- What is applied are the first edits for each place. -/
theorem perm_ordered (es : List Edit) : (ordered es).reverse.Perm (firsts es) :=
  (single_ordered es).perm_of_firstAt (single_firsts es) fun line column => by
    rw [firstAt_ordered, firstAt_firsts]

/-- In order they stand in one way only. -/
theorem eq_of_perm {fs : List Edit} (h : es.Perm fs) (hes : es.Pairwise Earlier)
    (hfs : fs.Pairwise Earlier) : es = fs := by
  refine h.eq_of_pairwise (fun a b _ _ hab hba => ?_) hes hfs
  unfold Earlier at hab hba
  omega

/-- In what order they are given does not matter. -/
theorem ordered_eq_of_perm {fs : List Edit} (h : es.Perm (firsts fs)) : ordered es = ordered fs := by
  have hsingle : Single es := (single_firsts fs).perm h.symm
  have hperm : (ordered es).reverse.Perm (ordered fs).reverse := by
    refine ((single_ordered es).perm_of_firstAt hsingle (firstAt_ordered es)).trans ?_
    exact h.trans (perm_ordered fs).symm
  exact List.reverse_injective (eq_of_perm hperm (List.pairwise_reverse.mpr (pairwise_ordered es))
    (List.pairwise_reverse.mpr (pairwise_ordered fs)))

/-- Those that are given in order are applied from the last one on. -/
theorem reverse_ordered (h : es.Pairwise Earlier) : (ordered es).reverse = es := by
  have hsingle : Single es := h.imp fun hab hsame => by
    unfold Earlier at hab
    omega
  exact eq_of_perm ((single_ordered es).perm_of_firstAt hsingle (firstAt_ordered es))
    (List.pairwise_reverse.mpr (pairwise_ordered es)) h

/--
Edits each of which stands where it says, when only the first for each place counts, and of which
no two share a byte.
-/
structure UpToDate (content : List Char) (edits : List Edit) : Prop where
  stands : ∀ e ∈ firsts edits, e.StandsIn content
  apart : (firsts edits).Pairwise Apart

instance (content : List Char) (edits : List Edit) : Decidable (UpToDate content edits) :=
  decidable_of_iff ((∀ e ∈ firsts edits, e.StandsIn content) ∧ (firsts edits).Pairwise Apart)
    ⟨fun ⟨stands, apart⟩ => ⟨stands, apart⟩, fun h => ⟨h.stands, h.apart⟩⟩

/--
**Fresh edits are one substitution**, as long as none of them ends where a line ending comes to
begin.
-/
theorem splice_eq {content : String} {edits : List Edit} (h : UpToDate content.toList edits)
    (hclear : ∀ e ∈ firsts edits, Clear edits content.toList e) :
    splice content edits =
      ⟨substituteAll edits (keepEnds content.toList), (firsts edits).length, []⟩ := by
  -- what is applied are the first edits for each place, in another order
  have hperm := perm_ordered edits
  have hmem : ∀ {e}, e ∈ (ordered edits).reverse → e ∈ firsts edits := fun he => hperm.mem_iff.mp he
  have hsymm : Std.Symm Apart := ⟨fun a b hab hline => (hab hline.symm).symm⟩
  have hfirst : firstAt (ordered edits).reverse = firstAt edits :=
    funext fun line => funext (firstAt_ordered edits line)
  have hbehind : ∀ e, behind (ordered edits).reverse content.toList e =
      behind edits content.toList e := fun e => behind_congr fun k _ => by rw [hfirst]
  have hfold := @foldr_step_eq content.toList _
    (List.pairwise_reverse.mpr (pairwise_ordered edits)) (fun e he => h.stands e (hmem he))
    (fun a ha b hb hne => h.apart.forall (hmem ha) (hmem hb) hne)
    fun e he hreturn => hbehind e ▸ hclear e (hmem he) hreturn
  rw [List.foldr_reverse, hperm.length_eq] at hfold
  rw [splice, hfold, substituteAll, substituteAll, hfirst]

/-- A text in which each of some edits has put its own text, all at once. -/
def substituted (edits : List Edit) (content : String) : String :=
  String.ofList (substituteAll edits (keepEnds content.toList)).flatten

end Edit

open Edit

/-! ## Files -/

/-- Where a file is read, another text takes its place, unless the backup cannot be written. -/
theorem FileTree.ReadsFile.replaceText {t : FileTree} {location : String}
    (h : t.ReadsFile location) (options : WriteOptions) (text : String) :
    (∃ e, options.backups = true ∧ t.copy location (location ++ Settings.backupEnding) = .error e ∧
      t.replaceText options location text = (t, some e)) ∨
    ∃ after, t.replaceText options location text = (after, none) ∧
      after.read location = .ok text.toUTF8 := by
  unfold FileTree.replaceText
  cases hbackups : options.backups with
  | false =>
      obtain ⟨after, hreplace, hread⟩ := h.replace text.toUTF8
      refine .inr ⟨after, ?_, hread⟩
      rw [if_neg Bool.false_ne_true]
      dsimp only
      rw [hreplace]
  | true =>
      rw [if_pos rfl]
      cases hcopy : t.copy location (location ++ Settings.backupEnding) with
      | error e => exact .inl ⟨e, rfl, rfl, rfl⟩
      | ok saved =>
          obtain ⟨after, hreplace, hread⟩ := (h.copy hcopy).replace text.toUTF8
          refine .inr ⟨after, ?_, hread⟩
          dsimp only
          rw [hreplace]

/-- A tree with one file. -/
def oneFile (content : String) : FileTree :=
  (FileTree.empty.put ["p"] .directory).put ["p", "n.md"] (.file content.toUTF8 FileTree.newMode)

/-- Edits of two lines. Two of them are for one place, and the first of those counts. -/
def fewEdits : List Edit :=
  [⟨4, 0, 2, "c.md", "d.md\n"⟩, ⟨4, 0, 1, "a.md", ""⟩, ⟨9, 5, 1, "b.md", "é/b.md"⟩,
    ⟨4, 0, 1, "a.md", "q"⟩]

/--
One edit is for a carriage return, and the other one for what is between it and the line feed.
-/
def crossedEdits : List Edit := [⟨2, 1, 1, "\r", "b"⟩, ⟨3, 2, 1, "X", ""⟩]

end LinkKeeper
