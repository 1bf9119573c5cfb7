import LinkKeeper.Proofs.Literals
import LinkKeeper.Proofs.Rows

/-!
# A walk finds the strings of a document

The walk over a document knows quotes, brackets, colons and commas, and nothing else. In a
text that is a document this is enough. Wherever a value begins, the open brackets tell
under which key it stands; when the walk has passed the value, the same brackets are
open, and what it has found in between are the links among the strings of the value, in
order. A list or an object that is being read is a state of its own: its bracket is the
innermost one, and is taken off again at its end.
-/

namespace LinkKeeper.Links.Json

open Text LinkKeeper.Json

variable {rule : CandidateRule} {source : String} {content cs rest : List Char}

/-- The reference to a string of a text. -/
def reference (source : String) (content : List Char) (l : Literal) : Reference :=
  referTo source (place (lineStarts content) l.start).1 .jsonValue
    ⟨(place (lineStarts content) l.start).2, l.raw⟩

/-- The references to those of some strings that are links. -/
def linksAmong (rule : CandidateRule) (source : String) (content : List Char)
    (strings : List Value.Governed) : List Reference :=
  (strings.filter (isLink rule)).map fun g => reference source content g.2

@[simp] theorem linksAmong_nil : linksAmong rule source content [] = [] := rfl

@[simp] theorem linksAmong_append (as bs : List Value.Governed) :
    linksAmong rule source content (as ++ bs) =
      linksAmong rule source content as ++ linksAmong rule source content bs := by
  simp [linksAmong]

/-! ## Where a walk is -/

/-- A walk has come past the front of a text. -/
structure Walk.Past (w : Walk) (done : List Char) : Prop where
  offset : w.offset = width done
  line : w.line = (lineStarts done).length
  lineStart : w.lineStart = (lineStarts done).getLast?.getD 0

/-- A walk stands before the rest of a text. -/
def Walk.Before (w : Walk) (content rest : List Char) : Prop :=
  ∃ done, content = done ++ rest ∧ w.Past done

theorem Walk.Past.pass {w : Walk} {done : List Char} (h : w.Past done) {c : Char}
    (hc : c ≠ '\n') : (w.pass c).Past (done ++ [c]) := by
  refine ⟨by simp [Walk.pass, h.offset], ?_, ?_⟩
  · rw [lineStarts_concat, if_neg hc, List.append_nil]
    exact h.line
  · rw [lineStarts_concat, if_neg hc, List.append_nil]
    exact h.lineStart

theorem Walk.Past.of_eq {w w' : Walk} {done : List Char} (h : w.Past done)
    (ho : w'.offset = w.offset) (hl : w'.line = w.line) (hs : w'.lineStart = w.lineStart) :
    w'.Past done :=
  ⟨by rw [ho, h.offset], by rw [hl, h.line], by rw [hs, h.lineStart]⟩

/-- What a step does to the place: it goes past one character. -/
theorem Walk.Past.step {w : Walk} {done : List Char} (h : w.Past done) (c : Char) :
    (w.step c).Past (done ++ [c]) := by
  by_cases hc : c = '\n'
  · subst hc
    refine ⟨by simp [Walk.step, Walk.pass, h.offset], ?_, ?_⟩
    · rw [lineStarts_concat, if_pos rfl, List.length_append]
      simp [Walk.step, h.line]
    · rw [lineStarts_concat, if_pos rfl]
      simp [Walk.step, h.offset]
      decide
  · have hpassed : ∀ w' : Walk, w'.offset = w.offset → w'.line = w.line →
        w'.lineStart = w.lineStart → (w'.pass c).Past (done ++ [c]) := fun w' ho hl hs =>
      (h.of_eq ho hl hs).pass hc
    have hexpect : ∀ expects, ((w.expectKey expects).pass c).Past (done ++ [c]) := by
      intro expects
      refine hpassed _ ?_ ?_ ?_ <;> (unfold Walk.expectKey; split <;> rfl)
    unfold Walk.step
    split
    · exact hpassed _ rfl rfl rfl
    split
    · exact hpassed _ rfl rfl rfl
    split
    · exact hpassed _ rfl rfl rfl
    split
    · exact hexpect true
    split
    · exact hexpect false
    exact h.pass hc

/-- The place that a walk gives to a string is that of its first byte. -/
theorem Walk.Past.place {w : Walk} {done : List Char} (h : w.Past done) (rest : List Char) :
    place (lineStarts (done ++ '"' :: rest)) (w.offset + 1) =
      (w.line, w.offset + 1 - w.lineStart) := by
  have hdone := h.pass (c := '"') (by decide)
  have hsplit : done ++ '"' :: rest = (done ++ ['"']) ++ rest := by simp
  have hoffset : w.offset + 1 = width (done ++ ['"']) := by
    have hquote : '"'.utf8Size = 1 := by decide
    rw [width_append, width_cons, width_nil, hquote, h.offset]
  rw [Text.place, hsplit, hoffset, takeWhile_lineStarts, ← hdone.line, ← hdone.lineStart]
  rfl

/-! ## How a walk goes on -/

/-- The key that a string stands under when these brackets are open. -/
def keyOf (frames : List Frame) : Option (List Char) := frames.head?.bind Frame.key

/-- Whether the next string is a key when these brackets are open. -/
def expectsKey : List Frame → Bool
  | .object expects _ :: _ => expects
  | _ => false

/--
Any walk that stands before a text with these brackets open comes to the rest of the text,
with those brackets open, and has found the links among these strings on the way.
-/
def Leads (rule : CandidateRule) (source : String) (content : List Char) (frames : List Frame)
    (offset : Nat) (cs : List Char) (frames' : List Frame) (next : Nat) (rest : List Char)
    (strings : List Value.Governed) : Prop :=
  ∀ w : Walk, w.Before content cs → w.offset = offset → w.frames = frames →
    ∃ w' : Walk, walk rule source 0 w cs = walk rule source 0 w' rest ∧ w'.Before content rest ∧
      w'.offset = next ∧ w'.frames = frames' ∧
      w'.found = (linksAmong rule source content strings).reverse ++ w.found

variable {frames frames' frames'' : List Frame} {offset mid next : Nat} {behind : List Char}
  {strings strings' : List Value.Governed}

theorem Leads.refl (frames : List Frame) (offset : Nat) (cs : List Char) :
    Leads rule source content frames offset cs frames offset cs [] :=
  fun w hw ho hf => ⟨w, rfl, hw, ho, hf, rfl⟩

theorem Leads.trans
    (h : Leads rule source content frames offset cs frames' mid behind strings)
    (h' : Leads rule source content frames' mid behind frames'' next rest strings') :
    Leads rule source content frames offset cs frames'' next rest (strings ++ strings') := by
  intro w hw ho hf
  obtain ⟨w₁, hwalk, hw₁, ho₁, hf₁, hfound⟩ := h w hw ho hf
  obtain ⟨w₂, hwalk', hw₂, ho₂, hf₂, hfound'⟩ := h' w₁ hw₁ ho₁ hf₁
  exact ⟨w₂, hwalk.trans hwalk', hw₂, ho₂, hf₂, by simp [hfound', hfound]⟩

/-- Going on without finding anything first. -/
theorem Leads.after (h' : Leads rule source content frames' mid behind frames'' next rest strings)
    (h : Leads rule source content frames offset cs frames' mid behind []) :
    Leads rule source content frames offset cs frames'' next rest strings :=
  h.trans h'

/-- Going on without finding anything more. -/
theorem Leads.and (h : Leads rule source content frames offset cs frames' mid behind strings)
    (h' : Leads rule source content frames' mid behind frames'' next rest []) :
    Leads rule source content frames offset cs frames'' next rest strings := by
  have := h.trans h'
  rwa [List.append_nil] at this

/-- A step past one character of one byte that is no quote. -/
theorem leads_step {c : Char} (hc : c ≠ '"') (hsize : c.utf8Size = 1)
    (hframes : ∀ w : Walk, w.frames = frames →
      (w.step c).frames = frames' ∧ (w.step c).found = w.found) :
    Leads rule source content frames offset (c :: rest) frames' (offset + 1) rest [] := by
  rintro w ⟨done, rfl, hpast⟩ rfl hf
  obtain ⟨hf', hfound⟩ := hframes w hf
  have hstep := hpast.step c
  refine ⟨w.step c, by rw [walk, if_neg hc], ⟨done ++ [c], by simp, hstep⟩, ?_, hf', hfound⟩
  rw [hstep.offset, hpast.offset]
  simp [hsize]

theorem leads_plain {c : Char} (hc : c ≠ '"') (hsize : c.utf8Size = 1)
    (hplain : ∀ w : Walk, (w.step c).frames = w.frames ∧ (w.step c).found = w.found) :
    Leads rule source content frames offset (c :: rest) frames (offset + 1) rest [] :=
  leads_step hc hsize fun w hf => ⟨(hplain w).1.trans hf, (hplain w).2⟩

theorem leads_row {row : List Char} (hrow : ∀ c ∈ row, c ≠ '"' ∧ c.utf8Size = 1 ∧
    ∀ w : Walk, (w.step c).frames = w.frames ∧ (w.step c).found = w.found) :
    Leads rule source content frames offset (row ++ rest) frames (offset + row.length) rest [] := by
  induction row generalizing offset with
  | nil => exact .refl _ _ _
  | cons c row ih =>
      obtain ⟨hc, hsize, hplain⟩ := hrow c (by simp)
      have hrest : Leads rule source content frames (offset + 1) (row ++ rest) frames
          (offset + 1 + row.length) rest [] := ih fun d hd => hrow d (by simp [hd])
      have hgo := hrest.after (leads_plain hc hsize hplain)
      have hlength : offset + (c :: row).length = offset + 1 + row.length := by
        rw [List.length_cons]
        omega
      rw [hlength]
      exact hgo

theorem step_of_plain {c : Char} (h : c ∉ ['[', '\x7b', ']', '\x7d', ',', ':']) (w : Walk) :
    (w.step c).frames = w.frames ∧ (w.step c).found = w.found := by
  simp only [List.mem_cons, List.not_mem_nil, or_false, not_or] at h
  obtain ⟨h1, h2, h3, h4, h5, h6⟩ := h
  unfold Walk.step
  rw [if_neg h1, if_neg h2, if_neg (not_or.mpr ⟨h3, h4⟩), if_neg h5, if_neg h6]
  split <;> exact ⟨rfl, rfl⟩

/-- Blanks change nothing. -/
theorem leads_skipSpace (h : skipSpace offset cs = (mid, behind)) :
    Leads rule source content frames offset cs frames mid behind [] := by
  obtain ⟨blanks, rfl, hblanks, -, rfl⟩ := skipSpace_eq_iff.mp h
  refine leads_row fun c hc => ?_
  have hspace := hblanks c hc
  simp only [isSpace, Bool.or_eq_true, beq_iff_eq] at hspace
  rcases hspace with ((rfl | rfl) | rfl) | rfl <;>
    exact ⟨by decide, by decide, step_of_plain (by decide)⟩

/-- Neither do words and numbers. -/
theorem leads_scalar? (h : scalar? cs = some rest) :
    Leads rule source content frames offset cs frames (offset + (cs.length - rest.length)) rest [] := by
  obtain ⟨front, -, rfl, hchars, -⟩ := takes_scalar? h
  rw [List.length_append, Nat.add_sub_cancel]
  refine leads_row fun c hc => ?_
  have hchar := hchars c hc
  have hne : ∀ d ∈ ['"', '[', '\x7b', ']', '\x7d', ',', ':'], c ≠ d := by
    rintro d hd rfl
    have hnone := List.all_eq_true.mp
      (by decide : ['"', '[', '\x7b', ']', '\x7d', ',', ':'].all (fun d => !isScalarChar d) = true) c hd
    rw [hchar] at hnone
    exact Bool.noConfusion hnone
  refine ⟨hne '"' (by simp), ?_, step_of_plain fun hmem => hne c (List.mem_cons_of_mem _ hmem) rfl⟩
  exact utf8Size_of_isScalarChar hchar

/-! ## Brackets, commas and colons -/

theorem leads_openList : Leads rule source content frames offset ('[' :: rest)
    (.list (keyOf frames) :: frames) (offset + 1) rest [] :=
  leads_step (by decide) (by decide) fun w hf => ⟨by rw [← hf]; rfl, rfl⟩

theorem leads_openObject : Leads rule source content frames offset ('\x7b' :: rest)
    (.object true none :: frames) (offset + 1) rest [] :=
  leads_step (by decide) (by decide) fun w hf => ⟨by rw [← hf]; rfl, rfl⟩

theorem leads_close {c : Char} (hc : c = ']' ∨ c = '\x7d') (frame : Frame) :
    Leads rule source content (frame :: frames) offset (c :: rest) frames (offset + 1) rest [] := by
  refine leads_step ?_ ?_ fun w hf => ?_
  · rcases hc with rfl | rfl <;> decide
  · rcases hc with rfl | rfl <;> decide
  · have hstep : w.step c = { w with frames := w.frames.tail }.pass c := by
      rcases hc with rfl | rfl <;> rfl
    rw [hstep, Walk.pass, hf]
    exact ⟨rfl, rfl⟩

theorem leads_commaInList (key : Option (List Char)) :
    Leads rule source content (.list key :: frames) offset (',' :: rest) (.list key :: frames)
      (offset + 1) rest [] := by
  refine leads_step (by decide) (by decide) fun w hf => ?_
  have hstep : w.step ',' = (w.expectKey true).pass ',' := rfl
  rw [hstep, Walk.expectKey, hf]
  exact ⟨hf, rfl⟩

/-- A comma and a colon tell in an object whether the next string is a key. -/
theorem leads_expect {c : Char} {expects : Bool} (hc : (c = ',' ∧ expects = true) ∨
    (c = ':' ∧ expects = false)) (expected : Bool) (key : Option (List Char)) :
    Leads rule source content (.object expected key :: frames) offset (c :: rest)
      (.object expects key :: frames) (offset + 1) rest [] := by
  refine leads_step ?_ ?_ fun w hf => ?_
  · rcases hc with ⟨rfl, -⟩ | ⟨rfl, -⟩ <;> decide
  · rcases hc with ⟨rfl, -⟩ | ⟨rfl, -⟩ <;> decide
  · have hstep : w.step c = (w.expectKey expects).pass c := by
      rcases hc with ⟨rfl, rfl⟩ | ⟨rfl, rfl⟩ <;> rfl
    rw [hstep, Walk.expectKey, hf]
    exact ⟨rfl, rfl⟩

/-! ## Strings -/

/-- What is passed over leaves only the offset changed. -/
theorem walk_skip (row : List Char) (w : Walk) (cs : List Char) :
    walk rule source row.length w (row ++ cs) = walk rule source 0 (row.foldl Walk.pass w) cs := by
  induction row generalizing w with
  | nil => rfl
  | cons c row ih => rw [List.length_cons, List.cons_append, walk, ih, List.foldl_cons]

theorem foldl_pass (row : List Char) (w : Walk) :
    row.foldl Walk.pass w = { w with offset := w.offset + width row } := by
  induction row generalizing w with
  | nil => rfl
  | cons c row ih => rw [List.foldl_cons, ih, width_cons, Walk.pass, Nat.add_assoc]

/-- A string is noted, and passed over with its quotes. -/
theorem walk_literal {l : Literal} (hl : Spelt l.raw l.decoded) {w : Walk}
    (hstart : l.start = w.offset + 1) (rest : List Char) :
    walk rule source 0 w ('"' :: (l.raw ++ '"' :: rest)) =
      walk rule source 0 { w.note rule source l with
        offset := (w.note rule source l).offset + (width l.raw + 2) } rest := by
  have hread := readLiteral?_of_spelt hl rest
  rw [hstart] at hread
  have hquote : '"'.utf8Size = 1 := by decide
  have hrow : l.raw ++ '"' :: rest = (l.raw ++ ['"']) ++ rest := by simp
  have hlength : l.raw.length + 1 = (l.raw ++ ['"']).length := by simp
  rw [walk, if_pos rfl, hread]
  dsimp only
  rw [hlength, hrow, walk_skip, foldl_pass, Walk.pass, hquote]
  dsimp only
  rw [width_append, width_cons, width_nil, hquote]
  congr 2
  omega

theorem Walk.Before.literal {w : Walk} {l : Literal} (hl : Spelt l.raw l.decoded)
    (h : w.Before content ('"' :: (l.raw ++ '"' :: rest))) {w' : Walk}
    (ho : w'.offset = w.offset + (width l.raw + 2)) (hline : w'.line = w.line)
    (hlineStart : w'.lineStart = w.lineStart) : w'.Before content rest := by
  obtain ⟨done, hcontent, hpast⟩ := h
  refine ⟨done ++ ('"' :: (l.raw ++ ['"'])), by simp [hcontent], ?_⟩
  have hrow : ∀ (row done : List Char) (w : Walk), '\n' ∉ row → w.Past done →
      ({ w with offset := w.offset + width row } : Walk).Past (done ++ row) := by
    intro row
    induction row with
    | nil =>
        intro done w _ hw
        rw [List.append_nil]
        exact hw
    | cons c row ih =>
        intro done w hno hw
        rw [List.mem_cons, not_or] at hno
        have hnext := ih _ _ hno.2 (hw.pass (Ne.symm hno.1))
        rw [List.append_assoc] at hnext
        refine hnext.of_eq ?_ rfl rfl
        simp [Walk.pass, Nat.add_assoc]
  have hquote : '"'.utf8Size = 1 := by decide
  refine (hrow ('"' :: (l.raw ++ ['"'])) done w ?_ hpast).of_eq ?_ hline hlineStart
  · simp [hl.unbroken]
  · simp only [ho, width_cons, width_append, width_nil, hquote]
    omega

/-- A string where a key is expected is that key. -/
theorem leads_key {l : Literal} (hl : literal? (offset + 1) cs = some (l, next, rest))
    (key : Option (List Char)) :
    Leads rule source content (.object true key :: frames) offset ('"' :: cs)
      (.object true (some l.decoded) :: frames) next rest [] := by
  obtain ⟨hspelt, rfl, hstart, rfl⟩ := literal?_eq_some.mp hl
  rintro w hw rfl hf
  have hnote : w.note rule source l = { w with frames := .object true (some l.decoded) :: frames } := by
    rw [Walk.note, hf]
  rw [walk_literal hspelt hstart, hnote]
  exact ⟨_, rfl, hw.literal hspelt rfl rfl rfl, by dsimp only; omega, rfl, rfl⟩

/-- Any other string may be a link. -/
theorem leads_text {l : Literal} (hl : literal? (offset + 1) cs = some (l, next, rest))
    (hframes : expectsKey frames = false) :
    Leads rule source content frames offset ('"' :: cs) frames next rest [(keyOf frames, l)] := by
  obtain ⟨hspelt, rfl, hstart, rfl⟩ := literal?_eq_some.mp hl
  rintro w hw rfl rfl
  have hnote : w.note rule source l =
      { w with found := (linksAmong rule source content [(w.key, l)]).reverse ++ w.found } := by
    obtain ⟨done, rfl, hpast⟩ := hw
    have hplace := hpast.place (l.raw ++ '"' :: rest)
    rw [← hstart] at hplace
    unfold Walk.note
    split
    · rename_i hf
      rw [hf] at hframes
      exact Bool.noConfusion hframes
    · rw [linksAmong, List.filter_singleton]
      split
      · rename_i hlink
        simp [hlink, reference, hplace]
      · rename_i hlink
        simp [hlink]
  rw [walk_literal hspelt hstart, hnote]
  exact ⟨_, rfl, hw.literal hspelt rfl rfl rfl, by dsimp only; omega, rfl, rfl⟩

/-! ## Values -/

/-- What a part of a document leads to, given the brackets that are open. -/
def Found (rule : CandidateRule) (source : String) (content : List Char) (offset : Nat)
    (cs : List Char) (v : Value) (next : Nat) (rest : List Char) : Part → Prop
  | .value => ∀ frames, expectsKey frames = false →
      Leads rule source content frames offset cs frames next rest (v.strings (keyOf frames))
  | .items => ∀ key frames,
      Leads rule source content (.list key :: frames) offset cs frames next rest (v.strings key)
  | .members => ∀ key governing frames,
      Leads rule source content (.object true key :: frames) offset cs frames next rest
        (v.strings governing)

/-- **A walk finds the links among the strings of what it passes**, rule by rule. -/
theorem found_of_reading {part : Part} {depth : Nat} {v : Value}
    (h : Reading part depth offset cs v next rest) :
    Found rule source content offset cs v next rest part := by
  induction h with
  | text hs hl =>
      intro frames hframes
      rw [Value.strings]
      exact (leads_text hl hframes).after (leads_skipSpace hs)
  | scalar hs hw =>
      intro frames _
      rw [Value.strings]
      exact (leads_scalar? hw).after (leads_skipSpace hs)
  | noItems hs he =>
      intro frames _
      rw [Value.strings, Value.stringsOfItems]
      exact (((leads_close (.inl rfl) _).after (leads_skipSpace he)).after leads_openList).after
        (leads_skipSpace hs)
  | list hs hf _ _ ih =>
      intro frames _
      exact (((ih (keyOf frames) frames).after (leads_skipSpace hf)).after leads_openList).after
        (leads_skipSpace hs)
  | noMembers hs he =>
      intro frames _
      rw [Value.strings, Value.stringsOfMembers]
      exact (((leads_close (.inr rfl) _).after (leads_skipSpace he)).after leads_openObject).after
        (leads_skipSpace hs)
  | object hs hf _ _ ih =>
      intro frames _
      exact (((ih none (keyOf frames) frames).after (leads_skipSpace hf)).after
        leads_openObject).after (leads_skipSpace hs)
  | lastItem _ he ih =>
      intro key frames
      rw [Value.strings, Value.stringsOfItems, Value.stringsOfItems, List.append_nil]
      exact (ih (.list key :: frames) rfl).and
        ((leads_close (.inl rfl) _).after (leads_skipSpace he))
  | item _ hc _ ih ihm =>
      intro key frames
      have hmore := ihm key frames
      rw [Value.strings] at hmore
      rw [Value.strings, Value.stringsOfItems]
      exact ((ih (.list key :: frames) rfl).and
        ((leads_commaInList key).after (leads_skipSpace hc))).trans hmore
  | @lastMember depth offset place mid colon after stop cs inside behind tail left rest l v hs hk hd _ he ih =>
      intro key governing frames
      have hvalue := ih (.object false (some l.decoded) :: frames) rfl
      rw [Value.strings, Value.stringsOfMembers, Value.stringsOfMembers, List.append_nil]
      exact ((((hvalue.after (leads_expect (.inr ⟨rfl, rfl⟩) _ _)).after (leads_skipSpace hd)).after
        (leads_key hk key)).after (leads_skipSpace hs)).and
        ((leads_close (.inr rfl) _).after (leads_skipSpace he))
  | @member depth offset place mid colon after comma next cs inside behind tail left more rest l v members hs hk hd _ hc _ ih ihm =>
      intro key governing frames
      have hvalue := ih (.object false (some l.decoded) :: frames) rfl
      have hmore := ihm (some l.decoded) governing frames
      rw [Value.strings] at hmore
      rw [Value.strings, Value.stringsOfMembers]
      exact (((((hvalue.after (leads_expect (.inr ⟨rfl, rfl⟩) _ _)).after
        (leads_skipSpace hd)).after (leads_key hk key)).after (leads_skipSpace hs)).and
        ((leads_expect (.inl ⟨rfl, rfl⟩) _ _).after (leads_skipSpace hc))).trans hmore

/-- **The references of a document** are those to the links among its strings. -/
theorem references?_of_parse? {v : Value} (h : parse? content = some v) :
    references? rule source content =
      some (linksAmong rule source content (v.strings none)) := by
  obtain ⟨next, rest, hread, hblank⟩ := parse?_eq_some.mp h
  have hrest : skipSpace next rest = (next + rest.length, []) :=
    skipSpace_eq_iff.mpr ⟨rest, by simp, hblank, by simp, rfl⟩
  have hstart : Walk.start.Before content content := ⟨[], rfl, rfl, rfl, rfl⟩
  have hleads : Leads rule source content [] 0 content [] (next + rest.length) []
      (v.strings none) :=
    (found_of_reading hread [] rfl).and (leads_skipSpace hrest)
  obtain ⟨w, hwalk, -, -, -, hfound⟩ := hleads .start hstart rfl rfl
  have hend : walk rule source 0 .start content = some w := hwalk
  rw [references?, h]
  show (walk rule source 0 .start content).bind (fun w => some w.found.reverse) = _
  rw [hend, Option.bind_some, hfound]
  simp [Walk.start]

theorem references?_eq (rule : CandidateRule) (source : String) (content : List Char) :
    references? rule source content =
      (parse? content).map fun v => linksAmong rule source content (v.strings none) := by
  cases h : parse? content with
  | none => rw [references?, h]; rfl
  | some v => exact references?_of_parse? h

/--
**Strings are attributed to the keys that govern them.**

A text that is a document has references: one for each string that is a value and a link under
the key that governs it, in the order of the text, at the place where the string stands between
its quotes. All strings of the text, keys included, stand where they say, each with its quotes
behind the one before it; so what is referred to is no key, and no part of another string.
-/
theorem references_of_document (rule : CandidateRule) (source : String) {v : Value}
    (h : parse? content = some v) : ∃ references,
      references? rule source content = some references ∧
      references = ((v.strings none).filter (isLink rule)).map
        (fun g => reference source content g.2) ∧
      v.strings none = (v.literals none).filterMap Role.governed? ∧
      (v.literals none).Pairwise (fun a b => a.2.stop < b.2.start) ∧
      ∀ a ∈ v.literals none, a.2.StandsIn content := by
  obtain ⟨stop, horder⟩ := inOrder_of_parse? h none
  exact ⟨_, references?_of_parse? h, rfl, Value.strings_eq none v,
    horder.apart.imp fun hab => Nat.lt_of_succ_lt hab, horder.stands⟩

/-- A key comes twice, a list holds an object, and a string holds brackets and a quote. -/
def nestedText : List Char :=
  "\x7b\"file\": [\"a.md\", \x7b\"x\": \"b.md\", \"src\": \"c.md\"\x7d], \"file\": \"\x7d\\\"],\"\x7d".toList

theorem references_of_document_nested : ∃ v references, parse? nestedText = some v ∧
    references? (.ofExtensions ["md"]) "n.json" nestedText = some references ∧
    references.map (fun r => (r.target, r.columnStart)) = [("a.md", 11), ("c.md", 40)] ∧
    (v.literals none).Pairwise (fun a b => a.2.stop < b.2.start) := by
  obtain ⟨v, hv⟩ := Option.isSome_iff_exists.mp
    (by decide +kernel : (parse? nestedText).isSome = true)
  obtain ⟨references, hfound, -, -, hapart, -⟩ :=
    references_of_document (.ofExtensions ["md"]) "n.json" hv
  have htargets : (references? (.ofExtensions ["md"]) "n.json" nestedText).map
      (List.map fun r => (r.target, r.columnStart)) = some [("a.md", 11), ("c.md", 40)] := by
    decide +kernel
  rw [hfound] at htargets
  exact ⟨v, references, hv, hfound, Option.some.inj htargets, hapart⟩

end LinkKeeper.Links.Json
