import LinkKeeper.Proofs.Substituting

/-!
# Edits that find another text

A text may have changed since its edits were planned. An edit whose link does not stand where it
says goes to the nearest place on its line where this text stands, on the line as it is by then.
Edits of later places are done already, so the place may be in what one of them has put there. And
an edit that goes far to the front takes the place away from those that are still to come.

To tell what has been read from what has been put there, a line is taken as a row of patches: its
characters as they were read, and the edits that have put their own text in place of some. An edit
that goes to characters that were all read becomes a patch itself. While every edit does so, the
new text is the old one with some edits in it, side by side, each in place of what it is for.

Nothing is said of what stands next to such a place. A link is found as well where it is a part of
a longer name.
-/

namespace LinkKeeper

open Text

namespace Edit

/-! ## Where an edit goes -/

variable {e : Edit} {column k : Nat} {body line : List Char}

/-- At an occurrence the text stands. -/
theorem exists_of_mem_occurrences {part cs : List Char} {skip : Nat}
    (h : k ∈ occurrences part skip column cs) :
    ∃ front back, cs = front ++ (part ++ back) ∧ k = column + width front := by
  induction cs generalizing skip column with
  | nil =>
      cases skip with
      | zero =>
          simp only [occurrences, List.isEmpty_iff, List.mem_ite_nil_right, List.mem_singleton] at h
          obtain ⟨rfl, rfl⟩ := h
          exact ⟨[], [], rfl, rfl⟩
      | succ skip => simp [occurrences] at h
  | cons c cs ih =>
      have hlater : ∀ {skip : Nat}, k ∈ occurrences part skip (column + c.utf8Size) cs →
          ∃ front back, c :: cs = front ++ (part ++ back) ∧ k = column + width front := by
        intro skip hin
        obtain ⟨front, back, rfl, rfl⟩ := ih hin
        exact ⟨c :: front, back, rfl, by rw [width_cons]; omega⟩
      cases skip with
      | succ skip => exact hlater h
      | zero =>
          rw [occurrences] at h
          split at h
          · rename_i hpre
            rcases List.mem_cons.mp h with rfl | hin
            · obtain ⟨back, hback⟩ := List.isPrefixOf_iff_prefix.mp hpre
              exact ⟨[], back, hback.symm, rfl⟩
            · exact hlater hin
          · exact hlater h

theorem mem_of_nearest? {columns : List Nat} (h : nearest? column columns = some k) :
    k ∈ columns := by
  induction columns generalizing k with
  | nil => exact absurd h (by simp [nearest?])
  | cons c cs ih =>
      rw [nearest?] at h
      cases hrest : nearest? column cs with
      | none =>
          rw [hrest] at h
          exact List.mem_cons.mpr (.inl (Option.some.inj h).symm)
      | some d =>
          rw [hrest] at h
          dsimp only at h
          split at h
          · exact List.mem_cons_of_mem _ (Option.some.inj h ▸ ih hrest)
          · exact List.mem_cons.mpr (.inl (Option.some.inj h).symm)

/-- Where an edit goes stands what it is for. -/
theorem exists_of_column? (h : e.column? body = some k) :
    ∃ front back, body = front ++ (e.expected.toList ++ back) ∧ k = width front := by
  rw [column?] at h
  split at h
  · rename_i hslice
    obtain ⟨front, back, hbody, hstart, -⟩ := exists_of_slice? hslice
    exact ⟨front, back, hbody, (Option.some.inj h).symm.trans hstart⟩
  · obtain ⟨front, back, hbody, hk⟩ := exists_of_mem_occurrences (mem_of_nearest? h)
    exact ⟨front, back, hbody, by rw [hk, Nat.zero_add]⟩

/-- An edit puts its text where it goes, and all else stays. -/
theorem exists_of_column?_body (h : e.column? (splitEnding line).1 = some k) :
    ∃ front back, line = front ++ (e.expected.toList ++ back) ∧ k = width front ∧
      e.applyToLine? line = some (front ++ (e.replacement.toList ++ back)) := by
  obtain ⟨front, behind, hbody, rfl⟩ := exists_of_column? h
  refine ⟨front, behind ++ (splitEnding line).2, ?_, rfl, ?_⟩
  · conv_lhs => rw [← splitEnding_append line, hbody]
    simp
  · have happly : e.applyTo? (splitEnding line).1 =
        some (front ++ e.replacement.toList ++ behind) := by
      rw [applyTo?, h, hbody]
      show (cut? (front ++ (e.expected.toList ++ behind)) (width front)).bind _ = _
      rw [cut?_append]
      show (cut? (e.expected.toList ++ behind) e.expected.utf8ByteSize).bind _ = _
      rw [utf8ByteSize_eq_width, cut?_append]
      rfl
    rw [applyToLine?]
    dsimp only
    rw [happly, Option.map_some]
    simp

/-- An edit that goes nowhere does not apply. -/
theorem applyToLine?_of_column?_none (h : e.column? (splitEnding line).1 = none) :
    e.applyToLine? line = none := by
  rw [applyToLine?]
  dsimp only
  rw [applyTo?, h]
  rfl

/-! ## Rows of patches -/

/-- A part of a line as it is by now. -/
inductive Patch where
  /-- A character that has been read. -/
  | keep (c : Char)
  /-- What an edit has put in place of what it is for. -/
  | put (e : Edit)
  deriving DecidableEq

namespace Patch

/-- What has been read, and what stands there now. -/
def swap : Patch → Swap
  | keep c => .keep c
  | put e => ⟨e.expected.toList, e.replacement.toList⟩

/-- The line as it was read. -/
def read (row : List Patch) : List Char := Swap.olds (row.map swap)

/-- The line as it is now. -/
def written (row : List Patch) : List Char := Swap.news (row.map swap)

/-- The edit of a patch. -/
def edit? : Patch → Option Edit
  | keep _ => none
  | put e => some e

/-- The edits in a row, from left to right. -/
def puts (row : List Patch) : List Edit := row.filterMap edit?

variable {row front back : List Patch} {p : Patch}

@[simp] theorem read_append : read (front ++ back) = read front ++ read back := by
  rw [read, List.map_append, Swap.olds_append]
  rfl

@[simp] theorem written_append : written (front ++ back) = written front ++ written back := by
  rw [written, List.map_append, Swap.news_append]
  rfl

@[simp] theorem puts_append : puts (front ++ back) = puts front ++ puts back :=
  List.filterMap_append

@[simp] theorem read_cons : read (p :: row) = p.swap.old ++ read row := rfl

@[simp] theorem written_cons : written (p :: row) = p.swap.new ++ written row := rfl

@[simp] theorem swap_put (e : Edit) :
    (put e).swap = ⟨e.expected.toList, e.replacement.toList⟩ := rfl

@[simp] theorem puts_put_cons (e : Edit) : puts (put e :: row) = e :: puts row := rfl

@[simp] theorem read_map_keep (cs : List Char) : read (cs.map keep) = cs := by
  rw [read, List.map_map]
  exact Swap.olds_map_keep cs

@[simp] theorem written_map_keep (cs : List Char) : written (cs.map keep) = cs := by
  rw [written, List.map_map]
  exact Swap.news_map_keep cs

@[simp] theorem puts_map_keep (cs : List Char) : puts (cs.map keep) = [] := by
  rw [puts, List.filterMap_map]
  exact List.filterMap_eq_nil_iff.mpr fun _ _ => rfl

/-- What comes behind some characters that have been read, if these come first. -/
def kept? : List Char → List Patch → Option (List Patch)
  | [], row => some row
  | _ :: _, [] => none
  | c :: cs, keep d :: row => if c = d then kept? cs row else none
  | _ :: _, put _ :: _ => none

theorem kept?_eq_some_iff {cs : List Char} : kept? cs row = some back ↔
    row = cs.map keep ++ back := by
  induction cs generalizing row with
  | nil => simp [kept?]
  | cons c cs ih =>
      cases row with
      | nil => simp [kept?]
      | cons p row =>
          cases p with
          | put e => simp [kept?]
          | keep d =>
              rw [kept?]
              by_cases hcd : c = d
              · simp [hcd, ih]
              · simp [hcd, Ne.symm hcd]

end Patch

open Patch (keep put read written puts kept?)

variable {row row' front back : List Patch} {rows rows' : List (List Patch)}

/--
Puts an edit at a column of a row, if what it is for is there, in characters that have been read.
-/
def put? (e : Edit) : Nat → List Patch → Option (List Patch)
  | _, [] => none
  | column, p :: row =>
      (if column = 0 then (kept? e.expected.toList (p :: row)).map (put e :: ·) else none).or
        (if width p.swap.new ≤ column then
          (put? e (column - width p.swap.new) row).map (p :: ·)
        else none)

theorem put?_eq_some_iff (hsome : e.expected ≠ "") : e.put? column row = some row' ↔
    ∃ front back, row = front ++ (e.expected.toList.map keep ++ back) ∧
      row' = front ++ put e :: back ∧ width (written front) = column := by
  constructor
  · intro h
    induction row generalizing column row' with
    | nil => exact absurd h (by simp [put?])
    | cons p row ih =>
        rw [put?, Option.or_eq_some_iff] at h
        rcases h with h | ⟨-, h⟩
        · obtain ⟨rfl, h⟩ := Option.ite_none_right_eq_some.mp h
          obtain ⟨back, hkept, rfl⟩ := Option.map_eq_some_iff.mp h
          exact ⟨[], back, Patch.kept?_eq_some_iff.mp hkept, rfl, rfl⟩
        · obtain ⟨hle, h⟩ := Option.ite_none_right_eq_some.mp h
          obtain ⟨rest, hrest, rfl⟩ := Option.map_eq_some_iff.mp h
          obtain ⟨front, back, rfl, rfl, hwidth⟩ := ih hrest
          refine ⟨p :: front, back, rfl, rfl, ?_⟩
          rw [Patch.written_cons, width_append]
          omega
  · rintro ⟨front, back, rfl, rfl, rfl⟩
    obtain ⟨c, cs, hexpected⟩ := List.exists_cons_of_ne_nil
      fun hnil => hsome (String.toList_eq_nil_iff.mp hnil)
    induction front with
    | nil =>
        have hkept : kept? e.expected.toList (e.expected.toList.map keep ++ back) = some back :=
          Patch.kept?_eq_some_iff.mpr rfl
        rw [hexpected] at hkept ⊢
        show e.put? 0 (keep c :: (cs.map keep ++ back)) = some (put e :: back)
        rw [put?, if_pos rfl, hexpected]
        exact congrArg (Option.or · _) (congrArg (Option.map _) hkept)
    | cons p front ih =>
        -- what is put at no width begins with no character that has been read
        have hnot : (if width (written (p :: front)) = 0 then
            (kept? e.expected.toList (p :: (front ++ (e.expected.toList.map keep ++ back)))).map
              (put e :: ·) else none) = none := by
          cases p with
          | put f => simp [hexpected, kept?]
          | keep d =>
              have hsize := Char.utf8Size_pos d
              rw [if_neg]
              rw [Patch.written_cons, width_append]
              simp only [Patch.swap, Swap.keep, width_cons, width_nil]
              omega
        rw [List.cons_append, put?, hnot, Option.none_or, Patch.written_cons, width_append,
          if_pos (Nat.le_add_right _ _), Nat.add_sub_cancel_left, ih]
        rfl

/-! ## Texts with edits in them -/

/-- Applies one edit, if it goes to characters that have been read, or nowhere. -/
def patch? (rows : List (List Patch)) (e : Edit) : Option (List (List Patch)) :=
  match e.line with
  | 0 => some rows
  | index + 1 =>
      match rows[index]? with
      | none => some rows
      | some row =>
          match e.column? (splitEnding (written row)).1 with
          | none => some rows
          | some column => (e.put? column row).map (rows.set index ·)

/--
Applies edits to a text, as long as each of them goes to characters that have been read, or nowhere.
-/
def patched? (content : List Char) (edits : List Edit) : Option (List (List Patch)) :=
  (ordered edits).foldlM patch? ((keepEnds content).map (·.map keep))

/--
A text with some of its edits in it. Each is on its own line, in place of what it is for, and it is
in the text once.
-/
structure Patches (content : List Char) (edits : List Edit) (rows : List (List Patch)) : Prop where
  read : rows.map read = keepEnds content
  own : ∀ index row, rows[index]? = some row → ∀ e ∈ puts row, e ∈ edits ∧ e.line = index + 1
  once : (rows.flatMap puts).Nodup

/-- A text with those edits in it that have applied so far. -/
structure Follows (content : List Char) (done : List Edit) (rows : List (List Patch)) (s : Splice) :
    Prop extends Patches content done rows where
  lines : s.lines = rows.map written
  applied : s.applied = (rows.flatMap puts).length

theorem follows_start (content : List Char) :
    Follows content [] ((keepEnds content).map (·.map keep)) ⟨keepEnds content, 0, []⟩ := by
  have hputs : ((keepEnds content).map (·.map keep)).flatMap puts = [] := by
    rw [List.flatMap_map]
    exact List.flatMap_eq_nil_iff.mpr fun cs _ => Patch.puts_map_keep cs
  refine ⟨⟨?_, fun index row hrow e he => ?_, ?_⟩, ?_, ?_⟩
  · rw [List.map_map]
    exact (List.map_congr_left fun cs _ => Patch.read_map_keep cs).trans (List.map_id _)
  · obtain ⟨cs, -, rfl⟩ := Option.map_eq_some_iff.mp (List.getElem?_map.symm.trans hrow)
    rw [Patch.puts_map_keep] at he
    exact absurd he List.not_mem_nil
  · rw [hputs]
    exact .nil
  · rw [List.map_map]
    exact ((List.map_congr_left fun cs _ => Patch.written_map_keep cs).trans (List.map_id _)).symm
  · rw [hputs]
    rfl

/-- A list that changes in one place by one more member has one more member. -/
theorem perm_flatMap_set {α β : Type} {f : α → List β} {as : List α} {index : Nat} {a a' : α}
    {b : β} (ha : as[index]? = some a) (h : (f a').Perm (b :: f a)) :
    ((as.set index a').flatMap f).Perm (b :: as.flatMap f) := by
  induction as generalizing index with
  | nil => exact absurd ha (by simp)
  | cons first rest ih =>
      cases index with
      | zero =>
          obtain rfl : first = a := Option.some.inj ha
          rw [List.set_cons_zero, List.flatMap_cons, List.flatMap_cons]
          exact h.append_right _
      | succ index =>
          rw [List.set_cons_succ, List.flatMap_cons, List.flatMap_cons]
          exact ((ih ha).append_left _).trans List.perm_middle

/-- A list that changes in one place by what a map does not see is mapped to the same. -/
theorem map_set_of_eq {α β : Type} {f : α → β} {as : List α} {index : Nat} {a a' : α}
    (ha : as[index]? = some a) (h : f a' = f a) : (as.set index a').map f = as.map f := by
  induction as generalizing index with
  | nil => rfl
  | cons first rest ih =>
      cases index with
      | zero =>
          obtain rfl : first = a := Option.some.inj ha
          rw [List.set_cons_zero, List.map_cons, List.map_cons, h]
      | succ index => rw [List.set_cons_succ, List.map_cons, List.map_cons, ih ha]

variable {content : List Char} {done es edits : List Edit} {s : Splice} {index : Nat}

/-- Nothing of what has been read is lost when an edit is put in. -/
theorem map_read_set (hsome : e.expected ≠ "") (hrow : rows[index]? = some row)
    (hput : e.put? column row = some row') : (rows.set index row').map read = rows.map read := by
  obtain ⟨front, back, rfl, rfl, -⟩ := (put?_eq_some_iff hsome).mp hput
  exact map_set_of_eq hrow (by simp)

theorem read_of_patch? (hsome : e.expected ≠ "") (h : patch? rows e = some rows') :
    rows'.map read = rows.map read := by
  rw [patch?] at h
  split at h
  · rw [Option.some.inj h]
  · split at h
    · rw [Option.some.inj h]
    · rename_i row hrow
      split at h
      · rw [Option.some.inj h]
      · obtain ⟨row', hput, rfl⟩ := Option.map_eq_some_iff.mp h
        exact map_read_set hsome hrow hput

theorem Follows.mono (h : Follows content done rows s) (hsub : done ⊆ edits) :
    Follows content edits rows s where
  read := h.read
  own index row hrow e he := ⟨hsub (h.own index row hrow e he).1, (h.own index row hrow e he).2⟩
  once := h.once
  lines := h.lines
  applied := h.applied

/-- An edit that applies is one patch more. -/
theorem Follows.put (h : Follows content done rows s) (hnew : e ∉ done) (hsome : e.expected ≠ "")
    (hnumber : e.line = index + 1) (hrow : rows[index]? = some row)
    (hcolumn : e.column? (splitEnding (written row)).1 = some column)
    (hput : e.put? column row = some row') :
    Follows content (done ++ [e]) (rows.set index row') (s.step e) := by
  have hread := map_read_set hsome hrow hput
  obtain ⟨front, back, rfl, rfl, hwidth⟩ := (put?_eq_some_iff hsome).mp hput
  obtain ⟨front', back', hline, rfl, happly⟩ := exists_of_column?_body hcolumn
  -- the place is the same, counted in patches and in characters
  rw [Patch.written_append, Patch.written_append, Patch.written_map_keep] at hline
  obtain ⟨rfl, hrest⟩ := append_inj_of_width hline hwidth
  obtain rfl := List.append_cancel_left hrest
  have hthere : s.lines[index]? = some (written (front ++ (e.expected.toList.map keep ++ back))) := by
    rw [h.lines, List.getElem?_map, hrow, Option.map_some]
  have hmore : (puts (front ++ .put e :: back)).Perm
      (e :: puts (front ++ (e.expected.toList.map keep ++ back))) := by
    simp only [Patch.puts_append, Patch.puts_put_cons, Patch.puts_map_keep, List.nil_append]
    exact List.perm_middle
  have hperm := perm_flatMap_set hrow hmore
  rw [Splice.step_eq hnumber hthere happly]
  refine ⟨⟨hread.trans h.read, fun i other hother f hf => ?_, ?_⟩, ?_, ?_⟩
  · rw [List.getElem?_set] at hother
    split at hother
    · rename_i hi
      subst hi
      obtain rfl := Option.some.inj (Option.ite_none_right_eq_some.mp hother).2
      rcases List.mem_cons.mp (hmore.mem_iff.mp hf) with rfl | hf
      · exact ⟨List.mem_append_right _ List.mem_cons_self, hnumber⟩
      · obtain ⟨hdone, hline⟩ := h.own index _ hrow f hf
        exact ⟨List.mem_append_left _ hdone, hline⟩
    · obtain ⟨hdone, hline⟩ := h.own i other hother f hf
      exact ⟨List.mem_append_left _ hdone, hline⟩
  · refine hperm.nodup_iff.mpr (List.nodup_cons.mpr ⟨fun hin => hnew ?_, h.once⟩)
    obtain ⟨other, hother, hf⟩ := List.mem_flatMap.mp hin
    obtain ⟨i, hi⟩ := List.mem_iff_getElem?.mp hother
    exact (h.own i other hi e hf).1
  · rw [List.map_set, ← h.lines]
    simp
  · rw [hperm.length_eq, List.length_cons, ← h.applied]

/-- An edit that goes nowhere leaves the text. -/
theorem Follows.skip (h : Follows content done rows s) (hlines : (s.step e).lines = s.lines)
    (happlied : (s.step e).applied = s.applied) :
    Follows content (done ++ [e]) rows (s.step e) := by
  have hmore := h.mono (List.subset_append_left done [e])
  exact { hmore with lines := hlines.trans h.lines, applied := happlied.trans h.applied }

/-- **One edit.** The rows go on saying what has been read and what is there now. -/
theorem Follows.step (h : Follows content done rows s) (hnew : e ∉ done) (hsome : e.expected ≠ "")
    (hpatch : patch? rows e = some rows') : Follows content (done ++ [e]) rows' (s.step e) := by
  rw [patch?] at hpatch
  split at hpatch
  · -- no line has the number zero
    rename_i hzero
    obtain rfl := Option.some.inj hpatch
    exact h.skip (by rw [Splice.step, hzero]) (by rw [Splice.step, hzero])
  · rename_i index hnumber
    have hthere : s.lines[index]? = (rows[index]?).map written := by
      rw [h.lines, List.getElem?_map]
    split at hpatch
    · rename_i hnone
      obtain rfl := Option.some.inj hpatch
      rw [hnone, Option.map_none] at hthere
      have hstep : s.step e = s := by
        unfold Splice.step
        rw [hnumber]
        dsimp only
        rw [hthere]
      exact h.skip (by rw [hstep]) (by rw [hstep])
    · rename_i row hrow
      rw [hrow, Option.map_some] at hthere
      split at hpatch
      · rename_i hcolumn
        obtain rfl := Option.some.inj hpatch
        have hstep : s.step e = { s with stale := e :: s.stale } := by
          unfold Splice.step
          rw [hnumber]
          dsimp only
          rw [hthere]
          dsimp only
          rw [applyToLine?_of_column?_none hcolumn]
        exact h.skip (by rw [hstep]) (by rw [hstep])
      · rename_i column hcolumn
        obtain ⟨row', hput, rfl⟩ := Option.map_eq_some_iff.mp hpatch
        exact h.put hnew hsome hnumber hrow hcolumn hput

theorem Follows.foldl (h : Follows content done rows s) (hnodup : (done ++ es).Nodup)
    (hsome : ∀ e ∈ es, e.expected ≠ "") (hpatch : es.foldlM patch? rows = some rows') :
    Follows content (done ++ es) rows' (es.foldl Splice.step s) := by
  induction es generalizing done rows s with
  | nil =>
      obtain rfl := Option.some.inj hpatch
      rwa [List.append_nil]
  | cons e es ih =>
      rw [List.foldlM_cons, Option.bind_eq_bind, Option.bind_eq_some_iff] at hpatch
      obtain ⟨next, hstep, hrest⟩ := hpatch
      rw [List.append_cons] at hnodup ⊢
      have hnew : e ∉ done := fun hin =>
        (List.nodup_append.mp (List.nodup_append.mp hnodup).1).2.2 e hin e List.mem_cons_self rfl
      exact ih (h.step hnew (hsome e List.mem_cons_self) hstep) hnodup
        (fun f hf => hsome f (List.mem_cons_of_mem _ hf)) hrest

theorem nodup_ordered (edits : List Edit) : (ordered edits).Nodup :=
  (pairwise_ordered edits).imp fun hearlier he => by
    subst he
    unfold Earlier at hearlier
    omega

/--
**While each edit goes to what has been read, the new text is the old one with edits in it.**
-/
theorem splice_patched {content : String} {edits : List Edit}
    (hsome : ∀ e ∈ edits, e.expected ≠ "") (hpatched : patched? content.toList edits = some rows) :
    Patches content.toList edits rows ∧
      (splice content edits).text = String.ofList (rows.flatMap written) ∧
      (splice content edits).applied = (rows.flatMap puts).length := by
  have hdone : Follows content.toList ([] ++ ordered edits) rows (splice content edits) :=
    (follows_start content.toList).foldl (nodup_ordered edits)
      (fun e he => hsome e (mem_of_mem_ordered he)) hpatched
  have hfollows : Follows content.toList edits rows (splice content edits) :=
    hdone.mono fun e he => mem_of_mem_ordered he
  refine ⟨hfollows.toPatches, ?_, hfollows.applied⟩
  rw [Splice.text, hfollows.lines, List.flatMap_def]

/-! ## Edits that share a line -/

/--
What an edit is for stands where it says, and its end is no part of a line ending, whatever comes
behind it.
-/
structure Fresh (content : List Char) (e : Edit) : Prop extends StandsIn content e where
  returnless : '\r' ∉ e.expected.toList.getLast?

instance (content : List Char) (e : Edit) : Decidable (e.Fresh content) :=
  decidable_of_iff (e.StandsIn content ∧ '\r' ∉ e.expected.toList.getLast?)
    ⟨fun ⟨hstands, hreturn⟩ => ⟨hstands, hreturn⟩, fun h => ⟨h.toStandsIn, h.returnless⟩⟩

/-- Two edits of one line stand where they say, and share no byte. -/
def Agree (content : List Char) (a b : Edit) : Prop :=
  a.line = b.line → a.Fresh content ∧ b.Fresh content ∧ a.Apart b

instance (content : List Char) (a b : Edit) : Decidable (Agree content a b) :=
  inferInstanceAs (Decidable (_ → _))

/-- An edit is for a line that is as it was read, or as it was read up to the end of the edit. -/
def Ready (content : List Char) (rows : List (List Patch)) (e : Edit) : Prop :=
  ∀ index row, e.line = index + 1 → rows[index]? = some row →
    (∃ line : List Char, row = line.map keep) ∨
      e.Fresh content ∧ ∃ (front : List Char) (back : List Patch),
        row = front.map keep ++ back ∧ e.columnEnd ≤ width front

/-- On a line that is as it was read an edit goes to what has been read. -/
theorem exists_put?_map_keep (hsome : e.expected ≠ "")
    (h : e.column? (splitEnding line).1 = some column) :
    ∃ row, e.put? column (line.map keep) = some row := by
  obtain ⟨front, back, rfl, rfl, -⟩ := exists_of_column?_body h
  refine ⟨front.map keep ++ put e :: back.map keep, (put?_eq_some_iff hsome).mpr ?_⟩
  exact ⟨front.map keep, back.map keep, by simp, rfl, by rw [Patch.written_map_keep]⟩

/-- What an edit is for stands where it says, before the ending of the line as it is now. -/
theorem column?_eq_columnStart {front back : List Char} (hsome : e.expected ≠ "")
    (hfeed : '\n' ∉ e.expected.toList) (hreturn : '\r' ∉ e.expected.toList.getLast?)
    (hstart : e.columnStart = width front)
    (hstop : e.columnEnd = width front + width e.expected.toList) :
    e.column? (splitEnding (front ++ (e.expected.toList ++ back))).1 = some e.columnStart := by
  have hlast : (front ++ e.expected.toList).getLast? = e.expected.toList.getLast? :=
    List.getLast?_append_of_ne_nil _ fun hnil => hsome (String.toList_eq_nil_iff.mp hnil)
  have hends := @exists_splitEnding_of (front ++ e.expected.toList) back
    (hlast ▸ fun hin => hfeed (List.mem_of_getLast? hin))
    (hlast ▸ fun hin => absurd hin hreturn)
  obtain ⟨behind, hbody, -⟩ := hends
  rw [List.append_assoc, List.append_assoc] at hbody
  rw [hbody, column?, hstop, hstart, slice?_append, if_pos rfl]

/-- What an edit is for divides the line of its number. -/
theorem StandsIn.exists_divided_at (h : e.StandsIn content) (hnumber : e.line = index + 1) :
    ∃ front back, Divided content e index front back := by
  obtain ⟨other, front, back, hdivided⟩ := h.exists_divided
  obtain rfl : other = index := by
    have := hdivided.number
    omega
  exact ⟨front, back, hdivided⟩

/--
Where a line is as it was read up to the end of an edit that stands where it says, the edit is put
there.
-/
theorem Fresh.exists_put? (h : e.Fresh content) {kept : List Char} {rest : List Patch}
    (hnumber : e.line = index + 1)
    (hread : (keepEnds content)[index]? = some (read (kept.map keep ++ rest)))
    (hkept : e.columnEnd ≤ width kept) :
    e.column? (splitEnding (written (kept.map keep ++ rest))).1 = some e.columnStart ∧
      ∃ (front : List Char) (back : List Patch),
        e.put? e.columnStart (kept.map keep ++ rest) = some (front.map keep ++ put e :: back) ∧
        width front = e.columnStart := by
  obtain ⟨front, back, hdivided⟩ := h.exists_divided_at hnumber
  have hline := Option.some.inj (hdivided.line.symm.trans hread)
  rw [Patch.read_append, Patch.read_map_keep] at hline
  -- what is kept begins with the edit and what comes before it
  have hfits : width (front ++ e.expected.toList) ≤ width kept := by
    rw [hdivided.width_front]
    exact hkept
  obtain ⟨more, rfl⟩ := prefix_of_width_le ⟨back, (List.append_assoc _ _ _).trans hline⟩
    (List.prefix_append kept (read rest)) hfits
  have hrow : (front ++ e.expected.toList ++ more).map keep ++ rest =
      front.map keep ++ (e.expected.toList.map keep ++ (more.map keep ++ rest)) := by
    simp
  refine ⟨?_, front, more.map keep ++ rest, ?_, hdivided.start.symm⟩
  · rw [hrow, Patch.written_append, Patch.written_append, Patch.written_map_keep,
      Patch.written_map_keep]
    exact column?_eq_columnStart h.nonempty hdivided.feedless h.returnless hdivided.start
      hdivided.stop
  · refine (put?_eq_some_iff h.nonempty).mpr ⟨front.map keep, _, hrow, rfl, ?_⟩
    rw [Patch.written_map_keep, hdivided.start]

theorem StandsIn.columnEnd_le (h : e.StandsIn content) (hnumber : e.line = index + 1)
    (hline : (keepEnds content)[index]? = some line) : e.columnEnd ≤ width line := by
  obtain ⟨front, back, hdivided⟩ := h.exists_divided_at hnumber
  obtain rfl := Option.some.inj (hdivided.line.symm.trans hline)
  rw [hdivided.stop, width_append, width_append]
  omega

/-- An edit that is ready is put into its row, and where it stands where it says, it is put there. -/
theorem Ready.exists_put? (h : e.Ready content rows) (hsome : e.expected ≠ "")
    (hread : rows.map read = keepEnds content) (hnumber : e.line = index + 1)
    (hrow : rows[index]? = some row)
    (hcolumn : e.column? (splitEnding (written row)).1 = some column) :
    ∃ row', e.put? column row = some row' ∧ (e.Fresh content →
      ∃ (front : List Char) (back : List Patch), row' = front.map keep ++ back ∧
        width front = e.columnStart) := by
  have hline : (keepEnds content)[index]? = some (read row) := by
    rw [← hread, List.getElem?_map, hrow, Option.map_some]
  have hthere : ∀ {front : List Char} {back : List Patch}, e.Fresh content →
      row = front.map keep ++ back → e.columnEnd ≤ width front →
      ∃ row', e.put? column row = some row' ∧ (e.Fresh content →
        ∃ (front : List Char) (back : List Patch), row' = front.map keep ++ back ∧
          width front = e.columnStart) := by
    rintro front back hfresh rfl hkept
    obtain ⟨hplace, front', back', hput, hwidth⟩ := hfresh.exists_put? hnumber hline hkept
    rw [hplace] at hcolumn
    obtain rfl := Option.some.inj hcolumn
    exact ⟨_, hput, fun _ => ⟨front', _, rfl, hwidth⟩⟩
  rcases h index row hnumber hrow with ⟨line, rfl⟩ | ⟨hfresh, front, back, hsplit, hkept⟩
  · by_cases hfresh : e.Fresh content
    · rw [Patch.read_map_keep] at hline
      exact hthere hfresh (List.append_nil _).symm (hfresh.columnEnd_le hnumber hline)
    · rw [Patch.written_map_keep] at hcolumn
      obtain ⟨row', hput⟩ := exists_put?_map_keep hsome hcolumn
      exact ⟨row', hput, fun h => absurd h hfresh⟩
  · exact hthere hfresh hsplit hkept

/--
An edit that is ready goes to what has been read, and leaves those ready that agree with it and
come before it on its line.
-/
theorem Ready.exists_patch? (h : e.Ready content rows) (hsome : e.expected ≠ "")
    (hread : rows.map read = keepEnds content) :
    ∃ next, patch? rows e = some next ∧
      ∀ f : Edit, f.Ready content rows → f.Agree content e → f.Earlier e → f.Ready content next := by
  rw [patch?]
  split
  · exact ⟨rows, rfl, fun f hf _ _ => hf⟩
  · rename_i index hnumber
    split
    · exact ⟨rows, rfl, fun f hf _ _ => hf⟩
    · rename_i row hrow
      split
      · exact ⟨rows, rfl, fun f hf _ _ => hf⟩
      · rename_i column hcolumn
        obtain ⟨row', hput, hplace⟩ := h.exists_put? hsome hread hnumber hrow hcolumn
        refine ⟨rows.set index row', by rw [hput, Option.map_some], ?_⟩
        intro f hf hagree hearlier i other hline hother
        by_cases hi : index = i
        · -- on its own line the others end where it begins
          subst hi
          obtain ⟨hfresh, hfresh', hapart⟩ := hagree (hline.trans hnumber.symm)
          obtain ⟨front, back, rfl, hwidth⟩ := hplace hfresh'
          rw [List.getElem?_set_self (List.getElem?_eq_some_iff.mp hrow).1] at hother
          refine .inr ⟨hfresh, front, back, (Option.some.inj hother).symm, ?_⟩
          have hspan := hfresh'.columnStart_lt
          have hends := hapart (hline.trans hnumber.symm)
          unfold Earlier at hearlier
          omega
        · rw [List.getElem?_set_ne hi] at hother
          exact hf i other hline hother

/-- Edits that agree go to what has been read. -/
theorem exists_foldlM_patch? (hagree : es.Pairwise fun a b => b.Agree content a ∧ b.Earlier a)
    (hsome : ∀ e ∈ es, e.expected ≠ "") (hready : ∀ e ∈ es, e.Ready content rows)
    (hread : rows.map read = keepEnds content) : ∃ rows', es.foldlM patch? rows = some rows' := by
  induction es generalizing rows with
  | nil => exact ⟨rows, rfl⟩
  | cons e es ih =>
      have hown := hsome e List.mem_cons_self
      obtain ⟨next, hnext, hothers⟩ := (hready e List.mem_cons_self).exists_patch? hown hread
      obtain ⟨rows', hrest⟩ := ih hagree.of_cons (fun f hf => hsome f (List.mem_cons_of_mem _ hf))
        (fun f hf => by
          obtain ⟨hwith, hearlier⟩ := List.rel_of_pairwise_cons hagree hf
          exact hothers f (hready f (List.mem_cons_of_mem _ hf)) hwith hearlier)
        ((read_of_patch? hown hnext).trans hread)
      exact ⟨rows', by rw [List.foldlM_cons, hnext]; exact hrest⟩

/--
**Edits go to what has been read when those that share a line stand where they say and share no
byte.**
-/
theorem exists_patched? (hsome : ∀ e ∈ edits, e.expected ≠ "")
    (hagree : (firsts edits).Pairwise (Agree content)) :
    ∃ rows, patched? content edits = some rows := by
  have hsymm : Std.Symm (Agree content) := ⟨fun a b hab hline => by
    obtain ⟨ha, hb, hapart⟩ := hab hline.symm
    exact ⟨hb, ha, fun he => (hapart he.symm).symm⟩⟩
  have hordered : (ordered edits).Pairwise (Agree content) := by
    have hperm := (List.reverse_perm _).symm.trans (perm_ordered edits)
    exact hperm.symm.pairwise hagree fun hab => hsymm.symm _ _ hab
  refine @exists_foldlM_patch? _ content _ ?_ (fun e he => hsome e (mem_of_mem_ordered he)) ?_ ?_
  · exact hordered.imp₂ (fun a b hab hearlier => ⟨hsymm.symm _ _ hab, hearlier⟩)
      (pairwise_ordered edits)
  · intro e _ index row _ hrow
    obtain ⟨cs, -, rfl⟩ := Option.map_eq_some_iff.mp (List.getElem?_map.symm.trans hrow)
    exact .inl ⟨cs, rfl⟩
  · exact (follows_start content).read

end Edit

open Edit

/-! ## Files -/

theorem FileTree.read_of_readText {t : FileTree} {location content : String} {lenient : Bool}
    (h : t.readText location lenient = .ok content) : ∃ bytes, t.read location = .ok bytes := by
  unfold FileTree.readText at h
  split at h
  · exact absurd h (by simp)
  · exact absurd h (by simp)
  · rename_i bytes hread
    exact ⟨bytes, hread⟩

/--
**A file that has changed since is the old one with edits in it, as long as no edit goes to what
another one has put there.**

Let a file be read as a text, whatever has become of it since its edits were planned. If each edit
goes to characters that have been read, or nowhere, then the new text is made of the old lines with
some of the edits in them: each is on its own line, in place of what it is for, and is there once.
As many edits are reported as have applied. If there are none, or nothing is to be written, the tree
stays; else the file has the new text, unless no backup can be written, and then the tree stays. And
if those edits that share a line stand where they say and share no byte, each edit goes to what has
been read, or nowhere.
-/
theorem reviseFile_patched (root : String) (options : WriteOptions) (t : FileTree) (file : String)
    {edits : List Edit} {content : String}
    (hread : t.readText (Path.locate root file) options.lenient = .ok content)
    (hsome : ∀ e ∈ edits, e.expected ≠ "") :
    (∀ rows, patched? content.toList edits = some rows →
      Patches content.toList edits rows ∧
      ((reviseFile root options t file edits).result = .ok (rows.flatMap Patch.puts).length ∧
          ((rows.flatMap Patch.puts = [] ∨ options.dryRun = true) ∧
              (reviseFile root options t file edits).tree = t ∨
            (reviseFile root options t file edits).tree.read (Path.locate root file) =
              .ok (String.ofList (rows.flatMap Patch.written)).toUTF8) ∨
        ∃ e, options.backups = true ∧
          t.copy (Path.locate root file) (Path.locate root file ++ Settings.backupEnding) =
            .error e ∧
          (reviseFile root options t file edits).result = .error (.ofSystem e) ∧
          (reviseFile root options t file edits).tree = t)) ∧
    ((firsts edits).Pairwise (Agree content.toList) →
      ∃ rows, patched? content.toList edits = some rows) := by
  refine ⟨fun rows hpatched => ?_, exists_patched? hsome⟩
  obtain ⟨hpatches, htext, happlied⟩ := splice_patched hsome hpatched
  refine ⟨hpatches, ?_⟩
  obtain ⟨bytes, hbytes⟩ := FileTree.read_of_readText hread
  unfold reviseFile
  dsimp only
  rw [hread]
  dsimp only
  rw [happlied, htext]
  split
  · rename_i hnothing
    exact .inl ⟨rfl, .inl ⟨hnothing.imp_left List.eq_nil_of_length_eq_zero, rfl⟩⟩
  · rcases (FileTree.readsFile_of_read hbytes).replaceText options
        (String.ofList (rows.flatMap Patch.written)) with
      ⟨e, hbackups, hcopy, hfails⟩ | ⟨after, hdone, hafter⟩
    · rw [hfails]
      exact .inr ⟨e, hbackups, hcopy, rfl, rfl⟩
    · rw [hdone]
      exact .inl ⟨rfl, .inr hafter⟩

/-- Two lines, of which the second had fewer words when its edit was planned. -/
def shiftedText : String := "[a](a.md) [y](b.md)\nnew words [x](old.md)\n"

/-- Edits of the links of both lines. -/
def shiftedEdits : List Edit :=
  [⟨8, 4, 1, "a.md", "docs/a.md"⟩, ⟨18, 14, 1, "b.md", "c.md"⟩,
    ⟨10, 4, 2, "old.md", "docs/old.md"⟩]

/-- The two lines with all of them in it. -/
def shiftedRows : List (List Patch) :=
  ["[a](".toList.map .keep ++ .put ⟨8, 4, 1, "a.md", "docs/a.md"⟩ ::
      (") [y](".toList.map .keep ++ .put ⟨18, 14, 1, "b.md", "c.md"⟩ :: ")\n".toList.map .keep),
    "new words [x](".toList.map .keep ++ .put ⟨10, 4, 2, "old.md", "docs/old.md"⟩ ::
      ")\n".toList.map .keep]

/-- Those of the first line stand where they say, and that of the second finds its link. -/
theorem reviseFile_shiftedEdits :
    (∃ rows, patched? shiftedText.toList shiftedEdits = some rows) ∧
      Patches shiftedText.toList shiftedEdits shiftedRows ∧
      (reviseFile "/p" ⟨false, false, false⟩ (oneFile shiftedText) "n.md" shiftedEdits).result =
        .ok 3 ∧
      (reviseFile "/p" ⟨false, false, false⟩ (oneFile shiftedText) "n.md" shiftedEdits).tree.read
          (Path.locate "/p" "n.md") =
        .ok "[a](docs/a.md) [y](c.md)\nnew words [x](docs/old.md)\n".toUTF8 := by
  have hread : (oneFile shiftedText).readText (Path.locate "/p" "n.md") false =
      .ok shiftedText := by
    decide +kernel
  have hordered : ordered shiftedEdits = shiftedEdits.reverse :=
    List.reverse_eq_iff.mp (reverse_ordered (by simp [shiftedEdits, Earlier]))
  have hpatched : patched? shiftedText.toList shiftedEdits = some shiftedRows := by
    rw [patched?, hordered]
    decide +kernel
  have hsome : ∀ e ∈ shiftedEdits, e.expected ≠ "" := by decide +kernel
  obtain ⟨hall, hagree⟩ := reviseFile_patched "/p" ⟨false, false, false⟩ _ "n.md" hread hsome
  obtain ⟨hpatches, hdone | ⟨e, hbackups, -⟩⟩ := hall _ hpatched
  · rcases hdone.2 with ⟨hnothing | hdry, -⟩ | hafter
    · exact absurd hnothing (by decide +kernel)
    · exact absurd hdry Bool.false_ne_true
    · exact ⟨hagree (by decide +kernel), hpatches, hdone.1, hafter⟩
  · exact absurd hbackups Bool.false_ne_true

/-- Two edits for one link, the second of which does not find it where it says. -/
def repeatedEdits : List Edit :=
  [⟨6, 2, 1, "a.md", "docs/a.md"⟩, ⟨14, 10, 1, "a.md", "docs/a.md"⟩]

namespace Edit.Patch

/-- What some edits that are of one length each make of the length of a line. -/
theorem length_written {row : List Patch} {a b : Nat}
    (h : ∀ e ∈ puts row, e.expected.toList.length = a ∧ e.replacement.toList.length = a + b) :
    (written row).length = (read row).length + b * (puts row).length ∧
      a * (puts row).length ≤ (read row).length := by
  induction row with
  | nil => exact ⟨rfl, Nat.le_refl _⟩
  | cons p row ih =>
      cases p with
      | keep c =>
          obtain ⟨hlength, hle⟩ := ih h
          refine ⟨?_, Nat.le_succ_of_le hle⟩
          show (written row).length + 1 = (read row).length + 1 + b * (puts row).length
          omega
      | put e =>
          obtain ⟨hexpected, hreplacement⟩ := h e List.mem_cons_self
          obtain ⟨hlength, hle⟩ := ih fun f hf => h f (List.mem_cons_of_mem _ hf)
          rw [written_cons, read_cons, puts_put_cons, swap_put, List.length_append,
            List.length_append, List.length_cons, Nat.mul_succ, Nat.mul_succ, hexpected,
            hreplacement]
          omega

end Edit.Patch

/-- An edit whose link stands nowhere by itself. -/
def innerEdit : Edit := ⟨4, 0, 1, "a.md", "b.md"⟩

/-- What the one file of a tree reads when an edit has applied. -/
theorem read_reviseFile_oneFile {content : String} {edits : List Edit} {s : Splice}
    (hread : (oneFile content).readText (Path.locate "/p" "n.md") false = .ok content)
    (hsplice : splice content edits = s) (happlied : s.applied ≠ 0) :
    (reviseFile "/p" ⟨false, false, false⟩ (oneFile content) "n.md" edits).tree.read
      (Path.locate "/p" "n.md") = .ok s.text.toUTF8 := by
  obtain ⟨bytes, hbytes⟩ := FileTree.read_of_readText hread
  unfold reviseFile
  dsimp only
  rw [hread]
  dsimp only
  rw [hsplice, if_neg (by simp [happlied])]
  rcases (FileTree.readsFile_of_read hbytes).replaceText ⟨false, false, false⟩ s.text with
    ⟨e, hbackups, -⟩ | ⟨after, hdone, hafter⟩
  · exact absurd hbackups Bool.false_ne_true
  · rw [hdone]
    exact hafter

/--
The second edit goes to the link, and the first to what the second has put there: the text is not
the old one with edits in it. And an edit whose link does not stand where it says goes to the end of
a longer name.
-/
theorem reviseFile_repeatedEdits :
    ((reviseFile "/p" ⟨false, false, false⟩ (oneFile "x a.md\n") "n.md" repeatedEdits).tree.read
        (Path.locate "/p" "n.md") = .ok "x docs/docs/a.md\n".toUTF8 ∧
      ¬ ∃ rows, Patches "x a.md\n".toList repeatedEdits rows ∧
        rows.flatMap Patch.written = "x docs/docs/a.md\n".toList) ∧
    (reviseFile "/p" ⟨false, false, false⟩ (oneFile "data.md\n") "n.md" [innerEdit]).tree.read
        (Path.locate "/p" "n.md") = .ok "datb.md\n".toUTF8 ∧
      slice? "data.md".toList innerEdit.columnStart innerEdit.columnEnd ≠
        some innerEdit.expected.toList ∧
      innerEdit.column? "data.md".toList = some 3 := by
  have hsplice : splice "x a.md\n" repeatedEdits = ⟨["x docs/docs/a.md\n".toList], 2, []⟩ := by
    have hordered : ordered repeatedEdits = repeatedEdits.reverse :=
      List.reverse_eq_iff.mp (reverse_ordered (by simp [repeatedEdits, Earlier]))
    rw [splice, hordered]
    rfl
  have hinner : splice "data.md\n" [innerEdit] = ⟨["datb.md\n".toList], 1, []⟩ := by
    have hordered : ordered [innerEdit] = [innerEdit] :=
      List.reverse_eq_iff.mp (reverse_ordered (List.pairwise_singleton _ _))
    rw [splice, hordered]
    rfl
  refine ⟨⟨?_, ?_⟩, ?_, by decide +kernel, by decide +kernel⟩
  · exact read_reviseFile_oneFile (by decide +kernel) hsplice (by decide)
  · rintro ⟨rows, hpatches, hwritten⟩
    -- ten characters more are two edits, and there is no room for the links of two
    have hread : rows.map Patch.read = ["x a.md\n".toList] := hpatches.read
    obtain ⟨row, rfl, hrow⟩ := List.map_eq_singleton_iff.mp hread
    have hlengths : ∀ e ∈ Patch.puts row,
        e.expected.toList.length = 4 ∧ e.replacement.toList.length = 4 + 5 := by
      intro e he
      have hin := (hpatches.own 0 row rfl e he).1
      rcases List.mem_pair.mp hin with rfl | rfl
      · decide
      · decide
    obtain ⟨hlength, hroom⟩ := Patch.length_written hlengths
    rw [List.flatMap_singleton] at hwritten
    rw [hwritten, hrow] at hlength
    rw [hrow] at hroom
    have hnew : "x docs/docs/a.md\n".toList.length = 17 := by decide
    have hold : "x a.md\n".toList.length = 7 := by decide
    omega
  · exact read_reviseFile_oneFile (by decide +kernel) hinner (by decide)

end LinkKeeper
