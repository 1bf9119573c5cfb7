import LinkKeeper.Proofs.Decoding
import LinkKeeper.Proofs.Patching

/-!
# What a revision makes of bytes

A file is read as a text, spliced as a text and written as the bytes of a text. For a file that is
UTF-8 its bytes come through this as they were: the new ones are the old ones with some links
exchanged. Of a file that is not UTF-8 the parts that are no character are written as the replacement
character, wherever they stand, and nothing else than these and the links is changed.
-/

namespace LinkKeeper

open FileTree Text
open Path (locate)

namespace Text

/-- What bytes read, leniently if they are not UTF-8. -/
def lenientText (bytes : ByteArray) : String := (decode? bytes).getD (decodeLenient bytes)

theorem toUTF8_lenientText {bytes : ByteArray} (h : decode? bytes ≠ none) :
    (lenientText bytes).toUTF8 = bytes := by
  obtain ⟨text, htext⟩ := Option.ne_none_iff_exists'.mp h
  rw [lenientText, htext]
  exact toUTF8_of_decode? htext

theorem mended_lenientText (bytes : ByteArray) :
    Mended bytes.toList (lenientText bytes).toList := by
  cases hread : decode? bytes with
  | none =>
      rw [lenientText, hread, Option.getD_none, decodeLenient, String.toList_ofList]
      exact mended_lenientFrom _
  | some text =>
      rw [lenientText, hread, Option.getD_some, ← toUTF8_of_decode? hread, toList_toUTF8]
      exact mended_encoded _

end Text

namespace Edit

/-! ## Edits one after the other -/

/--
Some edits, carried out in turn on lines of bytes. Each takes its text away somewhere on its line and
puts the new one there.
-/
inductive Exchanged : List Edit → List (List UInt8) → List (List UInt8) → Prop
  | nil (lines : List (List UInt8)) : Exchanged [] lines lines
  | cons {e : Edit} {done : List Edit} {lines after : List (List UInt8)} {index : Nat}
      (front back : List UInt8) (number : e.line = index + 1)
      (there : lines[index]? = some (front ++ (encoded e.expected.toList ++ back)))
      (rest : Exchanged done
        (lines.set index (front ++ (encoded e.replacement.toList ++ back))) after) :
      Exchanged (e :: done) lines after

/-- An edit that applies exchanges its text on its line, and one that does not changes nothing. -/
theorem Splice.step_cases (s : Splice) (e : Edit) :
    (∃ index front back, e.line = index + 1 ∧
      s.lines[index]? = some (front ++ (e.expected.toList ++ back)) ∧
      s.step e = { s with
        lines := s.lines.set index (front ++ (e.replacement.toList ++ back))
        applied := s.applied + 1 }) ∨
    (s.step e).lines = s.lines ∧ (s.step e).applied = s.applied := by
  cases hnumber : e.line with
  | zero =>
      unfold Splice.step
      rw [hnumber]
      exact .inr ⟨rfl, rfl⟩
  | succ index =>
      cases hline : s.lines[index]? with
      | none =>
          unfold Splice.step
          rw [hnumber]
          dsimp only
          rw [hline]
          exact .inr ⟨rfl, rfl⟩
      | some line =>
          cases hcolumn : e.column? (splitEnding line).1 with
          | none =>
              unfold Splice.step
              rw [hnumber]
              dsimp only
              rw [hline]
              dsimp only
              rw [applyToLine?_of_column?_none hcolumn]
              exact .inr ⟨rfl, rfl⟩
          | some column =>
              obtain ⟨front, back, rfl, -, happly⟩ := exists_of_column?_body hcolumn
              exact .inl ⟨index, front, back, rfl, hline, Splice.step_eq hnumber hline happly⟩

/-- Of some edits those that apply are carried out in their order. -/
theorem exchanged_foldl (s : Splice) (es : List Edit) :
    ∃ done, done.Sublist es ∧ (es.foldl Splice.step s).applied = s.applied + done.length ∧
      Exchanged done (s.lines.map encoded) ((es.foldl Splice.step s).lines.map encoded) := by
  induction es generalizing s with
  | nil => exact ⟨[], List.Sublist.slnil, rfl, .nil _⟩
  | cons e es ih =>
      obtain ⟨done, hsub, hcount, hdone⟩ := ih (s.step e)
      rw [List.foldl_cons]
      rcases s.step_cases e with ⟨index, front, back, hnumber, hthere, hstep⟩ | ⟨hlines, happlied⟩
      · refine ⟨e :: done, hsub.cons_cons e, ?_, .cons (encoded front) (encoded back) hnumber ?_ ?_⟩
        · rw [hcount, hstep, List.length_cons, Nat.add_right_comm, Nat.add_assoc]
        · rw [List.getElem?_map, hthere, Option.map_some, encoded_append, encoded_append]
        · rw [hstep, List.map_set, encoded_append, encoded_append] at hdone
          rw [hstep]
          exact hdone
      · rw [hlines] at hdone
        rw [happlied] at hcount
        exact ⟨done, hsub.cons e, hcount, hdone⟩

theorem Splice.toList_text (s : Splice) : s.text.toUTF8.toList = (s.lines.map encoded).flatten := by
  rw [toList_toUTF8, Splice.text, String.toList_ofList, encoded_flatten]

end Edit

open Edit

variable {t : FileTree} {root file : String} {edits : List Edit} {bytes : ByteArray}

/-- Where an edit applies the new text is written, unless no backup can be made. -/
theorem reviseFile_written (options : WriteOptions)
    (hread : t.read (locate root file) = .ok bytes) (hlenient : options.lenient = true)
    (hwrite : options.dryRun = false)
    (happlied : (Edit.splice (lenientText bytes) edits).applied ≠ 0) :
    (∃ e, options.backups = true ∧
      t.copy (locate root file) (locate root file ++ Settings.backupEnding) = .error e ∧
      (reviseFile root options t file edits).result = .error (.ofSystem e) ∧
      (reviseFile root options t file edits).tree = t) ∨
    (reviseFile root options t file edits).result =
        .ok (Edit.splice (lenientText bytes) edits).applied ∧
      (reviseFile root options t file edits).tree.read (locate root file) =
        .ok (Edit.splice (lenientText bytes) edits).text.toUTF8 := by
  have htext : t.readText (locate root file) options.lenient = .ok (lenientText bytes) := by
    rw [hlenient, FileTree.readText, hread]
    dsimp only
    rw [lenientText]
    cases decode? bytes <;> rfl
  unfold reviseFile
  dsimp only
  rw [htext]
  dsimp only
  rw [if_neg (by simp [happlied, hwrite])]
  rcases (readsFile_of_read hread).replaceText options
      (Edit.splice (lenientText bytes) edits).text with
    ⟨e, hbackups, hcopy, hfails⟩ | ⟨after, hdone, hafter⟩
  · rw [hfails]
    exact .inl ⟨e, hbackups, hcopy, rfl, rfl⟩
  · rw [hdone]
    exact .inr ⟨rfl, hafter⟩

/--
**The bytes that are written are those that were read, with links exchanged, and with the parts
mended that are no characters.**

Let at least one edit apply to the text that a file reads, leniently if it must be. Unless no backup
can be made, and then the tree stays, the file has new bytes: those of the lines of this text after
the edits that applied, as many as are counted, have been carried out in turn. Each exchanges its own
text on its own line, and every other byte of the lines stays. The text itself has the bytes of each
character that stands in the file, and the replacement character where none begins; it has the bytes
of the file if these are UTF-8.
-/
theorem reviseFile_bytes (options : WriteOptions)
    (hread : t.read (locate root file) = .ok bytes) (hlenient : options.lenient = true)
    (hwrite : options.dryRun = false)
    (happlied : (Edit.splice (lenientText bytes) edits).applied ≠ 0) :
    (Mended bytes.toList (lenientText bytes).toList ∧
      (decode? bytes ≠ none → encoded (lenientText bytes).toList = bytes.toList)) ∧
    ((∃ e, options.backups = true ∧
        t.copy (locate root file) (locate root file ++ Settings.backupEnding) = .error e ∧
        (reviseFile root options t file edits).result = .error (.ofSystem e) ∧
        (reviseFile root options t file edits).tree = t) ∨
      ∃ done lines new,
        (reviseFile root options t file edits).result = .ok done.length ∧
        (reviseFile root options t file edits).tree.read (locate root file) = .ok new ∧
        done.Sublist (ordered edits) ∧ done ≠ [] ∧
        Exchanged done ((keepEnds (lenientText bytes).toList).map encoded) lines ∧
        new.toList = lines.flatten) := by
  refine ⟨⟨mended_lenientText bytes, fun htext => ?_⟩, ?_⟩
  · rw [← toList_toUTF8, toUTF8_lenientText htext]
  rcases reviseFile_written options hread hlenient hwrite happlied with hfails | ⟨hresult, hnew⟩
  · exact .inl hfails
  · obtain ⟨done, hsub, hcount, hexchanged⟩ :=
      exchanged_foldl ⟨keepEnds (lenientText bytes).toList, 0, []⟩ (ordered edits)
    have hlength : (Edit.splice (lenientText bytes) edits).applied = done.length :=
      hcount.trans (Nat.zero_add _)
    refine .inr ⟨done, _, _, ?_, hnew, hsub, ?_, hexchanged, Splice.toList_text _⟩
    · rw [hresult, hlength]
    · rw [hlength] at happlied
      exact List.ne_nil_of_length_pos (Nat.pos_of_ne_zero happlied)

/-- The bytes of a link, and one more that is no character. -/
def spoilt : ByteArray := "[x](old.md)\n".toUTF8.push 0xFF

/-- A tree with one file, of these bytes. -/
def spoiltFile : FileTree :=
  (FileTree.empty.put ["p"] .directory).put ["p", "n.md"] (.file spoilt FileTree.newMode)

/-- The edit of the link in it. -/
def spoiltEdit : Edit := ⟨10, 4, 1, "old.md", "new.md"⟩

theorem read_spoiltFile : spoiltFile.read (locate "/p" "n.md") = .ok spoilt := rfl

theorem lenientText_spoilt : lenientText spoilt = "[x](old.md)\n\uFFFD" := by
  have hnone : decode? spoilt = none := by decide +kernel
  rw [lenientText, hnone, Option.getD_none, decodeLenient, toList_eq_data]
  decide +kernel

theorem splice_spoilt : Edit.splice (lenientText spoilt) [spoiltEdit] =
    ⟨["[x](new.md)\n".toList, ['\uFFFD']], 1, []⟩ := by
  rw [lenientText_spoilt, Edit.splice, ordered, List.mergeSort_singleton]
  rfl

/-- The link is exchanged, and the byte that is no character is mended. -/
theorem reviseFile_bytes_spoilt :
    Mended spoilt.toList (lenientText spoilt).toList ∧
    ∃ done lines new,
      (reviseFile "/p" ⟨false, false, true⟩ spoiltFile "n.md" [spoiltEdit]).result =
        .ok done.length ∧
      (reviseFile "/p" ⟨false, false, true⟩ spoiltFile "n.md" [spoiltEdit]).tree.read
        (locate "/p" "n.md") = .ok new ∧
      done.Sublist (ordered [spoiltEdit]) ∧ done ≠ [] ∧
      Exchanged done ((keepEnds (lenientText spoilt).toList).map encoded) lines ∧
      new.toList = lines.flatten := by
  have happlied : (Edit.splice (lenientText spoilt) [spoiltEdit]).applied ≠ 0 := by
    rw [splice_spoilt]
    decide
  obtain ⟨⟨hmended, -⟩, ⟨e, hbackups, -⟩ | hdone⟩ :=
    reviseFile_bytes ⟨false, false, true⟩ read_spoiltFile rfl rfl happlied
  · exact absurd hbackups Bool.false_ne_true
  · exact ⟨hmended, hdone⟩

/--
One edit applies, and what is written is not the old bytes with its link exchanged: the last byte,
which no edit is for, has become three.
-/
theorem reviseFile_mends :
    spoiltFile.read (locate "/p" "n.md") = .ok spoilt ∧
    (reviseFile "/p" ⟨false, false, true⟩ spoiltFile "n.md" [spoiltEdit]).result = .ok 1 ∧
    ∃ new, (reviseFile "/p" ⟨false, false, true⟩ spoiltFile "n.md" [spoiltEdit]).tree.read
        (locate "/p" "n.md") = .ok new ∧
      ¬ ∃ front back, spoilt.toList = front ++ (encoded spoiltEdit.expected.toList ++ back) ∧
        new.toList = front ++ (encoded spoiltEdit.replacement.toList ++ back) := by
  have happlied : (Edit.splice (lenientText spoilt) [spoiltEdit]).applied ≠ 0 := by
    rw [splice_spoilt]
    decide
  rcases reviseFile_written ⟨false, false, true⟩ read_spoiltFile rfl rfl happlied with
    ⟨e, hbackups, -⟩ | ⟨hresult, hnew⟩
  · exact absurd hbackups Bool.false_ne_true
  rw [splice_spoilt] at hresult hnew
  refine ⟨read_spoiltFile, hresult, _, hnew, ?_⟩
  rintro ⟨front, back, hold, hafter⟩
  have hin : (0xFF : UInt8) ∈ spoilt.toList := by
    rw [toList_eq_data]
    decide +kernel
  have hkept : (0xFF : UInt8) ∈ front ++ (encoded spoiltEdit.replacement.toList ++ back) := by
    rw [hold] at hin
    have hlink : (0xFF : UInt8) ∉ encoded spoiltEdit.expected.toList := by decide +kernel
    simp only [List.mem_append] at hin ⊢
    exact hin.imp_right fun hin => .inr (hin.resolve_left hlink)
  rw [← hafter, Splice.toList_text] at hkept
  exact absurd hkept (by decide +kernel)

end LinkKeeper
