import LinkKeeper.Proofs.Splicing
import Mathlib.Algebra.GroupWithZero.Nat

/-!
# Where the links of a revised line land

When the references of a line get other links, everything behind the first of them moves.
Where a reference lands is still plain: at its column, and then as much further as the links
in front of it have grown.

To follow a reader over both lines at once, the line and what comes of it are taken together
as one list of swaps. Most swaps are a character that stays. A border between two swaps is a
place in either line, and two borders have the same order in both.
-/

namespace LinkKeeper

open Text

/-- A part of a line, and what stands in its place later. -/
structure Swap where
  old : List Char
  new : List Char

namespace Swap

/-- A character that stays. -/
def keep (c : Char) : Swap := ⟨[c], [c]⟩

/-- The line before. -/
def olds (swaps : List Swap) : List Char := swaps.flatMap (·.old)

/-- The line after. -/
def news (swaps : List Swap) : List Char := swaps.flatMap (·.new)

@[simp] theorem olds_nil : olds [] = [] := rfl
@[simp] theorem news_nil : news [] = [] := rfl

@[simp] theorem olds_cons (s : Swap) (swaps : List Swap) :
    olds (s :: swaps) = s.old ++ olds swaps := rfl

@[simp] theorem news_cons (s : Swap) (swaps : List Swap) :
    news (s :: swaps) = s.new ++ news swaps := rfl

@[simp] theorem olds_append (as bs : List Swap) : olds (as ++ bs) = olds as ++ olds bs :=
  List.flatMap_append

@[simp] theorem news_append (as bs : List Swap) : news (as ++ bs) = news as ++ news bs :=
  List.flatMap_append

@[simp] theorem olds_keep_cons (c : Char) (swaps : List Swap) :
    olds (keep c :: swaps) = c :: olds swaps := rfl

@[simp] theorem news_keep_cons (c : Char) (swaps : List Swap) :
    news (keep c :: swaps) = c :: news swaps := rfl

@[simp] theorem olds_map_keep (cs : List Char) : olds (cs.map keep) = cs := by
  induction cs with
  | nil => rfl
  | cons c cs ih =>
      rw [List.map_cons, olds_cons, ih]
      rfl

@[simp] theorem news_map_keep (cs : List Char) : news (cs.map keep) = cs := by
  induction cs with
  | nil => rfl
  | cons c cs ih =>
      rw [List.map_cons, news_cons, ih]
      rfl

/-- The way back. -/
def flip (s : Swap) : Swap := ⟨s.new, s.old⟩

@[simp] theorem olds_map_flip (swaps : List Swap) : olds (swaps.map flip) = news swaps := by
  induction swaps with
  | nil => rfl
  | cons s swaps ih =>
      rw [List.map_cons, olds_cons, ih]
      rfl

@[simp] theorem news_map_flip (swaps : List Swap) : news (swaps.map flip) = olds swaps := by
  induction swaps with
  | nil => rfl
  | cons s swaps ih =>
      rw [List.map_cons, news_cons, ih]
      rfl

/-! ## Swaps of words -/

/-- A character that stays, or a word of some characters in place of another. -/
def Of (p : Char → Prop) (s : Swap) : Prop :=
  (∃ c, s = keep c) ∨
    (s.old ≠ [] ∧ s.new ≠ []) ∧ (∀ c ∈ s.old, p c) ∧ ∀ c ∈ s.new, p c

variable {p : Char → Prop} {swaps : List Swap}

theorem Of.mono {s : Swap} (h : s.Of p) {q : Char → Prop} (hpq : ∀ c, p c → q c) : s.Of q :=
  h.imp_right fun ⟨hne, hold, hnew⟩ =>
    ⟨hne, fun c hc => hpq c (hold c hc), fun c hc => hpq c (hnew c hc)⟩

theorem Of.flip {s : Swap} (h : s.Of p) : s.flip.Of p := by
  rcases h with ⟨c, rfl⟩ | ⟨hne, hold, hnew⟩
  · exact .inl ⟨c, rfl⟩
  · exact .inr ⟨hne.symm, hnew, hold⟩

theorem Of.ne_nil {s : Swap} (h : s.Of p) : s.old ≠ [] ∧ s.new ≠ [] := by
  rcases h with ⟨c, rfl⟩ | ⟨hne, -⟩
  · exact ⟨List.cons_ne_nil _ _, List.cons_ne_nil _ _⟩
  · exact hne

theorem all_flip (h : ∀ s ∈ swaps, s.Of p) : ∀ s ∈ swaps.map flip, s.Of p := by
  intro s hs
  obtain ⟨t, ht, rfl⟩ := List.mem_map.mp hs
  exact (h t ht).flip

theorem olds_eq_nil (h : ∀ s ∈ swaps, s.Of p) : olds swaps = [] ↔ swaps = [] := by
  constructor
  · intro hnil
    cases swaps with
    | nil => rfl
    | cons s swaps =>
        rw [olds_cons] at hnil
        exact absurd (List.append_eq_nil_iff.mp hnil).1 (h s List.mem_cons_self).ne_nil.1
  · rintro rfl
    rfl

theorem news_eq_nil (h : ∀ s ∈ swaps, s.Of p) : news swaps = [] ↔ swaps = [] := by
  rw [← olds_map_flip, olds_eq_nil (all_flip h), List.map_eq_nil_iff]

/-- **A character that no word holds is a border.** -/
theorem border (h : ∀ s ∈ swaps, s.Of p) {c : Char} (hc : ¬ p c) {as bs : List Char}
    (hline : olds swaps = as ++ c :: bs) :
    ∃ front back, swaps = front ++ keep c :: back ∧ olds front = as ∧ olds back = bs := by
  induction swaps generalizing as with
  | nil => simp at hline
  | cons s swaps ih =>
      have hrest : ∀ t ∈ swaps, t.Of p := fun t ht => h t (List.mem_cons_of_mem _ ht)
      have hgo : ∀ more, as = s.old ++ more → olds swaps = more ++ c :: bs →
          ∃ front back, s :: swaps = front ++ keep c :: back ∧ olds front = as ∧ olds back = bs := by
        rintro more rfl hmore
        obtain ⟨front, back, rfl, rfl, rfl⟩ := ih hrest hmore
        exact ⟨s :: front, back, rfl, rfl, rfl⟩
      rw [olds_cons] at hline
      rcases List.append_eq_append_iff.mp hline with ⟨more, has, hmore⟩ | ⟨more, hold, hmore⟩
      · exact hgo more has hmore
      · cases more with
        | nil => exact hgo [] (by simpa using hold.symm) hmore.symm
        | cons d more =>
            obtain ⟨rfl, hbs⟩ := List.cons.inj hmore
            rcases h s List.mem_cons_self with ⟨e, rfl⟩ | ⟨-, hword, -⟩
            · -- the character itself
              have hone : as = [] ∧ more = [] ∧ e = c := by
                cases as with
                | nil => simpa [keep, eq_comm, and_comm] using hold
                | cons a as => simp [keep] at hold
              obtain ⟨rfl, rfl, rfl⟩ := hone
              exact ⟨[], swaps, rfl, rfl, hbs.symm⟩
            · exact absurd (hword c (by simp [hold])) hc

theorem mem_news_iff (h : ∀ s ∈ swaps, s.Of p) {c : Char} (hc : ¬ p c) :
    c ∈ news swaps ↔ c ∈ olds swaps := by
  have hsub : ∀ {swaps : List Swap}, (∀ s ∈ swaps, s.Of p) → c ∈ olds swaps → c ∈ news swaps := by
    intro swaps h hmem
    obtain ⟨as, bs, hline⟩ := List.append_of_mem hmem
    obtain ⟨front, back, rfl, -⟩ := border h hc hline
    simp [keep]
  refine ⟨fun hmem => ?_, hsub h⟩
  rw [← olds_map_flip] at hmem
  have hback := hsub (all_flip h) hmem
  rwa [news_map_flip] at hback

/-- A run of characters ends at a border, if words are all in the class or all out of it. -/
theorem takeWhile (h : ∀ s ∈ swaps, s.Of p) {q : Char → Bool} {inside : Bool}
    (hq : ∀ c, p c → q c = inside) :
    ∃ front back, swaps = front ++ back ∧
      olds front = (olds swaps).takeWhile q ∧ olds back = (olds swaps).dropWhile q ∧
      news front = (news swaps).takeWhile q ∧ news back = (news swaps).dropWhile q := by
  induction swaps with
  | nil => exact ⟨[], [], rfl, rfl, rfl, rfl, rfl⟩
  | cons s swaps ih =>
      obtain ⟨front, back, rfl, holds, holds', hnews, hnews'⟩ :=
        ih fun t ht => h t (List.mem_cons_of_mem _ ht)
      have htake : (∀ c ∈ s.old, q c = true) → (∀ c ∈ s.new, q c = true) →
          ∃ front' back', s :: (front ++ back) = front' ++ back' ∧
            olds front' = (olds (s :: (front ++ back))).takeWhile q ∧
            olds back' = (olds (s :: (front ++ back))).dropWhile q ∧
            news front' = (news (s :: (front ++ back))).takeWhile q ∧
            news back' = (news (s :: (front ++ back))).dropWhile q := by
        intro hold hnew
        refine ⟨s :: front, back, rfl, ?_, ?_, ?_, ?_⟩
        · rw [olds_cons, olds_cons, holds, List.takeWhile_append_of_pos hold]
        · rw [olds_cons, holds', List.dropWhile_append_of_pos hold]
        · rw [news_cons, news_cons, hnews, List.takeWhile_append_of_pos hnew]
        · rw [news_cons, hnews', List.dropWhile_append_of_pos hnew]
      have hstop : ∀ c d cs ds, s.old = c :: cs → s.new = d :: ds → q c = false → q d = false →
          ∃ front' back', s :: (front ++ back) = front' ++ back' ∧
            olds front' = (olds (s :: (front ++ back))).takeWhile q ∧
            olds back' = (olds (s :: (front ++ back))).dropWhile q ∧
            news front' = (news (s :: (front ++ back))).takeWhile q ∧
            news back' = (news (s :: (front ++ back))).dropWhile q := by
        intro c d cs ds hold hnew hc hd
        refine ⟨[], s :: (front ++ back), rfl, ?_, ?_, ?_, ?_⟩
        · simp [hold, hc]
        · simp [hold, hc]
        · simp [hnew, hd]
        · simp [hnew, hd]
      rcases h s List.mem_cons_self with ⟨c, rfl⟩ | ⟨⟨hne, hne'⟩, hold, hnew⟩
      · cases hc : q c with
        | true => exact htake (by simp [keep, hc]) (by simp [keep, hc])
        | false => exact hstop c c [] [] rfl rfl hc hc
      · cases inside with
        | true => exact htake (fun c hc => hq c (hold c hc)) fun c hc => hq c (hnew c hc)
        | false =>
            obtain ⟨c, cs, hcs⟩ := List.exists_cons_of_ne_nil hne
            obtain ⟨d, ds, hds⟩ := List.exists_cons_of_ne_nil hne'
            exact hstop c d cs ds hcs hds (hq c (hold c (by simp [hcs])))
              (hq d (hnew d (by simp [hds])))

/-- Whether a line begins with a character that no word holds is the same before and after. -/
theorem starts (h : ∀ s ∈ swaps, s.Of p) {c : Char} (hc : ¬ p c) :
    (∃ back, swaps = keep c :: back) ∨
      (∀ cs, olds swaps ≠ c :: cs) ∧ ∀ cs, news swaps ≠ c :: cs := by
  have hkeep : ∀ {swaps : List Swap}, (∀ s ∈ swaps, s.Of p) → ∀ cs, olds swaps = c :: cs →
      ∃ back, swaps = keep c :: back := by
    intro swaps h cs hline
    obtain ⟨front, back, rfl, hfront, -⟩ := border h hc (hline.trans (List.nil_append _).symm)
    obtain rfl := (olds_eq_nil fun s hs => h s (by simp [hs])).mp hfront
    exact ⟨back, rfl⟩
  by_cases hstarts : ∃ back, swaps = keep c :: back
  · exact .inl hstarts
  · refine .inr ⟨fun cs hline => hstarts (hkeep h cs hline), fun cs hline => hstarts ?_⟩
    rw [← olds_map_flip] at hline
    obtain ⟨back, hback⟩ := hkeep (all_flip h) cs hline
    cases swaps with
    | nil => simp at hback
    | cons s swaps =>
        have hs : s.flip = keep c := (List.cons.inj hback).1
        refine ⟨swaps, ?_⟩
        rw [show s = keep c from congrArg flip hs]

/-- And so is whether it ends with one. -/
theorem ends (h : ∀ s ∈ swaps, s.Of p) {c : Char} (hc : ¬ p c) :
    (∃ front, swaps = front ++ [keep c]) ∨
      (∀ cs, olds swaps ≠ cs ++ [c]) ∧ ∀ cs, news swaps ≠ cs ++ [c] := by
  have hkeep : ∀ {swaps : List Swap}, (∀ s ∈ swaps, s.Of p) → ∀ cs, olds swaps = cs ++ [c] →
      ∃ front, swaps = front ++ [keep c] := by
    intro swaps h cs hline
    obtain ⟨front, back, rfl, -, hback⟩ := border h hc hline
    obtain rfl := (olds_eq_nil fun s hs => h s (by simp [hs])).mp hback
    exact ⟨front, rfl⟩
  by_cases hends : ∃ front, swaps = front ++ [keep c]
  · exact .inl hends
  · refine .inr ⟨fun cs hline => hends (hkeep h cs hline), fun cs hline => hends ?_⟩
    rw [← olds_map_flip] at hline
    obtain ⟨front, hfront⟩ := hkeep (all_flip h) cs hline
    refine ⟨front.map flip, ?_⟩
    have hback := congrArg (List.map flip) hfront
    rwa [List.map_map, show flip ∘ flip = id from rfl, List.map_id, List.map_append] at hback

/-- Where such a character comes first is the same before and after. -/
theorem splitFirst? (h : ∀ s ∈ swaps, s.Of p) {c : Char} (hc : ¬ p c) :
    (Text.splitFirst? c (olds swaps) = none ∧ Text.splitFirst? c (news swaps) = none) ∨
      ∃ front back, swaps = front ++ keep c :: back ∧
        Text.splitFirst? c (olds swaps) = some (olds front, olds back) ∧
        Text.splitFirst? c (news swaps) = some (news front, news back) := by
  by_cases hmem : c ∈ olds swaps
  · obtain ⟨as, bs, hline, hnot⟩ := List.eq_append_cons_of_mem hmem
    obtain ⟨front, back, rfl, rfl, rfl⟩ := border h hc hline
    have hnot' : c ∉ news front := fun hm =>
      hnot ((mem_news_iff (fun s hs => h s (by simp [hs])) hc).mp hm)
    refine .inr ⟨front, back, rfl, ?_, ?_⟩
    · rw [hline, splitFirst?_append_cons hnot]
    · rw [news_append, news_cons]
      exact splitFirst?_append_cons hnot' _
  · exact .inl ⟨splitFirst?_eq_none.mpr hmem,
      splitFirst?_eq_none.mpr fun hm => hmem ((mem_news_iff h hc).mp hm)⟩

/-- Of two borders of a line the one further left is further left after the swaps too. -/
theorem prefix_of_width_le (h : ∀ s ∈ swaps, s.Of p) {as bs cs ds : List Swap}
    (has : swaps = as ++ bs) (hcs : swaps = cs ++ ds) (hle : width (olds as) ≤ width (olds cs)) :
    as <+: cs := by
  have hfirst : as <+: swaps := ⟨bs, has.symm⟩
  have hsecond : cs <+: swaps := ⟨ds, hcs.symm⟩
  rcases List.prefix_or_prefix_of_prefix hfirst hsecond with hpre | ⟨more, rfl⟩
  · exact hpre
  · rw [olds_append, width_append] at hle
    have hnil : olds more = [] := eq_nil_of_width (by omega)
    have hmore : more = [] := (olds_eq_nil fun s hs => h s (by simp [has, hs])).mp hnil
    exact ⟨[], by simp [hmore]⟩

theorem width_news_le (h : ∀ s ∈ swaps, s.Of p) {as bs cs ds : List Swap}
    (has : swaps = as ++ bs) (hcs : swaps = cs ++ ds) (hle : width (olds as) ≤ width (olds cs)) :
    width (news as) ≤ width (news cs) := by
  obtain ⟨more, rfl⟩ := prefix_of_width_le h has hcs hle
  rw [news_append, width_append]
  omega

theorem width_le_iff (h : ∀ s ∈ swaps, s.Of p) {as bs cs ds : List Swap}
    (has : swaps = as ++ bs) (hcs : swaps = cs ++ ds) :
    width (olds as) ≤ width (olds cs) ↔ width (news as) ≤ width (news cs) := by
  refine ⟨width_news_le h has hcs, fun hle => ?_⟩
  rw [← news_map_flip as, ← news_map_flip cs]
  refine width_news_le (all_flip h) (by rw [has, List.map_append]) (by rw [hcs, List.map_append]) ?_
  rwa [olds_map_flip, olds_map_flip]

/-- A place in the line is one border. -/
theorem eq_of_width (h : ∀ s ∈ swaps, s.Of p) {as bs cs ds : List Swap} (has : swaps = as ++ bs)
    (hcs : swaps = cs ++ ds) (heq : width (olds as) = width (olds cs)) : as = cs ∧ bs = ds := by
  have hpre := prefix_of_width_le h has hcs (Nat.le_of_eq heq)
  have hpre' := prefix_of_width_le h hcs has (Nat.le_of_eq heq.symm)
  have hsame := hpre.eq_of_length (Nat.le_antisymm hpre.length_le hpre'.length_le)
  refine ⟨hsame, ?_⟩
  rw [has, hsame] at hcs
  exact List.append_cancel_left hcs

end Swap

/-- The references of a line that stand in front of another one. -/
def Reference.ahead (references : List Reference) (r : Reference) : List Reference :=
  references.filter fun s => s.line == r.line && decide (s.columnStart < r.columnStart)

/-- How many bytes the links of some references take. -/
def bytesOf (link : Reference → String) (references : List Reference) : Nat :=
  (references.map fun s => width (link s).toList).sum

/-- The column where the link of a reference stands once all references of its line have other links. -/
def Reference.landing (link : Reference → String) (references : List Reference) (r : Reference) :
    Nat :=
  r.columnStart + bytesOf link (r.ahead references) - bytesOf (·.target) (r.ahead references)

variable {link : Reference → String} {column : Nat} {rs : List Reference} {cs cs' : List Char}

theorem bytesOf_nil (link : Reference → String) : bytesOf link [] = 0 := rfl

theorem bytesOf_cons (link : Reference → String) (r : Reference) (rs : List Reference) :
    bytesOf link (r :: rs) = width (link r).toList + bytesOf link rs := by
  rw [bytesOf, List.map_cons, List.sum_cons, bytesOf]

/--
**Where a link lands.** The line and what comes of it are one list of swaps, of characters that
stay and of what stands for the links of the references. The border in front of a reference is its
column before, and after that its column with the growth of the links ahead of it.
-/
theorem Woven.exists_swaps (h : Woven link column rs cs cs')
    (hsome : ∀ r ∈ rs, r.target.toList ≠ []) {number : Nat} (hline : ∀ r ∈ rs, r.line = number)
    {swaps : Reference → List Swap}
    (hswaps : ∀ r ∈ rs, Swap.olds (swaps r) = r.target.toList ∧
      Swap.news (swaps r) = (link r).toList) :
    ∃ all, Swap.olds all = cs ∧ Swap.news all = cs' ∧
      (∀ s ∈ all, (∃ c, s = .keep c) ∨ ∃ r ∈ rs, s ∈ swaps r) ∧
      ∀ r ∈ rs, ∃ front back, all = front ++ (swaps r ++ back) ∧
        r.columnStart = column + width (Swap.olds front) ∧
        r.columnStart + bytesOf link (r.ahead rs) =
          column + width (Swap.news front) + bytesOf (·.target) (r.ahead rs) := by
  induction h with
  | rest column cs =>
      refine ⟨cs.map .keep, Swap.olds_map_keep cs, Swap.news_map_keep cs, ?_, by simp⟩
      intro s hs
      obtain ⟨c, -, rfl⟩ := List.mem_map.mp hs
      exact .inl ⟨c, rfl⟩
  | @next column gap cs cs' first rs hstart h ih =>
      obtain ⟨all, holds, hnews, hfrom, hplaces⟩ := ih
        (fun r hr => hsome r (List.mem_cons_of_mem _ hr))
        (fun r hr => hline r (List.mem_cons_of_mem _ hr))
        (fun r hr => hswaps r (List.mem_cons_of_mem _ hr))
      obtain ⟨hold, hnew⟩ := hswaps first List.mem_cons_self
      have hpos := width_pos_of_ne_nil (hsome first List.mem_cons_self)
      have hbehind : ∀ r ∈ rs, first.columnStart + width first.target.toList ≤ r.columnStart :=
        fun r hr => h.le_columnStart hr
      refine ⟨gap.map .keep ++ (swaps first ++ all), by simp [hold, holds], by simp [hnew, hnews],
        ?_, ?_⟩
      · intro s hs
        rcases List.mem_append.mp hs with hs | hs
        · obtain ⟨c, -, rfl⟩ := List.mem_map.mp hs
          exact .inl ⟨c, rfl⟩
        · rcases List.mem_append.mp hs with hs | hs
          · exact .inr ⟨first, List.mem_cons_self, hs⟩
          · exact (hfrom s hs).imp_right fun ⟨r, hr, hsr⟩ => ⟨r, List.mem_cons_of_mem _ hr, hsr⟩
      · intro r hr
        rcases List.mem_cons.mp hr with rfl | hr
        · -- nothing stands ahead of the first one
          have hnone : r.ahead (r :: rs) = [] := by
            refine List.filter_eq_nil_iff.mpr fun s hs => ?_
            rcases List.mem_cons.mp hs with rfl | hs
            · simp
            · have := hbehind s hs
              simp only [Bool.and_eq_true, decide_eq_true_eq, not_and]
              omega
          refine ⟨gap.map .keep, all, rfl, by simp [hstart], ?_⟩
          rw [hnone, bytesOf_nil, bytesOf_nil, Swap.news_map_keep, hstart]
        · have hfirst : r.ahead (first :: rs) = first :: r.ahead rs := by
            have hlines : first.line = r.line :=
              (hline first List.mem_cons_self).trans (hline r (List.mem_cons_of_mem _ hr)).symm
            have hlt : first.columnStart < r.columnStart := by
              have := hbehind r hr
              omega
            exact List.filter_cons_of_pos (by simp [hlines, hlt])
          obtain ⟨front, back, hall, hcolumn, hlands⟩ := hplaces r hr
          have hstop : first.piece.stop = first.columnStart + width first.target.toList := rfl
          refine ⟨gap.map .keep ++ (swaps first ++ front), back, by simp [hall], ?_, ?_⟩
          · simp only [Swap.olds_append, Swap.olds_map_keep, hold, width_append]
            omega
          · rw [hfirst, bytesOf_cons, bytesOf_cons]
            simp only [Swap.news_append, Swap.news_map_keep, hnew, width_append]
            omega

/-! ## The lines of a revised text -/

/-- Lines as a text is cut into: a line feed ends each of them, but for the last one perhaps. -/
inductive Cut : List (List Char) → Prop
  | nil : Cut []
  | last {line : List Char} (h : '\n' ∉ line) (hne : line ≠ []) : Cut [line]
  | line {body : List Char} {lines : List (List Char)} (h : '\n' ∉ body) (rest : Cut lines) :
      Cut ((body ++ ['\n']) :: lines)

theorem cut_keepEnds (cs : List Char) : Cut (keepEnds cs) := by
  induction cs with
  | nil => exact .nil
  | cons c cs ih =>
      rw [keepEnds_cons]
      split
      · rename_i hc
        rw [hc]
        exact @Cut.line [] _ (by simp) ih
      · rename_i hc
        generalize keepEnds cs = lines at ih ⊢
        cases ih with
        | nil => exact .last (by simpa using Ne.symm hc) (by simp)
        | last h hne => exact .last (by simpa [h] using Ne.symm hc) (by simp)
        | @line body lines h rest => exact @Cut.line (c :: body) _ (by simpa [h] using Ne.symm hc) rest

/-- No line feed stands before the ending of a line. -/
theorem Cut.not_mem_body {lines : List (List Char)} (h : Cut lines) {line : List Char}
    (hline : line ∈ lines) : '\n' ∉ (splitEnding line).1 := by
  induction h with
  | nil => exact absurd hline List.not_mem_nil
  | last hnone hne =>
      obtain rfl := List.mem_singleton.mp hline
      intro hfeed
      refine hnone ?_
      rw [← splitEnding_append line]
      exact List.mem_append_left _ hfeed
  | @line body lines hnone rest ih =>
      rcases List.mem_cons.mp hline with rfl | hline
      · have hpre : (splitEnding (body ++ ['\n'])).1 <+: body := by
          unfold splitEnding
          rw [List.reverse_append, List.reverse_singleton, List.singleton_append]
          split
          · rename_i front hback
            obtain rfl : body = front.reverse ++ ['\r'] := by
              rw [← List.reverse_reverse body, (List.cons.inj hback).2, List.reverse_cons]
            exact List.prefix_append _ _
          · rename_i front _ hback
            obtain rfl : body = front.reverse := by
              rw [← List.reverse_reverse body, (List.cons.inj hback).2]
            exact List.prefix_refl _
          · rename_i hback
            exact absurd rfl (hback _)
        exact fun hfeed => hnone (hpre.mem hfeed)
      · exact ih hline

/-- Such lines are the lines of their text. -/
theorem Cut.keepEnds_flatten {lines : List (List Char)} (h : Cut lines) :
    keepEnds lines.flatten = lines := by
  induction h with
  | nil => rfl
  | @last line h hne =>
      have hline := keepEnds_append_of_not_mem h []
      rw [List.append_nil, keepEnds_nil, lead, if_neg (by simpa using hne)] at hline
      rw [List.flatten_singleton, hline]
  | @line body lines h rest ih =>
      rw [List.flatten_cons, List.append_assoc, List.singleton_append, keepEnds_append_of_not_mem h,
        keepEnds_cons, if_pos rfl, ih]
      rfl

/-- Lines stay lines when words without a line feed are swapped in them. -/
theorem Cut.swapped {lines lines' : List (List Char)} (h : Cut lines)
    (hlength : lines'.length = lines.length)
    (hswapped : ∀ (index : Nat) (line : List Char), lines[index]? = some line → ∃ swaps : List Swap,
      (∀ s ∈ swaps, s.Of (· ≠ '\n')) ∧ Swap.olds swaps = line ∧
        lines'[index]? = some (Swap.news swaps)) : Cut lines' := by
  induction h generalizing lines' with
  | nil =>
      rw [List.eq_nil_of_length_eq_zero hlength]
      exact .nil
  | @last line h hne =>
      obtain ⟨line', rfl⟩ := List.length_eq_one_iff.mp hlength
      obtain ⟨swaps, hof, rfl, hline'⟩ := hswapped 0 line rfl
      obtain rfl : line' = Swap.news swaps := by simpa using hline'
      refine .last (fun hmem => h ((Swap.mem_news_iff hof (by simp)).mp hmem)) fun hnil => hne ?_
      rw [(Swap.news_eq_nil hof).mp hnil]
      rfl
  | @line body lines h rest ih =>
      obtain ⟨line', lines', rfl⟩ := List.exists_cons_of_length_eq_add_one hlength
      obtain ⟨swaps, hof, hbody, hline'⟩ := hswapped 0 _ rfl
      obtain rfl : line' = Swap.news swaps := by simpa using hline'
      obtain ⟨front, back, rfl, hfront, hback⟩ := Swap.border hof (by simp) hbody
      have hfeed := (Swap.olds_eq_nil fun s hs => hof s (by simp [hs])).mp hback
      subst hfeed
      have hnews : Swap.news (front ++ [Swap.keep '\n']) = Swap.news front ++ ['\n'] := by
        simp [Swap.keep]
      rw [hnews]
      refine .line (fun hmem => h ?_) (ih (by simpa using hlength) fun index line hline =>
        hswapped (index + 1) line (by simpa using hline))
      rw [← hfront]
      exact (Swap.mem_news_iff (fun s hs => hof s (by simp [hs])) (by simp)).mp hmem

/-- Each line of a text and what comes of it, as swaps. -/
theorem Relinked.exists_swaps_line {references : List Reference} {content text : String}
    (h : Relinked link references content text) (hlaid : Links.Laid content.toList references)
    {swaps : Reference → List Swap}
    (hswaps : ∀ r ∈ references, Swap.olds (swaps r) = r.target.toList ∧
      Swap.news (swaps r) = (link r).toList ∧ ∀ s ∈ swaps r, s.Of (· ≠ '\n'))
    {index : Nat} {line : List Char} (hindex : (keepEnds content.toList)[index]? = some line) :
    ∃ all, Swap.olds all = line ∧ (keepEnds text.toList)[index]? = some (Swap.news all) ∧
      (∀ s ∈ all, (∃ c, s = .keep c) ∨ ∃ q ∈ references, q.line = index + 1 ∧ s ∈ swaps q) ∧
      ∀ r ∈ references, r.line = index + 1 → ∃ front back, all = front ++ (swaps r ++ back) ∧
        r.columnStart = width (Swap.olds front) ∧
        r.landing link references = width (Swap.news front) := by
  obtain ⟨lines, htext, hlength, hwoven⟩ := h
  have hline : ∀ (index : Nat) (line : List Char), (keepEnds content.toList)[index]? = some line →
      ∃ all, Swap.olds all = line ∧ lines[index]? = some (Swap.news all) ∧
        (∀ s ∈ all, (∃ c, s = .keep c) ∨
          ∃ q ∈ references.filter (·.line == index + 1), s ∈ swaps q) ∧
        ∀ q ∈ references.filter (·.line == index + 1), ∃ front back,
          all = front ++ (swaps q ++ back) ∧ q.columnStart = 0 + width (Swap.olds front) ∧
          q.columnStart + bytesOf link (q.ahead (references.filter (·.line == index + 1))) =
            0 + width (Swap.news front) +
              bytesOf (·.target) (q.ahead (references.filter (·.line == index + 1))) := by
    intro index line hindex
    obtain ⟨line', hline', hw⟩ := hwoven index line hindex
    obtain ⟨all, holds, hnews, hfrom, hplaces⟩ := hw.exists_swaps
      (fun q hq => (hlaid.stands q (List.mem_filter.mp hq).1).some.1)
      (fun q hq => beq_iff_eq.mp (List.mem_filter.mp hq).2)
      (fun q hq => ⟨(hswaps q (List.mem_filter.mp hq).1).1, (hswaps q (List.mem_filter.mp hq).1).2.1⟩)
    exact ⟨all, holds, by rw [hline', hnews], hfrom, hplaces⟩
  have hlines : keepEnds text.toList = lines := by
    rw [htext]
    refine ((cut_keepEnds _).swapped hlength fun index line hindex => ?_).keepEnds_flatten
    obtain ⟨all, holds, hnews, hfrom, -⟩ := hline index line hindex
    refine ⟨all, fun s hs => ?_, holds, hnews⟩
    rcases hfrom s hs with hkeep | ⟨q, hq, hsq⟩
    · exact .inl hkeep
    · exact (hswaps q (List.mem_filter.mp hq).1).2.2 s hsq
  obtain ⟨all, holds, hnews, hfrom, hplaces⟩ := hline index line hindex
  refine ⟨all, holds, by rw [hlines]; exact hnews, ?_, fun r hr hnumber => ?_⟩
  · intro s hs
    refine (hfrom s hs).imp_right fun ⟨q, hq, hsq⟩ => ?_
    obtain ⟨hq, hqline⟩ := List.mem_filter.mp hq
    exact ⟨q, hq, beq_iff_eq.mp hqline, hsq⟩
  · obtain ⟨front, back, hall, hcolumn, hlands⟩ := hplaces r
      (List.mem_filter.mpr ⟨hr, beq_iff_eq.mpr hnumber⟩)
    have hahead : r.ahead (references.filter (·.line == index + 1)) = r.ahead references := by
      unfold Reference.ahead
      rw [List.filter_filter]
      refine List.filter_congr fun s _ => ?_
      rw [← hnumber]
      cases s.line == r.line <;> simp
    rw [hahead] at hlands
    refine ⟨front, back, hall, by omega, ?_⟩
    unfold Reference.landing
    omega

/-- The line of a reference and what comes of it, as swaps. -/
theorem Relinked.exists_swaps {references : List Reference} {content text : String}
    (h : Relinked link references content text) (hlaid : Links.Laid content.toList references)
    {swaps : Reference → List Swap}
    (hswaps : ∀ r ∈ references, Swap.olds (swaps r) = r.target.toList ∧
      Swap.news (swaps r) = (link r).toList ∧ ∀ s ∈ swaps r, s.Of (· ≠ '\n'))
    {r : Reference} (hr : r ∈ references) :
    ∃ (index : Nat) (front back : List Swap), r.line = index + 1 ∧
      (keepEnds content.toList)[index]? = some (Swap.olds (front ++ (swaps r ++ back))) ∧
      (keepEnds text.toList)[index]? = some (Swap.news (front ++ (swaps r ++ back))) ∧
      (∀ s ∈ front ++ (swaps r ++ back), (∃ c, s = .keep c) ∨
        ∃ q ∈ references, q.line = r.line ∧ s ∈ swaps q) ∧
      r.columnStart = width (Swap.olds front) ∧
      r.landing link references = width (Swap.news front) := by
  obtain ⟨index, line, hindex, hnumber, -⟩ := (hlaid.stands r hr).on
  obtain ⟨all, holds, hnews, hfrom, hplaces⟩ := h.exists_swaps_line hlaid hswaps hindex
  obtain ⟨front, back, rfl, hcolumn, hlands⟩ := hplaces r hr hnumber
  rw [← hnumber] at hfrom
  exact ⟨index, front, back, hnumber, by rw [holds]; exact hindex, hnews, hfrom, hcolumn, hlands⟩

/-- **No two references of a file land in one place**, when none of the new links is empty or breaks its line. -/
theorem Relinked.eq_of_landing {references : List Reference} {content text : String}
    (h : Relinked link references content text) (hlaid : Links.Laid content.toList references)
    (hlinks : ∀ q ∈ references, (link q).toList ≠ [] ∧ '\n' ∉ (link q).toList)
    {r s : Reference} (hr : r ∈ references) (hs : s ∈ references) (hline : s.line = r.line)
    (hlands : s.landing link references = r.landing link references) : s = r := by
  have hswaps : ∀ q ∈ references, Swap.olds [⟨q.target.toList, (link q).toList⟩] = q.target.toList ∧
      Swap.news [⟨q.target.toList, (link q).toList⟩] = (link q).toList ∧
      ∀ w ∈ [(⟨q.target.toList, (link q).toList⟩ : Swap)], w.Of (· ≠ '\n') := by
    intro q hq
    obtain ⟨hne, hinline⟩ := (hlaid.stands q hq).some
    obtain ⟨hne', hfeed⟩ := hlinks q hq
    refine ⟨by simp, by simp, fun w hw => ?_⟩
    obtain rfl := List.mem_singleton.mp hw
    refine .inr ⟨⟨hne, hne'⟩, fun c hc => (hinline c hc).1, fun c hc he => hfeed ?_⟩
    rwa [he] at hc
  obtain ⟨index, line, hindex, hnumber, -⟩ := (hlaid.stands r hr).on
  obtain ⟨all, -, -, hfrom, hplaces⟩ := h.exists_swaps_line hlaid hswaps hindex
  obtain ⟨front, back, hall, hcolumn, hlands'⟩ := hplaces r hr hnumber
  obtain ⟨front', back', hall', hcolumn', hlands''⟩ := hplaces s hs (hline.trans hnumber)
  have hof : ∀ w ∈ all, w.Of (· ≠ '\n') := by
    intro w hw
    rcases hfrom w hw with hkeep | ⟨q, hq, -, hwq⟩
    · exact .inl hkeep
    · exact (hswaps q hq).2.2 w hwq
  -- read from the new line back to the old one, a place is one border again
  obtain ⟨hfront, -⟩ := Swap.eq_of_width (Swap.all_flip hof)
    (by rw [hall', List.map_append]) (by rw [hall, List.map_append])
    (by rw [Swap.olds_map_flip, Swap.olds_map_flip, ← hlands'', ← hlands', hlands])
  have hwidth := congrArg (fun swaps => width (Swap.news swaps)) hfront
  rw [Swap.news_map_flip, Swap.news_map_flip, ← hcolumn', ← hcolumn] at hwidth
  exact hlaid.eq_of_place hs hr hline hwidth

end LinkKeeper
