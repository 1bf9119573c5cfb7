import LinkKeeper.Proofs.Resolution

/-!
# No way is shorter

From a directory to a target `relative` goes up to what both have in common, and down from there.
That no spelling gets there in fewer steps is shown by looking at how far there is to go: as many
steps as this way is long. A segment that stands for nothing leaves the distance as it is, and every
other one goes down to a name, or up from one, or out of the root, and so brings the target nearer by
one step at most. At the target there is nothing left to go.
-/

namespace LinkKeeper.Path

open Text

/-! ## What both have in common -/

theorem commonLength_le_right (as bs : List (List Char)) : commonLength as bs ≤ bs.length := by
  induction as generalizing bs with
  | nil => exact Nat.zero_le _
  | cons a as ih =>
      cases bs with
      | nil => exact Nat.zero_le _
      | cons b bs =>
          rw [commonLength]
          split
          · exact Nat.succ_le_succ (ih bs)
          · exact Nat.zero_le _

theorem commonLength_append (as bs : List (List Char)) :
    commonLength as (as ++ bs) = as.length := by
  induction as with
  | nil => cases bs <;> rfl
  | cons a as ih => rw [List.cons_append, commonLength, if_pos rfl, ih, List.length_cons]

/-- One more segment has one more in common at most. -/
theorem commonLength_concat (as bs : List (List Char)) (a : List Char) :
    commonLength as bs ≤ commonLength (as ++ [a]) bs ∧
      commonLength (as ++ [a]) bs ≤ commonLength as bs + 1 := by
  induction as generalizing bs with
  | nil => exact ⟨Nat.zero_le _, commonLength_le [a] bs⟩
  | cons b as ih =>
      cases bs with
      | nil => exact ⟨Nat.le_refl _, Nat.zero_le _⟩
      | cons c bs =>
          rw [List.cons_append, commonLength, commonLength]
          split
          · exact ⟨Nat.succ_le_succ (ih bs).1, Nat.succ_le_succ (ih bs).2⟩
          · exact ⟨Nat.le_refl _, Nat.zero_le _⟩

/-! ## Where the way is short -/

/-- Down from a directory the shortest way is what follows the directory. -/
theorem waySegments_append (as bs : List (List Char)) : waySegments as (as ++ bs) = bs := by
  rw [waySegments, commonLength_append, Nat.sub_self, List.replicate_zero, List.nil_append,
    List.drop_left]

/-- From the root, the shortest way to a path is the path. -/
theorem relative_of_segments_nil {dir path : String} (hdir : segments dir = []) (hp : Proper path) :
    relative dir path = path := by
  have hway : waySegments [] (segments path) = segments path := waySegments_append [] _
  rw [relative_eq, hdir, hway, if_neg hp.segments_ne_nil, join_segments hp.normal]

/-- From the directory of a path, the shortest way to it is its name. -/
theorem relative_parent {path : String} (hp : Proper path) :
    relative (parent path) path = baseName path := by
  obtain ⟨front, last, hsegments, -, -, hname⟩ := hp.exists_join
  have hfront : segments (parent path) = front := by
    rw [segments_parent hp, hsegments, List.dropLast_concat]
  rw [relative_eq, hfront, hsegments, waySegments_append, if_neg (List.cons_ne_nil _ _), hname,
    join, intercalate_singleton]

/-- The shortest way leads to its end. -/
theorem resolve_relative {dir target : String} (hdir : ∀ s ∈ segments dir, IsName s)
    (hnormal : normalize target = target) (htarget : ∀ s ∈ segments target, IsName s) :
    resolve dir (relative dir target) = target := by
  rw [resolve_eq_iff hnormal, isRootAbsolute_relative htarget, if_neg Bool.false_ne_true,
    segments_relative htarget, collapse_waySegments hdir htarget]

/-- There is nothing to go from a place to itself, and from nowhere else. -/
theorem waySegments_eq_nil_iff {dir target : List (List Char)} (hdir : ∀ s ∈ dir, IsName s)
    (htarget : ∀ s ∈ target, IsName s) : waySegments dir target = [] ↔ dir = target := by
  constructor
  · intro h
    rw [← collapse_waySegments hdir htarget, h, List.append_nil, (Collapsed.of_names hdir).collapse_eq]
  · rintro rfl
    rw [← waySegments_append dir [], List.append_nil]

theorem relative_eq_here_iff {dir target : String} (htarget : ∀ s ∈ segments target, IsName s) :
    relative dir target = "." ↔ waySegments (segments dir) (segments target) = [] := by
  constructor
  · intro h
    rw [← segments_relative htarget, h]
    rfl
  · intro h
    rw [relative_eq, if_pos h]

/-! ## How far there is to go -/

/-- The number of steps from one place to another. -/
def distance (start goal : List (List Char)) : Nat := (waySegments start goal).length

theorem distance_eq (start goal : List (List Char)) :
    distance start goal + 2 * commonLength start goal = start.length + goal.length := by
  have hstart := commonLength_le start goal
  have hgoal := commonLength_le_right start goal
  rw [distance, waySegments, List.length_append, List.length_replicate, List.length_drop]
  omega

theorem distance_self (place : List (List Char)) : distance place place = 0 := by
  have h := waySegments_append place []
  rw [List.append_nil] at h
  rw [distance, h, List.length_nil]

/-- One segment further is nearer or farther by one step. -/
theorem distance_concat (start goal : List (List Char)) (s : List Char) :
    distance start goal ≤ distance (start ++ [s]) goal + 1 ∧
      distance (start ++ [s]) goal ≤ distance start goal + 1 := by
  have hless := distance_eq start goal
  have hmore := distance_eq (start ++ [s]) goal
  have hcommon := commonLength_concat start goal s
  rw [List.length_append, List.length_singleton] at hmore
  omega

/-- A segment that is read leaves the stack alone, or comes onto it, or takes the top off. -/
theorem push_cases (stack : List (List Char)) (s : List Char) :
    ((s = [] ∨ s = here) ∧ push stack s = stack) ∨
      (¬ (s = [] ∨ s = here) ∧
        (push stack s = s :: stack ∨ ∃ top, stack = top :: push stack s)) := by
  rcases segment_cases s with hs | rfl | hs
  · exact .inl ⟨hs, push_skip hs⟩
  · refine .inr ⟨not_or.mpr ⟨above_ne_nil, above_ne_here⟩, ?_⟩
    rw [push.eq_def, if_neg (not_or.mpr ⟨above_ne_nil, above_ne_here⟩), if_pos rfl]
    cases stack with
    | nil => exact .inl rfl
    | cons top rest =>
        dsimp only
        split
        · exact .inl rfl
        · exact .inr ⟨top, rfl⟩
  · exact .inr ⟨not_or.mpr ⟨hs.1, hs.2.1⟩, .inl (push_name hs)⟩

/-- The number of segments that stand for a step. -/
def stepCount (ss : List (List Char)) : Nat := ss.countP fun s => decide ¬ (s = [] ∨ s = here)

/-- One segment brings the goal nearer by one step at most, and by none if it stands for nothing. -/
theorem distance_push (goal stack : List (List Char)) (s : List Char) :
    distance stack.reverse goal ≤ distance (push stack s).reverse goal + stepCount [s] := by
  rcases push_cases stack s with ⟨hs, hpush⟩ | ⟨hs, hpush⟩
  · rw [hpush]
    exact Nat.le_add_right _ _
  · have hone : stepCount [s] = 1 := by
      rw [stepCount, List.countP_singleton, decide_eq_true hs, if_pos rfl]
    rw [hone]
    rcases hpush with hpush | ⟨top, hpush⟩
    · rw [hpush, List.reverse_cons]
      exact (distance_concat _ _ _).1
    · have hback := (distance_concat (push stack s).reverse goal top).2
      rwa [← List.reverse_cons, ← hpush] at hback

/-- So as many steps must be read as there are to go, and those still to go behind them. -/
theorem distance_foldl (goal ss stack : List (List Char)) :
    distance stack.reverse goal ≤ distance (ss.foldl push stack).reverse goal + stepCount ss := by
  induction ss generalizing stack with
  | nil => exact Nat.le_refl _
  | cons s ss ih =>
      have hfirst := distance_push goal stack s
      have hrest := ih (push stack s)
      have hcount : stepCount (s :: ss) = stepCount [s] + stepCount ss := by
        rw [← List.singleton_append, stepCount, List.countP_append, stepCount, stepCount]
      rw [List.foldl_cons, hcount]
      omega

/-! ## Steps of a spelling -/

/-- The steps of a spelling: its segments without those that stand for nothing. -/
def steps (raw : String) : Nat := stepCount (pieces raw)

theorem stepCount_of_tidy {ss : List (List Char)} (h : Tidy ss) : stepCount ss = ss.length := by
  rw [stepCount, List.countP_eq_length]
  intro s hs
  exact decide_eq_true (not_or.mpr (h.collapsed.ne_nil_here s hs))

theorem pieces_join {ss : List (List Char)} (h : Tidy ss) (hne : ss ≠ []) :
    pieces (join ss) = ss := by
  rw [pieces, toList_join, splitWhere_intercalate isSeparator_slash hne h.plain]

/-- The way that `relative` gives has as many steps as there are to go. -/
theorem steps_relative {dir target : String} (htarget : ∀ s ∈ segments target, IsName s) :
    steps (relative dir target) = distance (segments dir) (segments target) := by
  rw [relative_eq, distance]
  split
  · rename_i h
    rw [h]
    rfl
  · rename_i h
    have htidy : Tidy (waySegments (segments dir) (segments target)) :=
      tidy_waySegments htarget (tidy_segments target).plain
    rw [steps, pieces_join htidy h, stepCount_of_tidy htidy]

/-- Every spelling that leads from a directory to a target has as many steps as there are to go. -/
theorem distance_le_steps {dir raw target : String} (hnormal : normalize target = target)
    (hraw : isRootAbsolute raw = false) (hleads : resolve dir raw = target) :
    distance (segments dir) (segments target) ≤ steps raw := by
  rw [resolve_eq_iff hnormal, hraw, if_neg Bool.false_ne_true, segments_eq raw,
    collapse_append_collapse, collapse, List.foldl_append] at hleads
  have hdir : (segments dir).foldl push [] = (segments dir).reverse :=
    List.reverse_eq_iff.mp (tidy_segments dir).collapse_eq
  have hread := distance_foldl (segments target) (pieces raw) (segments dir).reverse
  rwa [← hdir, hleads, hdir, List.reverse_reverse, distance_self, Nat.zero_add] at hread

/--
**The shortest way leads there, and no spelling has fewer steps.**

Let a directory and a target be paths in normal form that do not climb out of the root; either may be
the root itself. What `relative` answers leads from the one to the other and is not written from the
root; it is the sign for the directory exactly when both are one place. And whatever else is not
written from the root and leads there has at least as many steps: with detours, with climbs behind
descents, with backslashes or doubled slashes.
-/
theorem relative_shortest {dir target : String} (hdir : normalize dir = dir)
    (hdirInside : escapes dir = false) (htarget : normalize target = target)
    (htargetInside : escapes target = false) :
    resolve dir (relative dir target) = target ∧ (relative dir target = "." ↔ dir = target) ∧
      isRootAbsolute (relative dir target) = false ∧
      ∀ raw, isRootAbsolute raw = false → resolve dir raw = target →
        steps (relative dir target) ≤ steps raw := by
  have hdirNames : ∀ s ∈ segments dir, IsName s :=
    names_of_not_escapes (by rw [hdir]; exact hdirInside)
  have htargetNames : ∀ s ∈ segments target, IsName s :=
    names_of_not_escapes (by rw [htarget]; exact htargetInside)
  refine ⟨resolve_relative hdirNames htarget htargetNames, ?_, isRootAbsolute_relative htargetNames,
    fun raw hraw hleads => ?_⟩
  · rw [relative_eq_here_iff htargetNames, waySegments_eq_nil_iff hdirNames htargetNames]
    exact ⟨eq_of_segments_eq hdir htarget, congrArg segments⟩
  · rw [steps_relative htargetNames]
    exact distance_le_steps htarget hraw hleads

/-- Into a neighbouring directory: two steps, and a spelling with detours has six. -/
theorem relative_shortest_neighbour :
    (normalize "docs/api" = "docs/api" ∧ escapes "docs/api" = false ∧
      normalize "docs/guide" = "docs/guide" ∧ escapes "docs/guide" = false) ∧
    resolve "docs/api" (relative "docs/api" "docs/guide") = "docs/guide" ∧
    relative "docs/api" "docs/guide" = "../guide" ∧
    isRootAbsolute "v1/..\\.././/../docs/guide" = false ∧
    resolve "docs/api" "v1/..\\.././/../docs/guide" = "docs/guide" ∧
    steps (relative "docs/api" "docs/guide") ≤ steps "v1/..\\.././/../docs/guide" ∧
    steps (relative "docs/api" "docs/guide") = 2 ∧ steps "v1/..\\.././/../docs/guide" = 6 := by
  have hdir : normalize "docs/api" = "docs/api" := by decide +kernel
  have hdirInside : escapes "docs/api" = false := by decide +kernel
  have htarget : normalize "docs/guide" = "docs/guide" := by decide +kernel
  have htargetInside : escapes "docs/guide" = false := by decide +kernel
  have hraw : isRootAbsolute "v1/..\\.././/../docs/guide" = false := by decide +kernel
  have hleads : resolve "docs/api" "v1/..\\.././/../docs/guide" = "docs/guide" := by decide +kernel
  obtain ⟨hthere, -, -, hleast⟩ := relative_shortest hdir hdirInside htarget htargetInside
  exact ⟨⟨hdir, hdirInside, htarget, htargetInside⟩, hthere, by decide +kernel, hraw, hleads,
    hleast _ hraw hleads, by decide +kernel, by decide +kernel⟩

end LinkKeeper.Path
