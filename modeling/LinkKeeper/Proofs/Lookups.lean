import LinkKeeper.Proofs.Trees

/-!
# Writing where one reads

A location may lead through links, and even through the same directory more than once. `Leads`
says step by step how a look-up gets to where it ends, so that what is said about look-ups is
proved by going along them.

A file that is put where there is none, or where there is a file, is in nobody's way. And a file
that takes the place of what stands at the end of a location, a link included, is read there
afterwards: nothing that the look-up has passed was what has been replaced, for a link that the
look-up goes through leads to a directory, and the last one leads to a file.
-/

namespace LinkKeeper.FileTree

/-- A name that stands for nothing but itself. -/
structure Plain (name : String) : Prop where
  named : ¬ (name = "" ∨ name = ".")
  notAbove : name ≠ ".."
  short : ¬ longestName < name.utf8ByteSize

/-- Where a look-up goes on at a link in a directory. -/
def base (dir : Spine) (target : String) : Spine :=
  if target.toList.head? = some '/' then [] else dir

/-- How a look-up gets from a directory to where it ends, past so many links at most. -/
inductive Leads (t : FileTree) (follow : Bool) : Nat → Spine → List String → Spot → Prop where
  | done {links : Nat} {dir : Spine} : Leads t follow links dir [] (.found dir .directory)
  | stays {links : Nat} {dir : Spine} {name : String} {rest : List String} {spot : Spot}
      (hname : name = "" ∨ name = ".") (h : Leads t follow links dir rest spot) :
      Leads t follow links dir (name :: rest) spot
  | rises {links : Nat} {dir : Spine} {rest : List String} {spot : Spot}
      (h : Leads t follow links dir.dropLast rest spot) :
      Leads t follow links dir (".." :: rest) spot
  | enters {links : Nat} {dir : Spine} {name : String} {rest : List String} {spot : Spot}
      (hname : Plain name) (hentry : t.entries[dir ++ [name]]? = some .directory)
      (h : Leads t follow links (dir ++ [name]) rest spot) :
      Leads t follow links dir (name :: rest) spot
  | vacant {links : Nat} {dir : Spine} {name : String} (hname : Plain name)
      (hentry : t.entries[dir ++ [name]]? = none) :
      Leads t follow links dir [name] (.vacant (dir ++ [name]))
  | file {links : Nat} {dir : Spine} {name : String} {content : ByteArray} {mode : Nat}
      (hname : Plain name) (hentry : t.entries[dir ++ [name]]? = some (.file content mode)) :
      Leads t follow links dir [name] (.found (dir ++ [name]) (.file content mode))
  | link {links : Nat} {dir : Spine} {name target : String} (hname : Plain name)
      (hentry : t.entries[dir ++ [name]]? = some (.link target)) (hend : follow = false) :
      Leads t follow links dir [name] (.found (dir ++ [name]) (.link target))
  | follows {links : Nat} {dir : Spine} {name target : String} {rest : List String} {spot : Spot}
      (hname : Plain name) (hentry : t.entries[dir ++ [name]]? = some (.link target))
      (hmore : rest ≠ [] ∨ follow = true)
      (h : Leads t follow links (base dir target) (segments target ++ rest) spot) :
      Leads t follow (links + 1) dir (name :: rest) spot

variable {t : FileTree} {follow : Bool} {links : Nat} {dir place : Spine} {names : List String}
  {spot : Spot} {location : String}

/-- How a look-up goes on at the links, if it has any left to pass. -/
def onward (t : FileTree) (follow : Bool) :
    Nat → Option (Spine → List String → Except SystemError Spot)
  | 0 => none
  | links + 1 => some (t.walk follow links)

theorem walk_eq_descend (t : FileTree) (follow : Bool) (links : Nat) :
    t.walk follow links = t.descend follow (t.onward follow links) := by
  cases links <;> rfl

theorem descend_plain {name : String} (h : Plain name)
    (go : Option (Spine → List String → Except SystemError Spot)) (rest : List String) :
    t.descend follow go dir (name :: rest) =
      match t.entries[dir ++ [name]]? with
      | none => if rest.isEmpty then .ok (.vacant (dir ++ [name])) else .error .noEntry
      | some .directory => t.descend follow go (dir ++ [name]) rest
      | some (.file content mode) =>
          if rest.isEmpty then .ok (.found (dir ++ [name]) (.file content mode))
          else .error .notDirectory
      | some (.link target) =>
          if rest.isEmpty && !follow then .ok (.found (dir ++ [name]) (.link target))
          else
            match go with
            | none => .error .tooManyLinks
            | some go => go (base dir target) (segments target ++ rest) := by
  rw [descend, if_neg h.named, if_neg h.notAbove, if_neg h.short]
  rfl

theorem leads_of_descend (hgo : ∀ base names, ∀ less, links = less + 1 →
      t.walk follow less base names = .ok spot → t.Leads follow less base names spot)
    (h : t.descend follow (t.onward follow links) dir names = .ok spot) :
    t.Leads follow links dir names spot := by
  -- along the names up to the next link, from where `hgo` takes over
  induction names generalizing dir with
  | nil =>
      obtain rfl := Except.ok.inj h
      exact .done
  | cons name rest ih =>
      by_cases hnamed : name = "" ∨ name = "."
      · rw [descend, if_pos hnamed] at h
        exact .stays hnamed (ih h)
      by_cases habove : name = ".."
      · subst habove
        rw [descend, if_neg hnamed, if_pos rfl] at h
        exact .rises (ih h)
      by_cases hshort : longestName < name.utf8ByteSize
      · rw [descend, if_neg hnamed, if_neg habove, if_pos hshort] at h
        exact absurd h (by simp)
      have hname : Plain name := ⟨hnamed, habove, hshort⟩
      rw [descend_plain hname] at h
      split at h
      case h_1 hentry =>
        split at h
        · rename_i hnil
          obtain rfl := List.isEmpty_iff.mp hnil
          obtain rfl := Except.ok.inj h
          exact .vacant hname hentry
        · exact absurd h (by simp)
      case h_2 hentry => exact .enters hname hentry (ih h)
      case h_3 content mode hentry =>
        split at h
        · rename_i hnil
          obtain rfl := List.isEmpty_iff.mp hnil
          obtain rfl := Except.ok.inj h
          exact .file hname hentry
        · exact absurd h (by simp)
      case h_4 target hentry =>
        split at h
        · rename_i hend
          rw [Bool.and_eq_true, List.isEmpty_iff, Bool.not_eq_true'] at hend
          obtain ⟨rfl, hend⟩ := hend
          obtain rfl := Except.ok.inj h
          exact .link hname hentry hend
        · rename_i hmore
          cases links with
          | zero => exact absurd h (by simp [onward])
          | succ less =>
              refine .follows hname hentry ?_ (hgo _ _ less rfl h)
              simpa [or_iff_not_imp_left] using hmore

/-- **A look-up ends where it leads.** -/
theorem walk_eq_ok : t.walk follow links dir names = .ok spot ↔
    t.Leads follow links dir names spot := by
  constructor
  · intro h
    -- behind a link there is one link less to pass
    induction links generalizing dir names with
    | zero => exact leads_of_descend (fun _ _ _ hless => absurd hless (by simp)) h
    | succ links ih =>
        refine leads_of_descend (fun base names less hless h => ?_) h
        obtain rfl := Nat.succ.inj hless
        exact ih h
  · intro h
    induction h with
    | done => rw [walk_eq_descend]; rfl
    | stays hname h ih => rw [walk_eq_descend, descend, if_pos hname, ← walk_eq_descend, ih]
    | rises h ih =>
        rw [walk_eq_descend, descend, if_neg (by decide), if_pos rfl, ← walk_eq_descend, ih]
    | enters hname hentry h ih =>
        rw [walk_eq_descend, descend_plain hname, hentry]
        dsimp only
        rw [← walk_eq_descend, ih]
    | vacant hname hentry => rw [walk_eq_descend, descend_plain hname, hentry]; rfl
    | file hname hentry => rw [walk_eq_descend, descend_plain hname, hentry]; rfl
    | link hname hentry hend => rw [walk_eq_descend, descend_plain hname, hentry, hend]; rfl
    | @follows links dir name target rest spot hname hentry hmore h ih =>
        rw [walk_eq_descend, descend_plain hname, hentry]
        dsimp only
        rw [if_neg (by simpa [or_iff_not_imp_left] using hmore)]
        exact ih

namespace Leads

theorem mono {more : Nat} (h : t.Leads follow links dir names spot) (hle : links ≤ more) :
    t.Leads follow more dir names spot := by
  induction h generalizing more with
  | done => exact .done
  | stays hname h ih => exact .stays hname (ih hle)
  | rises h ih => exact .rises (ih hle)
  | enters hname hentry h ih => exact .enters hname hentry (ih hle)
  | vacant hname hentry => exact .vacant hname hentry
  | file hname hentry => exact .file hname hentry
  | link hname hentry hend => exact .link hname hentry hend
  | follows hname hentry hmore h ih =>
      obtain ⟨less, rfl⟩ := Nat.exists_eq_succ_of_ne_zero (by omega : more ≠ 0)
      exact .follows hname hentry hmore (ih (by omega))

/-- A look-up ends in one place, however many links it may pass. -/
theorem unique {more : Nat} {other : Spot} (h : t.Leads follow links dir names spot)
    (h' : t.Leads follow more dir names other) : spot = other := by
  have hw := walk_eq_ok.mpr (h.mono (Nat.le_max_left links more))
  have hw' := walk_eq_ok.mpr (h'.mono (Nat.le_max_right links more))
  exact Except.ok.inj (hw.symm.trans hw')

/-- What is found, unless it is a directory, stands where it is found. -/
theorem getElem?_found {entry : Entry} (h : t.Leads follow links dir names (.found place entry))
    (hne : entry ≠ .directory) : t.entries[place]? = some entry := by
  generalize hspot : Spot.found place entry = spot at h
  induction h with
  | done =>
      obtain ⟨-, rfl⟩ := Spot.found.inj hspot
      exact absurd rfl hne
  | stays _ _ ih | rises _ ih | enters _ _ _ ih | follows _ _ _ _ ih => exact ih hspot
  | vacant => exact absurd hspot (by simp)
  | file _ hentry | link _ hentry =>
      obtain ⟨rfl, rfl⟩ := Spot.found.inj hspot
      exact hentry

theorem getElem?_vacant (h : t.Leads follow links dir names (.vacant place)) :
    t.entries[place]? = none := by
  generalize hspot : Spot.vacant place = spot at h
  induction h with
  | done | file | link => exact absurd hspot (by simp)
  | stays _ _ ih | rises _ ih | enters _ _ _ ih | follows _ _ _ _ ih => exact ih hspot
  | vacant _ hentry =>
      obtain rfl := Spot.vacant.inj hspot
      exact hentry

/-- Whatever a look-up goes on from is a directory. -/
theorem leads_front {rest : List String} (h : t.Leads true links dir (names ++ rest) spot)
    (hmore : rest ≠ []) : ∃ there, t.Leads true links dir names (.found there .directory) := by
  generalize hall : names ++ rest = all at h
  induction h generalizing names with
  | done => exact absurd (List.append_eq_nil_iff.mp hall).2 hmore
  | @stays links dir name rest' spot hname h ih =>
      cases names with
      | nil => exact ⟨_, .done⟩
      | cons first names =>
          obtain ⟨rfl, hrest⟩ := List.cons.inj hall
          obtain ⟨there, hthere⟩ := ih hrest
          exact ⟨there, .stays hname hthere⟩
  | @rises links dir rest' spot h ih =>
      cases names with
      | nil => exact ⟨_, .done⟩
      | cons first names =>
          obtain ⟨rfl, hrest⟩ := List.cons.inj hall
          obtain ⟨there, hthere⟩ := ih hrest
          exact ⟨there, .rises hthere⟩
  | @enters links dir name rest' spot hname hentry h ih =>
      cases names with
      | nil => exact ⟨_, .done⟩
      | cons first names =>
          obtain ⟨rfl, hrest⟩ := List.cons.inj hall
          obtain ⟨there, hthere⟩ := ih hrest
          exact ⟨there, .enters hname hentry hthere⟩
  | vacant | file | link =>
      cases names with
      | nil => exact ⟨_, .done⟩
      | cons first names =>
          exact absurd (List.append_eq_nil_iff.mp (List.cons.inj hall).2).2 hmore
  | @follows links dir name target rest' spot hname hentry _ h ih =>
      cases names with
      | nil => exact ⟨_, .done⟩
      | cons first names =>
          obtain ⟨rfl, hrest⟩ := List.cons.inj hall
          have hbehind := congrArg (segments target ++ ·) hrest
          obtain ⟨there, hthere⟩ := ih ((List.append_assoc _ _ _).trans hbehind)
          exact ⟨there, .follows hname hentry (.inr rfl) hthere⟩

/-- A file that is put where there is none, or where there is a file, is in nobody's way. -/
theorem put_leaf {content : ByteArray} {mode : Nat}
    (hleaf : ∀ entry, t.entries[place]? = some entry → ∃ content mode, entry = .file content mode)
    {stop : Spine} {old : ByteArray} {was : Nat}
    (h : t.Leads true links dir names (.found stop (.file old was))) :
    ∃ now will, (t.put place (.file content mode)).Leads true links dir names
      (.found stop (.file now will)) := by
  generalize hspot : Spot.found stop (.file old was) = spot at h
  -- no directory and no link is where the file is put, so the look-up goes the same way
  have hkept : ∀ {there : Spine} {entry : Entry}, t.entries[there]? = some entry →
      (∀ content mode, entry ≠ .file content mode) →
      (t.put place (.file content mode)).entries[there]? = some entry := by
    intro there entry hentry hnot
    rw [getElem?_put, if_neg, hentry]
    rintro rfl
    obtain ⟨content, mode, rfl⟩ := hleaf entry hentry
    exact hnot content mode rfl
  induction h with
  | done | vacant => exact absurd hspot (by simp)
  | stays hname h ih =>
      obtain ⟨now, will, hnow⟩ := ih hspot
      exact ⟨now, will, .stays hname hnow⟩
  | rises h ih =>
      obtain ⟨now, will, hnow⟩ := ih hspot
      exact ⟨now, will, .rises hnow⟩
  | enters hname hentry h ih =>
      obtain ⟨now, will, hnow⟩ := ih hspot
      exact ⟨now, will, .enters hname (hkept hentry (by simp)) hnow⟩
  | @file links dir name content' mode' hname hentry =>
      obtain ⟨rfl, -⟩ := Spot.found.inj hspot
      by_cases hplace : place = dir ++ [name]
      · exact ⟨content, mode, .file hname (by rw [getElem?_put, if_pos hplace])⟩
      · exact ⟨content', mode', .file hname (by rw [getElem?_put, if_neg hplace, hentry])⟩
  | link _ _ hend => exact absurd hend (by simp)
  | follows hname hentry hmore h ih =>
      obtain ⟨now, will, hnow⟩ := ih hspot
      exact ⟨now, will, .follows hname (hkept hentry (by simp)) hmore hnow⟩

/--
What stands at the end of a location that leads to a file, links at the end not followed. It is no
directory, a file that takes its place is found by the same look-up, and if it is a link then
what it leads to is a file.
-/
theorem exists_end {stop : Spine} {old : ByteArray} {was : Nat}
    (h : t.Leads true links dir names (.found stop (.file old was))) :
    ∃ spine entry, t.Leads false links dir names (.found spine entry) ∧ entry ≠ .directory ∧
      t.entries[spine]? = some entry ∧
      (∀ target, entry = .link target → ∃ less there,
        t.Leads true less (base spine.dropLast target) (segments target)
          (.found there (.file old was))) ∧
      ∀ content mode, (t.put spine (.file content mode)).Leads true links dir names
        (.found spine (.file content mode)) := by
  generalize hspot : Spot.found stop (.file old was) = spot at h
  induction h with
  | done | vacant => exact absurd hspot (by simp)
  | stays hname h ih =>
      obtain ⟨spine, entry, hends, hne, hentry, hlink, hput⟩ := ih hspot
      exact ⟨spine, entry, .stays hname hends, hne, hentry, hlink, fun content mode =>
        .stays hname (hput content mode)⟩
  | rises h ih =>
      obtain ⟨spine, entry, hends, hne, hentry, hlink, hput⟩ := ih hspot
      exact ⟨spine, entry, .rises hends, hne, hentry, hlink, fun content mode =>
        .rises (hput content mode)⟩
  | enters hname hdir h ih =>
      obtain ⟨spine, entry, hends, hne, hentry, hlink, hput⟩ := ih hspot
      refine ⟨spine, entry, .enters hname hdir hends, hne, hentry, hlink, fun content mode =>
        .enters hname ?_ (hput content mode)⟩
      -- the directory is not what is replaced, for at the end there is none
      rw [getElem?_put, if_neg, hdir]
      rintro rfl
      exact hne (Option.some.inj (hentry.symm.trans hdir))
  | file hname hentry =>
      exact ⟨_, _, .file hname hentry, by simp, hentry, by simp, fun content mode =>
        .file hname (by rw [getElem?_put, if_pos rfl])⟩
  | link _ _ hend => exact absurd hend (by simp)
  | @follows links dir name target rest spot hname hfound hmore h ih =>
      by_cases hnil : rest = []
      · -- the link is what stands at the end
        subst hnil
        rw [List.append_nil, ← hspot] at h
        refine ⟨_, _, .link hname hfound rfl, by simp, hfound, fun other hother => ?_,
          fun content mode => .file hname (by rw [getElem?_put, if_pos rfl])⟩
        obtain rfl := Entry.link.inj hother
        rw [List.dropLast_concat]
        exact ⟨links, stop, h⟩
      · obtain ⟨spine, entry, hends, hne, hentry, hlink, hput⟩ := ih hspot
        refine ⟨spine, entry, .follows hname hfound (.inl hnil) hends, hne, hentry, hlink,
          fun content mode => .follows hname ?_ hmore (hput content mode)⟩
        rw [getElem?_put, if_neg, hfound]
        rintro rfl
        -- the link would lead to a directory on the way, and to a file at the end
        obtain rfl := Option.some.inj (hfound.symm.trans hentry)
        obtain ⟨less, there, hfile⟩ := hlink target rfl
        rw [List.dropLast_concat] at hfile
        obtain ⟨other, hdir⟩ := h.leads_front hnil
        exact absurd (hfile.unique hdir) (by simp)

end Leads

/-! ## Files -/

theorem look_eq_ok (h : t.look follow location = .ok spot) :
    location.isEmpty = false ∧ t.Leads follow mostLinks [] (segments location) spot := by
  rw [look] at h
  split at h
  · exact absurd h (by simp)
  · rename_i hempty
    exact ⟨Bool.not_eq_true _ |>.mp hempty, walk_eq_ok.mp h⟩

theorem look_of_leads (hempty : location.isEmpty = false)
    (h : t.Leads follow mostLinks [] (segments location) spot) : t.look follow location = .ok spot := by
  rw [look, hempty, if_neg Bool.false_ne_true]
  exact walk_eq_ok.mpr h

theorem look_of_entry {entry : Entry} (h : t.entry follow location = .ok (place, entry)) :
    t.look follow location = .ok (.found place entry) := by
  rw [FileTree.entry] at h
  split at h
  · rename_i spine found hlook
    obtain ⟨rfl, rfl⟩ := Prod.mk.inj (Except.ok.inj h)
    exact hlook
  · exact absurd h (by simp)
  · exact absurd h (by simp)

theorem entry_of_look {entry : Entry} (h : t.look follow location = .ok (.found place entry)) :
    t.entry follow location = .ok (place, entry) := by
  rw [FileTree.entry, h]

/-- A file is read at a location. -/
def ReadsFile (t : FileTree) (location : String) : Prop :=
  ∃ place content mode, t.entry true location = .ok (place, .file content mode)

theorem readsFile_of_read {bytes : ByteArray} (h : t.read location = .ok bytes) :
    t.ReadsFile location := by
  rw [read] at h
  split at h
  · rename_i place content mode hentry
    exact ⟨place, content, mode, hentry⟩
  · exact absurd h (by simp)
  · exact absurd h (by simp)

/--
What is read at a location is read there still when a file has been put where none is in the way.
-/
theorem ReadsFile.put_leaf {content : ByteArray} {mode : Nat} (h : t.ReadsFile location)
    (hleaf : ∀ entry, t.entries[place]? = some entry → ∃ content mode, entry = .file content mode) :
    (t.put place (.file content mode)).ReadsFile location := by
  obtain ⟨stop, old, was, hentry⟩ := h
  obtain ⟨hempty, hleads⟩ := look_eq_ok (look_of_entry hentry)
  obtain ⟨now, will, hnow⟩ := hleads.put_leaf hleaf
  exact ⟨stop, now, will, entry_of_look (look_of_leads hempty hnow)⟩

theorem ReadsFile.write {other : String} {content : ByteArray} {mode : Nat} {after : FileTree}
    (h : t.ReadsFile location) (hw : t.write other content mode = .ok after) :
    after.ReadsFile location := by
  rw [FileTree.write] at hw
  split at hw
  · rename_i spine found old hlook
    obtain rfl := Except.ok.inj hw
    have hfound := (look_eq_ok hlook).2.getElem?_found (by simp)
    exact h.put_leaf fun entry he => ⟨_, _, (Option.some.inj (hfound.symm.trans he)).symm⟩
  · exact absurd hw (by simp)
  · rename_i spine hlook
    obtain rfl := Except.ok.inj hw
    have hnone := (look_eq_ok hlook).2.getElem?_vacant
    exact h.put_leaf fun entry he => absurd (hnone.symm.trans he) (by simp)
  · exact absurd hw (by simp)

theorem ReadsFile.setMode {other : String} {mode : Nat} {after : FileTree}
    (h : t.ReadsFile location) (hm : t.setMode other mode = .ok after) :
    after.ReadsFile location := by
  rw [FileTree.setMode] at hm
  split at hm
  · rename_i spine content old hentry
    obtain rfl := Except.ok.inj hm
    have hfound := (look_eq_ok (look_of_entry hentry)).2.getElem?_found (by simp)
    exact h.put_leaf fun entry he => ⟨_, _, (Option.some.inj (hfound.symm.trans he)).symm⟩
  · exact Except.ok.inj hm ▸ h
  · exact absurd hm (by simp)

theorem ReadsFile.copy {source target : String} {after : FileTree} (h : t.ReadsFile location)
    (hc : t.copy source target = .ok after) : after.ReadsFile location := by
  rw [FileTree.copy] at hc
  split at hc
  · rename_i content mode _
    cases hw : t.write target content mode with
    | error e =>
        rw [hw] at hc
        exact absurd hc (by simp [bind, Except.bind])
    | ok written =>
        rw [hw] at hc
        exact (h.write hw).setMode hc
  · exact absurd hc (by simp)
  · exact absurd hc (by simp)

/-- **What takes the place of a file is read there.** -/
theorem ReadsFile.replace (h : t.ReadsFile location) (content : ByteArray) :
    ∃ after, t.replace location content = .ok after ∧ after.read location = .ok content := by
  obtain ⟨stop, old, mode, hentry⟩ := h
  obtain ⟨hempty, hleads⟩ := look_eq_ok (look_of_entry hentry)
  obtain ⟨spine, entry, hends, -, -, -, hput⟩ := hleads.exists_end
  refine ⟨t.put spine (.file content mode), ?_, ?_⟩
  · rw [FileTree.replace, hentry, look_of_leads hempty hends]
  · rw [read, entry_of_look (look_of_leads hempty (hput content mode))]

end LinkKeeper.FileTree
