import LinkKeeper.Notification
import LinkKeeper.Proofs.Locations
import Mathlib.Data.List.Infix
import Mathlib.Data.List.Nodup
import Mathlib.Data.List.Perm.Subperm

/-!
# Notifications of the library's own writes

A file is replaced by renaming a temporary file onto it, and the system notifies of that as of
anything else: the temporary file is created and written, it leaves, something arrives in the
place of the file, and then both ends are reported. Only the cookie tells that what has arrived
was the temporary file. It is remembered when the temporary file leaves and forgotten when both
ends are reported.

Several replacements may be under way, among notifications of what others do. `Replacing` says
which cookies are remembered then: those of the replacements whose temporary file has left, and
those that would be remembered without the replacements. No cookie is lost as long as there is
room for all that are waited for.
-/

namespace LinkKeeper

open Text

namespace Path

/-- The last name of a location is its last component. -/
theorem exists_components {dir name : String} (hname : IsName name.toList)
    (hplain : '/' ∉ name.toList) :
    ∃ front, components (dir ++ "/" ++ name) = front ++ [name.toList] := by
  have hslash : "/".toList = ['/'] := rfl
  have hsplit : splitWhere (· == '/') (dir ++ "/" ++ name).toList =
      splitWhere (· == '/') dir.toList ++ [name.toList] := by
    rw [String.toList_append, String.toList_append, hslash, List.append_assoc,
      List.singleton_append, splitWhere_append_cons (p := (· == '/')) rfl,
      splitWhere_of_none (not_isSlash hplain)]
  obtain ⟨first, rest, hdir⟩ := List.exists_cons_of_ne_nil
    (splitWhere_ne_nil (· == '/') dir.toList)
  have hlast : ([name.toList].filter fun s => s ≠ [] ∧ s ≠ here) = [name.toList] :=
    List.filter_cons_of_pos (decide_eq_true ⟨hname.1, hname.2.1⟩)
  rw [components, hsplit, hdir]
  dsimp only [List.cons_append]
  rw [List.filter_append, hlast]
  split
  · split
    · exact ⟨_, rfl⟩
    · exact ⟨['/'] :: _, rfl⟩
  · exact ⟨first :: _, rfl⟩

/-- A path that a location is read as has the last name of the location, or is the root. -/
theorem baseName_of_fromRoot? {root location path : String} {front : List (List Char)}
    {name : List Char} (hcomponents : components location = front ++ [name]) (hname : IsName name)
    (hplain : ∀ c ∈ name, isSeparator c = false) (h : fromRoot? root location = some path) :
    path = "" ∨ baseName path = String.ofList name := by
  rw [fromRoot?] at h
  obtain ⟨rest, hrest, hpath⟩ := Option.bind_eq_some_iff.mp h
  rw [isPrefixOf?_eq_some, hcomponents] at hrest
  dsimp only at hpath
  split at hpath
  · exact absurd hpath (by simp)
  obtain rfl := Option.some.inj hpath
  rcases List.eq_nil_or_concat rest with rfl | ⟨between, last, rfl⟩
  · exact .inl rfl
  · rw [List.concat_eq_append] at hrest ⊢
    rw [← List.append_assoc] at hrest
    obtain rfl : name = last := List.singleton_injective (List.append_inj' hrest rfl).2
    obtain ⟨others, hpieces⟩ : ∃ others, pieces (join (between ++ [name])) = others ++ [name] := by
      rw [pieces, toList_join]
      by_cases hbetween : between = []
      · exact ⟨[], by rw [hbetween, List.nil_append, intercalate_singleton,
          splitWhere_of_none hplain]⟩
      · rw [intercalate_append hbetween (by simp), intercalate_singleton,
          splitWhere_append_cons isSeparator_slash, splitWhere_of_none hplain]
        exact ⟨_, rfl⟩
    have hsegments : segments (join (between ++ [name])) = collapse others ++ [name] := by
      rw [segments_eq, hpieces, collapse_append_singleton, push_name hname, List.reverse_cons,
        List.reverse_reverse]
    rw [normalize, hsegments]
    exact .inr (baseName_join hplain)

end Path

/-- A location of a temporary file of the library: a name in some directory. -/
def IsTemporaryLocation (location : String) : Prop :=
  ∃ dir middle : String,
    location = dir ++ "/" ++ (Settings.temporaryStart ++ middle ++ Settings.temporaryEnding) ∧
    ∀ c ∈ middle.toList, Path.isSeparator c = false

namespace Ingress

variable {g : Ingress} {location : String}

/-- The name of a temporary file is a name, and is known as one of the library's own. -/
theorem temporary_name {name middle : String}
    (hname : name = Settings.temporaryStart ++ middle ++ Settings.temporaryEnding) :
    Path.IsName name.toList ∧ name.startsWith Settings.temporaryStart = true ∧
      name.endsWith Settings.temporaryEnding = true := by
  have htext : name.toList = Settings.temporaryStart.toList ++
      (middle.toList ++ Settings.temporaryEnding.toList) := by
    rw [hname, String.toList_append, String.toList_append, List.append_assoc]
  have hstart : Settings.temporaryStart.toList = '.' :: 'l' :: "inkmend-".toList := rfl
  refine ⟨?_, ?_, ?_⟩
  · rw [htext, hstart]
    exact ⟨by simp, by simp [Path.here], by simp [Path.above]⟩
  · rw [String.startsWith_string_iff, htext]
    exact List.prefix_append _ _
  · rw [String.endsWith_eq_endsWith_toSlice, String.Slice.endsWith_string_iff,
      String.copy_toSlice, htext, ← List.append_assoc]
    exact List.suffix_append _ _

theorem exists_components_temporary (h : IsTemporaryLocation location) :
    ∃ (front : List (List Char)) (name : String),
      Path.components location = front ++ [name.toList] ∧ Path.IsName name.toList ∧
      (∀ c ∈ name.toList, Path.isSeparator c = false) ∧
      name.startsWith Settings.temporaryStart = true ∧
      name.endsWith Settings.temporaryEnding = true := by
  obtain ⟨dir, middle, hlocation, hplain⟩ := h
  generalize hname : Settings.temporaryStart ++ middle ++ Settings.temporaryEnding = name
    at hlocation
  obtain ⟨his, hstarts, hends⟩ := temporary_name hname.symm
  have hstart : ∀ c ∈ Settings.temporaryStart.toList, Path.isSeparator c = false := by
    simp [Settings.temporaryStart, Path.isSeparator]
  have hend : ∀ c ∈ Settings.temporaryEnding.toList, Path.isSeparator c = false := by
    simp [Settings.temporaryEnding, Path.isSeparator]
  have hchars : ∀ c ∈ name.toList, Path.isSeparator c = false := by
    intro c hc
    rw [← hname, String.toList_append, String.toList_append, List.mem_append,
      List.mem_append] at hc
    exact hc.elim (fun h => h.elim (hstart c) (hplain c)) (hend c)
  obtain ⟨front, hcomponents⟩ :
      ∃ front, Path.components (dir ++ "/" ++ name) = front ++ [name.toList] :=
    Path.exists_components his (Path.slash_not_mem hchars)
  exact ⟨front, name, hlocation ▸ hcomponents, his, hchars, hstarts, hends⟩

/-- A temporary file is recognised. -/
theorem isTemporary_of_location (h : IsTemporaryLocation location) :
    isTemporary location = true := by
  obtain ⟨front, name, hcomponents, -, -, hstarts, hends⟩ := exists_components_temporary h
  rw [isTemporary, hcomponents, List.getLast?_concat]
  dsimp only
  rw [String.ofList_toList, hstarts, hends, Bool.and_self]

/-- A temporary file is passed over. -/
theorem accept_eq_none (h : IsTemporaryLocation location) : g.accept location = none := by
  obtain ⟨front, name, hcomponents, his, hchars, hstarts, hends⟩ := exists_components_temporary h
  rw [accept, Option.filter_eq_none_iff]
  intro path hpath
  rcases Path.baseName_of_fromRoot? hcomponents his hchars hpath with rfl | hbase
  · simp
  · rw [String.ofList_toList] at hbase
    have hown : Settings.isOwnName name = true := by
      rw [Settings.isOwnName, hstarts, hends, Bool.and_self, Bool.or_true]
    simp [Project.ignores, Settings.ignores, hbase, hown]

/-! ## What is remembered -/

/-- What a notification does to the cookies that are remembered. -/
inductive Recall where
  | keeps
  | learns (cookie : Nat)
  | forgets (cookie : Nat)

/-- A temporary file leaves, or both ends of a rename are reported. -/
def recollection (g : Ingress) (n : Notification) : Recall :=
  match n.change, n.locations, n.cookie with
  | .renamed .source, first :: _, some c =>
      if isTemporary first && (g.accept first).isNone then .learns c else .keeps
  | .renamed .both, _ :: _ :: _, some c => .forgets c
  | _, _, _ => .keeps

/-- The cookies after a notification. -/
def Recall.after (s : Suppressed) : Recall → Suppressed
  | keeps => s
  | learns c => suppress s c
  | forgets c => s.filter (c != ·)

/-- What is remembered after a rename. -/
theorem rename_snd (g : Ingress) (ends : RenameEnds) (locations : List String)
    (cookie : Option Nat) :
    (g.rename ends locations cookie).2 =
      (g.recollection ⟨.renamed ends, locations, cookie⟩).after g.suppressed := by
  fun_cases rename g ends locations cookie
  case case1 => cases ends <;> rfl
  case case2 first second rest hremembered =>
    cases cookie with
    | none => exact absurd hremembered Bool.false_ne_true
    | some c => exact List.filter_congr fun d _ => Bool.eq_iff_iff.mpr (by simp)
  case case3 first second rest hunknown =>
    cases cookie with
    | none => rfl
    | some c =>
        refine (List.filter_eq_self.mpr fun d hd => bne_iff_ne.mpr ?_).symm
        rintro rfl
        exact hunknown (by simpa [isSuppressed] using hd)
  case case5 first rest path haccept => cases cookie <;> simp [recollection, haccept, Recall.after]
  case case6 first rest haccept c =>
    cases h : isTemporary first <;> simp [recollection, haccept, h, Recall.after]
  case case14 first rest _ hsource hboth _ =>
    cases ends with
    | any | other | target => rfl
    | source => exact (hsource rfl).elim
    | both => cases rest with
      | nil => rfl
      | cons second more => exact (hboth second more rfl rfl).elim
  all_goals rfl

/-- What is remembered after a notification. -/
theorem receive_snd (g : Ingress) (n : Notification) :
    (g.receive n).2 = (g.recollection n).after g.suppressed := by
  obtain ⟨change, locations, cookie⟩ := n
  cases change with
  | renamed ends => exact g.rename_snd ends locations cookie
  | content | created _ | metadata | removed _ | irrelevant => rfl

/-- The events of a rename depend on whether its own cookie is remembered, and on no other. -/
theorem rename_fst_congr (g : Ingress) {s : Suppressed} (ends : RenameEnds)
    (locations : List String) (cookie : Option Nat)
    (h : g.isSuppressed cookie = { g with suppressed := s }.isSuppressed cookie) :
    (g.rename ends locations cookie).1 =
      ({ g with suppressed := s }.rename ends locations cookie).1 := by
  have haccept : ∀ location, { g with suppressed := s }.accept location = g.accept location :=
    fun _ => rfl
  fun_cases rename g ends locations cookie <;> simp_all [rename, renamedBoth, renamedTo, arrival]

/-- The events of a notification depend on whether its own cookie is remembered, and on no other. -/
theorem receive_fst_congr (g : Ingress) {s : Suppressed} (n : Notification)
    (h : ∀ c, n.cookie = some c → (c ∈ g.suppressed ↔ c ∈ s)) :
    (g.receive n).1 = ({ g with suppressed := s }.receive n).1 := by
  obtain ⟨change, locations, cookie⟩ := n
  have hsame : g.isSuppressed cookie = { g with suppressed := s }.isSuppressed cookie := by
    cases cookie with
    | none => rfl
    | some c => simp [isSuppressed, h c rfl]
  cases change with
  | renamed ends => exact g.rename_fst_congr ends locations cookie hsame
  | content | created _ | metadata | removed _ | irrelevant => rfl

theorem mem_suppress {s : Suppressed} {c d : Nat} (hroom : s.length < mostSuppressed) :
    d ∈ suppress s c ↔ d = c ∨ d ∈ s := by
  rw [suppress, if_neg (Nat.not_le.mpr hroom)]
  split
  · rename_i hmem
    refine ⟨.inr, fun h => h.elim (fun heq => ?_) id⟩
    exact heq ▸ List.contains_iff_mem.mp hmem
  · exact List.mem_cons

theorem nodup_suppress {s : Suppressed} {c : Nat} (h : s.Nodup) : (suppress s c).Nodup := by
  rw [suppress]
  split
  · simp
  · split
    · exact h
    · rename_i hmem
      exact List.nodup_cons.mpr ⟨fun hc => hmem (List.contains_iff_mem.mpr hc), h⟩

theorem length_suppress_le {s : Suppressed} {c : Nat} : (suppress s c).length ≤ mostSuppressed := by
  rw [suppress]
  split
  · exact Nat.le_trans (by simp : _ ≤ 1) (by decide)
  · rename_i hfull
    split
    · omega
    · rw [List.length_cons]
      omega

namespace Recall

variable {change : Recall} {s : Suppressed} {c : Nat}

/-- What is remembered then, unless the cookies are too many. -/
theorem mem_after (hroom : ∀ d, change = learns d → s.length < mostSuppressed) :
    c ∈ change.after s ↔ change = learns c ∨ (c ∈ s ∧ change ≠ forgets c) := by
  cases change with
  | keeps => simp [after]
  | learns d => simp [after, mem_suppress (hroom d rfl), eq_comm]
  | forgets d => simp [after]

theorem nodup_after (h : s.Nodup) : (change.after s).Nodup := by
  cases change with
  | keeps => exact h
  | learns d => exact nodup_suppress h
  | forgets d => exact h.filter _

/-- There are never too many. -/
theorem length_after_le (h : s.length ≤ mostSuppressed) :
    (change.after s).length ≤ mostSuppressed := by
  cases change with
  | keeps => exact h
  | learns d => exact length_suppress_le
  | forgets d => exact Nat.le_trans (List.length_filter_le _ _) h

end Recall

end Ingress

/-! ## What is waited for -/

/-- The cookies under which a temporary file has left, as long as both ends are not reported. -/
def await (waiting : List Nat) (n : Notification) : List Nat :=
  match n.change, n.locations, n.cookie with
  | .renamed .source, first :: _, some c =>
      if Ingress.isTemporary first then c :: waiting else waiting
  | .renamed .both, _ :: _ :: _, some c => waiting.filter (c != ·)
  | _, _, _ => waiting

/-- The cookies that are waited for after some notifications. -/
def awaited (notifications : List Notification) : List Nat := notifications.foldl await []

namespace Ingress

variable {g : Ingress} {n : Notification} {waiting : List Nat} {c : Nat}

/-- What is learnt is waited for. -/
theorem await_of_learns (waiting : List Nat) (h : g.recollection n = .learns c) :
    await waiting n = c :: waiting ∧ n.cookie = some c := by
  obtain ⟨change, locations, cookie⟩ := n
  unfold recollection at h
  split at h
  · rename_i first rest d hchange hlocations hcookie
    dsimp only at hchange hlocations hcookie
    subst hchange hlocations hcookie
    split at h
    · rename_i htemporary
      obtain rfl := Recall.learns.inj h
      refine ⟨?_, rfl⟩
      rw [await]
      exact if_pos (Bool.and_eq_true_iff.mp htemporary).1
    · exact absurd h (by simp)
  · exact absurd h (by simp)
  · exact absurd h (by simp)

/-- What is no longer waited for is forgotten. -/
theorem recollection_of_not_mem_await (hmem : c ∈ waiting) (h : c ∉ await waiting n) :
    g.recollection n = .forgets c := by
  obtain ⟨change, locations, cookie⟩ := n
  unfold await at h
  split at h
  · split at h
    · exact absurd (List.mem_cons_of_mem _ hmem) h
    · exact absurd hmem h
  · rename_i first second rest d hchange hlocations hcookie
    dsimp only at hchange hlocations hcookie
    subst hchange hlocations hcookie
    have heq : d = c := by simpa [hmem] using h
    rw [← heq]
    rfl
  · exact absurd hmem h

/-- A cookie is forgotten by a notification that comes under it. -/
theorem cookie_of_forgets (h : g.recollection n = .forgets c) : n.cookie = some c := by
  obtain ⟨change, locations, cookie⟩ := n
  unfold recollection at h
  split at h
  · split at h <;> exact absurd h (by simp)
  · rename_i hcookie
    exact hcookie.trans (congrArg some (Recall.forgets.inj h))
  · exact absurd h (by simp)

/-- As long as only what is waited for is remembered, there is room. -/
theorem room_of_subset {s : Suppressed} (hs : s.Nodup) (hsub : s ⊆ waiting)
    (hroom : (await waiting n).length ≤ mostSuppressed) (d : Nat)
    (h : g.recollection n = .learns d) : s.length < mostSuppressed := by
  have hle := (hs.subperm hsub).length_le
  rw [(await_of_learns _ h).1, List.length_cons] at hroom
  omega

/-- Only what is waited for is remembered. -/
theorem after_subset_await {s : Suppressed} (hs : s.Nodup) (hsub : s ⊆ waiting)
    (hroom : (await waiting n).length ≤ mostSuppressed) :
    (g.recollection n).after s ⊆ await waiting n := by
  intro c hc
  rw [Recall.mem_after (room_of_subset hs hsub hroom)] at hc
  rcases hc with hlearnt | ⟨hmem, hkept⟩
  · rw [(await_of_learns _ hlearnt).1]
    exact List.mem_cons_self
  · by_contra hnot
    exact hkept (recollection_of_not_mem_await (hsub hmem) hnot)

end Ingress

/-! ## Replacements -/

/-- The replacement of a file by way of a temporary one. -/
structure Replacement where
  temporary : String
  location : String
  /-- The path of the file in the tree. -/
  path : String
  cookie : Nat
  deriving DecidableEq, Repr

namespace Replacement

/-- The temporary file appears. -/
def creation (r : Replacement) : Notification := ⟨.created false, [r.temporary], none⟩

/-- The temporary file is written. -/
def writing (r : Replacement) : Notification := ⟨.content, [r.temporary], none⟩

/-- The temporary file leaves. -/
def departure (r : Replacement) : Notification :=
  ⟨.renamed .source, [r.temporary], some r.cookie⟩

/-- Something arrives in the place of the file. -/
def arrival (r : Replacement) : Notification := ⟨.renamed .target, [r.location], some r.cookie⟩

/-- Both ends of the rename. -/
def summary (r : Replacement) : Notification :=
  ⟨.renamed .both, [r.temporary, r.location], some r.cookie⟩

/-- All that the system notifies of, in order. -/
def notifications (r : Replacement) : List Notification :=
  [r.creation, r.writing, r.departure, r.arrival, r.summary]

/-- A replacement of a file of a tree. -/
structure Of (p : Project) (r : Replacement) : Prop where
  temporary : IsTemporaryLocation r.temporary
  accepted : ∀ tree suppressed, Ingress.accept ⟨p, tree, suppressed⟩ r.location = some r.path

/-- Whether only the arrival, or only the summary, is still to come. -/
def Departed (r : Replacement) (left : List Notification) : Prop :=
  left = [r.arrival, r.summary] ∨ left = [r.summary]

end Replacement

/-- A notification as it is delivered. -/
structure Delivery where
  /-- The replacement that it is about, unless others have caused it. -/
  origin : Option Replacement
  /-- What is there when it is taken in. -/
  tree : FileTree
  notification : Notification

namespace Delivery

/-- Takes a notification in. -/
def takeIn (p : Project) (s : Suppressed) (d : Delivery) : List RawEvent × Suppressed :=
  ({ project := p, tree := d.tree, suppressed := s : Ingress }).receive d.notification

/-- What a notification does to the cookies that are remembered. -/
def recalled (p : Project) (d : Delivery) : Ingress.Recall :=
  Ingress.recollection ⟨p, d.tree, []⟩ d.notification

/-- Takes notifications in one by one: the events of each, and the cookies remembered then. -/
def takeAll (p : Project) (s : Suppressed) :
    List Delivery → List (Delivery × List RawEvent) × Suppressed
  | [] => ([], s)
  | d :: rest =>
      let (events, s) := d.takeIn p s
      let (later, s) := takeAll p s rest
      ((d, events) :: later, s)

/-- The deliveries of a replacement, or of what others cause. -/
def of (origin : Option Replacement) (all : List Delivery) : List Delivery :=
  all.filter (·.origin == origin)

/-- The events of a replacement, or of what others cause. -/
def heard (origin : Option Replacement) (results : List (Delivery × List RawEvent)) :
    List (Delivery × List RawEvent) :=
  results.filter (·.1.origin == origin)

/-- What is still to come of a replacement. -/
def left (r : Replacement) (rest : List Delivery) : List Notification :=
  (of (some r) rest).map (·.notification)

variable {p : Project} {d : Delivery} {rest : List Delivery} {r t : Replacement}

theorem takeAll_cons (p : Project) (s : Suppressed) (d : Delivery) (rest : List Delivery) :
    (takeAll p s (d :: rest)).1 =
      (d, (d.takeIn p s).1) :: (takeAll p (d.takeIn p s).2 rest).1 := rfl

theorem takeIn_snd (p : Project) (s : Suppressed) (d : Delivery) :
    (d.takeIn p s).2 = (d.recalled p).after s := Ingress.receive_snd _ _

/-- What is remembered of a notification, unless the cookies are too many. -/
theorem mem_takeIn {s : Suppressed} {c : Nat}
    (hroom : ∀ e, d.recalled p = .learns e → s.length < Ingress.mostSuppressed) :
    c ∈ (d.takeIn p s).2 ↔
      d.recalled p = .learns c ∨ (c ∈ s ∧ d.recalled p ≠ .forgets c) := by
  rw [takeIn_snd]
  exact Ingress.Recall.mem_after hroom

theorem nodup_takeIn {s : Suppressed} (h : s.Nodup) : (d.takeIn p s).2.Nodup :=
  takeIn_snd p s d ▸ Ingress.Recall.nodup_after h

theorem takeIn_subset_await {s : Suppressed} {waiting : List Nat} (hs : s.Nodup)
    (hsub : s ⊆ waiting)
    (hroom : (await waiting d.notification).length ≤ Ingress.mostSuppressed) :
    (d.takeIn p s).2 ⊆ await waiting d.notification :=
  takeIn_snd p s d ▸ Ingress.after_subset_await hs hsub hroom

theorem left_cons_own (h : d.origin = some r) :
    left r (d :: rest) = d.notification :: left r rest := by
  simp [left, of, h]

theorem left_cons_other (h : d.origin ≠ some r) : left r (d :: rest) = left r rest := by
  simp [left, of, h]

theorem heard_cons_own {events : List RawEvent} {results : List (Delivery × List RawEvent)}
    {origin : Option Replacement} (h : d.origin = origin) :
    heard origin ((d, events) :: results) = (d, events) :: heard origin results := by
  simp [heard, h]

theorem heard_cons_other {events : List RawEvent} {results : List (Delivery × List RawEvent)}
    {origin : Option Replacement} (h : d.origin ≠ origin) :
    heard origin ((d, events) :: results) = heard origin results := by
  simp [heard, h]

end Delivery

open Delivery

namespace Replacement

variable {p : Project} {r : Replacement} {n : Notification} {g : Ingress}
  {left : List Notification}

/-- The next notification of a replacement, and what is left of it then. -/
theorem next_cases (h : n :: left <:+ r.notifications) :
    (n = r.creation ∧ left = [r.writing, r.departure, r.arrival, r.summary]) ∨
      (n = r.writing ∧ left = [r.departure, r.arrival, r.summary]) ∨
      (n = r.departure ∧ left = [r.arrival, r.summary]) ∨
      (n = r.arrival ∧ left = [r.summary]) ∨ (n = r.summary ∧ left = []) := by
  simpa [notifications, List.suffix_cons_iff] using h

/-- What a replacement is seen as: a change of its file, when something arrives in its place. -/
def meaning (r : Replacement) (n : Notification) : List RawEvent :=
  if n = r.arrival then [.modified r.path] else []

/-- A temporary file is never heard of by itself. -/
theorem receive_temporary (h : r.Of g.project) (hn : n = r.creation ∨ n = r.writing) :
    g.receive n = ([], g.suppressed) := by
  have hnone : g.accept r.temporary = none := Ingress.accept_eq_none h.temporary
  rcases hn with rfl | rfl
  · simp [Ingress.receive, creation, hnone]
  · simp only [Ingress.receive, writing]
    rw [List.filterMap_eq_nil_iff.mpr fun location hlocation => ?_]
    obtain rfl := List.mem_singleton.mp (List.mem_of_mem_filter hlocation)
    rw [hnone]
    rfl

/-- While it is remembered that the temporary file has left, the rest is heard of as a change. -/
theorem receive_own (h : r.Of g.project) (hnext : n :: left <:+ r.notifications)
    (hs : r.cookie ∈ g.suppressed ↔ r.Departed (n :: left)) :
    (g.receive n).1 = r.meaning n := by
  have hremembered : r.Departed (n :: left) → g.isSuppressed (some r.cookie) = true :=
    fun hd => List.contains_iff_mem.mpr (hs.mpr hd)
  rcases next_cases hnext with ⟨rfl, -⟩ | ⟨rfl, -⟩ | ⟨rfl, -⟩ | ⟨rfl, hleft⟩ | ⟨rfl, hleft⟩
  · rw [receive_temporary h (.inl rfl), meaning, if_neg (by simp [creation, arrival])]
  · rw [receive_temporary h (.inr rfl), meaning, if_neg (by simp [writing, arrival])]
  · have hnone : g.accept r.temporary = none := Ingress.accept_eq_none h.temporary
    rw [meaning, if_neg (by simp [departure, arrival])]
    simp [Ingress.receive, Ingress.rename, departure, hnone]
  · have haccepted : g.accept r.location = some r.path := h.accepted g.tree g.suppressed
    rw [meaning, if_pos rfl]
    simp [Ingress.receive, Ingress.rename, arrival, haccepted, hremembered (.inl (hleft ▸ rfl))]
  · rw [meaning, if_neg (by simp [summary, arrival])]
    simp [Ingress.receive, Ingress.rename, summary, hremembered (.inr (hleft ▸ rfl))]

/-- What is remembered because of a replacement is its cookie, from the departure to the summary. -/
theorem recollection_own (h : r.Of g.project) (hnext : n :: left <:+ r.notifications) :
    (∀ c, c ≠ r.cookie → g.recollection n ≠ .learns c ∧ g.recollection n ≠ .forgets c) ∧
      (g.recollection n = .learns r.cookie ∨
          (r.Departed (n :: left) ∧ g.recollection n ≠ .forgets r.cookie) ↔ r.Departed left) := by
  have hnone : g.accept r.temporary = none := Ingress.accept_eq_none h.temporary
  have htemporary := Ingress.isTemporary_of_location h.temporary
  rcases next_cases hnext with ⟨rfl, rfl⟩ | ⟨rfl, rfl⟩ | ⟨rfl, rfl⟩ | ⟨rfl, rfl⟩ | ⟨rfl, rfl⟩
  · simp [Ingress.recollection, Departed, creation, writing, departure, arrival, summary]
  · simp [Ingress.recollection, Departed, writing, departure, arrival, summary]
  · have hlearns : g.recollection r.departure = .learns r.cookie := by
      simp [Ingress.recollection, departure, hnone, htemporary]
    rw [hlearns]
    exact ⟨fun c hc => ⟨fun heq => hc (Ingress.Recall.learns.inj heq).symm, by simp⟩,
      by simp [Departed]⟩
  · simp [Ingress.recollection, Departed, arrival, summary]
  · have hforgets : g.recollection r.summary = .forgets r.cookie := rfl
    rw [hforgets]
    exact ⟨fun c hc => ⟨by simp, fun heq => hc (Ingress.Recall.forgets.inj heq).symm⟩,
      by simp [Departed]⟩

end Replacement

/-! ## Several replacements at once -/

/--
Several replacements are under way. The cookies remembered are those of the replacements whose
temporary file has left, besides what would be remembered without the replacements.
-/
structure Replacing (p : Project) (rewrites : List Replacement) (waiting : List Nat)
    (rest : List Delivery) (s alone : Suppressed) : Prop where
  stage : ∀ r ∈ rewrites, left r rest <:+ r.notifications
  nodup : s.Nodup
  nodup_alone : alone.Nodup
  waited : s ⊆ waiting
  own : ∀ r ∈ rewrites, (r.cookie ∈ s ↔ r.Departed (left r rest)) ∧ r.cookie ∉ alone
  others : ∀ c, (∀ r ∈ rewrites, r.cookie ≠ c) → (c ∈ s ↔ c ∈ alone)

namespace Replacing

variable {p : Project} {rewrites : List Replacement} {waiting : List Nat} {d : Delivery}
  {rest : List Delivery} {s alone : Suppressed} {r : Replacement}

theorem alone_subset (h : Replacing p rewrites waiting rest s alone) : alone ⊆ s := by
  intro c hc
  refine (h.others c fun r hr heq => ?_).mpr hc
  exact (h.own r hr).2 (heq ▸ hc)

/-- The next notification of a replacement is heard of as it should be. -/
theorem step_own (h : Replacing p rewrites waiting (d :: rest) s alone)
    (hcookies : (rewrites.map (·.cookie)).Nodup) (hr : r ∈ rewrites) (hof : r.Of p)
    (horigin : d.origin = some r)
    (hroom : (await waiting d.notification).length ≤ Ingress.mostSuppressed) :
    (d.takeIn p s).1 = r.meaning d.notification ∧
      Replacing p rewrites (await waiting d.notification) rest (d.takeIn p s).2 alone := by
  have hnext := h.stage r hr
  have hown := (h.own r hr).1
  rw [left_cons_own horigin] at hnext hown
  obtain ⟨hothers, hstage⟩ :=
    Replacement.recollection_own (g := ⟨p, d.tree, []⟩) (n := d.notification) hof hnext
  have hmem : ∀ c, _ := fun c => mem_takeIn (p := p) (d := d) (c := c)
    (Ingress.room_of_subset h.nodup h.waited hroom)
  have hleft : ∀ t, t ≠ r → left t (d :: rest) = left t rest := by
    intro t hne
    exact left_cons_other fun heq => hne (Option.some.inj (heq.symm.trans horigin))
  have hsame : ∀ c, c ≠ r.cookie → (c ∈ (d.takeIn p s).2 ↔ c ∈ s) := by
    intro c hc
    rw [hmem, recalled]
    simp [hothers c hc]
  refine ⟨Replacement.receive_own (g := ⟨p, d.tree, s⟩) hof hnext hown, ?_⟩
  constructor
  case stage =>
    intro t ht
    by_cases heq : t = r
    · exact heq ▸ (List.suffix_cons _ _).trans hnext
    · exact hleft t heq ▸ h.stage t ht
  case nodup => exact nodup_takeIn h.nodup
  case nodup_alone => exact h.nodup_alone
  case waited => exact takeIn_subset_await h.nodup h.waited hroom
  case own =>
    intro t ht
    refine ⟨?_, (h.own t ht).2⟩
    by_cases heq : t = r
    · rw [heq, hmem, recalled, ← hstage, ← hown]
    · rw [hsame t.cookie fun hc => heq (List.inj_on_of_nodup_map hcookies ht hr hc),
        (h.own t ht).1, hleft t heq]
  case others =>
    intro c hc
    rw [hsame c (hc r hr).symm, h.others c hc]

/-- What others cause is heard of as it would be without the replacements. -/
theorem step_other (h : Replacing p rewrites waiting (d :: rest) s alone)
    (horigin : d.origin = none)
    (hforeign : ∀ r ∈ rewrites, d.notification.cookie ≠ some r.cookie)
    (hroom : (await waiting d.notification).length ≤ Ingress.mostSuppressed) :
    (d.takeIn p s).1 = (d.takeIn p alone).1 ∧
      Replacing p rewrites (await waiting d.notification) rest (d.takeIn p s).2
        (d.takeIn p alone).2 := by
  have hleft : ∀ r, left r (d :: rest) = left r rest := fun r =>
    left_cons_other (by simp [horigin])
  have hlength := (List.subperm_of_subset h.nodup_alone h.alone_subset).length_le
  have hspare : ∀ e, d.recalled p = .learns e → s.length < Ingress.mostSuppressed :=
    Ingress.room_of_subset h.nodup h.waited hroom
  have hmem : ∀ c, _ := fun c => mem_takeIn (c := c) hspare
  have hmem_alone : ∀ c, _ := fun c => mem_takeIn (c := c) fun e he =>
    Nat.lt_of_le_of_lt hlength (hspare e he)
  -- the notification neither teaches nor takes away the cookie of a replacement
  have hown : ∀ r ∈ rewrites, d.recalled p ≠ .learns r.cookie ∧
      d.recalled p ≠ .forgets r.cookie := by
    intro r hr
    exact ⟨fun hl => hforeign r hr (Ingress.await_of_learns [] hl).2,
      fun hf => hforeign r hr (Ingress.cookie_of_forgets hf)⟩
  constructor
  · refine Ingress.receive_fst_congr ⟨p, d.tree, s⟩ d.notification fun c hc => h.others c ?_
    rintro r hr rfl
    exact hforeign r hr hc
  constructor
  case stage => exact fun r hr => hleft r ▸ h.stage r hr
  case nodup => exact nodup_takeIn h.nodup
  case nodup_alone => exact nodup_takeIn h.nodup_alone
  case waited => exact takeIn_subset_await h.nodup h.waited hroom
  case own =>
    intro r hr
    obtain ⟨hin, hout⟩ := h.own r hr
    rw [hleft] at hin
    rw [hmem, hmem_alone, ← hin]
    simp [hown r hr, hout]
  case others =>
    intro c hc
    rw [hmem_alone, hmem, h.others c hc]

/-- The stages of a whole run. -/
theorem steps {all : List Delivery} (h : Replacing p rewrites waiting all s alone)
    (hof : ∀ r ∈ rewrites, r.Of p) (hcookies : (rewrites.map (·.cookie)).Nodup)
    (honly : ∀ d ∈ all, ∀ r, d.origin = some r → r ∈ rewrites)
    (hforeign : ∀ d ∈ all, d.origin = none →
      ∀ r ∈ rewrites, d.notification.cookie ≠ some r.cookie)
    (hroom : ∀ early, early <+: all.map (·.notification) →
      (early.foldl await waiting).length ≤ Ingress.mostSuppressed) :
    (∀ r ∈ rewrites, (heard (some r) (takeAll p s all).1).flatMap (·.2) =
        (left r all).flatMap r.meaning) ∧
      heard none (takeAll p s all).1 = (takeAll p alone (of none all)).1 ∧
      ∃ waiting, Replacing p rewrites waiting [] (takeAll p s all).2
        (takeAll p alone (of none all)).2 := by
  induction all generalizing waiting s alone with
  | nil => exact ⟨fun r _ => rfl, rfl, waiting, h⟩
  | cons d rest ih =>
      have hnow := hroom [d.notification] (by simp)
      have hlater : ∀ early, early <+: rest.map (·.notification) →
          (early.foldl await (await waiting d.notification)).length ≤ Ingress.mostSuppressed := by
        intro early hearly
        exact hroom (d.notification :: early) (List.cons_prefix_cons.mpr ⟨rfl, hearly⟩)
      have honly' := fun e he => honly e (List.mem_cons_of_mem d he)
      have hforeign' := fun e he => hforeign e (List.mem_cons_of_mem d he)
      cases horigin : d.origin with
      | some r =>
          have hr := honly d List.mem_cons_self r horigin
          obtain ⟨hevents, hafter⟩ := h.step_own hcookies hr (hof r hr) horigin hnow
          obtain ⟨hown, hothers, hend⟩ := ih hafter honly' hforeign' hlater
          have hof_none : of none (d :: rest) = of none rest := by simp [of, horigin]
          rw [hof_none]
          refine ⟨fun t ht => ?_, ?_, hend⟩
          · by_cases heq : t = r
            · subst heq
              rw [takeAll_cons, left_cons_own horigin, heard_cons_own horigin, List.flatMap_cons,
                List.flatMap_cons, ← hown t ht, hevents]
            · have hne : d.origin ≠ some t :=
                fun h => heq (Option.some.inj (h.symm.trans horigin))
              rw [takeAll_cons, left_cons_other hne, heard_cons_other hne, hown t ht]
          · rw [takeAll_cons, heard_cons_other (by simp [horigin]), hothers]
      | none =>
          obtain ⟨hevents, hafter⟩ :=
            h.step_other horigin (hforeign d List.mem_cons_self horigin) hnow
          obtain ⟨hown, hothers, hend⟩ := ih hafter honly' hforeign' hlater
          have hof_none : of none (d :: rest) = d :: of none rest := by simp [of, horigin]
          rw [hof_none]
          refine ⟨fun t ht => ?_, ?_, hend⟩
          · have hne : d.origin ≠ some t := by simp [horigin]
            rw [takeAll_cons, left_cons_other hne, heard_cons_other hne, hown t ht]
          · rw [takeAll_cons, takeAll_cons, heard_cons_own horigin, hothers, hevents]

end Replacing

/--
Notifications of some replacements and of what others cause: those of each replacement come in
their order, and others come under other cookies.
-/
structure Mixed (rewrites : List Replacement) (all : List Delivery) : Prop where
  each : ∀ r ∈ rewrites, left r all = r.notifications
  only : ∀ d ∈ all, ∀ r, d.origin = some r → r ∈ rewrites
  foreign : ∀ d ∈ all, d.origin = none → ∀ r ∈ rewrites, d.notification.cookie ≠ some r.cookie

namespace Delivery

/-- The cookies remembered are never too many. -/
theorem length_takeAll_le (p : Project) {s : Suppressed} (all : List Delivery)
    (h : s.length ≤ Ingress.mostSuppressed) :
    (takeAll p s all).2.length ≤ Ingress.mostSuppressed := by
  induction all generalizing s with
  | nil => exact h
  | cons d rest ih => exact ih (takeIn_snd p s d ▸ Ingress.Recall.length_after_le h)

/--
**The library's own writes are changes of files.**

Let the notifications of some replacements of files come in any order that keeps those of each
replacement in theirs, mixed with whatever others cause, and never with more temporary files gone
whose ends are not reported yet than cookies can be remembered. Then each replacement is one event,
a change of its file; what others cause is heard of as without the replacements; no cookie of a
replacement is remembered at the end, and there are never too many.
-/
theorem own_writes_are_changes (p : Project) {rewrites : List Replacement} {all : List Delivery}
    (hof : ∀ r ∈ rewrites, r.Of p) (hcookies : (rewrites.map (·.cookie)).Nodup)
    (hmixed : Mixed rewrites all)
    (hroom : ∀ early, early <+: all.map (·.notification) →
      (awaited early).length ≤ Ingress.mostSuppressed) :
    (∀ r ∈ rewrites, (heard (some r) (takeAll p [] all).1).flatMap (·.2) = [.modified r.path]) ∧
      heard none (takeAll p [] all).1 = (takeAll p [] (of none all)).1 ∧
      (∀ r ∈ rewrites, r.cookie ∉ (takeAll p [] all).2) ∧
      ∀ early, early <+: all → (takeAll p [] early).2.length ≤ Ingress.mostSuppressed := by
  have hstart : Replacing p rewrites [] all [] [] := by
    refine ⟨fun r hr => ?_, .nil, .nil, List.Subset.refl _, fun r hr => ⟨?_, by simp⟩,
      fun c _ => Iff.rfl⟩
    · exact hmixed.each r hr ▸ List.suffix_rfl
    · rw [hmixed.each r hr]
      simp [Replacement.notifications, Replacement.Departed]
  obtain ⟨hown, hothers, waiting, hend⟩ :=
    hstart.steps hof hcookies hmixed.only hmixed.foreign hroom
  refine ⟨fun r hr => ?_, hothers, fun r hr => ?_, fun early _ =>
    length_takeAll_le p early (Nat.zero_le _)⟩
  · rw [hown r hr, hmixed.each r hr]
    simp [Replacement.notifications, Replacement.meaning, Replacement.creation,
      Replacement.writing, Replacement.departure, Replacement.arrival, Replacement.summary]
  · rw [(hend.own r hr).1]
    simp [left, of, Replacement.Departed]

/-- Two files that are replaced. -/
def twoFiles : List Replacement :=
  [⟨"/p/.linkmend-1.tmp", "/p/a.md", "a.md", 1⟩, ⟨"/p/c/.linkmend-2.tmp", "/p/c/b.md", "c/b.md", 2⟩]

/--
The second temporary file leaves while the first is on its way. Someone renames a file meanwhile, and
another temporary file leaves of which nothing more is heard.
-/
def twoFilesReplaced : List Delivery :=
  let first : Replacement := ⟨"/p/.linkmend-1.tmp", "/p/a.md", "a.md", 1⟩
  let second : Replacement := ⟨"/p/c/.linkmend-2.tmp", "/p/c/b.md", "c/b.md", 2⟩
  [⟨some first, .empty, first.creation⟩, ⟨some second, .empty, second.creation⟩,
    ⟨some second, .empty, second.writing⟩, ⟨some first, .empty, first.writing⟩,
    ⟨some first, .empty, first.departure⟩,
    ⟨none, .empty, ⟨.renamed .source, ["/p/.linkmend-3.tmp"], some 3⟩⟩,
    ⟨some second, .empty, second.departure⟩, ⟨some second, .empty, second.arrival⟩,
    ⟨none, .empty, ⟨.renamed .both, ["/p/a.md", "/p/d.md"], some 4⟩⟩,
    ⟨some first, .empty, first.arrival⟩, ⟨some second, .empty, second.summary⟩,
    ⟨some first, .empty, first.summary⟩]

/-- Both files have changed, the rename is heard of, and the cookie of the last one stays. -/
theorem own_writes_are_changes_two :
    ((∀ r ∈ twoFiles, (heard (some r) (takeAll (.make "/p" .defaults) [] twoFilesReplaced).1).flatMap
          (·.2) = [.modified r.path]) ∧
      heard none (takeAll (.make "/p" .defaults) [] twoFilesReplaced).1 =
        (takeAll (.make "/p" .defaults) [] (of none twoFilesReplaced)).1 ∧
      (∀ r ∈ twoFiles, r.cookie ∉ (takeAll (.make "/p" .defaults) [] twoFilesReplaced).2) ∧
      ∀ early, early <+: twoFilesReplaced →
        (takeAll (.make "/p" .defaults) [] early).2.length ≤ Ingress.mostSuppressed) ∧
    (takeAll (.make "/p" .defaults) [] twoFilesReplaced).1.flatMap (·.2) =
      [.modified "c/b.md", .renamed "a.md" false "d.md" (some 4), .modified "a.md"] ∧
    (takeAll (.make "/p" .defaults) [] twoFilesReplaced).2 = [3] := by
  refine ⟨own_writes_are_changes (.make "/p" .defaults) ?_ (by decide) ⟨?_, ?_, ?_⟩ ?_, ?_, ?_⟩
  · simp only [twoFiles, List.forall_mem_cons]
    have hplain : ∀ middle ∈ ["1", "2"], ∀ c ∈ middle.toList, Path.isSeparator c = false := by
      simp [Path.isSeparator]
    refine ⟨⟨⟨"/p", "1", by decide, hplain _ (by simp)⟩, fun _ _ => ?_⟩,
      ⟨⟨"/p/c", "2", by decide, hplain _ (by simp)⟩, fun _ _ => ?_⟩, by simp⟩
    · show Ingress.accept ⟨.make "/p" .defaults, .empty, []⟩ "/p/a.md" = some "a.md"
      decide +kernel
    · show Ingress.accept ⟨.make "/p" .defaults, .empty, []⟩ "/p/c/b.md" = some "c/b.md"
      decide +kernel
  · decide +kernel
  · decide +kernel
  · decide +kernel
  · intro early hearly
    exact (by decide +kernel : ∀ early ∈ (twoFilesReplaced.map (·.notification)).inits,
      (awaited early).length ≤ Ingress.mostSuppressed) early ((List.mem_inits _ _).mpr hearly)
  · decide +kernel
  · decide +kernel

end Delivery

end LinkKeeper
