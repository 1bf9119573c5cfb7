import LinkKeeper.Proofs.Admissions
import LinkKeeper.Proofs.Pairing
import LinkKeeper.Proofs.Recreations

/-!
# Renames across the border

A rename of which only one end is spoken of crosses the border of what is watched. The system
reports it like any other, by its halves and by both ends.

On the way out the first half makes a removal wait, and the report of both ends makes it wait anew,
in the same place. So nothing is said until it is over, and one deletion then.

On the way in the second half finds no first one, and is a creation. The report of both ends comes
from an ignored place, and is a creation again: the cookie is kept only of a rename that begins at
a temporary file, or whose halves have been paired. So the same thing is reported as created twice.
-/

namespace LinkKeeper

/-- The path under which a location is spoken of, if it is. What is there plays no part. -/
def Project.spoken? (p : Project) (location : String) : Option String :=
  (⟨p, .empty, []⟩ : Ingress).accept location

namespace Ingress

variable {g : Ingress} {source target path : String}

theorem accept_eq_spoken? (g : Ingress) (location : String) :
    g.accept location = g.project.spoken? location := rfl

/-- The first half of a rename that begins in an ignored place, and not at a temporary file. -/
theorem receive_source_ignored (cookie : Nat) (hsource : g.project.spoken? source = none)
    (hplain : isTemporary source = false) :
    g.receive ⟨.renamed .source, [source], some cookie⟩ = ([], g.suppressed) := by
  rw [← accept_eq_spoken?] at hsource
  simp [receive, rename, hsource, hplain]

theorem receive_source (cookie : Nat) (hsource : g.project.spoken? source = some path) :
    g.receive ⟨.renamed .source, [source], some cookie⟩ =
      ([.renamedFrom path (some cookie)], g.suppressed) := by
  rw [← accept_eq_spoken?] at hsource
  simp [receive, rename, hsource]

/-- The second half of a rename that ends in an ignored place. -/
theorem receive_target_ignored (cookie : Nat) (htarget : g.project.spoken? target = none) :
    g.receive ⟨.renamed .target, [target], some cookie⟩ = ([], g.suppressed) := by
  rw [← accept_eq_spoken?] at htarget
  simp [receive, rename, htarget]

theorem receive_target {cookie : Nat}
    (htarget : g.project.spoken? target = some path) (hfresh : cookie ∉ g.suppressed) :
    g.receive ⟨.renamed .target, [target], some cookie⟩ =
      ([.renamedTo (g.tree.isDirectory target) path (some cookie)], g.suppressed) := by
  rw [← accept_eq_spoken?] at htarget
  simp [receive, rename, isSuppressed, renamedTo, htarget, hfresh]

/-- Both ends of a rename that begins in an ignored place, and not at a temporary file. -/
theorem receive_both_entering {cookie : Nat} (hsource : g.project.spoken? source = none)
    (hplain : isTemporary source = false) (htarget : g.project.spoken? target = some path)
    (hfresh : cookie ∉ g.suppressed) :
    g.receive ⟨.renamed .both, [source, target], some cookie⟩ =
      ([.created (g.tree.isDirectory target) path], g.suppressed) := by
  rw [← accept_eq_spoken?] at hsource htarget
  simp [receive, rename, isSuppressed, renamedBoth, arrival, hsource, htarget, hplain, hfresh]

/-- Both ends of a rename that ends in an ignored place. -/
theorem receive_both_leaving {cookie : Nat} (hsource : g.project.spoken? source = some path)
    (htarget : g.project.spoken? target = none) (hfresh : cookie ∉ g.suppressed) :
    g.receive ⟨.renamed .both, [source, target], some cookie⟩ =
      ([.removed (g.tree.isDirectory target) path], g.suppressed) := by
  rw [← accept_eq_spoken?] at hsource htarget
  simp [receive, rename, isSuppressed, renamedBoth, hsource, htarget, hfresh]

/-- Under a cookie that is remembered the report of both ends is dropped. -/
theorem receive_both_suppressed {cookie : Nat} (hsuppressed : cookie ∈ g.suppressed) :
    (g.receive ⟨.renamed .both, [source, target], some cookie⟩).1 = [] := by
  simp [receive, rename, isSuppressed, hsuppressed]

end Ingress

namespace Detector

variable {d : Detector} {digests : Digests} {event : RawEvent} {now : Nat} {r : Removal}
  {path : String} {isDir : Bool} {cookie : Option Nat}

/-! ## On the way in -/

/-- A creation that finds no removal of its name is new, and leaves what waits. -/
theorem onCreated_unmatched (digests : Digests) (isDir : Bool) (now : Nat)
    (hnone : d.waiting.named (Path.baseName path) = []) :
    (d.onCreated digests path isDir now).operations = [.created path] ∧
      (d.onCreated digests path isDir now).detector.waiting = d.waiting := by
  rcases d.onCreated_cases digests path isDir now with
    ⟨r, signal, after, hclaim, -, -⟩ | ⟨-, hwaiting, hops⟩
  · have hpreferred := Waiting.claim_eq_preferred? d.waiting path isDir (digestOf digests isDir path)
    rw [hclaim, hnone] at hpreferred
    exact absurd (Waiting.mem_of_preferred? hpreferred.symm) (by simp)
  · exact ⟨hops, hwaiting⟩

theorem claimHalf_eq_none {w : Waiting} (h : ∀ r ∈ w.all, Waiting.isHalf cookie now r = false) :
    w.claimHalf cookie now = none := by
  have hnone : w.all.filter (Waiting.isHalf cookie now) = [] :=
    List.filter_eq_nil_iff.mpr fun r hr => by rw [h r hr]; exact Bool.false_ne_true
  rw [Waiting.claimHalf, hnone]
  rfl

/--
Something appears while nothing of its name waits, nor the first half of its rename. It is new, and
what waits afterwards has waited before.
-/
theorem handle_appearing (digests : Digests) (now : Nat) (h : d.waiting.Valid)
    (hnames : ∀ r ∈ d.waiting.all, Path.baseName r.path ≠ Path.baseName path)
    (hevent : event = .created isDir path ∨ ∃ c, event = .renamedTo isDir path (some c) ∧
      ∀ r ∈ d.waiting.all, r.cookie ≠ some c) :
    (d.handle digests event now).operations = (d.expire now).2 ++ [.created path] ∧
      (d.handle digests event now).detector.waiting = (d.expire now).1.waiting := by
  have hnone : (d.expire now).1.waiting.named (Path.baseName path) = [] := by
    refine List.eq_nil_iff_forall_not_mem.mpr fun r hr => ?_
    obtain ⟨hin, hname⟩ := (valid_expire h now).mem_named.mp hr
    exact hnames r (mem_expire.mp hin).1 hname
  have hcreated := onCreated_unmatched digests isDir now hnone
  have hreact : (d.expire now).1.react digests event now =
      (d.expire now).1.onCreated digests path isDir now := by
    rcases hevent with rfl | ⟨c, rfl, hcookies⟩
    · rfl
    · have hhalf : (d.expire now).1.waiting.claimHalf (some c) now = none := by
        refine claimHalf_eq_none fun r hr => ?_
        rw [Waiting.isHalf, beq_eq_false_iff_ne]
        exact hcookies r (mem_expire.mp hr).1
      unfold react onRenamedTo
      dsimp only
      rw [hhalf]
  rw [handle_eq, hreact]
  exact ⟨congrArg _ hcreated.1, hcreated.2⟩

/-! ## On the way out -/

/-- A removal of a path waits after it, and nothing is said of the path unless one of it is over. -/
theorem handle_removing (digests : Digests) (h : d.waiting.Valid)
    (hremoves : event.removes path = true)
    (hfresh : ∀ r ∈ d.waiting.all, r.path = path → d.isOver now r = false) :
    (∀ op ∈ (d.handle digests event now).operations, path ∉ op.paths) ∧
      ∃ r ∈ (d.handle digests event now).detector.waiting.all, r.path = path ∧ r.since = now := by
  have hwaits : ∀ kind isRename cookie, ∃ r ∈
      ((d.expire now).1.onRemoved digests path kind isRename cookie now).waiting.all,
      r.path = path ∧ r.since = now := by
    intro kind isRename cookie
    exact ⟨_, (((valid_expire h now).discard path).mem_push).mpr (.inr rfl), rfl, rfl⟩
  have hdue : ∀ op ∈ (d.expire now).2 ++ [], path ∉ op.paths := by
    intro op hop hpath
    rw [List.append_nil] at hop
    obtain ⟨r, hr, hover, rfl⟩ := mem_due.mp hop
    rw [hfresh r hr (List.mem_singleton.mp hpath).symm] at hover
    exact Bool.false_ne_true hover
  cases event with
  | removed kind gone =>
      obtain rfl : gone = path := beq_iff_eq.mp hremoves
      exact ⟨hdue, hwaits kind false none⟩
  | renamedFrom gone cookie =>
      obtain rfl : gone = path := beq_iff_eq.mp hremoves
      exact ⟨hdue, hwaits false true cookie⟩
  | created _ _ | modified _ | renamed _ _ _ _ | renamedTo _ _ _ =>
      exact absurd hremoves Bool.false_ne_true

/-- However often the clock ticks, a removal is one deletion as soon as it is over. -/
theorem count_ticks (h : d.waiting.Valid) (hr : r ∈ d.waiting.all) (ticks : List Nat) :
    (d.steps (ticks.map .expire)).2.count (.deleted r.path) =
      if ticks.any (d.isOver · r) then 1 else 0 := by
  induction ticks generalizing d with
  | nil => rfl
  | cons now rest ih =>
      have hdue := count_due h hr now
      rw [List.map_cons, steps, List.count_append, List.any_cons]
      cases hover : d.isOver now r with
      | true =>
          -- it waits no more, so no other deletion comes
          have hsettled : (d.expire now).1.Settled r.path := by
            intro s hs hpath
            obtain ⟨hin, hfresh⟩ := mem_expire.mp hs
            rw [h.eq_of_path hin hr hpath, hover] at hfresh
            exact Bool.false_ne_true hfresh.symm
          have hnone : .deleted r.path ∉ ((d.expire now).1.steps (rest.map .expire)).2 :=
            hsettled.steps (valid_expire h now) (by simp [Step.hides])
          rw [hover] at hdue
          rw [step, hdue, List.count_eq_zero.mpr hnone]
          rfl
      | false =>
          rw [hover] at hdue
          rw [step, hdue, ih (valid_expire h now) (mem_expire.mpr ⟨hr, hover⟩), Bool.false_or]
          exact Nat.zero_add _

end Detector

namespace Watch

variable {p : Project} {w : Watch} {tree : FileTree} {n : Notification} {digests : Nat → Digests}
  {now : Nat → Nat} {event : RawEvent} {source target path : String} {isDir : Bool} {cookie : Nat}

/-- What the detector says of an event, when a notification is heard of as that event alone. -/
theorem hear_of_receive_single (h : ((w.ingress p tree).receive n).1 = [event]) :
    w.hear p (.notice tree n digests now) =
      (⟨(w.detector.handle (digests 0) event (now 0)).detector,
          ((w.ingress p tree).receive n).2⟩,
        (w.detector.handle (digests 0) event (now 0)).operations) := by
  simp only [hear, h]
  exact Prod.ext rfl (List.append_nil _)

theorem hear_of_receive_nil (h : ((w.ingress p tree).receive n).1 = []) :
    w.hear p (.notice tree n digests now) =
      (⟨w.detector, ((w.ingress p tree).receive n).2⟩, []) := by
  simp only [hear, h]
  rfl

theorem hearAll_ticks (p : Project) (w : Watch) (ticks : List Nat) :
    (w.hearAll p (ticks.map .tick)).2 = (w.detector.steps (ticks.map .expire)).2 := by
  induction ticks generalizing w with
  | nil => rfl
  | cons now rest ih => exact congrArg _ (ih _)

/-- However often the clock ticks, a path whose removal waits is deleted once, when it is over. -/
theorem count_deleted_ticks (hvalid : w.detector.waiting.Valid) {r : Removal}
    (hr : r ∈ w.detector.waiting.all) (hpath : r.path = path) (ticks : List Nat) :
    (w.hearAll p (ticks.map .tick)).2.count (.deleted path) =
      if ticks.any fun now => w.detector.window < now - r.since then 1 else 0 := by
  rw [hearAll_ticks, ← hpath, Detector.count_ticks hvalid hr]
  rfl

/-- What can be seen when a report comes, and the time. -/
structure Sight where
  tree : FileTree
  digests : Digests
  now : Nat

/-- A notification that comes when something can be seen. -/
def Sight.notice (sight : Sight) (n : Notification) : Signal :=
  .notice sight.tree n (fun _ => sight.digests) fun _ => sight.now

/-- What is reported of a rename: its first half, its second half, and both ends. -/
def reports (source target : String) (cookie : Nat) (first second both : Sight) : List Signal :=
  [first.notice ⟨.renamed .source, [source], some cookie⟩,
    second.notice ⟨.renamed .target, [target], some cookie⟩,
    both.notice ⟨.renamed .both, [source, target], some cookie⟩]

/-- A notification that is heard of as something new. -/
theorem hear_appearing (sight : Sight)
    (hreceive : (w.ingress p sight.tree).receive n = ([event], w.suppressed))
    (hvalid : w.detector.waiting.Valid)
    (hnames : ∀ r ∈ w.detector.waiting.all, Path.baseName r.path ≠ Path.baseName path)
    (hevent : event = .created isDir path ∨ ∃ c, event = .renamedTo isDir path (some c) ∧
      ∀ r ∈ w.detector.waiting.all, r.cookie ≠ some c) :
    (w.hear p (sight.notice n)).2 = (w.detector.expire sight.now).2 ++ [.created path] ∧
      (w.hear p (sight.notice n)).1.suppressed = w.suppressed ∧
      (w.hear p (sight.notice n)).1.detector.waiting.Valid ∧
      ∀ r ∈ (w.hear p (sight.notice n)).1.detector.waiting.all, r ∈ w.detector.waiting.all := by
  obtain ⟨hops, hwaiting⟩ := Detector.handle_appearing sight.digests sight.now
    hvalid hnames hevent
  rw [Sight.notice, hear_of_receive_single (by rw [hreceive])]
  refine ⟨hops, by rw [hreceive], ?_, fun r hr => ?_⟩
  · rw [hwaiting]
    exact Detector.valid_expire hvalid sight.now
  · rw [hwaiting] at hr
    exact (Detector.mem_expire.mp hr).1

/--
**What comes in by a rename is reported as created twice.**

Let a rename begin in a place that is not spoken of, and not at a temporary file, and end at a path.
Let nothing of the name of the path wait, nor anything under the cookie, and let the cookie not be
remembered. Then the path is created when the second half comes, and created when both ends are
reported. All else that is said are deletions of removals that have waited.
-/
theorem hearAll_entering (hvalid : w.detector.waiting.Valid)
    (hsource : p.spoken? source = none) (hplain : Ingress.isTemporary source = false)
    (htarget : p.spoken? target = some path) (hfresh : cookie ∉ w.suppressed)
    (hnames : ∀ r ∈ w.detector.waiting.all, Path.baseName r.path ≠ Path.baseName path)
    (hcookies : ∀ r ∈ w.detector.waiting.all, r.cookie ≠ some cookie)
    (first second both : Sight) :
    ∃ due due', (w.hearAll p (reports source target cookie first second both)).2 =
        due ++ [.created path] ++ (due' ++ [.created path]) ∧
      ∀ op ∈ due ++ due', ∃ r ∈ w.detector.waiting.all, op = .deleted r.path := by
  have hfirst : w.hear p (first.notice ⟨.renamed .source, [source], some cookie⟩) = (w, []) := by
    have hreceive := Ingress.receive_source_ignored (g := w.ingress p first.tree) cookie hsource
      hplain
    rw [Sight.notice, hear_of_receive_nil (by rw [hreceive]), hreceive]
    rfl
  obtain ⟨hops, hkept, hnext, hthere⟩ := hear_appearing second
    (Ingress.receive_target (g := w.ingress p second.tree) htarget hfresh) hvalid hnames
    (.inr ⟨cookie, rfl, hcookies⟩)
  rw [reports, hearAll, hfirst, hearAll, hops]
  generalize (w.hear p (second.notice ⟨.renamed .target, [target], some cookie⟩)).1 = v at *
  rw [← hkept] at hfresh
  -- what waits for the last report has waited before the first
  obtain ⟨hops', -⟩ := hear_appearing both
    (Ingress.receive_both_entering (g := v.ingress p both.tree) hsource hplain htarget hfresh)
    hnext (fun r hr => hnames r (hthere r hr)) (.inl rfl)
  rw [hearAll, hops', hearAll, List.nil_append, List.append_nil]
  refine ⟨_, _, rfl, fun op hop => ?_⟩
  rcases List.mem_append.mp hop with hop | hop
  · obtain ⟨r, hr, -, rfl⟩ := Detector.mem_due.mp hop
    exact ⟨r, hr, rfl⟩
  · obtain ⟨r, hr, -, rfl⟩ := Detector.mem_due.mp hop
    exact ⟨r, hthere r hr, rfl⟩

/-- A notification that is heard of as the removal of a path. -/
theorem hear_removing (sight : Sight) {s : Suppressed}
    (hreceive : (w.ingress p sight.tree).receive n = ([event], s))
    (hvalid : w.detector.waiting.Valid) (hremoves : event.removes path = true)
    (hfresh : ∀ r ∈ w.detector.waiting.all, r.path = path →
      w.detector.isOver sight.now r = false) :
    (∀ op ∈ (w.hear p (sight.notice n)).2, path ∉ op.paths) ∧
      (w.hear p (sight.notice n)).1.suppressed = s ∧
      (w.hear p (sight.notice n)).1.detector.waiting.Valid ∧
      (w.hear p (sight.notice n)).1.detector.window = w.detector.window ∧
      ∃ r ∈ (w.hear p (sight.notice n)).1.detector.waiting.all,
        r.path = path ∧ r.since = sight.now := by
  obtain ⟨hquiet, hwaits⟩ := Detector.handle_removing sight.digests hvalid hremoves hfresh
  rw [Sight.notice, hear_of_receive_single (by rw [hreceive])]
  refine ⟨hquiet, by rw [hreceive], ?_, ?_, hwaits⟩
  · exact Detector.valid_step hvalid (.handle sight.digests event sight.now)
  · exact Detector.window_react _ sight.digests event sight.now

/--
**What goes out by a rename is one deletion, when the window has passed.**

Let a rename begin at a path and end in a place that is not spoken of, and let no removal of the path
wait. Let both ends be reported within the window after the first half. Then nothing is said of the
path, and however often the clock ticks afterwards, it is deleted once, as soon as the window has
passed since both ends were reported. Under a cookie that is remembered this report is dropped,
and the time is that of the first half.
-/
theorem hearAll_leaving (hvalid : w.detector.waiting.Valid)
    (hsource : p.spoken? source = some path) (htarget : p.spoken? target = none)
    (hnone : ∀ r ∈ w.detector.waiting.all, r.path ≠ path) (cookie : Nat)
    {first second both : Sight} (hspan : both.now - first.now ≤ w.detector.window) :
    (∀ op ∈ (w.hearAll p (reports source target cookie first second both)).2, path ∉ op.paths) ∧
    ∀ ticks : List Nat,
      ((w.hearAll p (reports source target cookie first second both)).1.hearAll p
        (ticks.map .tick)).2.count (.deleted path) =
      if ticks.any fun now => w.detector.window < now -
        (if cookie ∈ w.suppressed then first.now else both.now) then 1 else 0 := by
  obtain ⟨hquiet, hkept, hnext, hwindow, r, hr, hpath, hsince⟩ := hear_removing first
    (Ingress.receive_source (g := w.ingress p first.tree) cookie hsource) hvalid
    (beq_self_eq_true path) fun r hr hpath => absurd hpath (hnone r hr)
  rw [reports, hearAll, hearAll]
  generalize w.hear p (first.notice ⟨.renamed .source, [source], some cookie⟩) = heard at *
  obtain ⟨v, ops⟩ := heard
  dsimp only at *
  have hsecond : v.hear p (second.notice ⟨.renamed .target, [target], some cookie⟩) = (v, []) := by
    have hreceive := Ingress.receive_target_ignored (g := v.ingress p second.tree) cookie
      htarget
    rw [Sight.notice, hear_of_receive_nil (by rw [hreceive]), hreceive]
    rfl
  have hkept : v.suppressed = w.suppressed := hkept
  rw [hsecond, hearAll, hearAll, List.nil_append, List.append_nil, ← hkept, ← hwindow]
  dsimp only
  by_cases hsuppressed : cookie ∈ v.suppressed
  · -- the removal of the first half goes on waiting
    obtain ⟨s, hthird⟩ : ∃ s, v.hear p (both.notice ⟨.renamed .both, [source, target],
        some cookie⟩) = (⟨v.detector, s⟩, []) :=
      ⟨_, hear_of_receive_nil (Ingress.receive_both_suppressed hsuppressed)⟩
    rw [hthird, List.append_nil]
    refine ⟨hquiet, fun ticks => ?_⟩
    rw [if_pos hsuppressed, ← hsince]
    exact count_deleted_ticks (w := ⟨v.detector, s⟩) hnext hr hpath ticks
  · -- the only removal of the path is that of the first half, which is not over
    have hfresh : ∀ s ∈ v.detector.waiting.all, s.path = path →
        v.detector.isOver both.now s = false := by
      intro s hs hs'
      obtain rfl : s = r := hnext.eq_of_path hs hr (hs'.trans hpath.symm)
      rw [Detector.isOver, hsince, hwindow, decide_eq_false_iff_not]
      exact Nat.not_lt.mpr hspan
    obtain ⟨hquiet', -, hlast, hwindow', r', hr', hpath', hsince'⟩ := hear_removing both
      (Ingress.receive_both_leaving (g := v.ingress p both.tree) hsource htarget hsuppressed)
      hnext (beq_self_eq_true path) hfresh
    refine ⟨fun op hop => (List.mem_append.mp hop).elim (hquiet op) (hquiet' op), fun ticks => ?_⟩
    rw [if_neg hsuppressed, ← hsince', ← hwindow']
    exact count_deleted_ticks hlast hr' hpath' ticks

/--
**A rename across the border is one deletion on the way out, and two creations on the way in.**

Let the three reports of a rename come, with whatever can be seen then, and let one end of it be a
path that is spoken of and the other a place that is not. If it comes in, not from a temporary file,
while nothing of its name and nothing under its cookie is known, its path is reported as created by
the second report and again by the third, and nothing else is said but deletions of removals that
have waited. If it goes out, while no removal of its path waits and no longer than a window passes
between the first and the third report, nothing is said of its path then, and it is deleted once
as soon as the window has passed.
-/
theorem renames_across_border (p : Project) {w : Watch} (hvalid : w.detector.waiting.Valid)
    (source target path : String) (cookie : Nat) (first second both : Sight) :
    (p.spoken? source = none → Ingress.isTemporary source = false →
        p.spoken? target = some path → cookie ∉ w.suppressed →
        (∀ r ∈ w.detector.waiting.all, Path.baseName r.path ≠ Path.baseName path ∧
          r.cookie ≠ some cookie) →
      ∃ due due', (w.hearAll p (reports source target cookie first second both)).2 =
          due ++ [.created path] ++ (due' ++ [.created path]) ∧
        ∀ op ∈ due ++ due', ∃ r ∈ w.detector.waiting.all, op = .deleted r.path) ∧
    (p.spoken? source = some path → p.spoken? target = none →
        (∀ r ∈ w.detector.waiting.all, r.path ≠ path) →
        both.now - first.now ≤ w.detector.window →
      (∀ op ∈ (w.hearAll p (reports source target cookie first second both)).2, path ∉ op.paths) ∧
      ∀ ticks : List Nat,
        ((w.hearAll p (reports source target cookie first second both)).1.hearAll p
          (ticks.map .tick)).2.count (.deleted path) =
        if ticks.any fun now => w.detector.window < now -
          (if cookie ∈ w.suppressed then first.now else both.now) then 1 else 0) :=
  ⟨fun hsource hplain htarget hfresh hclear => hearAll_entering hvalid hsource hplain htarget hfresh
      (fun r hr => (hclear r hr).1) (fun r hr => (hclear r hr).2) first second both,
    fun hsource htarget hnone hspan => hearAll_leaving hvalid hsource htarget hnone cookie hspan⟩

/-- A project whose directory for what is built is passed over. -/
def workshop : Project := .make "/p" .defaults

/-- A time at which nothing can be seen. -/
def glance (now : Nat) : Sight := ⟨.empty, fun _ => none, now⟩

/-- A note goes to what is built, and is one deletion when the window of five seconds has passed. -/
theorem renames_across_border_workshop :
    ((start workshop).detector.waiting.Valid ∧
      workshop.spoken? "/p/a.md" = some "a.md" ∧ workshop.spoken? "/p/build/a.md" = none) ∧
    ((∀ op ∈ ((start workshop).hearAll workshop
          (reports "/p/a.md" "/p/build/a.md" 7 (glance 0) (glance 1) (glance 2))).2,
        "a.md" ∉ op.paths) ∧
      ∀ ticks : List Nat, (((start workshop).hearAll workshop
          (reports "/p/a.md" "/p/build/a.md" 7 (glance 0) (glance 1) (glance 2))).1.hearAll workshop
            (ticks.map .tick)).2.count (.deleted "a.md") =
        if ticks.any fun now => 5000000000 < now - 2 then 1 else 0) ∧
    ∃ due due', ((start workshop).hearAll workshop
        (reports "/p/build/a.md" "/p/a.md" 7 (glance 0) (glance 1) (glance 2))).2 =
      due ++ [.created "a.md"] ++ (due' ++ [.created "a.md"]) := by
  have hvalid : (start workshop).detector.waiting.Valid := Waiting.valid_empty
  have hinside : workshop.spoken? "/p/a.md" = some "a.md" := by decide +kernel
  have hbuilt : workshop.spoken? "/p/build/a.md" = none := by decide +kernel
  have hnone : ∀ r ∈ (start workshop).detector.waiting.all, r.path ≠ "a.md" := by decide +kernel
  refine ⟨⟨hvalid, hinside, hbuilt⟩, ?_, ?_⟩
  · exact (renames_across_border workshop hvalid "/p/a.md" "/p/build/a.md" "a.md" 7
      (glance 0) (glance 1) (glance 2)).2 hinside hbuilt hnone (by decide +kernel)
  · obtain ⟨due, due', hops, -⟩ := (renames_across_border workshop hvalid "/p/build/a.md" "/p/a.md"
      "a.md" 7 (glance 0) (glance 1) (glance 2)).1 hbuilt (by decide +kernel) hinside
      (by decide +kernel) (by decide +kernel)
    exact ⟨due, due', hops⟩

/-- A note that comes from what is built is reported as created twice. -/
theorem created_twice_from_workshop :
    workshop.spoken? "/p/build/a.md" = none ∧ Ingress.isTemporary "/p/build/a.md" = false ∧
    workshop.spoken? "/p/a.md" = some "a.md" ∧ (start workshop).detector.waiting.all = [] ∧
    (start workshop).suppressed = [] ∧
    ((start workshop).hearAll workshop
        (reports "/p/build/a.md" "/p/a.md" 7 (glance 0) (glance 1) (glance 2))).2 =
      [.created "a.md", .created "a.md"] :=
  ⟨by decide +kernel, by decide +kernel, by decide +kernel, rfl, rfl, by decide +kernel⟩

end Watch

end LinkKeeper
