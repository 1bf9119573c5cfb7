import LinkKeeper.Proofs.Preparing
import LinkKeeper.Proofs.Rewriting

/-!
# One holder at a time

The lock is a file with a number in it, and all that a process knows is what it reads there and
which numbers are in use. It takes the lock over from whoever is gone, it may die and leave its
number behind, and the number may come back as that of another process. Processes do so in any
order, and the file held anything at first.

Still two of them never have the lock at a time. Whoever has it is there, and its number is in
the file, and that is enough: everyone else finds the number of a process that is there, and
leaves the file as it is. `Exclusive` says so, and is kept by every step.
-/

namespace LinkKeeper

open FileTree (Grounded)

namespace Lock

variable {t : FileTree} {root : Spine} {p : Processes} {pid : Nat}

/-- The text that names a process. -/
def mark (pid : Nat) : ByteArray := (toString pid ++ "\n").toUTF8

theorem not_isBlank_of_isDigit {c : Char} (h : c.isDigit = true) : Text.isBlank c = false := by
  delta Char.isDigit at h
  simp only [ge_iff_le, Bool.and_eq_true, decide_eq_true_eq, UInt32.le_iff_toNat_le] at h
  have hrange : 48 ≤ c.toNat ∧ c.toNat ≤ 57 := h
  simp [Text.isBlank]
  omega

theorem trim_digits_newline {digits : List Char} (hne : digits ≠ [])
    (hdigits : ∀ c ∈ digits, c.isDigit = true) :
    Text.trim (digits ++ ['\n']) = digits := by
  have hnone : ∀ {cs : List Char}, cs ≠ [] → (∀ c ∈ cs, c.isDigit = true) → ∀ more,
      (cs ++ more).dropWhile Text.isBlank = cs ++ more := by
    intro cs hcs hall more
    obtain ⟨c, rest, rfl⟩ := List.exists_cons_of_ne_nil hcs
    exact List.dropWhile_cons_of_neg (by simp [not_isBlank_of_isDigit (hall c (by simp))])
  have hback := hnone (List.reverse_ne_nil_iff.mpr hne)
    (fun c hc => hdigits c (List.mem_reverse.mp hc)) []
  rw [List.append_nil] at hback
  rw [Text.trim, hnone hne hdigits, List.reverse_append, List.reverse_singleton,
    List.singleton_append, List.dropWhile_cons_of_pos (by decide), hback, List.reverse_reverse]

/-- A process is known again by the number that it has written. -/
theorem owner?_toString (h : pid ≤ largestOwner) : owner? (toString pid ++ "\n") = some pid := by
  have htext : (toString pid ++ "\n").toList = Nat.toDigits 10 pid ++ ['\n'] := by
    rw [String.toList_append]
    exact congrArg (· ++ ['\n']) Nat.toList_repr
  have hdigits : ∀ c ∈ Nat.toDigits 10 pid, c.isDigit = true := fun c hc =>
    Nat.isDigit_of_mem_toDigits (by decide) (by decide) hc
  have hplus : (Nat.toDigits 10 pid).head? ≠ some '+' := fun hhead =>
    absurd (hdigits _ (List.mem_of_mem_head? hhead)) (by decide)
  have hvalue : (Nat.toDigits 10 pid).foldl (fun n c => 10 * n + (c.toNat - '0'.toNat)) 0 = pid :=
    Nat.ofDigitChars_toDigits (by decide) (by decide)
  rw [owner?, htext, trim_digits_newline Nat.toDigits_ne_nil hdigits]
  dsimp only
  rw [if_neg hplus, if_neg (by simpa [Nat.toDigits_ne_nil] using hdigits), hvalue, if_pos h]

/-! ## The lock file -/

/-- What stands in the lock file. -/
def file? (t : FileTree) (root : Spine) : Option ByteArray :=
  match t.entryAt root lockFileName with
  | some (.file content _) => some content
  | _ => none

/-- What a lock file with some content says, and what it says that there is none. -/
def meaning : Option ByteArray → LockState
  | none => .absent
  | some content => (((Text.decode? content).bind owner?).map .owned).getD .malformed

/-- A root that is there, with a lock file or without, but with nothing else of that name. -/
structure Ready (root : Spine) (t : FileTree) : Prop where
  grounded : t.Grounded root
  plain : ∀ entry, t.entryAt root lockFileName = some entry →
    ∃ content mode, entry = .file content mode

theorem meaning_mark (h : pid ≤ largestOwner) : meaning (some (mark pid)) = .owned pid := by
  rw [meaning, mark, decode?_toUTF8, Option.bind_some, owner?_toString h]
  rfl

theorem spine_lockFileName : Path.spine lockFileName = [lockFileName] := by decide

/-- The place of the lock file is looked up in the root. -/
theorem Ready.look (h : Ready root t) (follow : Bool) :
    t.look follow (location (FileTree.location root)) =
      match t.entryAt root lockFileName with
      | some entry => .ok (.found (root ++ [lockFileName]) entry)
      | none => .ok (.vacant (root ++ [lockFileName])) := by
  obtain ⟨go, hlook⟩ := h.grounded.look_locate proper_lockFileName follow
  rw [location, hlook, spine_lockFileName, FileTree.descend_step (by decide)]
  cases he : t.entryAt root lockFileName with
  | none =>
      rw [FileTree.entryAt, spine_lockFileName] at he
      rw [he]
      rfl
  | some entry =>
      obtain ⟨content, mode, rfl⟩ := h.plain entry he
      rw [FileTree.entryAt, spine_lockFileName] at he
      rw [he]
      rfl

theorem Ready.state_eq (h : Ready root t) :
    state t (FileTree.location root) = .ok (meaning (file? t root)) := by
  have hlook := h.look true
  rw [state, FileTree.read, FileTree.entry, file?]
  cases he : t.entryAt root lockFileName with
  | none =>
      rw [he] at hlook
      rw [hlook]
      rfl
  | some entry =>
      obtain ⟨content, mode, rfl⟩ := h.plain entry he
      rw [he] at hlook
      rw [hlook]
      dsimp only [meaning]
      cases Text.decode? content with
      | none => rfl
      | some text => rfl

/-- A tree that differs in what stands under the lock file is as ready as before. -/
theorem Ready.of_same (h : Ready root t) {other : FileTree}
    (hsame : ∀ above, above <+: root → other.entries[above]? = t.entries[above]?)
    (hplain : ∀ entry, other.entryAt root lockFileName = some entry →
      ∃ content mode, entry = .file content mode) : Ready root other :=
  ⟨⟨h.grounded.names, fun above habove => (h.grounded.holds above habove).imp_right fun hdir =>
    (hsame above habove).trans hdir⟩, hplain⟩

theorem lockPlace_not_above {above : Spine} (h : above <+: root) :
    ¬ root ++ [lockFileName] <+: above := by
  intro hpre
  have := (hpre.trans h).length_le
  rw [List.length_append, List.length_singleton] at this
  omega

/-- The lock is taken by writing the own number into the file. -/
theorem Ready.claim (h : Ready root t) (log : List LogEntry) :
    (claim t (FileTree.location root) p log).fault = none ∧
      file? (claim t (FileTree.location root) p log).tree root = some (mark p.own) ∧
      Ready root (claim t (FileTree.location root) p log).tree := by
  obtain ⟨mode, hwrite⟩ : ∃ mode, t.write (location (FileTree.location root)) (mark p.own)
      FileTree.newMode = .ok (t.put (root ++ [lockFileName]) (.file (mark p.own) mode)) := by
    rw [FileTree.write, h.look true]
    cases he : t.entryAt root lockFileName with
    | none => exact ⟨_, rfl⟩
    | some entry =>
        obtain ⟨content, mode, rfl⟩ := h.plain entry he
        exact ⟨mode, rfl⟩
  have hentry : (t.put (root ++ [lockFileName]) (.file (mark p.own) mode)).entryAt root
      lockFileName = some (.file (mark p.own) mode) := by
    rw [FileTree.entryAt, spine_lockFileName, FileTree.getElem?_put, if_pos rfl]
  rw [Lock.claim, ← mark, hwrite]
  -- the way to the root is not where the lock file is
  refine ⟨rfl, ?_, h.of_same (fun above habove => ?_) fun entry he => ?_⟩
  · rw [file?, hentry]
  · rw [FileTree.getElem?_put, if_neg]
    rintro rfl
    exact lockPlace_not_above habove (List.prefix_refl _)
  · exact ⟨_, _, (Option.some.inj (he.symm.trans hentry))⟩

/--
What stands in the way of a process: another one that is there, and whose number is in the file.
-/
def Blocked (t : FileTree) (root : Spine) (p : Processes) (owner : Nat) : Prop :=
  meaning (file? t root) = .owned owner ∧ owner ≠ p.own ∧ p.isAlive owner = true

/-- **A process is kept from the lock by another one only.** -/
theorem Ready.acquire (h : Ready root t) (p : Processes) :
    (∃ owner, Blocked t root p owner ∧
      acquire t (FileTree.location root) p =
        ⟨t, [], some (.lockHeld (location (FileTree.location root)) owner)⟩) ∨
    ((∀ owner, ¬ Blocked t root p owner) ∧
      (acquire t (FileTree.location root) p).fault = none ∧
      file? (acquire t (FileTree.location root) p).tree root = some (mark p.own) ∧
      Ready root (acquire t (FileTree.location root) p).tree) := by
  rw [Lock.acquire, h.state_eq]
  cases hmeans : meaning (file? t root) with
  | absent =>
      exact .inr ⟨fun owner hb => absurd (hmeans.symm.trans hb.1) (by simp), h.claim _⟩
  | malformed =>
      exact .inr ⟨fun owner hb => absurd (hmeans.symm.trans hb.1) (by simp), h.claim _⟩
  | owned owner =>
      by_cases hother : owner ≠ p.own ∧ p.isAlive owner = true
      · exact .inl ⟨owner, ⟨hmeans, hother⟩, if_pos hother⟩
      · refine .inr ⟨fun other hb => ?_, ?_⟩
        · obtain rfl := LockState.owned.inj (hmeans.symm.trans hb.1)
          exact hother hb.2
        · dsimp only
          rw [if_neg hother]
          exact h.claim _

/-- The lock file is removed where it stands. -/
theorem Ready.removeFile_eq (h : Ready root t) {content : ByteArray}
    (hfile : file? t root = some content) :
    t.removeFile (location (FileTree.location root)) = .ok (t.prune (root ++ [lockFileName])) := by
  obtain ⟨mode, hentry⟩ : ∃ mode, t.entryAt root lockFileName = some (.file content mode) := by
    rw [file?] at hfile
    split at hfile
    · rename_i found mode he
      exact ⟨mode, Option.some.inj hfile ▸ he⟩
    · exact absurd hfile (by simp)
  have hlook := h.look false
  rw [hentry] at hlook
  rw [FileTree.removeFile, FileTree.entry, hlook]

theorem Ready.removeFile (h : Ready root t) {content : ByteArray} (hfile : file? t root = some content) :
    ∃ less, t.removeFile (location (FileTree.location root)) = .ok less ∧
      file? less root = none ∧ Ready root less := by
  have hgone : (t.prune (root ++ [lockFileName])).entryAt root lockFileName = none := by
    rw [FileTree.entryAt, spine_lockFileName, FileTree.getElem?_prune,
      if_pos (List.prefix_refl _)]
  refine ⟨t.prune (root ++ [lockFileName]), h.removeFile_eq hfile, ?_,
    h.of_same (fun above habove => ?_) ?_⟩
  · rw [file?, hgone]
  · rw [FileTree.getElem?_prune, if_neg (lockPlace_not_above habove)]
  · exact fun entry he => absurd (he.symm.trans hgone) (by simp)

/-- **A process removes the lock file if it is named there, and else leaves all as it is.** -/
theorem Ready.release (h : Ready root t) (p : Processes) :
    (meaning (file? t root) = .owned p.own →
      file? (release t (FileTree.location root) p).1 root = none ∧
        Ready root (release t (FileTree.location root) p).1) ∧
    (meaning (file? t root) ≠ .owned p.own → (release t (FileTree.location root) p).1 = t) := by
  rw [Lock.release, h.state_eq]
  refine ⟨fun hown => ?_, fun hother => ?_⟩
  · obtain ⟨content, hfile⟩ : ∃ content, file? t root = some content := by
      cases hfile : file? t root with
      | none => exact absurd (hfile ▸ hown) (by simp [meaning])
      | some content => exact ⟨content, rfl⟩
    obtain ⟨less, hremove, hgone, hready⟩ := h.removeFile hfile
    rw [hown]
    dsimp only
    rw [if_neg (by simp), hremove]
    exact ⟨hgone, hready⟩
  · cases hmeans : meaning (file? t root) with
    | absent | malformed => rfl
    | owned owner =>
        dsimp only
        rw [if_pos]
        rintro rfl
        exact hother hmeans

/-! ## Many processes -/

/--
A tree, the processes that are there, and those of them that have taken the lock and not given it
back.
-/
structure World where
  tree : FileTree
  isAlive : Nat → Bool
  holds : Nat → Bool

namespace World

variable {w : World} {other : Nat}

/-- What a process knows when it looks. -/
def seenBy (w : World) (pid : Nat) : Processes := ⟨pid, w.isAlive⟩

/-- A process tries to take the lock. -/
def take (root : Spine) (w : World) (pid : Nat) : World :=
  let attempt := acquire w.tree (FileTree.location root) (w.seenBy pid)
  { w with
    tree := attempt.tree
    holds := fun other => w.holds other || (other == pid && attempt.fault.isNone) }

/-- A process gives the lock back. -/
def give (root : Spine) (w : World) (pid : Nat) : World :=
  { w with
    tree := (release w.tree (FileTree.location root) (w.seenBy pid)).1
    holds := fun other => w.holds other && other != pid }

/-- A process ends, and gives nothing back. -/
def die (w : World) (pid : Nat) : World :=
  { w with
    isAlive := fun other => w.isAlive other && other != pid
    holds := fun other => w.holds other && other != pid }

/-- A process comes, under a number that is not in use. -/
def come (w : World) (pid : Nat) : World :=
  { w with isAlive := fun other => w.isAlive other || other == pid }

end World

/--
The worlds that come of one in which nobody has the lock, whatever the lock file holds. Processes
come, take the lock, give it back and end in any order, and nobody else writes the lock file.
-/
inductive Run (root : Spine) : World → Prop where
  | start (w : World) (ready : Ready root w.tree)
      (numbers : ∀ pid, w.isAlive pid = true → pid ≤ largestOwner)
      (free : ∀ pid, w.holds pid = false) : Run root w
  | take {w : World} (h : Run root w) (pid : Nat) (alive : w.isAlive pid = true)
      (without : w.holds pid = false) : Run root (w.take root pid)
  | give {w : World} (h : Run root w) (pid : Nat) (holder : w.holds pid = true) :
      Run root (w.give root pid)
  | die {w : World} (h : Run root w) (pid : Nat) : Run root (w.die pid)
  | come {w : World} (h : Run root w) (pid : Nat) (gone : w.isAlive pid = false)
      (number : pid ≤ largestOwner) : Run root (w.come pid)
  | change {w : World} (h : Run root w) (tree : FileTree) (ready : Ready root tree)
      (same : file? tree root = file? w.tree root) : Run root { w with tree }

/-- Whoever has the lock is there and is named in the file, and so nobody else has it. -/
structure Exclusive (root : Spine) (w : World) : Prop where
  ready : Ready root w.tree
  numbers : ∀ pid, w.isAlive pid = true → pid ≤ largestOwner
  alive : ∀ pid, w.holds pid = true → w.isAlive pid = true
  named : ∀ pid, w.holds pid = true → file? w.tree root = some (mark pid)

namespace Exclusive

variable {w : World} {other : Nat}

theorem meaning_file? (h : Exclusive root w) (hp : w.holds pid = true) :
    meaning (file? w.tree root) = .owned pid := by
  rw [h.named pid hp, meaning_mark (h.numbers pid (h.alive pid hp))]

theorem unique (h : Exclusive root w) (hp : w.holds pid = true) (ho : w.holds other = true) :
    pid = other :=
  LockState.owned.inj ((h.meaning_file? hp).symm.trans (h.meaning_file? ho))

/-- Whoever has the lock keeps all others from it. -/
theorem blocked (h : Exclusive root w) (ho : w.holds other = true) (hne : other ≠ pid) :
    Blocked w.tree root (w.seenBy pid) other :=
  ⟨h.meaning_file? ho, hne, h.alive other ho⟩

theorem take (h : Exclusive root w) (alive : w.isAlive pid = true) :
    Exclusive root (w.take root pid) := by
  unfold World.take
  rcases h.ready.acquire (w.seenBy pid) with ⟨owner, -, heq⟩ | ⟨hfree, hfault, hfile, hready⟩
  · -- nothing has changed
    rw [heq]
    simpa using h
  · -- nobody has had the lock, for whoever has it is in the way
    have hholds : ∀ other, (w.holds other || (other == pid &&
        (acquire w.tree (FileTree.location root) (w.seenBy pid)).fault.isNone)) = true →
        other = pid := by
      intro other ho
      by_contra hne
      rw [beq_eq_false_iff_ne.mpr hne, Bool.false_and, Bool.or_false] at ho
      exact hfree other (h.blocked ho hne)
    constructor
    case ready => exact hready
    case numbers => exact h.numbers
    case alive => exact fun other ho => hholds other ho ▸ alive
    case named => exact fun other ho => hholds other ho ▸ hfile

theorem give (h : Exclusive root w) (hp : w.holds pid = true) :
    Exclusive root (w.give root pid) := by
  obtain ⟨-, hready⟩ := (h.ready.release (w.seenBy pid)).1 (h.meaning_file? hp)
  -- the file has gone, but so has its only holder
  have hnone : ∀ other, (w.holds other && other != pid) = false := by
    intro other
    by_contra hne
    rw [Bool.not_eq_false, Bool.and_eq_true, bne_iff_ne] at hne
    exact hne.2 (h.unique hne.1 hp)
  constructor
  case ready => exact hready
  case numbers => exact h.numbers
  case alive => exact fun other ho => absurd ho (by simp [World.give, hnone other])
  case named => exact fun other ho => absurd ho (by simp [World.give, hnone other])

theorem die (h : Exclusive root w) (pid : Nat) : Exclusive root (w.die pid) := by
  have hheld : ∀ other, (w.die pid).holds other = true → w.holds other = true ∧ other ≠ pid := by
    intro other ho
    rwa [World.die, Bool.and_eq_true, bne_iff_ne] at ho
  constructor
  case ready => exact h.ready
  case numbers => exact fun other ho => h.numbers other (Bool.and_eq_true_iff.mp ho).1
  case alive =>
    intro other ho
    obtain ⟨hother, hne⟩ := hheld other ho
    exact Bool.and_eq_true_iff.mpr ⟨h.alive other hother, bne_iff_ne.mpr hne⟩
  case named => exact fun other ho => h.named other (hheld other ho).1

theorem come (h : Exclusive root w) (number : pid ≤ largestOwner) :
    Exclusive root (w.come pid) := by
  constructor
  case ready => exact h.ready
  case numbers =>
    intro other ho
    rcases Bool.or_eq_true_iff.mp ho with ho | ho
    · exact h.numbers other ho
    · exact beq_iff_eq.mp ho ▸ number
  case alive => exact fun other ho => Bool.or_eq_true_iff.mpr (.inl (h.alive other ho))
  case named => exact h.named

end Exclusive

/-- Whatever has happened, whoever has the lock is there, and is named in the file. -/
theorem Run.exclusive {w : World} (h : Run root w) : Exclusive root w := by
  induction h with
  | start w ready numbers free =>
      have hnone : ∀ {pid}, w.holds pid ≠ true := fun {pid} hp =>
        absurd (hp.symm.trans (free pid)) (by simp)
      exact ⟨ready, numbers, fun _ hp => absurd hp hnone, fun _ hp => absurd hp hnone⟩
  | take h pid alive without ih => exact ih.take alive
  | give h pid holder ih => exact ih.give holder
  | die h pid ih => exact ih.die pid
  | come h pid gone number ih => exact ih.come number
  | change h tree ready same ih =>
      exact ⟨ready, ih.numbers, ih.alive, fun pid hp => same.trans (ih.named pid hp)⟩

/--
**The lock has one holder at most.**

Whatever processes have done, and whatever the lock file held at first: two that have the lock
are the same, and the one that has it is there, with its number and a newline in the file. A
process that tries to take it and fails is told of another one that is there and is named in the
file, and has changed nothing. It does not fail where there is no such process: not when the file
is absent or cannot be read as a number, and not when it names a process that is gone, or the
process itself. Giving the lock back removes the file if it names the process that gives, and
else changes nothing.
-/
theorem Run.one_holder {w : World} (h : Run root w) (pid : Nat) :
    state w.tree (FileTree.location root) = .ok (meaning (file? w.tree root)) ∧
    (∀ other, w.holds pid = true → w.holds other = true → pid = other) ∧
    (w.holds pid = true →
      w.isAlive pid = true ∧ file? w.tree root = some (toString pid ++ "\n").toUTF8) ∧
    ((acquire w.tree (FileTree.location root) ⟨pid, w.isAlive⟩).fault ≠ none →
      ∃ owner, owner ≠ pid ∧ w.isAlive owner = true ∧
        state w.tree (FileTree.location root) = .ok (.owned owner) ∧
        (acquire w.tree (FileTree.location root) ⟨pid, w.isAlive⟩).fault =
          some (.lockHeld (location (FileTree.location root)) owner) ∧
        (acquire w.tree (FileTree.location root) ⟨pid, w.isAlive⟩).tree = w.tree) ∧
    ((∀ owner, state w.tree (FileTree.location root) = .ok (.owned owner) →
        owner = pid ∨ w.isAlive owner = false) →
      (acquire w.tree (FileTree.location root) ⟨pid, w.isAlive⟩).fault = none ∧
        file? (acquire w.tree (FileTree.location root) ⟨pid, w.isAlive⟩).tree root =
          some (toString pid ++ "\n").toUTF8) ∧
    (state w.tree (FileTree.location root) = .ok (.owned pid) →
      file? (release w.tree (FileTree.location root) ⟨pid, w.isAlive⟩).1 root = none) ∧
    (state w.tree (FileTree.location root) ≠ .ok (.owned pid) →
      (release w.tree (FileTree.location root) ⟨pid, w.isAlive⟩).1 = w.tree) := by
  have hex := h.exclusive
  have hstate := hex.ready.state_eq
  have hmeans : ∀ owner, state w.tree (FileTree.location root) = .ok (.owned owner) ↔
      meaning (file? w.tree root) = .owned owner := by
    intro owner
    rw [hstate, Except.ok.injEq]
  obtain ⟨hgone, hkept⟩ := hex.ready.release (w.seenBy pid)
  refine ⟨hstate, fun other hp ho => hex.unique hp ho, fun hp => ⟨hex.alive pid hp, hex.named pid hp⟩,
    fun hfault => ?_, fun hnobody => ?_, fun hown => (hgone ((hmeans pid).mp hown)).1,
    fun hother => hkept fun hown => hother ((hmeans pid).mpr hown)⟩
  · rcases hex.ready.acquire (w.seenBy pid) with ⟨owner, ⟨hnamed, hne, halive⟩, heq⟩ | ⟨-, hnone, -⟩
    · refine ⟨owner, hne, halive, (hmeans owner).mpr hnamed, ?_, ?_⟩
      · exact congrArg Attempt.fault heq
      · exact congrArg Attempt.tree heq
    · exact absurd hnone hfault
  · rcases hex.ready.acquire (w.seenBy pid) with ⟨owner, ⟨hnamed, hne, halive⟩, -⟩ | ⟨-, hfree, hfile, -⟩
    · rcases hnobody owner ((hmeans owner).mpr hnamed) with rfl | hdead
      · exact absurd rfl hne
      · exact absurd (halive.symm.trans hdead) (by simp)
    · exact ⟨hfree, hfile⟩

/-- Two processes are there, and a lock file that names neither of them. -/
def staleWorld : World :=
  ⟨(FileTree.empty.put ["p"] .directory).put ["p", lockFileName] (.file "7\n".toUTF8 0o644),
    fun pid => pid == 1 || pid == 2, fun _ => false⟩

/-- The first of them takes the lock over, and the second is told of the first. -/
theorem one_holder_staleWorld :
    Run ["p"] (staleWorld.take ["p"] 1) ∧
    (staleWorld.take ["p"] 1).holds 1 = true ∧
    file? (staleWorld.take ["p"] 1).tree ["p"] = some (toString 1 ++ "\n").toUTF8 ∧
    ∃ owner, owner ≠ 2 ∧ (staleWorld.take ["p"] 1).isAlive owner = true ∧
      state (staleWorld.take ["p"] 1).tree (FileTree.location ["p"]) = .ok (.owned owner) := by
  have hready : Ready ["p"] staleWorld.tree := by
    refine ⟨⟨by decide, fun above habove => ?_⟩, fun entry he => ⟨"7\n".toUTF8, 0o644, ?_⟩⟩
    · rcases List.prefix_cons_iff.mp habove with rfl | ⟨rest, rfl, hrest⟩
      · exact .inl rfl
      · rw [List.prefix_nil.mp hrest]
        decide +kernel
    · rw [FileTree.entryAt, spine_lockFileName, List.singleton_append, staleWorld,
        FileTree.getElem?_put, if_pos rfl] at he
      exact (Option.some.inj he).symm
  have hstart : Run ["p"] staleWorld := by
    refine .start _ hready (fun pid hp => ?_) fun _ => rfl
    rcases Bool.or_eq_true_iff.mp hp with hp | hp
    · exact beq_iff_eq.mp hp ▸ by decide
    · exact beq_iff_eq.mp hp ▸ by decide
  have hrun := hstart.take 1 rfl rfl
  obtain ⟨-, -, hnamed, -⟩ := hrun.one_holder 1
  obtain ⟨-, -, -, hfails, -⟩ := hrun.one_holder 2
  have hholds : (staleWorld.take ["p"] 1).holds 1 = true := by decide +kernel
  obtain ⟨owner, hne, halive, hstate, -⟩ := hfails (by decide +kernel)
  exact ⟨hrun, hholds, (hnamed hholds).2, owner, hne, halive, hstate⟩

end Lock

end LinkKeeper
