import Mathlib.Data.List.Basic
import LinkKeeper.Text.Utf8

/-!
# Text and its bytes

A text is written as the bytes of its characters. A lenient reading finds each character that stands
somewhere whole, and puts the replacement character for every part in which none begins. So what is
lost of a file that is not UTF-8 are those parts, and no byte of a character next to them.
-/

namespace LinkKeeper.Text

open String (utf8EncodeChar)

variable {b d : UInt8} {bytes rest : List UInt8} {c : Char}

/-! ## Characters as bytes -/

/-- A byte that goes on with a character and begins none. -/
def IsTail (b : UInt8) : Prop := 0x80 ≤ b.toNat ∧ b.toNat ≤ 0xBF

theorem ofNat_eq_of_toNat {n : Nat} (h : n = b.toNat) : UInt8.ofNat n = b := by
  rw [h, UInt8.ofNat_toNat]

/-- A number that is a code point has a character, and its bytes are those of this number. -/
theorem exists_char {n : Nat} (h : n.isValidChar) : ∃ c : Char, c.val.toNat = n :=
  ⟨Char.ofNatAux n h, rfl⟩

theorem exists_char_one (h : b.toNat < 0x80) : ∃ c, utf8EncodeChar c = [b] := by
  obtain ⟨c, hc⟩ := exists_char (n := b.toNat) (.inl (by omega))
  refine ⟨c, ?_⟩
  unfold utf8EncodeChar
  dsimp only
  rw [hc, if_pos (by omega), UInt8.ofNat_toNat]

theorem exists_char_two (hb : 0xC2 ≤ b.toNat ∧ b.toNat < 0xE0) (hd : IsTail d) :
    ∃ c, utf8EncodeChar c = [b, d] := by
  unfold IsTail at hd
  obtain ⟨c, hc⟩ := exists_char (n := (b.toNat - 0xC0) * 64 + (d.toNat - 0x80)) (.inl (by omega))
  refine ⟨c, ?_⟩
  unfold utf8EncodeChar
  dsimp only
  rw [hc, if_neg (by omega), if_pos (by omega), ofNat_eq_of_toNat (b := b) (by omega),
    ofNat_eq_of_toNat (b := d) (by omega)]

theorem exists_char_three {e : UInt8} (hb : 0xE0 ≤ b.toNat ∧ b.toNat < 0xF0) (hd : IsTail d)
    (he : IsTail e) (hlow : b.toNat = 0xE0 → 0xA0 ≤ d.toNat)
    (hhigh : b.toNat = 0xED → d.toNat ≤ 0x9F) : ∃ c, utf8EncodeChar c = [b, d, e] := by
  unfold IsTail at hd he
  obtain ⟨c, hc⟩ := exists_char
    (n := ((b.toNat - 0xE0) * 64 + (d.toNat - 0x80)) * 64 + (e.toNat - 0x80))
    (by unfold Nat.isValidChar; omega)
  refine ⟨c, ?_⟩
  unfold utf8EncodeChar
  dsimp only
  rw [hc, if_neg (by omega), if_neg (by omega), if_pos (by omega),
    ofNat_eq_of_toNat (b := b) (by omega), ofNat_eq_of_toNat (b := d) (by omega),
    ofNat_eq_of_toNat (b := e) (by omega)]

theorem exists_char_four {e f : UInt8} (hb : 0xF0 ≤ b.toNat ∧ b.toNat ≤ 0xF4) (hd : IsTail d)
    (he : IsTail e) (hf : IsTail f) (hlow : b.toNat = 0xF0 → 0x90 ≤ d.toNat)
    (hhigh : b.toNat = 0xF4 → d.toNat ≤ 0x8F) : ∃ c, utf8EncodeChar c = [b, d, e, f] := by
  unfold IsTail at hd he hf
  obtain ⟨c, hc⟩ := exists_char
    (n := (((b.toNat - 0xF0) * 64 + (d.toNat - 0x80)) * 64 + (e.toNat - 0x80)) * 64 +
      (f.toNat - 0x80)) (.inr (by omega))
  refine ⟨c, ?_⟩
  unfold utf8EncodeChar
  dsimp only
  rw [hc, if_neg (by omega), if_neg (by omega), if_neg (by omega),
    ofNat_eq_of_toNat (b := b) (by omega), ofNat_eq_of_toNat (b := d) (by omega),
    ofNat_eq_of_toNat (b := e) (by omega), ofNat_eq_of_toNat (b := f) (by omega)]

theorem utf8EncodeChar_ne_nil (c : Char) : utf8EncodeChar c ≠ [] := by
  unfold utf8EncodeChar
  dsimp only
  split
  · exact List.cons_ne_nil _ _
  · split
    · exact List.cons_ne_nil _ _
    · split <;> exact List.cons_ne_nil _ _

/-- No character begins with a byte that goes on with one. -/
theorem not_isTail_of_utf8EncodeChar (h : utf8EncodeChar c = b :: rest) : ¬ IsTail b := by
  unfold utf8EncodeChar at h
  dsimp only at h
  unfold IsTail
  split at h
  · obtain ⟨rfl, -⟩ := List.cons.inj h
    rw [UInt8.toNat_ofNat']
    omega
  · split at h
    · obtain ⟨rfl, -⟩ := List.cons.inj h
      rw [UInt8.toNat_ofNat']
      omega
    · split at h
      · obtain ⟨rfl, -⟩ := List.cons.inj h
        rw [UInt8.toNat_ofNat']
        omega
      · obtain ⟨rfl, -⟩ := List.cons.inj h
        rw [UInt8.toNat_ofNat']
        omega


/-! ## The character at the front -/

/--
What follows a first byte in a character: a byte between two bounds, and then plain continuations.
Whatever follows it so makes a character.
-/
structure Lead (b : UInt8) (more low up : Nat) : Prop where
  least : 0x80 ≤ low
  most : up ≤ 0xBF
  whole : ∀ (d : UInt8) (ds : List UInt8), low ≤ d.toNat ∧ d.toNat ≤ up → ds.length = more - 1 →
    (∀ e ∈ ds, IsTail e) → ∃ c, utf8EncodeChar c = b :: d :: ds

theorem lead_two (hb : 0xC2 ≤ b.toNat ∧ b.toNat < 0xE0) : Lead b 1 0x80 0xBF where
  least := Nat.le_refl _
  most := Nat.le_refl _
  whole d ds hd hlength _ := by
    obtain rfl := List.length_eq_zero_iff.mp hlength
    exact exists_char_two hb hd

theorem lead_three {low up : Nat} (hb : 0xE0 ≤ b.toNat ∧ b.toNat < 0xF0) (hlow : 0x80 ≤ low)
    (hup : up ≤ 0xBF) (hfirst : b.toNat = 0xE0 → 0xA0 ≤ low)
    (hsurrogate : b.toNat = 0xED → up ≤ 0x9F) : Lead b 2 low up where
  least := hlow
  most := hup
  whole d ds hd hlength hds := by
    obtain ⟨e, rfl⟩ := List.length_eq_one_iff.mp hlength
    exact exists_char_three hb ⟨Nat.le_trans hlow hd.1, Nat.le_trans hd.2 hup⟩
      (hds e List.mem_cons_self) (fun h => Nat.le_trans (hfirst h) hd.1)
      fun h => Nat.le_trans hd.2 (hsurrogate h)

theorem lead_four {low up : Nat} (hb : 0xF0 ≤ b.toNat ∧ b.toNat ≤ 0xF4) (hlow : 0x80 ≤ low)
    (hup : up ≤ 0xBF) (hfirst : b.toNat = 0xF0 → 0x90 ≤ low)
    (hlast : b.toNat = 0xF4 → up ≤ 0x8F) : Lead b 3 low up where
  least := hlow
  most := hup
  whole d ds hd hlength hds := by
    obtain ⟨e, f, rfl⟩ := List.length_eq_two.mp hlength
    exact exists_char_four hb ⟨Nat.le_trans hlow hd.1, Nat.le_trans hd.2 hup⟩
      (hds e List.mem_cons_self) (hds f (List.mem_cons_of_mem _ List.mem_cons_self))
      (fun h => Nat.le_trans (hfirst h) hd.1) fun h => Nat.le_trans hd.2 (hlast h)

/-- A byte is a character by itself, or begins none, or leads some bytes. -/
theorem firstChar_cases (b : UInt8) :
    (∃ c, utf8EncodeChar c = [b]) ∨ (∀ bytes, firstChar b bytes = (replacement, 1)) ∨
      ∃ high more low up, Lead b more low up ∧
        ∀ bytes, firstChar b bytes = severalBytes high more low up bytes := by
  by_cases hone : b.toNat < 0x80
  · exact .inl (exists_char_one hone)
  refine .inr ?_
  unfold firstChar
  dsimp only
  simp only [if_neg hone]
  by_cases hshort : b.toNat < 0xC2
  · exact .inl fun _ => if_pos hshort
  simp only [if_neg hshort]
  by_cases htwo : b.toNat < 0xE0
  · exact .inr ⟨_, _, _, _, lead_two (by omega), fun _ => if_pos htwo⟩
  simp only [if_neg htwo]
  by_cases hfirst : b.toNat = 0xE0
  · exact .inr ⟨_, _, _, _, lead_three (by omega) (by omega) (by omega) (by omega) (by omega),
      fun _ => if_pos hfirst⟩
  simp only [if_neg hfirst]
  by_cases hsurrogate : b.toNat = 0xED
  · exact .inr ⟨_, _, _, _, lead_three (by omega) (by omega) (by omega) (by omega) (by omega),
      fun _ => if_pos hsurrogate⟩
  simp only [if_neg hsurrogate]
  by_cases hthree : b.toNat < 0xF0
  · exact .inr ⟨_, _, _, _, lead_three (by omega) (by omega) (by omega) (by omega) (by omega),
      fun _ => if_pos hthree⟩
  simp only [if_neg hthree]
  by_cases hlow : b.toNat = 0xF0
  · exact .inr ⟨_, _, _, _, lead_four (by omega) (by omega) (by omega) (by omega) (by omega),
      fun _ => if_pos hlow⟩
  simp only [if_neg hlow]
  by_cases hfour : b.toNat < 0xF4
  · exact .inr ⟨_, _, _, _, lead_four (by omega) (by omega) (by omega) (by omega) (by omega),
      fun _ => if_pos hfour⟩
  simp only [if_neg hfour]
  by_cases hlast : b.toNat = 0xF4
  · exact .inr ⟨_, _, _, _, lead_four (by omega) (by omega) (by omega) (by omega) (by omega),
      fun _ => if_pos hlast⟩
  · exact .inl fun _ => if_neg hlast

/-- A byte between the bounds continues a character, and no other does. -/
theorem continuation?_cases (low up : Nat) (bytes : List UInt8) :
    (∃ d rest, bytes = d :: rest ∧ (low ≤ d.toNat ∧ d.toNat ≤ up) ∧
      continuation? low up (some d) = some (d.toNat - 0x80)) ∨
    continuation? low up bytes.head? = none := by
  cases bytes with
  | nil => exact .inr rfl
  | cons d rest =>
      by_cases hin : low ≤ d.toNat ∧ d.toNat ≤ up
      · exact .inl ⟨d, rest, rfl, hin, if_pos hin⟩
      · exact .inr (if_neg hin)

/--
As many plain continuations follow as are asked for, or there are fewer, and what comes behind the
byte that breaks them off makes no difference.
-/
theorem continueWith_cases (more code taken : Nat) (bytes : List UInt8) :
    (∃ ds rest, ds.length = more ∧ (∀ d ∈ ds, IsTail d) ∧ bytes = ds ++ rest) ∨
    ∃ ds rest, ds.length < more ∧ (∀ d ∈ ds, IsTail d) ∧ bytes = ds ++ rest ∧
      ∀ other : List UInt8, other.head? = rest.head? →
        continueWith more code taken (ds ++ other) = (replacement, taken + ds.length) := by
  induction more generalizing code taken bytes with
  | zero => exact .inl ⟨[], bytes, rfl, List.forall_mem_nil _, rfl⟩
  | succ more ih =>
      rcases continuation?_cases 0x80 0xBF bytes with ⟨d, rest, rfl, hbounds, hd⟩ | hnone
      · have htails : ∀ {ds : List UInt8}, (∀ e ∈ ds, IsTail e) → ∀ e ∈ d :: ds, IsTail e :=
          fun h => List.forall_mem_cons.mpr ⟨hbounds, h⟩
        rcases ih (code * 64 + (d.toNat - 0x80)) (taken + 1) rest with
          ⟨ds, behind, rfl, hds, rfl⟩ | ⟨ds, behind, hless, hds, rfl, hbroken⟩
        · exact .inl ⟨d :: ds, behind, rfl, htails hds, rfl⟩
        · refine .inr ⟨d :: ds, behind, Nat.succ_lt_succ hless, htails hds, rfl,
            fun other hother => ?_⟩
          rw [continueWith, List.cons_append, List.head?_cons, hd]
          dsimp only [List.tail_cons]
          rw [hbroken other hother, List.length_cons, Nat.add_right_comm, Nat.add_assoc]
      · refine .inr ⟨[], bytes, Nat.succ_pos _, List.forall_mem_nil _, rfl, fun other hother => ?_⟩
        rw [continueWith, List.nil_append, hother, hnone]
        rfl

/-- A character of several bytes has them all, or lacks the second one, or one that comes later. -/
theorem severalBytes_cases (high more low up : Nat) (bytes : List UInt8) :
    (∃ d ds rest, (low ≤ d.toNat ∧ d.toNat ≤ up) ∧ ds.length = more - 1 ∧ (∀ e ∈ ds, IsTail e) ∧
      bytes = d :: (ds ++ rest)) ∨
    (∀ other : List UInt8, other.head? = bytes.head? →
      severalBytes high more low up other = (replacement, 1)) ∨
    ∃ d ds rest, (low ≤ d.toNat ∧ d.toNat ≤ up) ∧ ds.length < more - 1 ∧ (∀ e ∈ ds, IsTail e) ∧
      bytes = d :: (ds ++ rest) ∧ ∀ other : List UInt8, other.head? = rest.head? →
        severalBytes high more low up (d :: (ds ++ other)) = (replacement, ds.length + 2) := by
  rcases continuation?_cases low up bytes with ⟨d, rest, rfl, hbounds, hd⟩ | hnone
  · rcases continueWith_cases (more - 1) (high * 64 + (d.toNat - 0x80)) 2 rest with
      ⟨ds, behind, hlength, hds, rfl⟩ | ⟨ds, behind, hless, hds, rfl, hbroken⟩
    · exact .inl ⟨d, ds, behind, hbounds, hlength, hds, rfl⟩
    · refine .inr (.inr ⟨d, ds, behind, hbounds, hless, hds, rfl, fun other hother => ?_⟩)
      rw [severalBytes, List.head?_cons, hd]
      dsimp only [List.tail_cons]
      rw [hbroken other hother, Nat.add_comm]
  · refine .inr (.inl fun other hother => ?_)
    rw [severalBytes, hother, hnone]

/--
A character is broken off behind some bytes that go on with it. They are its longest beginning, or
the first byte begins none.
-/
structure BrokenOff (b : UInt8) (ds rest : List UInt8) : Prop where
  tails : ∀ d ∈ ds, IsTail d
  begins : ds = [] ∨ ∃ c, b :: ds <+: utf8EncodeChar c
  found : ∀ other : List UInt8, other.head? = rest.head? →
    firstChar b (ds ++ other) = (replacement, ds.length + 1)

/-- Fewer bytes than a first byte leads are the beginning of a character. -/
theorem Lead.begins {more low up : Nat} (h : Lead b more low up)
    (hd : low ≤ d.toNat ∧ d.toNat ≤ up) {ds : List UInt8} (hless : ds.length < more - 1)
    (hds : ∀ e ∈ ds, IsTail e) : ∃ c, b :: d :: ds <+: utf8EncodeChar c := by
  obtain ⟨c, hc⟩ := h.whole d (ds ++ List.replicate (more - 1 - ds.length) 0x80) hd
    (by rw [List.length_append, List.length_replicate, Nat.add_sub_cancel' (Nat.le_of_lt hless)])
    (List.forall_mem_append.mpr ⟨hds, fun e he => List.eq_of_mem_replicate he ▸ ⟨by decide, by decide⟩⟩)
  exact ⟨c, _, hc.symm⟩

/-- Where no character stands, one is broken off. -/
theorem exists_brokenOff (hnone : ∀ c, ¬ utf8EncodeChar c <+: b :: bytes) :
    ∃ ds rest, bytes = ds ++ rest ∧ BrokenOff b ds rest := by
  rcases firstChar_cases b with ⟨c, hc⟩ | hfound | ⟨high, more, low, up, hlead, hfound⟩
  · exact absurd ⟨bytes, by rw [hc]; rfl⟩ (hnone c)
  · exact ⟨[], bytes, rfl, List.forall_mem_nil _, .inl rfl, fun other _ => hfound other⟩
  · rcases severalBytes_cases high more low up bytes with ⟨d, ds, rest, hd, hlength, hds, rfl⟩ |
      hshort | ⟨d, ds, rest, hd, hless, hds, rfl, hbroken⟩
    · obtain ⟨c, hc⟩ := hlead.whole d ds hd hlength hds
      exact absurd ⟨rest, by rw [hc]; rfl⟩ (hnone c)
    · exact ⟨[], bytes, rfl, List.forall_mem_nil _, .inl rfl,
        fun other hother => (hfound other).trans (hshort other hother)⟩
    · refine ⟨d :: ds, rest, rfl, List.forall_mem_cons.mpr ⟨?_, hds⟩,
        .inr (hlead.begins hd hless hds), fun other hother => ?_⟩
      · exact ⟨Nat.le_trans hlead.least hd.1, Nat.le_trans hd.2 hlead.most⟩
      · exact (hfound _).trans (hbroken other hother)

/-- A byte that goes on with a character, made of its bits. -/
def tailOf (bits : Nat) : UInt8 := UInt8.ofNat (bits + 0x80)

theorem toNat_ofNat_of_byte {n : Nat} (h : n < 256) : (UInt8.ofNat n).toNat = n :=
  UInt8.toNat_ofNat_of_lt' h

theorem continuation?_tailOf {low up bits : Nat} (hlow : low ≤ bits + 0x80) (hup : bits + 0x80 ≤ up)
    (hbits : bits < 64) (rest : List UInt8) :
    continuation? low up (tailOf bits :: rest).head? = some bits := by
  rw [List.head?_cons, continuation?, tailOf, toNat_ofNat_of_byte (by omega), if_pos ⟨hlow, hup⟩,
    Nat.add_sub_cancel]

/-- Where the plain continuations follow their bits make the code point. -/
theorem continueWith_tailOf (more : List Nat) (hmore : ∀ bits ∈ more, bits < 64) (code taken : Nat)
    (rest : List UInt8) :
    continueWith more.length code taken (more.map tailOf ++ rest) =
      (Char.ofNat (more.foldl (fun code bits => code * 64 + bits) code), taken + more.length) := by
  induction more generalizing code taken with
  | nil => rfl
  | cons bits more ih =>
      obtain ⟨hbits, hmore⟩ := List.forall_mem_cons.mp hmore
      rw [List.length_cons, continueWith, List.map_cons, List.cons_append,
        continuation?_tailOf (by omega) (by omega) hbits]
      dsimp only [List.tail_cons]
      rw [ih hmore, List.foldl_cons, Nat.add_assoc, Nat.add_comm 1]

/-- A character of several bytes is found where these stand. -/
theorem severalBytes_tailOf {high low up bits : Nat} (more : List Nat) (hbits : bits < 64)
    (hmore : ∀ bits ∈ more, bits < 64) (hbounds : low ≤ bits + 0x80 ∧ bits + 0x80 ≤ up)
    (hcode : more.foldl (fun code bits => code * 64 + bits) (high * 64 + bits) = c.toNat)
    (rest : List UInt8) :
    severalBytes high (more.length + 1) low up ((bits :: more).map tailOf ++ rest) =
      (c, more.length + 2) := by
  rw [severalBytes, List.map_cons, List.cons_append,
    continuation?_tailOf hbounds.1 hbounds.2 hbits]
  dsimp only [List.tail_cons]
  rw [Nat.add_sub_cancel, continueWith_tailOf more hmore, hcode, Char.ofNat_toNat, Nat.add_comm 2]

theorem firstChar_one (h : c.toNat ≤ 0x7F) (rest : List UInt8) :
    firstChar (UInt8.ofNat c.toNat) rest = (c, 1) := by
  unfold firstChar
  dsimp only
  rw [toNat_ofNat_of_byte (by omega), if_pos (by omega), Char.ofNat_toNat]

theorem firstChar_two (h : 0x7F < c.toNat ∧ c.toNat ≤ 0x7FF) (rest : List UInt8) :
    firstChar (UInt8.ofNat (c.toNat / 64 % 32 + 0xC0)) ([c.toNat % 64].map tailOf ++ rest) =
      (c, 2) := by
  unfold firstChar
  dsimp only
  rw [toNat_ofNat_of_byte (by omega), if_neg (by omega), if_neg (by omega), if_pos (by omega)]
  refine severalBytes_tailOf [] (by omega) (by simp) (by omega) ?_ rest
  dsimp only [List.foldl]
  omega

theorem firstChar_three (h : 0x7FF < c.toNat ∧ c.toNat ≤ 0xFFFF) (rest : List UInt8) :
    firstChar (UInt8.ofNat (c.toNat / 4096 % 16 + 0xE0))
      ([c.toNat / 64 % 64, c.toNat % 64].map tailOf ++ rest) = (c, 3) := by
  have hvalid : c.toNat < 0xD800 ∨ 0xDFFF < c.toNat ∧ c.toNat < 0x110000 := c.valid
  have hfound : ∀ {high low up : Nat},
      low ≤ c.toNat / 64 % 64 + 0x80 ∧ c.toNat / 64 % 64 + 0x80 ≤ up → high = c.toNat / 4096 →
      severalBytes high 2 low up ([c.toNat / 64 % 64, c.toNat % 64].map tailOf ++ rest) =
        (c, 3) := by
    intro high low up hbounds hhigh
    refine severalBytes_tailOf [c.toNat % 64] (by omega) ?_ hbounds ?_ rest
    · exact List.forall_mem_singleton.mpr (by omega)
    · dsimp only [List.foldl]
      omega
  unfold firstChar
  dsimp only
  rw [toNat_ofNat_of_byte (by omega), if_neg (by omega), if_neg (by omega), if_neg (by omega)]
  split
  · exact hfound (by omega) (by omega)
  split
  · exact hfound (by omega) (by omega)
  rw [if_pos (by omega)]
  exact hfound (by omega) (by omega)

theorem firstChar_four (h : 0xFFFF < c.toNat) (rest : List UInt8) :
    firstChar (UInt8.ofNat (c.toNat / 262144 % 8 + 0xF0))
      ([c.toNat / 4096 % 64, c.toNat / 64 % 64, c.toNat % 64].map tailOf ++ rest) = (c, 4) := by
  have hvalid : c.toNat < 0xD800 ∨ 0xDFFF < c.toNat ∧ c.toNat < 0x110000 := c.valid
  have hfound : ∀ {high low up : Nat},
      low ≤ c.toNat / 4096 % 64 + 0x80 ∧ c.toNat / 4096 % 64 + 0x80 ≤ up →
      high = c.toNat / 262144 →
      severalBytes high 3 low up
        ([c.toNat / 4096 % 64, c.toNat / 64 % 64, c.toNat % 64].map tailOf ++ rest) = (c, 4) := by
    intro high low up hbounds hhigh
    refine severalBytes_tailOf [c.toNat / 64 % 64, c.toNat % 64] (by omega) ?_ hbounds ?_ rest
    · exact List.forall_mem_cons.mpr ⟨by omega, List.forall_mem_singleton.mpr (by omega)⟩
    · dsimp only [List.foldl]
      omega
  unfold firstChar
  dsimp only
  rw [toNat_ofNat_of_byte (by omega), if_neg (by omega), if_neg (by omega), if_neg (by omega),
    if_neg (by omega), if_neg (by omega), if_neg (by omega)]
  split
  · exact hfound (by omega) (by omega)
  split
  · exact hfound (by omega) (by omega)
  rw [if_pos (by omega)]
  exact hfound (by omega) (by omega)

/-- Where a character stands it is found, with all its bytes. -/
theorem firstChar_of_utf8EncodeChar (h : utf8EncodeChar c = b :: bytes) (rest : List UInt8) :
    firstChar b (bytes ++ rest) = (c, bytes.length + 1) := by
  have hvalue : c.val.toNat = c.toNat := rfl
  unfold utf8EncodeChar at h
  dsimp only at h
  rw [hvalue] at h
  split at h
  · obtain ⟨rfl, rfl⟩ := List.cons.inj h
    exact firstChar_one (by omega) _
  split at h
  · obtain ⟨rfl, rfl⟩ := List.cons.inj h
    exact firstChar_two (by omega) rest
  split at h
  · obtain ⟨rfl, rfl⟩ := List.cons.inj h
    exact firstChar_three (by omega) rest
  · obtain ⟨rfl, rfl⟩ := List.cons.inj h
    exact firstChar_four (by omega) rest

/-! ## The reading as a whole -/

/--
Bytes and how they are read leniently: a character where one stands, and the replacement character
for a part in which none begins. Such a part is the longest beginning of a character that is broken
off, or one byte that begins none.
-/
inductive Mended : List UInt8 → List Char → Prop
  | nil : Mended [] []
  | char (c : Char) {bytes : List UInt8} {cs : List Char} (rest : Mended bytes cs) :
      Mended (utf8EncodeChar c ++ bytes) (c :: cs)
  | broken {part bytes : List UInt8} {cs : List Char} (some : part ≠ [])
      (none : ∀ k < part.length, ∀ c, ¬ utf8EncodeChar c <+: (part ++ bytes).drop k)
      (begins : part.length = 1 ∨ ∃ c, part <+: utf8EncodeChar c)
      (longest : ∀ d ∈ bytes.head?, ∀ c, ¬ part ++ [d] <+: utf8EncodeChar c)
      (rest : Mended bytes cs) : Mended (part ++ bytes) (replacement :: cs)

theorem lenientFrom_eq (skip : Nat) (done : List Char) (bytes : List UInt8) :
    lenientFrom skip done bytes = done.reverse ++ lenientFrom 0 [] (bytes.drop skip) := by
  induction bytes generalizing skip done with
  | nil => simp [lenientFrom]
  | cons b bytes ih =>
      cases skip with
      | succ skip => exact ih skip done
      | zero =>
          rw [lenientFrom, List.drop_zero, lenientFrom]
          dsimp only
          rw [ih, ih _ [_]]
          simp

/-- One character is read, and then the rest. -/
theorem lenientFrom_cons (h : firstChar b (bytes ++ rest) = (c, bytes.length + 1)) :
    lenientFrom 0 [] (b :: (bytes ++ rest)) = c :: lenientFrom 0 [] rest := by
  rw [lenientFrom, h]
  dsimp only
  rw [lenientFrom_eq, Nat.add_sub_cancel, List.drop_left]
  rfl

namespace BrokenOff

variable {ds : List UInt8} (h : BrokenOff b ds rest)
include h

/-- None of the bytes that are passed over for a character broken off begins a character. -/
theorem not_prefix_drop (hnone : ∀ c, ¬ utf8EncodeChar c <+: b :: (ds ++ rest)) {k : Nat}
    (hk : k < (b :: ds).length) (c : Char) : ¬ utf8EncodeChar c <+: (b :: ds ++ rest).drop k := by
  cases k with
  | zero => exact hnone c
  | succ k =>
      have hin : k < ds.length := Nat.lt_of_succ_lt_succ hk
      obtain ⟨first, more, hc⟩ := List.exists_cons_of_ne_nil (utf8EncodeChar_ne_nil c)
      rw [List.cons_append, List.drop_succ_cons, List.drop_append_of_le_length (Nat.le_of_lt hin),
        List.drop_eq_getElem_cons hin, hc]
      rintro ⟨behind, hbehind⟩
      obtain ⟨rfl, -⟩ := List.cons.inj hbehind
      exact not_isTail_of_utf8EncodeChar hc (h.tails _ (List.getElem_mem hin))

/-- With the next byte they would begin none: a character that began so would have been found. -/
theorem longest (hd : d ∈ rest.head?) (c : Char) : ¬ b :: ds ++ [d] <+: utf8EncodeChar c := by
  rintro ⟨more, hmore⟩
  have hc : utf8EncodeChar c = b :: (ds ++ d :: more) := by
    rw [← hmore]
    simp
  have hwhole := firstChar_of_utf8EncodeChar hc []
  rw [List.append_nil, h.found (d :: more) hd.symm] at hwhole
  have hlength := (Prod.mk.inj hwhole).2
  rw [List.length_append, List.length_cons] at hlength
  omega

end BrokenOff

theorem mended_lenientFrom (bytes : List UInt8) : Mended bytes (lenientFrom 0 [] bytes) := by
  -- the induction is on the number of bytes: each round passes over one at least
  induction hlength : bytes.length using Nat.strongRecOn generalizing bytes with
  | ind n ih =>
  subst hlength
  have hshorter : ∀ (b : UInt8) (ds rest : List UInt8), rest.length < (b :: (ds ++ rest)).length := by
    intro b ds rest
    rw [List.length_cons, List.length_append]
    omega
  cases bytes with
  | nil => exact .nil
  | cons b bytes =>
      by_cases hchar : ∃ c, utf8EncodeChar c <+: b :: bytes
      · obtain ⟨c, rest, hrest⟩ := hchar
        obtain ⟨first, more, hc⟩ := List.exists_cons_of_ne_nil (utf8EncodeChar_ne_nil c)
        rw [hc, List.cons_append] at hrest
        obtain ⟨rfl, rfl⟩ := List.cons.inj hrest
        rw [lenientFrom_cons (firstChar_of_utf8EncodeChar hc rest), ← List.cons_append, ← hc]
        exact .char c (ih _ (hshorter first more rest) rest rfl)
      · have hnone := not_exists.mp hchar
        obtain ⟨ds, rest, rfl, hbroken⟩ := exists_brokenOff hnone
        rw [lenientFrom_cons (hbroken.found rest rfl)]
        exact .broken (List.cons_ne_nil b ds) (fun k hk => hbroken.not_prefix_drop hnone hk)
          (hbroken.begins.imp_left fun hnil => by rw [hnil]; rfl)
          (fun d hd => hbroken.longest hd) (ih _ (hshorter b ds rest) rest rfl)

/-! ## Texts -/

/-- The bytes of some characters. -/
def encoded (cs : List Char) : List UInt8 := cs.flatMap utf8EncodeChar

theorem encoded_append (cs ds : List Char) : encoded (cs ++ ds) = encoded cs ++ encoded ds :=
  List.flatMap_append

theorem encoded_flatten (lines : List (List Char)) :
    encoded lines.flatten = (lines.map encoded).flatten := by
  induction lines with
  | nil => rfl
  | cons line lines ih => rw [List.flatten_cons, encoded_append, ih, List.map_cons, List.flatten_cons]

/-- The bytes of a text are read as the text. -/
theorem mended_encoded (cs : List Char) : Mended (encoded cs) cs := by
  induction cs with
  | nil => exact .nil
  | cons c cs ih => exact .char c ih

theorem toList_loop (bytes : ByteArray) (i : Nat) (done : List UInt8) :
    ByteArray.toList.loop bytes i done = done.reverse ++ bytes.data.toList.drop i := by
  fun_induction ByteArray.toList.loop bytes i done with
  | case1 i done hlt ih =>
      have hi : i < bytes.data.toList.length := by simpa using hlt
      rw [ih, List.drop_eq_getElem_cons hi]
      simp [ByteArray.get!, hlt]
  | case2 i done hge =>
      rw [List.drop_of_length_le (by simpa using hge), List.append_nil]

theorem toList_eq_data (bytes : ByteArray) : bytes.toList = bytes.data.toList := by
  rw [ByteArray.toList, toList_loop, List.drop_zero, List.reverse_nil, List.nil_append]

theorem toList_toUTF8 (text : String) : text.toUTF8.toList = encoded text.toList := by
  rw [toList_eq_data]
  show text.toByteArray.data.toList = _
  conv_lhs => rw [← String.ofList_toList (s := text)]
  rw [String.toByteArray_ofList, List.utf8Encode, List.toList_data_toByteArray]
  rfl

end LinkKeeper.Text
