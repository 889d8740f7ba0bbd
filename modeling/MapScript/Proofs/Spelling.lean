import MapScript.Number.Format
import MapScript.Settings.Config
import MapScript.Proofs.Compact

/-!
# Spellings of made lexemes

Numerals and new names are made, never read.  Their texts hold letters, digits,
points and signs only, so reading them gives words, numbers, marks and other text:
no directive and nothing that only separates.  A negative numeral is read as a sign
and a number; an infinite one is read as a word.
-/

namespace MapScript

namespace Lexer

open Text (spanAhead)

/-- Characters of names and numerals, and all beyond ASCII. -/
def isPlain (c : Char) : Bool := isNameChar c || c == '.' || c == '-' || 128 ≤ c.toNat

/-- The kind of the lexeme that begins with a plain character. -/
def plainKind (c : Char) : TokenKind :=
  if isNameStart c then .word else if c.isDigit then .number
  else if c.toNat < 128 then .punct else .text

theorem plainKind_mem (c : Char) : plainKind c ∈ [TokenKind.word, .number, .punct, .text] := by
  unfold plainKind
  split_ifs <;> simp

theorem isPlain_of_isDigit {c : Char} (h : c.isDigit = true) : isPlain c = true := by
  simp [isPlain, isNameChar, Char.isAlphanum, h]

theorem opening_plain {c : Char} (h : isPlain c = true) (cs : Text) :
    opening c cs = if isNameStart c then .word else if c.isDigit then .number
      else if c.toNat < 128 then .punct else .text := by
  have hne (d : Char) (hd : isPlain d = false) : c ≠ d := by
    rintro rfl
    rw [h] at hd
    cases hd
  simp [opening, endsLine, isSpace, hne '\x00' (by decide), hne '/' (by decide),
    hne '\n' (by decide), hne '\r' (by decide), hne ' ' (by decide), hne '\t' (by decide),
    hne '\x0c' (by decide), hne '\x0b' (by decide), hne '#' (by decide), hne '"' (by decide)]

/-- A plain character begins a lexeme of its kind, whatever follows it. -/
theorem scan_plain {c : Char} (h : isPlain c = true) (cs : Text) :
    ∃ s, scanScript c cs = .ok s ∧ s.kind = plainKind c ∧ (s.kind = .punct → s.tail = []) := by
  unfold scanScript plainKind
  rw [opening_plain h]
  split_ifs
  · exact ⟨_, rfl, rfl, by rintro ⟨⟩⟩
  · exact ⟨_, rfl, rfl, by rintro ⟨⟩⟩
  · exact ⟨_, rfl, rfl, fun _ => rfl⟩
  · exact ⟨_, rfl, rfl, by rintro ⟨⟩⟩

/-- A lexeme that its first character, a plain one, makes what it is. -/
def Headed (p : Lexeme) : Prop :=
  ∃ c tail, p.raw = c :: tail ∧ p.kind = plainKind c ∧ (p.kind = .punct → tail = [])

theorem Headed.kind_mem {p : Lexeme} (h : Headed p) :
    p.kind ∈ [TokenKind.word, .number, .punct, .text] := by
  obtain ⟨c, -, -, hkind, -⟩ := h
  rw [hkind]
  exact plainKind_mem c

theorem Headed.isTrivia {p : Lexeme} (h : Headed p) : p.isTrivia = false := by
  have hmem := h.kind_mem
  unfold Lexeme.isTrivia
  revert hmem
  cases p.kind <;> decide

theorem Headed.kind_ne_directive {p : Lexeme} (h : Headed p) : p.kind ≠ .directive := by
  intro hkind
  have hmem := h.kind_mem
  rw [hkind] at hmem
  simp at hmem

theorem Headed.opensHeader {p : Lexeme} (h : Headed p) : opensHeader p = false := by
  simp [Lexer.opensHeader, h.kind_ne_directive]

/-- Plain text reads as lexemes that their first characters make what they are. -/
theorem reads_plain (t : Text) (h : ∀ c ∈ t, isPlain c = true) :
    ∃ ps, Lexeme.rawText ps = t ∧ Reads ps [] ∧ ∀ p ∈ ps, Headed p := by
  match t with
  | [] => exact ⟨[], rfl, trivial, by simp⟩
  | c :: cs =>
      obtain ⟨s, hscan, hkind, hmark⟩ := scan_plain (h c (by simp)) cs
      have happ : s.tail ++ s.rest = cs := Opening.scan_append hscan
      have hlength : s.rest.length ≤ cs.length := by simp [← happ]
      obtain ⟨ps, htext, hreads, hps⟩ := reads_plain s.rest fun d hd =>
        h d (by simp [← happ, hd])
      have hhead : Headed ⟨s.kind, c :: s.tail⟩ := ⟨c, s.tail, rfl, hkind, hmark⟩
      refine ⟨⟨s.kind, c :: s.tail⟩ :: ps, ?_, ⟨?_, hhead.opensHeader, hreads⟩, ?_⟩
      · simp only [Lexeme.rawText, List.flatMap_cons] at htext ⊢
        rw [htext, List.cons_append, happ]
      · refine ⟨c, s.tail, rfl, ?_⟩
        rw [htext, List.append_nil, happ]
        exact hscan
      · exact List.forall_mem_cons.2 ⟨hhead, hps⟩
termination_by t.length

/-- A letter or underscore of ASCII, then letters, digits and underscores. -/
def IsName (t : Text) : Prop :=
  ∃ c tail, t = c :: tail ∧ isNameStart c = true ∧ ∀ d ∈ tail, isNameChar d = true

theorem isPlain_of_isNameChar {c : Char} (h : isNameChar c = true) : isPlain c = true := by
  simp [isPlain, h]

theorem isNameChar_of_isNameStart {c : Char} (h : isNameStart c = true) : isNameChar c = true := by
  simp only [isNameStart, Bool.or_eq_true] at h
  rcases h with h | h <;> simp [isNameChar, Char.isAlphanum, h]

theorem IsName.isPlain {t : Text} (h : IsName t) : ∀ c ∈ t, isPlain c = true := by
  obtain ⟨c, tail, rfl, hc, htail⟩ := h
  rw [List.forall_mem_cons]
  refine ⟨isPlain_of_isNameChar (isNameChar_of_isNameStart hc), ?_⟩
  intro d hd
  exact isPlain_of_isNameChar (htail d hd)

theorem IsName.headed {t : Text} (h : IsName t) : Headed ⟨.word, t⟩ := by
  obtain ⟨c, tail, rfl, hc, -⟩ := h
  refine ⟨c, tail, rfl, by simp [plainKind, hc], ?_⟩
  rintro ⟨⟩

/-- A name stands alone as one word. -/
theorem IsName.stands {t : Text} (h : IsName t) : Stands ⟨.word, t⟩ [] := by
  have hplain := h.isPlain
  obtain ⟨c, tail, rfl, hc, htail⟩ := h
  have hspan : spanAhead (fun c _ => isNameChar c) tail = (tail, []) := by
    clear hplain
    induction tail with
    | nil => rfl
    | cons d ds ih => simp [spanAhead, htail d (by simp), ih fun e he => htail e (by simp [he])]
  refine ⟨c, tail, rfl, ?_⟩
  simp [scanScript, opening_plain (hplain c (by simp)), hc, Opening.scan, Scan.of, hspan]

end Lexer

namespace Compact

open Lexer

/-- What the text of a lexeme, standing alone, reads as; nothing if it cannot be read. -/
def spelled (l : Lexeme) : List Lexeme :=
  match lexScript l.raw with
  | .ok ps => ps
  | .error _ => []

theorem Spells.spelled_eq {l : Lexeme} {ps : List Lexeme} (h : Spells l ps) : spelled l = ps := by
  have hread := h.reads.lexScript_rawText
  rw [h.text] at hread
  simp [spelled, hread]

/-- Plain text spells lexemes that their first characters make what they are. -/
theorem spells_plain {l : Lexeme} (hne : l.raw ≠ []) (h : ∀ c ∈ l.raw, isPlain c = true) :
    ∃ ps, Spells l ps ∧ ∀ p ∈ ps, Headed p := by
  obtain ⟨ps, htext, hreads, hps⟩ := reads_plain l.raw h
  refine ⟨ps, ⟨htext, hreads, ?_, fun p hp => (hps p hp).isTrivia⟩, hps⟩
  rintro rfl
  exact hne htext.symm

/-- What is spelled as a name is read as a word. -/
theorem spells_name {l : Lexeme} (h : IsName l.raw) : Spells l [⟨.word, l.raw⟩] := by
  have hself := Spells.self h.stands rfl rfl
  exact ⟨hself.text, hself.reads, hself.nonempty, hself.significant⟩

end Compact

/-! ### Numerals -/

namespace Number

open Lexer (isPlain Headed IsName)

/-- Digits and points, the first of them a digit. -/
def Unsigned (t : Text) : Prop :=
  (∃ d ds, t = d :: ds ∧ d.isDigit = true) ∧ ∀ c ∈ t, c.isDigit = true ∨ c = '.'

theorem isDigit_of_mem_ofNat {n : Nat} {c : Char} (h : c ∈ Text.ofNat n) : c.isDigit = true :=
  Nat.isDigit_of_mem_toDigits (by decide) (by decide) h

theorem unsigned_ofNat (n : Nat) : Unsigned (Text.ofNat n) := by
  refine ⟨?_, fun c hc => Or.inl (isDigit_of_mem_ofNat hc)⟩
  cases hdigits : Text.ofNat n with
  | nil => exact absurd hdigits Nat.toDigits_ne_nil
  | cons d ds => exact ⟨d, ds, rfl, isDigit_of_mem_ofNat (by rw [hdigits]; simp)⟩

theorem mem_fixedSix {n : Nat} {c : Char} (h : c ∈ fixedSix n) : c.isDigit = true ∨ c = '.' := by
  simp only [fixedSix, Text.fill, List.mem_append, List.mem_cons, List.mem_replicate] at h
  rcases h with (h | rfl | ⟨-, rfl⟩) | h
  · exact Or.inl (isDigit_of_mem_ofNat h)
  · exact Or.inr rfl
  · exact Or.inl rfl
  · exact Or.inl (isDigit_of_mem_ofNat h)

/-- What is left of six places begins with a digit. -/
theorem unsigned_fixedSix (millionths : Nat) : Unsigned
    (Text.dropEndWhile (· == '.') (Text.dropEndWhile (· == '0') (fixedSix millionths))) := by
  constructor
  · obtain ⟨⟨d, ds, hwhole, hd⟩, -⟩ := unsigned_ofNat (millionths / 1000000)
    have hpoint : (d == '.') = false := by
      rw [beq_eq_false_iff_ne]
      rintro rfl
      cases hd
    have hfixed : fixedSix millionths = (d :: ds) ++ '.' ::
        (Text.fill (6 - (Text.ofNat (millionths % 1000000)).length) '0' ++
          Text.ofNat (millionths % 1000000)) := by
      simp [fixedSix, hwhole]
    -- the point ends the first cut and a digit before it the second
    rw [hfixed,
      Text.dropEndWhile_append_cons (· == '0') _ _ (show ('.' == '0') = false from rfl)]
    exact ⟨d, _, Text.dropEndWhile_append_cons (· == '.') [] _ hpoint, hd⟩
  · intro c hc
    exact mem_fixedSix (Text.mem_of_mem_dropEndWhile (Text.mem_of_mem_dropEndWhile hc))

theorem unsigned_formatMagnitude (units : Nat) : Unsigned (formatMagnitude units) := by
  rw [formatMagnitude]
  exact unsigned_fixedSix _

/-- The text of a magnitude: digits with a point among them, or a word. -/
def IsMagnitude (t : Text) : Prop := Unsigned t ∨ t = "inf".toList ∨ t = "nan".toList

theorem ofInt_cases (n : Int) :
    ∃ body, (Text.ofInt n = body ∨ Text.ofInt n = '-' :: body) ∧ IsMagnitude body := by
  cases n with
  | ofNat n => exact ⟨_, Or.inl rfl, Or.inl (unsigned_ofNat n)⟩
  | negSucc n => exact ⟨_, Or.inr rfl, Or.inl (unsigned_ofNat (n + 1))⟩

/-- A text behind a sign, if there is one. -/
theorem sign_append (negative : Bool) (t : Text) :
    (if negative then ['-'] else []) ++ t = t ∨
      (if negative then ['-'] else []) ++ t = '-' :: t := by
  cases negative <;> simp

theorem formatDouble_cases (x : Binary64) :
    ∃ body, (formatDouble x = body ∨ formatDouble x = '-' :: body) ∧ IsMagnitude body := by
  unfold formatDouble
  split
  · exact ⟨_, Or.inl rfl, Or.inr (Or.inr rfl)⟩
  · next negative => exact ⟨_, sign_append negative _, Or.inr (Or.inl rfl)⟩
  · next negative units =>
    split
    · exact ofInt_cases _
    · exact ⟨_, sign_append negative _, Or.inl (unsigned_formatMagnitude units)⟩

/-- A number is written as a magnitude, with or without a sign. -/
theorem format_cases {value : Number} {raw : Text} (h : value.format = .ok raw) :
    ∃ body, (raw = body ∨ raw = '-' :: body) ∧ IsMagnitude body := by
  cases value with
  | int n =>
      rw [format, writeInt] at h
      split at h
      · cases h
      · cases h
        exact ofInt_cases n
  | float x =>
      cases h
      exact formatDouble_cases x

theorem IsMagnitude.isPlain {t : Text} (h : IsMagnitude t) : ∀ c ∈ t, isPlain c = true := by
  rcases h with ⟨-, h⟩ | rfl | rfl
  · intro c hc
    rcases h c hc with hd | rfl
    · exact Lexer.isPlain_of_isDigit hd
    · rfl
  · exact List.all_eq_true.1 rfl
  · exact List.all_eq_true.1 rfl

theorem IsMagnitude.ne_nil {t : Text} (h : IsMagnitude t) : t ≠ [] := by
  rcases h with ⟨⟨d, ds, rfl, -⟩, -⟩ | rfl | rfl
  · simp
  · decide
  · decide

theorem isNameStart_of_isDigit {d : Char} (h : d.isDigit = true) : isNameStart d = false := by
  have hunderscore : d ≠ '_' := by
    rintro rfl
    cases h
  have halpha : d.isAlpha = false := by
    simp only [Char.isDigit, Char.isAlpha, Char.isUpper, Char.isLower, ge_iff_le,
      UInt32.le_iff_toNat_le] at h ⊢
    simp at h ⊢
    omega
  simp [isNameStart, hunderscore, halpha]

theorem plainKind_of_isDigit {d : Char} (h : d.isDigit = true) : Lexer.plainKind d = .number := by
  simp [Lexer.plainKind, isNameStart_of_isDigit h, h]

/-- A written number is read as one word, or begins with a number or a sign. -/
theorem spells_numeral {l : Lexeme} {body : Text} (hraw : l.raw = body ∨ l.raw = '-' :: body)
    (hbody : IsMagnitude body) :
    ∃ ps, Compact.Spells l ps ∧ (∀ p ∈ ps, Headed p) ∧
      (ps = [⟨.word, l.raw⟩] ∨ ∃ p rest, ps = p :: rest ∧
        (p.kind = .number ∨ p.kind = .punct ∧ p.raw = ['-'])) := by
  have hplain : ∀ c ∈ l.raw, isPlain c = true := by
    rcases hraw with hraw | hraw
    · rw [hraw]
      exact hbody.isPlain
    · rw [hraw]
      exact List.forall_mem_cons.2 ⟨rfl, hbody.isPlain⟩
  have hne : l.raw ≠ [] := by
    rcases hraw with hraw | hraw
    · rw [hraw]
      exact hbody.ne_nil
    · simp [hraw]
  obtain ⟨ps, hspells, hps⟩ := Compact.spells_plain hne hplain
  cases ps with
  | nil => exact absurd rfl hspells.nonempty
  | cons p rest =>
      obtain ⟨c, tail, hp, hkind, hmark⟩ := hps p (by simp)
      have hhead : l.raw = c :: (tail ++ Lexeme.rawText rest) := by
        rw [← hspells.text, Lexeme.rawText, List.flatMap_cons, hp]
        rfl
      rcases hraw with hraw | hraw
      · rcases hbody with ⟨⟨d, ds, rfl, hd⟩, -⟩ | rfl | rfl
        · rw [hraw, List.cons.injEq] at hhead
          rw [← hhead.1, plainKind_of_isDigit hd] at hkind
          exact ⟨_, hspells, hps, Or.inr ⟨p, rest, rfl, Or.inl hkind⟩⟩
        · have hname : IsName l.raw := ⟨_, _, hraw, rfl, List.all_eq_true.1 rfl⟩
          exact ⟨_, Compact.spells_name hname, List.forall_mem_singleton.2 hname.headed, Or.inl rfl⟩
        · have hname : IsName l.raw := ⟨_, _, hraw, rfl, List.all_eq_true.1 rfl⟩
          exact ⟨_, Compact.spells_name hname, List.forall_mem_singleton.2 hname.headed, Or.inl rfl⟩
      · rw [hraw, List.cons.injEq] at hhead
        rw [← hhead.1] at hkind hp
        have hpunct : p.kind = .punct := hkind
        rw [hmark hpunct] at hp
        exact ⟨_, hspells, hps, Or.inr ⟨p, rest, rfl, Or.inr ⟨hpunct, hp⟩⟩⟩

end Number

/-! ### Names -/

theorem Lexer.IsName.append_ofNat {stem : Text} (h : IsName stem) (n : Nat) :
    IsName (stem ++ Text.ofNat n) := by
  obtain ⟨c, tail, rfl, hc, htail⟩ := h
  refine ⟨c, tail ++ Text.ofNat n, rfl, hc, ?_⟩
  intro d hd
  rcases List.mem_append.1 hd with hd | hd
  · exact htail d hd
  · have hdigit := Number.isDigit_of_mem_ofNat hd
    simp [isNameChar, Char.isAlphanum, hdigit]

namespace Settings

open Lexer (isPlain)

/-- The digits and letters of ASCII as ranges. -/
def asciiRanges : List (Nat × Nat) := [(0x30, 0x39), (0x41, 0x5A), (0x61, 0x7A)]

/-- A character of ranges that is ASCII lies in those of them that are. -/
theorem inRanges_of_ascii {ranges : List (Nat × Nat)} (near : List (Nat × Nat)) {c : Char}
    (hranges : (ranges.all fun r => Nat.ble 128 r.1 || near.contains r) = true)
    (h : Text.inRanges ranges c = true) (hc : c.toNat < 128) : Text.inRanges near c = true := by
  obtain ⟨r, hmem, hrange⟩ := List.any_eq_true.1 h
  have hnear := List.all_eq_true.1 hranges r hmem
  simp only [Bool.or_eq_true, Nat.ble_eq, List.contains_iff_mem] at hnear
  rcases hnear with hfar | hnear
  · simp only [Bool.and_eq_true, decide_eq_true_eq] at hrange
    omega
  · exact List.any_eq_true.2 ⟨r, hnear, hrange⟩

theorem isPlain_of_inRanges {ranges : List (Nat × Nat)} {c : Char}
    (hranges : (ranges.all fun r => Nat.ble 128 r.1 || asciiRanges.contains r) = true)
    (h : Text.inRanges ranges c = true) : isPlain c = true := by
  by_cases hc : c.toNat < 128
  · have hnear := inRanges_of_ascii asciiRanges hranges h hc
    have hname : c.isAlphanum = true := by
      have hval : c.toNat = c.val.toNat := rfl
      simp [Text.inRanges, asciiRanges] at hnear
      simp [Char.isAlphanum, Char.isAlpha, Char.isUpper, Char.isLower, Char.isDigit,
        UInt32.le_iff_toNat_le, ← hval]
      omega
    simp [isPlain, isNameChar, hname]
  · have hfar : 128 ≤ c.toNat := Nat.not_lt.1 hc
    simp [isPlain, hfar]

/-- The characters of an accepted stem are plain. -/
theorem isPlain_of_checkStem {stem : Text} (h : checkStem stem = .ok stem) :
    ∀ c ∈ stem, isPlain c = true := by
  have hletter {c : Char} (hc : Text.isLetter c = true) : isPlain c = true :=
    isPlain_of_inRanges (by decide +kernel) hc
  have hnumeral {c : Char} (hc : Text.inRanges Text.numeralRanges c = true) : isPlain c = true :=
    isPlain_of_inRanges (by decide +kernel) hc
  intro c hc
  unfold checkStem at h
  split at h
  · cases h
  split at h
  · next hall =>
    have hchar := List.all_eq_true.1 (Bool.and_eq_true_iff.1 hall).2 c hc
    simp only [Text.isLetterOrNumeral, Bool.or_eq_true, beq_iff_eq] at hchar
    rcases hchar with rfl | hc | hc
    · rfl
    · exact hletter hc
    · exact hnumeral hc
  · cases h

end Settings

end MapScript
