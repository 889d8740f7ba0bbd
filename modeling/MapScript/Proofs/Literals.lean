import MapScript.Proofs.DeclaredCalls
import MapScript.Proofs.Symbol.Areas

/-!
# Operands that are folded

A number is written as digits, with a point and digits after it or without, and a
minus sign before it or without, unless it is no finite number.  Such a text is
read as an optional sign and one numeral, which stays as it is where it stands for
the operand of a constant.  A double that is no finite number is written as a
word, and no operand that has such a value becomes a literal.
-/

namespace MapScript

open MapScript.Compact
open Lexer (Stands Reads)

/-! ### Texts of numerals -/

/-- Digits, with a point and digits after it or without. -/
def Text.IsDecimal (t : Text) : Prop :=
  IsDigits t ∨ ∃ whole fraction, IsDigits whole ∧ IsDigits fraction ∧ t = whole ++ '.' :: fraction

/-- A decimal, with a minus sign before it or without. -/
def Text.IsSignedDecimal (t : Text) : Prop :=
  Text.IsDecimal t ∨ ∃ body, Text.IsDecimal body ∧ t = '-' :: body

namespace Number

/-- Whether the number is neither infinite nor undefined. -/
def isFinite : Number → Bool
  | int _ => true
  | float (.finite _ _) => true
  | float _ => false

theorem isDigits_ofNat (n : Nat) : IsDigits (Text.ofNat n) :=
  ⟨Nat.toDigits_ne_nil, fun _ => isDigit_of_mem_ofNat⟩

/-- From what ends with a digit no points are dropped. -/
theorem dropEndWhile_point {digits : Text} (h : IsDigits digits) (front : Text) :
    Text.dropEndWhile (· == '.') (front ++ digits) = front ++ digits := by
  have hlast : (digits.getLast h.1 == '.') = false := by
    rw [beq_eq_false_iff_ne]
    intro hpoint
    have hdigit := h.2 _ (List.getLast_mem h.1)
    rw [hpoint] at hdigit
    cases hdigit
  rw [← List.dropLast_append_getLast h.1, ← List.append_assoc,
    Text.dropEndWhile_append_cons (· == '.') _ [] hlast]
  rfl

/-- What is left of six places is a decimal. -/
theorem isDecimal_fixedSix (millionths : Nat) : Text.IsDecimal
    (Text.dropEndWhile (· == '.') (Text.dropEndWhile (· == '0') (fixedSix millionths))) := by
  rw [fixedSix]
  have hwhole := isDigits_ofNat (millionths / 1000000)
  generalize Text.ofNat (millionths / 1000000) = whole at hwhole
  generalize hplaces : Text.fill (6 - (Text.ofNat (millionths % 1000000)).length) '0' ++
    Text.ofNat (millionths % 1000000) = places
  have hdigits : ∀ c ∈ places, c.isDigit = true := by
    subst hplaces
    intro c hc
    rcases List.mem_append.1 hc with hc | hc
    · rw [(List.mem_replicate.1 hc).2]
      rfl
    · exact isDigit_of_mem_ofNat hc
  rw [List.append_assoc, List.cons_append, hplaces,
    Text.dropEndWhile_append_cons (· == '0') _ _ (show ('.' == '0') = false from rfl)]
  have hkept : ∀ c ∈ Text.dropEndWhile (· == '0') places, c.isDigit = true :=
    fun c hc => hdigits c (Text.mem_of_mem_dropEndWhile hc)
  generalize Text.dropEndWhile (· == '0') places = kept at hkept
  by_cases hnone : kept = []
  · -- no place is left, and the point goes as well
    rw [hnone]
    have hpoint : Text.dropEndWhile (· == '.') (whole ++ ['.']) = whole := by
      rw [Text.dropEndWhile_append_of_forall (by simp)]
      exact dropEndWhile_point hwhole []
    rw [hpoint]
    exact Or.inl hwhole
  · have hfraction : IsDigits kept := ⟨hnone, hkept⟩
    have hpoint := dropEndWhile_point hfraction (whole ++ ['.'])
    rw [List.append_assoc, List.singleton_append] at hpoint
    rw [hpoint]
    exact Or.inr ⟨whole, kept, hwhole, hfraction, rfl⟩

theorem isDecimal_formatMagnitude (units : Nat) : Text.IsDecimal (formatMagnitude units) := by
  rw [formatMagnitude]
  exact isDecimal_fixedSix _

theorem isSignedDecimal_ofInt (n : Int) : Text.IsSignedDecimal (Text.ofInt n) := by
  cases n with
  | ofNat n => exact Or.inl (Or.inl (isDigits_ofNat n))
  | negSucc n => exact Or.inr ⟨_, Or.inl (isDigits_ofNat (n + 1)), rfl⟩

/-- What is written for a number that is no finite one. -/
def nonFinite : List Text := ["inf".toList, "-inf".toList, "nan".toList]

/-- A finite number is written as a decimal with or without a sign. -/
theorem isSignedDecimal_of_format {value : Number} {raw : Text} (h : value.format = .ok raw)
    (hfinite : value.isFinite = true) : Text.IsSignedDecimal raw := by
  cases value with
  | int n =>
      rw [format, writeInt] at h
      split at h
      · cases h
      · obtain rfl := Except.ok.inj h
        exact isSignedDecimal_ofInt n
  | float x =>
      obtain rfl := Except.ok.inj h
      cases x with
      | nan => cases hfinite
      | infinity => cases hfinite
      | finite negative units =>
          rw [formatDouble]
          split
          · exact isSignedDecimal_ofInt _
          · rcases sign_append negative (formatMagnitude units) with hsign | hsign
            · rw [hsign]
              exact Or.inl (isDecimal_formatMagnitude units)
            · rw [hsign]
              exact Or.inr ⟨_, isDecimal_formatMagnitude units, rfl⟩

/-- A number that is no finite one is written as a word. -/
theorem mem_nonFinite_of_format {value : Number} {raw : Text} (h : value.format = .ok raw)
    (hfinite : value.isFinite = false) : raw ∈ nonFinite := by
  cases value with
  | int n => cases hfinite
  | float x =>
      obtain rfl := Except.ok.inj h
      cases x with
      | nan => simp [formatDouble, nonFinite]
      | infinity negative => cases negative <;> simp [formatDouble, nonFinite]
      | finite => cases hfinite

end Number

/-! ### Numerals that are read -/

theorem Text.IsDecimal.stands {t : Text} (h : Text.IsDecimal t) : Stands ⟨.number, t⟩ [] := by
  rcases h with hdigits | ⟨whole, fraction, hwhole, hfraction, rfl⟩
  · exact stands_digits hdigits.1 hdigits.2 rfl (by simp)
  · obtain ⟨d, tail, rfl⟩ := List.exists_cons_of_ne_nil hwhole.1
    obtain ⟨f, places, rfl⟩ := List.exists_cons_of_ne_nil hfraction.1
    obtain ⟨hd, htail⟩ := List.forall_mem_cons.1 hwhole.2
    obtain ⟨hf, hplaces⟩ := List.forall_mem_cons.1 hfraction.2
    have hopening : Lexer.opening d (tail ++ '.' :: f :: places ++ []) = .number := by
      rw [Lexer.opening_plain (Lexer.isPlain_of_isDigit hd), Number.isNameStart_of_isDigit hd, hd]
      rfl
    have hspan : Text.spanAhead (fun c _ => c.isDigit) (tail ++ '.' :: f :: places) =
        (tail, '.' :: f :: places) := Lexer.spanAhead_eq htail rfl
    have hrest : Text.spanAhead (fun c _ => c.isDigit) places = (places, []) := by
      simpa using Lexer.spanAhead_eq (v := []) hplaces rfl
    refine ⟨d, tail ++ '.' :: f :: places, rfl, ?_⟩
    rw [Lexer.scanScript, hopening, List.append_nil]
    simp [Lexer.Opening.scan, Lexer.numeralTail, hspan, hf, hrest, Lexer.Scan.of]

/-- The lexemes of a decimal with or without a sign. -/
theorem Text.IsSignedDecimal.lexScript {t : Text} (h : Text.IsSignedDecimal t) :
    Lexer.lexScript t = .ok [⟨.number, t⟩] ∨
      ∃ body, t = '-' :: body ∧ Lexer.lexScript t = .ok [mark '-', ⟨.number, body⟩] := by
  rcases h with hdecimal | ⟨body, hbody, rfl⟩
  · have hreads : Reads [⟨.number, t⟩] [] := ⟨by simpa [Lexeme.rawText] using hdecimal.stands, rfl,
      trivial⟩
    exact Or.inl (by simpa [Lexeme.rawText] using hreads.lexScript_rawText)
  · have hreads : Reads [mark '-', ⟨.number, body⟩] [] :=
      ⟨stands_callMark (by decide) _, rfl, by simpa [Lexeme.rawText] using hbody.stands, rfl,
        trivial⟩
    exact Or.inr ⟨body, rfl, by simpa [Lexeme.rawText, mark] using hreads.lexScript_rawText⟩

/-- What is written for a number that is no finite one is read as a word. -/
theorem Number.not_isSignedDecimal_of_mem {raw : Text} (h : raw ∈ nonFinite) :
    ¬ Text.IsSignedDecimal raw := by
  have hletter {c : Char} {t : Text} (hc : c.isDigit = false) : ¬ Text.IsDecimal (c :: t) := by
    have hhead {digits rest : Text} (hdigits : IsDigits digits)
        (heq : c :: t = digits ++ rest) : False := by
      obtain ⟨d, ds, rfl⟩ := List.exists_cons_of_ne_nil hdigits.1
      obtain ⟨rfl, -⟩ := List.cons.inj heq
      rw [hdigits.2 c (by simp)] at hc
      cases hc
    rintro (hdigits | ⟨whole, fraction, hwhole, -, heq⟩)
    · exact hhead hdigits (List.append_nil _).symm
    · exact hhead hwhole heq
  simp only [nonFinite, List.mem_cons, List.not_mem_nil, or_false] at h
  rcases h with rfl | rfl | rfl
  · rintro (hdecimal | ⟨body, -, heq⟩)
    · exact hletter (c := 'i') (by decide) hdecimal
    · cases heq
  · rintro (hdecimal | ⟨body, hbody, heq⟩)
    · exact hletter (c := '-') (by decide) hdecimal
    · obtain ⟨-, rfl⟩ := List.cons.inj heq
      exact hletter (c := 'i') (by decide) hbody
  · rintro (hdecimal | ⟨body, -, heq⟩)
    · exact hletter (c := 'n') (by decide) hdecimal
    · cases heq

/-! ### Operands that are literals -/

namespace Resolve

/-- A text that is read as a numeral, behind a sign or alone, and that stays as it is where
it stands for the operand of a constant. -/
structure IsLiteralText (raw : Text) : Prop where
  form : Text.IsSignedDecimal raw
  lexemes : Lexer.lexScript raw = .ok [⟨.number, raw⟩] ∨
    ∃ body, raw = '-' :: body ∧ Lexer.lexScript raw = .ok [mark '-', ⟨.number, body⟩]
  literal : ∀ ts rest, Lexer.lexScript raw = .ok (ts.map Token.toLexeme) →
    Operand.length? (ts ++ rest) = some ts.length ∧ isLiteral ts = true
  stays : ∀ (name : Token) (row : List Indexed) (ts rest : List Token) (table : SymbolTable),
    Lexer.lexScript raw = .ok (ts.map Token.toLexeme) → row.map Prod.fst = ts ++ rest →
    Ends (foldDeclaration name row) table (fun edit _ => edit = none) (fun _ _ => True)

/-- A literal operand is not replaced. -/
theorem foldDeclaration_literal (name : Token) {row : List Indexed} {ts rest : List Token}
    (hrow : row.map Prod.fst = ts ++ rest)
    (hlength : Operand.length? (ts ++ rest) = some ts.length) (hliteral : isLiteral ts = true)
    (table : SymbolTable) :
    Ends (foldDeclaration name row) table (fun edit _ => edit = none) (fun _ _ => True) := by
  have hoperand : (row.take ts.length).map Prod.fst = ts := by
    rw [List.map_take, hrow, List.take_left]
  rw [foldDeclaration, hrow, hlength]
  simp only [Ends.bind_iff, Ends.get_iff, hoperand]
  refine Ends.of_run (fun _ table₁ _ => ?_) fun _ _ _ => trivial
  refine Ends.of_run (fun value table₂ _ => ?_) fun _ _ _ => trivial
  split
  · rw [if_pos hliteral]
    rfl
  · rfl

theorem isLiteralText_of_form {raw : Text} (h : Text.IsSignedDecimal raw) : IsLiteralText raw := by
  have hliteral (ts rest : List Token) (hread : Lexer.lexScript raw = .ok (ts.map Token.toLexeme)) :
      Operand.length? (ts ++ rest) = some ts.length ∧ isLiteral ts = true := by
    rcases h.lexScript with hlex | ⟨body, -, hlex⟩
    · rw [hlex] at hread
      obtain ⟨t, others, rfl, ht, hothers⟩ := List.map_eq_cons_iff.1 (Except.ok.inj hread).symm
      obtain rfl := List.map_eq_nil_iff.1 hothers
      have hkind : t.kind = .number := congrArg Lexeme.kind ht
      simp [Operand.length?, Token.isPunct, isLiteral, hkind]
    · rw [hlex] at hread
      obtain ⟨t, others, rfl, ht, hothers⟩ := List.map_eq_cons_iff.1 (Except.ok.inj hread).symm
      obtain ⟨u, others, rfl, hu, hothers⟩ := List.map_eq_cons_iff.1 hothers
      obtain rfl := List.map_eq_nil_iff.1 hothers
      have hsign : t.isPunct '-' = true := by simp [Token.isPunct, ht, mark]
      have hkind : u.kind = .number := congrArg Lexeme.kind hu
      simp [Operand.length?, isLiteral, hsign, hkind]
  refine ⟨h, h.lexScript, hliteral, fun name row ts rest table hread hrow => ?_⟩
  obtain ⟨hlength, hts⟩ := hliteral ts rest hread
  exact foldDeclaration_literal name hrow hlength hts table

/-- A number is written as a literal exactly if it is finite. -/
theorem isLiteralText_iff {value : Number} {raw : Text} (h : value.format = .ok raw) :
    IsLiteralText raw ↔ value.isFinite = true := by
  constructor
  · intro hliteral
    by_contra hfinite
    exact Number.not_isSignedDecimal_of_mem
      (Number.mem_nonFinite_of_format h (by simpa using hfinite)) hliteral.form
  · exact fun hfinite => isLiteralText_of_form (Number.isSignedDecimal_of_format h hfinite)

end Resolve

open Evaluation (Assigns)
open Resolve

/-- A resolved script is the script with numerals put in, each for the name of an area or
for the operand of a constant.  The number of an area is a literal, and so is the value of
an operand exactly if it is finite; else a word is written. -/
theorem Script.resolve_puts_literals {s out : Script Node} {table last : SymbolTable}
    (hfresh : table.Fresh) (hrun : s.resolve.run.run table = (.ok out, last)) :
    List.Forall₂
      (fun tokens row => ∃ edits, row = Edit.applyAll edits tokens ∧ ∀ e ∈ edits,
        e.Encloses tokens ∧
        ((∃ place, AreaPlace (indexed tokens) place ∧ e.Numbers last place ∧
            IsLiteralText e.replacement.raw) ∨
          ∃ first i others m values value, OperandPlace (indexed tokens) ((first, i) :: others) ∧
            Assigns last values (Operand.references (first :: (others.take m).map Prod.fst)) ∧
            Expression.fold values (first :: (others.take m).map Prod.fst) = .ok (some value) ∧
            e.first = i ∧ value.format = .ok e.replacement.raw ∧
            (IsLiteralText e.replacement.raw ↔ value.isFinite = true) ∧
            (value.isFinite = false → e.replacement.raw ∈ Number.nonFinite)))
      (groups s.parts) (groups out.parts) := by
  have hrows := ((s.resolve_rows establishes_edited table).of_run_ok hrun).2
    (s.sound_declare hfresh.values)
  refine hrows.imp ?_
  rintro tokens row ⟨edits, hrow, hencloses, hedits⟩
  refine ⟨edits, hrow, fun e he => ⟨hencloses e he, ?_⟩⟩
  cases hedits.arises e he with
  | @area name i _ hplace hnumbers _ =>
      refine Or.inl ⟨(name, i), hplace, hnumbers, ?_⟩
      obtain ⟨area, -, rfl⟩ := hnumbers
      exact isLiteralText_of_form (Number.isSignedDecimal_ofInt area)
  | @operand first i m others values value raw hplace _ hassigns hfolds _ hformat =>
      exact Or.inr ⟨first, i, others, m, values, value, hplace, hassigns, hfolds, rfl, hformat,
        isLiteralText_iff hformat, Number.mem_nonFinite_of_format hformat⟩

/-- An area and two operands, one of them negative with a fraction. -/
def quarry : Text := "#const A (2 * 3.25)\nactor_area LAKE\n#const B (0.5 - A)".toList

theorem Script.resolve_puts_literals_quarry :
    ∃ s out last, ofSource quarry = .ok s ∧ s.resolve.run.run {} = (.ok out, last) ∧
      (∃ row ∈ groups out.parts, "-6".toList ∈ row.map fun t => t.raw) ∧
      List.Forall₂
        (fun tokens row => ∃ edits, row = Edit.applyAll edits tokens ∧ ∀ e ∈ edits,
          e.Encloses tokens ∧
          ((∃ place, AreaPlace (indexed tokens) place ∧ e.Numbers last place ∧
              IsLiteralText e.replacement.raw) ∨
            ∃ first i others m values value, OperandPlace (indexed tokens) ((first, i) :: others) ∧
              Assigns last values (Operand.references (first :: (others.take m).map Prod.fst)) ∧
              Expression.fold values (first :: (others.take m).map Prod.fst) = .ok (some value) ∧
              e.first = i ∧ value.format = .ok e.replacement.raw ∧
              (IsLiteralText e.replacement.raw ↔ value.isFinite = true) ∧
              (value.isFinite = false → e.replacement.raw ∈ Number.nonFinite)))
        (groups s.parts) (groups out.parts) := by
  have hruns : (ofSource quarry).toOption.any (fun s =>
      (s.resolve.run.run {}).1.toOption.any fun (out : Script Node) =>
        decide (∃ row ∈ groups out.parts, "-6".toList ∈ row.map fun t => t.raw)) = true := by
    decide +kernel
  obtain ⟨s, hs, hruns⟩ := toOption_any_iff.1 hruns
  obtain ⟨out, hout, hfolded⟩ := toOption_any_iff.1 hruns
  exact ⟨s, out, _, hs, Prod.ext hout rfl, of_decide_eq_true hfolded,
    resolve_puts_literals ⟨rfl, rfl, rfl⟩ (Prod.ext hout rfl)⟩

/-- A product beyond the range of doubles. -/
def summit : Text :=
  "#const A 100000000000000000000.5\n#const B (A*A*A*A)\n#const C (B*B*B*B)".toList

/-- The operand is replaced by what is no literal, and is read as a word. -/
theorem Script.resolve_puts_word :
    ∃ s out last, ofSource summit = .ok s ∧ s.resolve.run.run {} = (.ok out, last) ∧
      (∃ row ∈ groups out.parts, ∃ t ∈ row, t.kind = .number ∧ t.raw = "inf".toList) ∧
      Lexer.lexScript "inf".toList = .ok [⟨.word, "inf".toList⟩] := by
  have hruns : (ofSource summit).toOption.any (fun s =>
      (s.resolve.run.run {}).1.toOption.any fun (out : Script Node) =>
        decide (∃ row ∈ groups out.parts, ∃ t ∈ row, t.kind = .number ∧ t.raw = "inf".toList)) =
      true := by
    decide +kernel
  obtain ⟨s, hs, hruns⟩ := toOption_any_iff.1 hruns
  obtain ⟨out, hout, hword⟩ := toOption_any_iff.1 hruns
  exact ⟨s, out, _, hs, Prod.ext hout rfl, of_decide_eq_true hword, by cbv⟩

end MapScript
