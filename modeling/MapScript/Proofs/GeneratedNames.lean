import MapScript.Proofs.DeclaredCalls
import MapScript.Proofs.FixedPoint
import MapScript.Proofs.Symbol.Remaining

/-!
# Generated names

The names of hoisted calls begin with a stem that the settings accept, be it in
letters of any script, but a word of a script is ASCII.  So a generated name reads
as one word exactly if its stem is ASCII, and exactly then the line that declares
it declares a constant of this name when the text is read again.
-/

namespace MapScript

/-! ### Words -/

namespace Lexer

theorem toNat_lt_of_isNameChar {c : Char} (h : isNameChar c = true) : c.toNat < 128 := by
  have hval : c.toNat = c.val.toNat := rfl
  simp only [isNameChar, Char.isAlphanum, Char.isAlpha, Char.isUpper, Char.isLower, Char.isDigit,
    Bool.or_eq_true, Bool.and_eq_true, decide_eq_true_eq, beq_iff_eq, ge_iff_le,
    UInt32.le_iff_toNat_le] at h
  rcases h with rfl | h
  · decide
  · simp at h
    omega

theorem IsName.isNameChar {t : Text} (h : IsName t) : ∀ c ∈ t, isNameChar c = true := by
  obtain ⟨c, tail, rfl, hc, htail⟩ := h
  exact List.forall_mem_cons.2 ⟨isNameChar_of_isNameStart hc, htail⟩

/-- A word is a name, wherever it stands. -/
theorem Stands.isName {l : Lexeme} {rest : Text} (h : Stands l rest) (hl : l.kind = .word) :
    IsName l.raw := by
  obtain ⟨c, tail, hraw, hscan⟩ := h
  rw [hl] at hscan
  have hmeets := opening_meets c (tail ++ rest)
  have hkind := Opening.kind?_of_scan hscan
  unfold scanScript at hscan
  generalize opening c (tail ++ rest) = o at hmeets hkind hscan
  cases o with
  | word =>
      obtain ⟨-, htaken⟩ := Scan.of_eq_iff.1 (Except.ok.inj hscan)
      have hmem := of_mem_spanAhead (p := MapScript.isNameChar) (tail ++ rest)
      rw [htaken] at hmem
      exact ⟨c, tail, hraw, hmeets, hmem⟩
  | nul | blockComment | lineComment | lineFeed | carriageReturn | space | directive | string
  | number | punct | text => cases hkind

/-- Names are the texts that read as one word and nothing else. -/
theorem lexScript_eq_word_iff {t : Text} : lexScript t = .ok [⟨.word, t⟩] ↔ IsName t := by
  constructor
  · intro h
    obtain ⟨-, hstands, -⟩ := reads_of_lexScript h (by simp [opensHeader])
    exact hstands.isName rfl
  · intro h
    have hread := (Compact.spells_name (l := ⟨.word, t⟩) h).reads.lexScript_rawText
    simpa [Lexeme.rawText] using hread

end Lexer

open Lexer (IsName Stands)

/-- The tokens of a name are one word and the end. -/
theorem TokenStream.ofSource_eq_word_iff {t : Text} :
    (ofSource t).map (fun stream => stream.toList.map Token.toLexeme) =
      .ok [⟨.word, t⟩, ⟨.finish, []⟩] ↔ IsName t := by
  rw [← Lexer.lexScript_eq_word_iff]
  unfold ofSource
  cases Lexer.lexScript t with
  | error refusal => simp [Except.map]
  | ok ls =>
      rw [Except.map, Except.ok.injEq, Except.ok.injEq, toList, List.map_append, Token.map_place]
      show ls ++ [(⟨.finish, []⟩ : Lexeme)] = [⟨.word, t⟩] ++ [⟨.finish, []⟩] ↔ _
      exact List.append_left_inj _

/-! ### Accepted stems -/

namespace Settings

/-- An accepted stem of ASCII characters is a name. -/
theorem isName_of_checkStem {stem : Text} (h : checkStem stem = .ok stem)
    (hascii : ∀ c ∈ stem, c.toNat < 128) : IsName stem := by
  have hval (c : Char) : c.toNat = c.val.toNat := rfl
  have hletter {c : Char} (hc : Text.isLetter c = true) (hsmall : c.toNat < 128) :
      c.isAlpha = true := by
    have hnear := inRanges_of_ascii [(0x41, 0x5A), (0x61, 0x7A)] (by decide +kernel) hc hsmall
    simp [Text.inRanges] at hnear
    simp [Char.isAlpha, Char.isUpper, Char.isLower, UInt32.le_iff_toNat_le, ← hval]
    omega
  have hnumeral {c : Char} (hc : Text.inRanges Text.numeralRanges c = true)
      (hsmall : c.toNat < 128) : c.isDigit = true := by
    have hnear := inRanges_of_ascii [(0x30, 0x39)] (by decide +kernel) hc hsmall
    simp [Text.inRanges] at hnear
    simp [Char.isDigit, UInt32.le_iff_toNat_le, ← hval]
    omega
  unfold checkStem at h
  split at h
  · cases h
  next c tail =>
  split at h
  · next hall =>
    obtain ⟨hfirst, hall⟩ := Bool.and_eq_true_iff.1 hall
    refine ⟨c, tail, rfl, ?_, fun d hd => ?_⟩
    · simp only [Bool.or_eq_true, beq_iff_eq] at hfirst
      rcases hfirst with rfl | hc
      · rfl
      · simp [isNameStart, hletter hc (hascii c (by simp))]
    · have hd' := List.mem_cons_of_mem c hd
      have hchar := List.all_eq_true.1 hall d hd'
      simp only [Text.isLetterOrNumeral, Bool.or_eq_true, beq_iff_eq] at hchar
      rcases hchar with rfl | hd | hd
      · rfl
      · simp [isNameChar, Char.isAlphanum, hletter hd (hascii d hd')]
      · simp [isNameChar, Char.isAlphanum, hnumeral hd (hascii d hd')]
  · cases h

/-- The names that an accepted stem begins are those of the lexer if the stem is ASCII. -/
theorem isName_append_ofNat_iff {stem : Text} (h : checkStem stem = .ok stem) (n : Nat) :
    IsName (stem ++ Text.ofNat n) ↔ ∀ c ∈ stem, c.toNat < 128 := by
  constructor
  · intro hname c hc
    exact Lexer.toNat_lt_of_isNameChar (hname.isNameChar c (List.mem_append_left _ hc))
  · exact fun hascii => (isName_of_checkStem h hascii).append_ofNat n

end Settings

open MapScript.Compact
open Grammar (Balanced argumentList)
open Hoist (Hoisted Folded Remains Stretch)

/-! ### Brackets of a declared call -/

/-- A significant lexeme is read as itself, or it is a numeral without a bracket. -/
def Lexeme.KeepsBrackets (l : Lexeme) : Prop :=
  l.isTrivia = false → spelled l = [l] ∨
    l.kind = .number ∧ ∀ p ∈ spelled l, ∀ c ∈ p.raw, Lexer.isPlain c = true

theorem Lexeme.keepsBrackets_numeral {raw body : Text} (hraw : raw = body ∨ raw = '-' :: body)
    (hbody : Number.IsMagnitude body) : KeepsBrackets ⟨.number, raw⟩ := by
  intro _
  refine Or.inr ⟨rfl, ?_⟩
  obtain ⟨ps, hspells, -⟩ := Number.spells_numeral (l := ⟨.number, raw⟩) hraw hbody
  rw [hspells.spelled_eq]
  intro p hp c hc
  have hmem : c ∈ raw := by
    have htext : rawText ps = raw := hspells.text
    rw [← htext]
    exact List.mem_flatMap.2 ⟨p, hp, hc⟩
  rcases hraw with rfl | rfl
  · exact hbody.isPlain c hmem
  · rcases List.mem_cons.1 hmem with rfl | hmem
    · rfl
    · exact hbody.isPlain c hmem

theorem Token.Plain.keepsBrackets {t : Token} (h : t.Plain) : t.toLexeme.KeepsBrackets :=
  fun hs => Or.inl (h.spells hs).spelled_eq

theorem holdsOfMade_keepsBrackets : HoldsOfMade fun t => t.toLexeme.KeepsBrackets where
  numerals := by
    intro value raw span hraw
    obtain ⟨body, hform, hbody⟩ := Number.format_cases hraw
    exact Lexeme.keepsBrackets_numeral hform hbody
  integers := by
    intro n span
    obtain ⟨body, hform, hbody⟩ := Number.ofInt_cases n
    exact Lexeme.keepsBrackets_numeral hform hbody
  fixed := fun _ hl _ hs => Or.inl (spells_fixed hl hs).1.spelled_eq

theorem holdsOfNames_keepsBrackets {stem : Text} (h : IsName stem) :
    Hoist.HoldsOfNames stem fun t => t.toLexeme.KeepsBrackets :=
  fun n _ _ => Or.inl (spells_name (h.append_ofNat n)).spelled_eq

/-- Tokens with the same marks are balanced alike. -/
theorem Grammar.Balanced.of_marks {ts us : List Token} (h : Balanced argumentList ts)
    (hmarks : List.Forall₂ (fun t u : Token => ∀ c, u.isPunct c = t.isPunct c) ts us) :
    Balanced argumentList us := by
  induction h generalizing us with
  | nil =>
      cases hmarks
      exact .nil
  | @token t ts hopener hcloser _ _ ih =>
      obtain ⟨u, us, hu, hus, rfl⟩ := List.forall₂_cons_left_iff.1 hmarks
      exact .token ((hu _).trans hopener) ((hu _).trans hcloser) rfl (ih hus)
  | @pair o c inner rest hopener hcloser _ _ ihw ihr =>
      obtain ⟨o', vs, ho, hvs, rfl⟩ := List.forall₂_cons_left_iff.1 hmarks
      obtain ⟨inner', ws, rfl, hinner, hws⟩ := exists_of_forall₂_append hvs
      obtain ⟨c', rest', hc, hrest, rfl⟩ := List.forall₂_cons_left_iff.1 hws
      exact .pair ((ho _).trans hopener) ((hc _).trans hcloser) (ihw hinner) (ihr hrest)

/-- The marks among arguments stay when the constants are folded. -/
theorem Hoist.Folded.isPunct_eq {table : SymbolTable} {t u : Token} (h : Folded table t u) (c : Char) :
    u.isPunct c = t.isPunct c := by
  unfold Folded at h
  split at h
  · next hconstant =>
    obtain ⟨v, raw, -, -, rfl⟩ := h
    rw [Hoist.isConstant, Bool.and_eq_true, beq_iff_eq] at hconstant
    rw [Token.isPunct, Token.isPunct, hconstant.1]
    rfl
  · rw [h]

/-- Tokens that keep their brackets are read as balanced ones if they are balanced. -/
theorem Grammar.Balanced.spelled {us vs : List Token} (h : Balanced argumentList us)
    (hkeeps : ∀ u ∈ us, u.isTrivia = false ∧ u.toLexeme.KeepsBrackets)
    (hread : vs.map Token.toLexeme = (us.map Token.toLexeme).flatMap Compact.spelled) :
    Balanced argumentList vs := by
  have hself {o : Token} {c : Char} (ho : o.isPunct c = true)
      (hk : o.isTrivia = false ∧ o.toLexeme.KeepsBrackets) :
      Compact.spelled o.toLexeme = [o.toLexeme] := by
    rcases hk.2 hk.1 with hself | ⟨hnumber, -⟩
    · exact hself
    · rw [show o.kind = .punct from Token.kind_of_isPunct ho] at hnumber
      cases hnumber
  induction h generalizing vs with
  | nil =>
      obtain rfl : vs = [] := List.map_eq_nil_iff.1 hread
      exact .nil
  | @token t ts hopener hcloser _ _ ih =>
      obtain ⟨ht, hts⟩ := List.forall_mem_cons.1 hkeeps
      rw [List.map_cons, List.flatMap_cons] at hread
      obtain ⟨before, after, rfl, hbefore, hafter⟩ := List.map_eq_append_iff.1 hread
      have hmark (v : Token) (hv : v ∈ before) (c : Char) (hc : Lexer.isPlain c = false)
          (htc : t.isPunct c = false) : v.isPunct c = false := by
        have hmem : v.toLexeme ∈ Compact.spelled t.toLexeme := by
          rw [← hbefore]
          exact List.mem_map_of_mem hv
        rcases ht.2 ht.1 with hself | ⟨-, hplain⟩
        · rw [hself, List.mem_singleton] at hmem
          rwa [Token.isPunct_congr hmem]
        · by_contra hpunct
          simp only [Bool.not_eq_false, Token.isPunct, Bool.and_eq_true, beq_iff_eq] at hpunct
          have := hplain _ hmem c (by simp [hpunct.2])
          rw [hc] at this
          cases this
      have hall : ∀ v ∈ before, v.isPunct '(' = false ∧ v.isPunct ')' = false := fun v hv =>
        ⟨hmark v hv '(' (by decide) hopener, hmark v hv ')' (by decide) hcloser⟩
      clear hbefore hmark hread
      induction before with
      | nil => exact ih hts hafter
      | cons v before ihv =>
          obtain ⟨hv, hall⟩ := List.forall_mem_cons.1 hall
          exact .token hv.1 hv.2 rfl (ihv hall)
  | @pair o c inner rest hopener hcloser _ _ ihw ihr =>
      obtain ⟨ho, hkeeps⟩ := List.forall_mem_cons.1 hkeeps
      obtain ⟨hinner, hkeeps⟩ := List.forall_mem_append.1 hkeeps
      obtain ⟨hc, hrest⟩ := List.forall_mem_cons.1 hkeeps
      rw [List.map_cons, List.flatMap_cons, hself hopener ho, List.map_append, List.flatMap_append,
        List.map_cons, List.flatMap_cons, hself hcloser hc, List.singleton_append,
        List.singleton_append] at hread
      obtain ⟨o', vs, rfl, ho', hvs⟩ := List.map_eq_cons_iff.1 hread
      obtain ⟨inner', ws, rfl, hinner', hws⟩ := List.map_eq_append_iff.1 hvs
      obtain ⟨c', rest', rfl, hc', hrest'⟩ := List.map_eq_cons_iff.1 hws
      refine .pair ?_ ?_ (ihw hinner hinner') (ihr hrest hrest')
      · rwa [Token.isPunct_congr ho']
      · rwa [Token.isPunct_congr hc']

/-! ### Declarations that are read -/

namespace Resolve

/-- What is declared in a row is declared wherever the row stands last. -/
theorem declarations_subset_append (ts us : List Token) :
    declarations us ⊆ declarations (ts ++ us) := by
  induction ts with
  | nil => exact List.Subset.refl _
  | cons t ts ih =>
      rw [List.cons_append, declarations_cons]
      exact List.subset_append_of_subset_right _ ih

/-- A name that is declared in a row is a word of it. -/
theorem exists_word_of_mem_declarations {row : List Token} {name : Text} {d : Declaration}
    (h : (name, d) ∈ declarations row) : ∃ t ∈ row, t.kind = .word ∧ t.raw = name := by
  induction row with
  | nil => cases h
  | cons t ts ih =>
      rw [declarations_cons] at h
      rcases List.mem_append.1 h with h | h
      · unfold declaredBy at h
        split at h
        · next word rest _ _ =>
          split at h
          · next hword =>
            obtain ⟨rfl, -⟩ := Prod.mk.inj (List.mem_singleton.1 h)
            exact ⟨word, by simp, eq_of_beq hword, rfl⟩
          · cases h
        · cases h
      · obtain ⟨u, hu, hword⟩ := ih h
        exact ⟨u, List.mem_cons_of_mem t hu, hword⟩

/-- The directive, a name and a call are read as the declaration of the name with the call
for its operand. -/
theorem mem_declarations_of_call {row us : List Token} {name : Text} {later : List Lexeme}
    (hus : Balanced argumentList us)
    (hkeeps : ∀ u ∈ us, u.isTrivia = false ∧ u.toLexeme.KeepsBrackets)
    (hrow : row.map Token.toLexeme = ⟨.directive, "#const".toList⟩ :: ⟨.word, name⟩ ::
      ⟨.word, "rnd".toList⟩ :: mark '(' ::
        ((us.map Token.toLexeme).flatMap spelled ++ mark ')' :: later)) :
    ∃ d, (name, d) ∈ declarations row ∧ d.operand.map Token.toLexeme =
      ⟨.word, "rnd".toList⟩ :: mark '(' ::
        ((us.map Token.toLexeme).flatMap spelled ++ [mark ')']) := by
  obtain ⟨t, row, rfl, ht, hrow⟩ := List.map_eq_cons_iff.1 hrow
  obtain ⟨n, row, rfl, hn, hrow⟩ := List.map_eq_cons_iff.1 hrow
  obtain ⟨r, row, rfl, hr, hrow⟩ := List.map_eq_cons_iff.1 hrow
  obtain ⟨o, row, rfl, ho, hrow⟩ := List.map_eq_cons_iff.1 hrow
  obtain ⟨inner, row, rfl, hinner, hrow⟩ := List.map_eq_append_iff.1 hrow
  obtain ⟨c, after, rfl, hc, -⟩ := List.map_eq_cons_iff.1 hrow
  have hpunct {u : Token} {p : Char} (hu : u.toLexeme = mark p) : u.isPunct p = true := by
    simp [Token.isPunct, hu, mark]
  have hlength : Operand.length? (r :: o :: (inner ++ c :: after)) = some (inner.length + 3) := by
    rw [Operand.length?_word (congrArg Lexeme.kind hr), List.head?_cons, Option.any_some,
      if_pos (hpunct ho), List.tail_cons,
      Group.parens?_balanced (hus.spelled hkeeps hinner) (hpunct hc)]
    rfl
  have hoperand : operandOf (r :: o :: (inner ++ c :: after)) = r :: o :: (inner ++ [c]) := by
    have hsplit : r :: o :: (inner ++ c :: after) = (r :: o :: (inner ++ [c])) ++ after := by simp
    rw [operandOf, hlength, Option.getD_some, hsplit]
    exact List.take_left' (by simp)
  have hconst : isConst t = true := by
    unfold isConst Token.value
    rw [ht]
    rfl
  have hkind : n.kind = .word := congrArg Lexeme.kind hn
  have hraw : n.raw = name := congrArg Lexeme.raw hn
  refine ⟨⟨operandOf (r :: o :: (inner ++ c :: after)), n.span⟩, ?_, ?_⟩
  · rw [declarations_cons]
    simp [declaredBy, hconst, hkind, hraw]
  · rw [hoperand]
    simp [hr, ho, hinner, hc]

end Resolve

namespace Hoist

variable {table : SymbolTable} {x : Hoisted}

/-- The call is declared among the tokens of a script as a constant of its name. -/
def Hoisted.DeclaredIn (x : Hoisted) (stream : TokenStream) : Prop :=
  ∃ d, (x.name, d) ∈ Resolve.declarations (Token.significant stream.tokens) ∧
    d.operand.map Token.toLexeme = (x.declared.map Token.toLexeme).flatMap spelled

theorem lexemes_line (x : Hoisted) : x.line.map Token.toLexeme =
    [⟨.directive, "#const".toList⟩, ⟨.blank, [' ']⟩, ⟨.word, x.name⟩, ⟨.blank, [' ']⟩] ++
      (x.declared.map Token.toLexeme ++ [⟨.newline, ['\n']⟩]) := by
  simp [Hoisted.line, declaration, Hoisted.declared, Token.made]

/-- The lexemes of a call as it is declared. -/
theorem Hoisted.Declares.map_declared (h : x.Declares table) :
    ∃ us, List.Forall₂ (Folded table) (Token.significant x.call.group.inner) us ∧
      x.declared.map Token.toLexeme =
        ⟨.word, "rnd".toList⟩ :: mark '(' :: (us.map Token.toLexeme ++ [mark ')']) := by
  obtain ⟨us, hus, hline⟩ := h.map_line
  refine ⟨us, hus, ?_⟩
  rw [lexemes_line, show lineFront x.name = [⟨.directive, "#const".toList⟩, ⟨.blank, [' ']⟩,
    ⟨.word, x.name⟩, ⟨.blank, [' ']⟩] ++ [⟨.word, "rnd".toList⟩] from rfl, List.append_assoc,
    List.append_cancel_left_eq] at hline
  rw [← List.append_left_inj [⟨.newline, ['\n']⟩], hline]
  simp

/-- A line that declares a name is read as it is declared. -/
theorem spelledRow_line (hname : IsName x.name) :
    spelledRow x.line = ⟨.directive, "#const".toList⟩ :: ⟨.word, x.name⟩ ::
      (x.declared.map Token.toLexeme).flatMap spelled := by
  have hconst : spelled ⟨.directive, "#const".toList⟩ = [⟨.directive, "#const".toList⟩] :=
    (spells_fixed (by simp [fixedLexemes]) rfl).1.spelled_eq
  have hword := (spells_name (l := ⟨.word, x.name⟩) hname).spelled_eq
  have hself : (x.declared.map Token.toLexeme).filter (fun l => !l.isTrivia) =
      x.declared.map Token.toLexeme := by
    rw [List.filter_eq_self]
    intro l hl
    obtain ⟨t, ht, rfl⟩ := List.mem_map.1 hl
    exact (List.mem_filter.1 ht).2
  rw [spelledRow, lexemes_line, List.filter_append, List.filter_append, hself]
  show ([(⟨.directive, "#const".toList⟩ : Lexeme), ⟨.word, x.name⟩] ++
    (x.declared.map Token.toLexeme ++ [])).flatMap spelled = _
  rw [List.append_nil, List.flatMap_append, List.flatMap_cons, List.flatMap_singleton, hconst,
    hword]
  rfl

/-- The line of a call is read as the declaration of its name. -/
theorem Hoisted.Declares.declaredIn (hx : x.Declares table) (hname : IsName x.name)
    (hkeeps : ∀ t ∈ x.line, t.toLexeme.KeepsBrackets) {stream : TokenStream}
    {before later : List Lexeme} (hread : (Token.significant stream.tokens).map Token.toLexeme =
      before ++ (spelledRow x.line ++ later)) : x.DeclaredIn stream := by
  obtain ⟨us, hus, hdeclared⟩ := hx.map_declared
  obtain ⟨front, row, hsplit, -, hrow⟩ := List.map_eq_append_iff.1 hread
  have hbalanced : Balanced argumentList us :=
    (RandomCall.read?_eq_some_iff.1 hx.read).1.inner.significant.of_marks
      (hus.imp fun _ _ => Folded.isPunct_eq)
  have hall : ∀ u ∈ us, u.isTrivia = false ∧ u.toLexeme.KeepsBrackets := by
    intro u hu
    have hmem : u.toLexeme ∈ x.declared.map Token.toLexeme := by
      rw [hdeclared]
      simp [List.mem_map_of_mem hu]
    obtain ⟨t, ht, htu⟩ := List.mem_map.1 hmem
    have hline : t ∈ x.line := by
      simp only [Hoisted.line, declaration, List.mem_append]
      exact Or.inl (Or.inr ht)
    have hsignificant : t.isTrivia = false := by simpa using (List.mem_filter.1 ht).2
    rw [Token.isTrivia, ← htu]
    exact ⟨hsignificant, hkeeps t hline⟩
  rw [spelledRow_line hname, hdeclared] at hrow
  have hmark {c : Char} (hc : c ∈ callMarks) : spelled (mark c) = [mark c] :=
    (spells_callMark hc).spelled_eq
  have hrnd : spelled ⟨.word, "rnd".toList⟩ = [⟨.word, "rnd".toList⟩] :=
    (spells_name (l := ⟨.word, "rnd".toList⟩)
      ⟨'r', ['n', 'd'], rfl, rfl, List.all_eq_true.1 rfl⟩).spelled_eq
  have hoperand : (x.declared.map Token.toLexeme).flatMap spelled =
      ⟨.word, "rnd".toList⟩ :: mark '(' ::
        ((us.map Token.toLexeme).flatMap spelled ++ [mark ')']) := by
    rw [hdeclared, List.flatMap_cons, List.flatMap_cons, List.flatMap_append, hrnd,
      hmark (by decide), List.flatMap_singleton, hmark (by decide)]
    rfl
  have hline : row.map Token.toLexeme = ⟨.directive, "#const".toList⟩ :: ⟨.word, x.name⟩ ::
      ⟨.word, "rnd".toList⟩ :: mark '(' ::
        ((us.map Token.toLexeme).flatMap spelled ++ mark ')' :: later) := by
    rw [hrow, ← hdeclared, hoperand]
    simp
  obtain ⟨d, hd, hread⟩ := Resolve.mem_declarations_of_call hbalanced hall hline
  refine ⟨d, ?_, hread.trans hoperand.symm⟩
  rw [hsplit]
  exact Resolve.declarations_subset_append front row hd

end Hoist

/-- The tokens of a text that reads as lexemes. -/
theorem Compact.ReadsAs.ofSource {spelling : Lexeme → List Lexeme} {ls : List Lexeme} {t : Text}
    (h : ReadsAs spelling ls t) :
    ∃ stream, TokenStream.ofSource t = .ok stream ∧
      (Token.significant stream.tokens).map Token.toLexeme =
        (ls.filter fun l => !l.isTrivia).flatMap spelling ∧
      ∀ u ∈ stream.tokens, ∃ rest, Stands u.toLexeme rest := by
  obtain ⟨out, rfl, hreads, hsignificant⟩ := h
  obtain ⟨stream, hstream, htokens⟩ := TokenStream.ofSource_of_lexScript hreads.lexScript_rawText
  refine ⟨stream, hstream, ?_, fun u hu => hreads.stands_of_mem ?_⟩
  · rw [Token.map_significant, htokens, hsignificant]
  · rw [← htokens]
    exact List.mem_map_of_mem hu

/-- Calls that are declared in front of a script are declared in what it is read as. -/
theorem Hoist.declaredIn_of_read {table : SymbolTable} {calls : List Hoisted}
    (hdeclares : ∀ x ∈ calls, x.Declares table) (hnames : ∀ x ∈ calls, IsName x.name)
    (hkeeps : ∀ x ∈ calls, ∀ t ∈ x.line, t.toLexeme.KeepsBrackets) (start : Position)
    (rest : List Piece) {stream : TokenStream}
    (hread : (Token.significant stream.tokens).map Token.toLexeme =
      (((declarationRun calls start ++ rest).flatMap Piece.lexemes).filter
        fun l => !l.isTrivia).flatMap spelled) :
    ∀ x ∈ calls, x.DeclaredIn stream := by
  intro x hx
  have hsome : calls.isEmpty = false := List.isEmpty_eq_false_iff.2 (List.ne_nil_of_mem hx)
  obtain ⟨front, back, hsplit⟩ := List.append_of_mem hx
  have hrow : (Token.significant stream.tokens).map Token.toLexeme =
      spelledRow (front.flatMap Hoisted.line) ++ (spelledRow x.line ++
        (spelledRow (back.flatMap Hoisted.line) ++
          ((rest.flatMap Piece.lexemes).filter fun l => !l.isTrivia).flatMap spelled)) := by
    rw [hread, declarationRun, hsome, hsplit]
    simp [spelledRow, Piece.lexemes]
  exact (hdeclares x hx).declaredIn (hnames x hx) (hkeeps x hx) hrow

/-! ### Names of hoisted calls -/

/-- A call that is declared on the way is named by the stem and a number, and its name was
not used. -/
theorem Hoist.Progress.named {stem : Text} {state state' : Hoist.State}
    (h : Hoist.Progress stem state state') (hnone : state.declarations = []) {x : Hoisted}
    (hx : x.line ∈ state'.declarations) :
    ∃ n, x.name = stem ++ Text.ofNat n ∧ x.name ∉ state.used := by
  rcases h.fresh x.line hx with hold | ⟨n, call, span, hfresh, hform⟩
  · rw [hnone] at hold
    cases hold
  · simp only [Hoisted.line, Hoist.declaration, Token.made, List.cons_append,
      List.cons.injEq, Token.mk.injEq, Lexeme.mk.injEq] at hform
    have hname := hform.2.2.1.1.2
    exact ⟨n, hname, hname ▸ hfresh⟩

/-- The parts of a script that is hoisted, where every call that is taken out is named by
the stem and a number. -/
theorem Script.hoist_names {table : SymbolTable} (hwrites : table.Writes) (stem : Text)
    (tree : Script Piece) {s : Session} (hs : Hoist.Knows table s) (hsettled : s.Settled) :
    Ends (tree.hoist stem) s
      (fun out _ => ∃ rest stretches, Remains table tree.parts rest stretches ∧
        out = ⟨Hoist.declarationRun (stretches.filterMap Stretch.hoisted?) tree.span.start ++ rest,
          tree.span⟩ ∧
        ∀ x, .call x ∈ stretches → ∃ n, x.name = stem ++ Text.ofNat n)
      (fun _ _ => False) := by
  refine (Script.hoist_of_pieces (Q := fun rest calls _ => ∃ stretches,
    Remains table tree.parts rest stretches ∧ calls = stretches.filterMap Stretch.hoisted? ∧
    ∀ x, .call x ∈ stretches → ∃ n, x.name = stem ++ Text.ofNat n) ?_).weaken ?_
  · apply ((Hoist.hoistPieces_accounts hwrites stem tree.parts _ hs).and
      (Hoist.hoistPieces_ends stem tree.parts _ hsettled)).mono
    · rintro ⟨rest, state⟩ s₁ ⟨⟨stretches, hremains, haccounts⟩, -, hrewrites⟩
      have hdeclarations := haccounts.declarations
      rw [List.append_nil] at hdeclarations
      refine ⟨_, hdeclarations, hremains.eq_of_uncalled, stretches, hremains, rfl, fun x hx => ?_⟩
      have hline : x.line ∈ state.declarations := by
        rw [hdeclarations, List.mem_reverse]
        exact List.mem_map_of_mem (Hoist.mem_hoisted_iff.2 hx)
      obtain ⟨n, hname, -⟩ := hrewrites.progress.named rfl hline
      exact ⟨n, hname⟩
    · rintro e s₁ ⟨hfalse, -⟩
      exact hfalse
  · rintro out s₁ ⟨rest, calls, ⟨stretches, hremains, rfl, hnames⟩, rfl⟩
    exact ⟨rest, stretches, hremains, rfl, hnames⟩

namespace Preprocess

variable {options : Options} {source : Text}

/-- An expanded script is settled. -/
theorem settled_of_expanded {named : Script Node} {tree : Script Piece} {s₀ s₁ : Session}
    (hnamed : runPass options (resolved source) = (.ok named, s₀))
    (htree : runPass options (expanded source) = (.ok tree, s₁)) : s₁.Settled := by
  obtain ⟨script, hsource, -⟩ := resolve_of_resolved hnamed
  obtain ⟨hsettled, hargs, -⟩ := (resolved_ends options hsource).of_run_ok hnamed
  obtain ⟨hextends, -⟩ := (named.expand_ends hsettled hargs).of_run_ok
    ((run_expanded hnamed).symm.trans htree)
  exact hsettled.extend hextends

end Preprocess

/-- The declarations in front of a script are not cut. -/
theorem Script.parts_truncate_declarationRun (calls : List Hoisted) (start : Position)
    (rest : List Piece) (span : Span) : ∃ kept,
      (Script.mk (Hoist.declarationRun calls start ++ rest) span).truncate.parts =
        Hoist.declarationRun calls start ++ kept := by
  cases calls with
  | nil => exact ⟨_, rfl⟩
  | cons x calls => exact ⟨_, rfl⟩

open Preprocess (runPass resolved expanded hoisted)

/-- With an accepted stem for new names, a name reads as one word exactly if the stem is
ASCII, and exactly then the calls that are taken out of a script are read again as
declarations of constants of their names. -/
theorem generated_names_read {options : Options}
    (hstem : Settings.checkStem options.stem = .ok options.stem) :
    (∀ n, (TokenStream.ofSource (options.stem ++ Text.ofNat n)).map
          (fun stream => stream.toList.map Token.toLexeme) =
        .ok [⟨.word, options.stem ++ Text.ofNat n⟩, ⟨.finish, []⟩] ↔
      ∀ c ∈ options.stem, c.toNat < 128) ∧
    ∀ source text, options.hoistRandom = true → preprocess options source = .ok text →
      ∃ named s₀ tree s₁ rest stretches s₂ stream,
        runPass options (resolved source) = (.ok named, s₀) ∧
        runPass options (expanded source) = (.ok tree, s₁) ∧
        runPass options (hoisted options source) =
          (.ok ⟨Hoist.declarationRun (stretches.filterMap Stretch.hoisted?) tree.span.start ++ rest,
            tree.span⟩, s₂) ∧
        Remains s₀.table tree.parts rest stretches ∧
        TokenStream.ofSource text = .ok stream ∧
        ∀ x, .call x ∈ stretches → (∃ n, x.name = options.stem ++ Text.ofNat n) ∧
          (x.DeclaredIn stream ↔ ∀ c ∈ options.stem, c.toNat < 128) := by
  have hname := Settings.isName_append_ofNat_iff hstem
  refine ⟨fun n => TokenStream.ofSource_eq_word_iff.trans (hname n), ?_⟩
  intro source text hrandom h
  obtain ⟨named, s₀, hnamed⟩ := Preprocess.resolved_of_preprocess h
  obtain ⟨tree, s₁, htree⟩ := Preprocess.expanded_of_preprocess h
  obtain ⟨script, hsource, hresolve⟩ := Preprocess.resolve_of_resolved hnamed
  have hwrites := Script.writes_of_resolve hsource ⟨rfl, rfl, rfl⟩ hresolve
  have hknows := Preprocess.knows_of_expand hresolve ((Preprocess.run_expanded hnamed).symm.trans
    htree)
  have hsettled := Preprocess.settled_of_expanded hnamed htree
  obtain ⟨out, s₂, hrun, rest, stretches, hremains, rfl, hnames⟩ :=
    (tree.hoist_names hwrites options.stem hknows hsettled).exists_run
  have hhoisted := Preprocess.run_hoisted htree
  rw [if_pos hrandom, hrun] at hhoisted
  rw [preprocess, Preprocess.run_text_of_hoisted hhoisted] at h
  obtain rfl := Except.ok.inj h
  have hwritable := Preprocess.writable_of_hoisted (Settings.isPlain_of_checkStem hstem) hhoisted
  obtain ⟨stream, hstream, hread, hstands⟩ :=
    (readsAs_of_writable options.keepLines hwritable.truncate).2.ofSource
  refine ⟨named, s₀, tree, s₁, rest, stretches, s₂, stream, hnamed, htree, hhoisted, hremains,
    hstream, fun x hx => ⟨hnames x hx, ?_⟩⟩
  constructor
  · rintro ⟨d, hd, -⟩ c hc
    obtain ⟨u, hu, hword, hraw⟩ := Resolve.exists_word_of_mem_declarations hd
    obtain ⟨after, hstand⟩ := hstands u (List.mem_filter.1 hu).1
    have hisName := hstand.isName hword
    obtain ⟨n, hn⟩ := hnames x hx
    rw [hraw, hn] at hisName
    exact (hname n).1 hisName c hc
  · intro hascii
    obtain ⟨kept, hkept⟩ := Script.parts_truncate_declarationRun
      (stretches.filterMap Stretch.hoisted?) tree.span.start rest tree.span
    rw [hkept] at hread
    have hcalls : ∀ y ∈ stretches.filterMap Stretch.hoisted?, .call y ∈ stretches :=
      fun y hy => Hoist.mem_hoisted_iff.1 hy
    obtain ⟨script, hsource, hmade⟩ := (Preprocess.hoisted_ends options source).of_run_ok hhoisted
    have hkeeps := hmade _ holdsOfMade_keepsBrackets
      (holdsOfNames_keepsBrackets (Settings.isName_of_checkStem hstem hascii))
      fun row hrow t ht => (Preprocess.plain_of_ofSource hsource row hrow t ht).keepsBrackets
    refine Hoist.declaredIn_of_read (fun y hy => hremains.declares (hcalls y hy))
      (fun y hy => ?_) (fun y hy => ?_) tree.span.start kept hread x (Hoist.mem_hoisted_iff.2 hx)
    · obtain ⟨n, hn⟩ := hnames y (hcalls y hy)
      rw [hn]
      exact (hname n).2 hascii
    · have hsome : (stretches.filterMap Stretch.hoisted?).isEmpty = false :=
        List.isEmpty_eq_false_iff.2 (List.ne_nil_of_mem hy)
      rw [Hoist.declarationRun, hsome, if_neg Bool.false_ne_true] at hkeeps
      exact fun t ht => hkeeps _ (List.mem_cons_self ..) t (List.mem_flatMap.2 ⟨y, hy, ht⟩)

/-- A stem with an underscore, and a script with a random call that uses a constant and
one that does not. -/
theorem generated_names_read_roll :
    Settings.checkStem "Roll_".toList = .ok "Roll_".toList ∧
      (∀ n, (TokenStream.ofSource ("Roll_".toList ++ Text.ofNat n)).map
          (fun stream => stream.toList.map Token.toLexeme) =
        .ok [⟨.word, "Roll_".toList ++ Text.ofNat n⟩, ⟨.finish, []⟩]) ∧
      ∃ text, preprocess { stem := "Roll_".toList } "#const A 5\nx rnd(A, 9) rnd(1,2)".toList =
          .ok text ∧
        text = ("#const Roll_1 rnd(5,9)\n#const Roll_2 rnd(1,2)\n#const A 5\n" ++
          "x Roll_1 Roll_2").toList ∧
        ∃ (tree : Script Piece) (s₁ : Session) (rest : List Piece) (stretches : List Stretch)
            (s₂ : Session) (stream : TokenStream),
          runPass { stem := "Roll_".toList }
              (expanded "#const A 5\nx rnd(A, 9) rnd(1,2)".toList) = (.ok tree, s₁) ∧
          runPass { stem := "Roll_".toList }
              (hoisted { stem := "Roll_".toList } "#const A 5\nx rnd(A, 9) rnd(1,2)".toList) =
            (.ok ⟨Hoist.declarationRun (stretches.filterMap Stretch.hoisted?)
              tree.span.start ++ rest, tree.span⟩, s₂) ∧
          TokenStream.ofSource text = .ok stream ∧
          (Resolve.declarations (Token.significant stream.tokens)).map
              (fun entry => (entry.1, entry.2.operand.flatMap fun t => t.raw)) =
            [("Roll_1".toList, "rnd(5,9)".toList), ("Roll_2".toList, "rnd(1,2)".toList),
              (['A'], ['5'])] ∧
          ∀ x, .call x ∈ stretches → x.DeclaredIn stream := by
  have hstem : Settings.checkStem "Roll_".toList = .ok "Roll_".toList := by rfl
  have hascii : ∀ c ∈ "Roll_".toList, c.toNat < 128 := by simp
  obtain ⟨hwords, hreads⟩ := @generated_names_read { stem := "Roll_".toList } hstem
  have hruns : (preprocess { stem := "Roll_".toList }
      "#const A 5\nx rnd(A, 9) rnd(1,2)".toList).toOption.any (fun text =>
        decide (text = ("#const Roll_1 rnd(5,9)\n#const Roll_2 rnd(1,2)\n#const A 5\n" ++
          "x Roll_1 Roll_2").toList) &&
        (TokenStream.ofSource text).toOption.any fun stream =>
          decide ((Resolve.declarations (Token.significant stream.tokens)).map
              (fun entry => (entry.1, entry.2.operand.flatMap fun t => t.raw)) =
            [("Roll_1".toList, "rnd(5,9)".toList), ("Roll_2".toList, "rnd(1,2)".toList),
              (['A'], ['5'])])) = true := by
    decide +kernel
  obtain ⟨text, htext, hlines⟩ := toOption_any_iff.1 hruns
  rw [Bool.and_eq_true, decide_eq_true_eq] at hlines
  obtain ⟨hlines, hread⟩ := hlines
  obtain ⟨stream', hstream', hdeclared⟩ := toOption_any_iff.1 hread
  obtain ⟨-, -, tree, s₁, rest, stretches, s₂, stream, -, htree, hhoisted, -, hstream, hcalls⟩ :=
    hreads _ text rfl htext
  obtain rfl := Except.ok.inj (hstream'.symm.trans hstream)
  exact ⟨hstem, fun n => (hwords n).2 hascii, text, htext, hlines, tree, s₁, rest, stretches, s₂,
    stream', htree, hhoisted, hstream, of_decide_eq_true hdeclared,
    fun x hx => (hcalls x hx).2.2 hascii⟩

/-- A letter that is not ASCII is accepted as a stem, and its names read as two tokens. -/
theorem generated_names_read_acute :
    Settings.checkStem "\u00e9".toList = .ok "\u00e9".toList ∧
      (TokenStream.ofSource ("\u00e9".toList ++ Text.ofNat 1)).map
          (fun stream => stream.toList.map Token.toLexeme) =
        .ok [⟨.text, "\u00e9".toList⟩, ⟨.number, "1".toList⟩, ⟨.finish, []⟩] := by
  constructor
  · decide +kernel
  · decide +kernel

end MapScript
