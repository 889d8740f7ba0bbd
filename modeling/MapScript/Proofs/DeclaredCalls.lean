import MapScript.Proofs.CallsInPlace
import MapScript.Proofs.Fault
import MapScript.Proofs.Repetition
import MapScript.Proofs.Separators
import MapScript.Proofs.Symbol.AreaPlaces

/-!
# Declarations in the text

A call that is taken out is declared on a line of its own, and a literal or the value of a
constant among its arguments is written there without gaps.  Only the numeral of a negative
constant is set apart on both sides: it is one lexeme that would be read as two.
-/

namespace MapScript

open Evaluation (HasValue)

/-- A whole number is written as an integer. -/
theorem Number.eq_ofInt_of_format {v : Number} {n : Int} {raw : Text} (hn : v.asInt? = some n)
    (h : v.format = .ok raw) : raw = Text.ofInt n := by
  cases v with
  | int m =>
      obtain rfl : m = n := Option.some.inj hn
      exact ofInt_of_format h
  | float x =>
      rw [asInt?] at hn
      split at hn
      · next hintegral =>
        obtain rfl := Option.some.inj hn
        cases h
        cases x with
        | nan _ => cases hintegral
        | infinity _ => cases hintegral
        | finite negative units => rw [formatDouble, if_pos hintegral]
      · cases hn

/-! ### Lexemes of a call -/

namespace Compact

open Lexer

/-- The place is right behind the lexeme, which does not run together with the one before
it if nothing stands between them. -/
structure Tight (j : Joint) (l : Lexeme) : Prop where
  last : j.last = some l
  gap : j.gap = false
  lineBreak : j.lineBreak = false
  glued : ∀ g, j.glued = some g → g.isTrivia = false ∧ Spells g [g] ∧ merges [g, l] = false

/-- Right behind a lexeme others are written as the text, the last of them being the
second one. -/
def WritesBehind (keepLines : Bool) (l : Lexeme) (ls : List Lexeme) (t : Text) (m : Lexeme) :
    Prop :=
  ∀ j, Tight j l → renderFrom keepLines j ls = t ∧ Tight (after keepLines j ls) m

section
variable {keepLines : Bool} {l m r : Lexeme}

theorem WritesBehind.append {n : Lexeme} {ls ms : List Lexeme} {t u : Text}
    (h : WritesBehind keepLines l ls t m) (h' : WritesBehind keepLines m ms u n) :
    WritesBehind keepLines l (ls ++ ms) (t ++ u) n := by
  intro j hj
  obtain ⟨hfirst, hm⟩ := h j hj
  obtain ⟨hsecond, hn⟩ := h' _ hm
  rw [renderFrom_append, after_append, hfirst, hsecond]
  exact ⟨rfl, hn⟩

theorem writesBehind_single {t : Text} (hr : r.isTrivia = false)
    (h : ∀ j, Tight j l → j.separator keepLines r = t ∧ Tight (j.write t r) r) :
    WritesBehind keepLines l [r] (t ++ r.raw) r := by
  intro j hj
  obtain ⟨hseparator, htight⟩ := h j hj
  simp only [renderFrom, after, hr, hseparator, Bool.false_eq_true, if_false, List.append_nil]
  exact ⟨trivial, htight⟩

/-- A lexeme that needs no space is written right behind the one before it: only a point
could run together with both its neighbours. -/
theorem writesBehind_glued (hl : l.isTrivia = false) (hr : r.isTrivia = false)
    (hls : Spells l [l]) (hrs : Spells r [r]) (hpoint : isMark '.' l = false)
    (hspace : needsSpace l r false = false) : WritesBehind keepLines l [r] r.raw r := by
  have hpair := merges_of_needsSpace hspace
  refine writesBehind_single (t := []) hr fun j hj => ⟨?_, rfl, rfl, rfl, ?_⟩
  · rw [separator_of_last hj.last, hj.lineBreak, Bool.false_and, if_neg Bool.false_ne_true,
      hj.gap, hspace, Bool.false_or, if_neg]
    simp only [Option.any_eq_true, not_exists, not_and, Bool.not_eq_true]
    intro g hg
    obtain ⟨hgs, hspells, hmerges⟩ := hj.glued g hg
    rw [merges_triple hgs hspells hls hrs hmerges hpair, isDecimal, hpoint]
    simp
  · intro g hg
    obtain rfl : l = g := Option.some.inj (hj.last.symm.trans hg)
    exact ⟨hl, hls, hpair⟩

theorem writesBehind_apart (hr : r.isTrivia = false) (hspace : needsSpace l r false = true) :
    WritesBehind keepLines l [r] (' ' :: r.raw) r := by
  refine writesBehind_single (t := [' ']) hr fun j hj => ⟨?_, rfl, rfl, rfl, ?_⟩
  · rw [separator_of_last hj.last, hj.lineBreak, Bool.false_and, if_neg Bool.false_ne_true,
      hj.gap, hspace, Bool.true_or, if_pos rfl]
  · intro g hg
    cases hg

end

/-- A character of punctuation as a lexeme. -/
def mark (c : Char) : Lexeme := ⟨.punct, [c]⟩

/-- The marks and signs of a call. -/
def callMarks : List Char := ['(', ',', ')', '+', '-']

/-- A row of digits. -/
def IsDigits (t : Text) : Prop := t ≠ [] ∧ ∀ c ∈ t, c.isDigit = true

section
variable {keepLines : Bool} {c : Char}

theorem callMark_spec (hc : c ∈ callMarks) : c ∉ lookAhead ∧ opening c [] = .punct ∧
    isBrace (mark c) = false ∧ isMark '.' (mark c) = false := by
  simp only [callMarks, List.mem_cons, List.not_mem_nil, or_false] at hc
  rcases hc with rfl | rfl | rfl | rfl | rfl <;> decide

theorem stands_callMark (hc : c ∈ callMarks) (rest : Text) : Stands (mark c) rest :=
  stands_mark (callMark_spec hc).1 (callMark_spec hc).2.1 rest

theorem spells_callMark (hc : c ∈ callMarks) : Spells (mark c) [mark c] :=
  .self (stands_callMark hc []) rfl rfl

theorem spells_digits {ds : Text} (hds : IsDigits ds) :
    Spells ⟨.number, ds⟩ [⟨.number, ds⟩] :=
  .self (stands_digits hds.1 hds.2 rfl (by simp)) rfl rfl

/-- Behind a mark of a call what can stand alone follows without a gap. -/
theorem writesBehind_callMark (hc : c ∈ callMarks) {r : Lexeme} (hr : r.isTrivia = false)
    (hrs : Spells r [r]) (hbrace : isBrace r = false) :
    WritesBehind keepLines (mark c) [r] r.raw r := by
  obtain ⟨-, -, hbrace', hpoint⟩ := callMark_spec hc
  have hmerges : merges [mark c, r] = false :=
    (merges_cons_eq_false_iff rfl hrs.reads).2
      (by simpa [Lexeme.rawText] using stands_callMark hc r.raw)
  refine writesBehind_glued rfl hr (spells_callMark hc) hrs hpoint ?_
  rw [needsSpace, hbrace, hbrace', hmerges]
  rfl

theorem writesBehind_digits {ds : Text} (hds : IsDigits ds) (hc : c = ',' ∨ c = ')') :
    WritesBehind keepLines ⟨.number, ds⟩ [mark c] [c] (mark c) := by
  have hmark : c ∈ callMarks := by rcases hc with rfl | rfl <;> decide
  have hstands : Stands ⟨.number, ds⟩ [c] := by
    rcases hc with rfl | rfl <;> exact stands_digits hds.1 hds.2 rfl (by simp)
  have hmerges : merges [⟨.number, ds⟩, mark c] = false :=
    (merges_cons_eq_false_iff rfl (spells_callMark hmark).reads).2
      (by simpa [Lexeme.rawText, mark] using hstands)
  refine writesBehind_glued rfl rfl (spells_digits hds) (spells_callMark hmark) rfl ?_
  rw [needsSpace, (callMark_spec hmark).2.2.1, hmerges]
  rfl

/-- A negative numeral is not read as one lexeme. -/
theorem merges_negative {ds : Text} {ls : List Lexeme} (hmem : ⟨.number, '-' :: ds⟩ ∈ ls)
    (hopens : ∀ l ∈ ls, opensHeader l = false) : merges ls = true := by
  by_contra hmerges
  obtain ⟨-, hreads⟩ := reads_of_lexScript (lexScript_of_merges (Bool.not_eq_true _ ▸ hmerges))
    hopens
  obtain ⟨rest, hstands⟩ := hreads.stands_of_mem hmem
  obtain ⟨d, tail, hraw, hd, -⟩ := hstands.numeral rfl
  obtain ⟨rfl, -⟩ := List.cons.inj hraw
  cases hd

/-- It is set apart on both sides. -/
theorem writesBehind_negative (ds : Text) (c d : Char) :
    WritesBehind keepLines (mark c) [⟨.number, '-' :: ds⟩, mark d]
      (' ' :: '-' :: ds ++ [' ', d]) (mark d) := by
  have hbefore : needsSpace (mark c) ⟨.number, '-' :: ds⟩ false = true := by
    rw [needsSpace, @merges_negative ds _ (by simp) (by simp [opensHeader, mark]),
      Bool.or_true]
  have hbehind : needsSpace ⟨.number, '-' :: ds⟩ (mark d) false = true := by
    rw [needsSpace, @merges_negative ds _ (by simp) (by simp [opensHeader, mark]),
      Bool.or_true]
  exact (writesBehind_apart rfl hbefore).append (writesBehind_apart rfl hbehind)

end

end Compact

/-! ### Arguments -/

theorem Token.toLexeme_of_isPunct {t : Token} {c : Char} (h : t.isPunct c = true) :
    t.toLexeme = Compact.mark c := by
  obtain ⟨⟨kind, raw⟩, span⟩ := t
  obtain ⟨rfl, rfl⟩ : kind = .punct ∧ raw = [c] := by simpa [Token.isPunct] using h
  rfl

theorem exists_of_forall₂_append {α β : Type} {R : α → β → Prop} {xs xs' : List α}
    {ys : List β} (h : List.Forall₂ R (xs ++ xs') ys) :
    ∃ zs zs', ys = zs ++ zs' ∧ List.Forall₂ R xs zs ∧ List.Forall₂ R xs' zs' := by
  refine ⟨ys.take xs.length, ys.drop xs.length, (List.take_append_drop _ _).symm, ?_, ?_⟩
  · simpa using List.forall₂_take xs.length h
  · simpa using List.forall₂_drop xs.length h

theorem exists_of_forall₂_singleton {α β : Type} {R : α → β → Prop} {x : α} {ys : List β}
    (h : List.Forall₂ R [x] ys) : ∃ y, R x y ∧ ys = [y] := by
  simpa [List.forall₂_cons_left_iff] using h

namespace Hoist

open MapScript.Compact

section
variable {table : SymbolTable}

/-- Only words are declared as something else. -/
theorem Folded.eq_of_kind {t t' : Token} (h : Folded table t t') (hkind : t.kind ≠ .word) :
    t' = t := by
  rwa [Folded, if_neg (by simp [isConstant, hkind])] at h

theorem Folded.isTrivia_eq {t t' : Token} (h : Folded table t t') : t'.isTrivia = t.isTrivia := by
  by_cases hconstant : isConstant table t = true
  · rw [Folded, if_pos hconstant] at h
    obtain ⟨v, raw, -, -, rfl⟩ := h
    rw [isConstant, Bool.and_eq_true, beq_iff_eq] at hconstant
    simp [Token.isTrivia, Token.made, hconstant.1, TokenKind.isTrivia]
  · rw [Folded, if_neg hconstant] at h
    rw [h]

theorem forall₂_folded_significant {ts us : List Token} (h : List.Forall₂ (Folded table) ts us) :
    List.Forall₂ (Folded table) (Token.significant ts) (Token.significant us) := by
  induction h with
  | nil => exact .nil
  | @cons t u ts us hfolded _ ih =>
      rw [Token.significant, Token.significant, List.filter_cons, List.filter_cons,
        hfolded.isTrivia_eq]
      split
      · exact .cons hfolded ih
      · exact ih

variable (table) in
/-- An argument that is an integer literal, with or without a sign, or a constant whose value
is an integer, and the text that it is declared with: a negative value is set apart. -/
inductive DeclaredAs : List Token → Text → Prop
  | literal {t : Token} (number : t.kind = .number) (digits : IsDigits t.raw) :
      DeclaredAs [t] t.raw
  | signed {s t : Token} {c : Char} (sign : c = '+' ∨ c = '-') (marked : s.isPunct c = true)
      (number : t.kind = .number) (digits : IsDigits t.raw) : DeclaredAs [s, t] (c :: t.raw)
  | constant {t : Token} {v : Number} {n : Int} (constant : isConstant table t = true)
      (value : HasValue table t.raw (some v)) (integer : v.asInt? = some n) :
      DeclaredAs [t] (if n < 0 then ' ' :: Text.ofInt n ++ [' '] else Text.ofInt n)

variable (table) in
/-- Such arguments with commas between them. -/
inductive ListedAs : List Token → Text → Prop
  | none : ListedAs [] []
  | last {ts : List Token} {text : Text} (argument : DeclaredAs table ts text) : ListedAs ts text
  | more {ts rest : List Token} {comma : Token} {text later : Text}
      (argument : DeclaredAs table ts text) (isComma : comma.isPunct ',' = true)
      (others : ListedAs rest later) : ListedAs (ts ++ comma :: rest) (text ++ ',' :: later)

variable {keepLines : Bool}

theorem writesBehind_number {ds : Text} (hds : IsDigits ds) {c d : Char} (hc : c ∈ callMarks)
    (hd : d = ',' ∨ d = ')') :
    WritesBehind keepLines (mark c) [⟨.number, ds⟩, mark d] (ds ++ [d]) (mark d) :=
  (writesBehind_callMark hc rfl (spells_digits hds) rfl).append (writesBehind_digits hds hd)

/-- The numeral of an integer behind a mark and before another. -/
theorem writesBehind_ofInt (n : Int) {c d : Char} (hc : c ∈ callMarks) (hd : d = ',' ∨ d = ')') :
    WritesBehind keepLines (mark c) [⟨.number, Text.ofInt n⟩, mark d]
      ((if n < 0 then ' ' :: Text.ofInt n ++ [' '] else Text.ofInt n) ++ [d]) (mark d) := by
  cases n with
  | ofNat n =>
      have hdigits : IsDigits (Text.ofNat n) :=
        ⟨Nat.toDigits_ne_nil, fun _ => Number.isDigit_of_mem_ofNat⟩
      rw [if_neg (by simp)]
      exact writesBehind_number hdigits hc hd
  | negSucc n =>
      rw [if_pos (Int.negSucc_lt_zero n), List.append_assoc]
      exact writesBehind_negative (Text.ofNat (n + 1)) c d

theorem DeclaredAs.writesBehind (hwrites : table.Writes) {ts us : List Token} {text : Text}
    (h : DeclaredAs table ts text) (hfolded : List.Forall₂ (Folded table) ts us) {c d : Char}
    (hc : c = '(' ∨ c = ',') (hd : d = ',' ∨ d = ')') :
    WritesBehind keepLines (mark c) (us.map Token.toLexeme ++ [mark d]) (text ++ [d])
      (mark d) := by
  have hmark : c ∈ callMarks := by rcases hc with rfl | rfl <;> decide
  have hnumber {t u : Token} (ht : t.kind = .number) (hu : Folded table t u) :
      u.toLexeme = ⟨.number, t.raw⟩ := by
    rw [hu.eq_of_kind (by simp [ht]), ← ht]
  cases h with
  | @literal t number digits =>
      obtain ⟨u, hu, rfl⟩ := exists_of_forall₂_singleton hfolded
      rw [List.map_singleton, hnumber number hu]
      exact writesBehind_number digits hmark hd
  | @signed s t sign hsign marked number digits =>
      obtain ⟨s', vs, hs, hvs, rfl⟩ := List.forall₂_cons_left_iff.1 hfolded
      obtain ⟨u, hu, rfl⟩ := exists_of_forall₂_singleton hvs
      have hword : s.kind ≠ .word := by simp [Token.kind_of_isPunct marked]
      have hsigns : sign ∈ callMarks := by rcases hsign with rfl | rfl <;> decide
      rw [List.map_cons, List.map_singleton, hnumber number hu, hs.eq_of_kind hword,
        Token.toLexeme_of_isPunct marked]
      exact (writesBehind_callMark hmark rfl (spells_callMark hsigns)
        (callMark_spec hsigns).2.2.1).append (writesBehind_number digits hsigns hd)
  | @constant t v n hconstant hvalue hinteger =>
      obtain ⟨u, hu, rfl⟩ := exists_of_forall₂_singleton hfolded
      rw [Folded, if_pos hconstant] at hu
      obtain ⟨v', raw, hfolding, hformat, rfl⟩ := hu
      -- a name has one value, so what was folded is the integer
      obtain rfl : v' = v := Option.some.inj
        ((hasValue_of_folding hwrites hconstant hfolding).unique hvalue)
      rw [Number.eq_ofInt_of_format hinteger hformat]
      exact writesBehind_ofInt n hmark hd

theorem ListedAs.writesBehind (hwrites : table.Writes) {ts us : List Token} {text : Text}
    (h : ListedAs table ts text) (hfolded : List.Forall₂ (Folded table) ts us) {c : Char}
    (hc : c = '(' ∨ c = ',') :
    WritesBehind keepLines (mark c) (us.map Token.toLexeme ++ [mark ')']) (text ++ [')'])
      (mark ')') := by
  induction h generalizing us c with
  | none =>
      cases hfolded
      have hmark : c ∈ callMarks := by rcases hc with rfl | rfl <;> decide
      exact writesBehind_callMark hmark rfl (spells_callMark (by decide)) rfl
  | last argument => exact argument.writesBehind hwrites hfolded hc (Or.inr rfl)
  | @more ts rest comma text later argument hcomma _ ih =>
      obtain ⟨vs, _, rfl, hvs, hbehind⟩ := exists_of_forall₂_append hfolded
      cases hbehind with
      | @cons _ comma' _ vs' hcomma' hvs' =>
          have hword : comma.kind ≠ .word := by simp [Token.kind_of_isPunct hcomma]
          have hfirst : WritesBehind keepLines _ _ _ _ :=
            argument.writesBehind hwrites hvs hc (Or.inl rfl)
          have hrow : (vs ++ comma' :: vs').map Token.toLexeme ++ [mark ')'] =
              (vs.map Token.toLexeme ++ [mark ',']) ++
                (vs'.map Token.toLexeme ++ [mark ')']) := by
            rw [hcomma'.eq_of_kind hword, List.map_append, List.map_cons,
              Token.toLexeme_of_isPunct hcomma]
            simp
          have htext : text ++ ',' :: later ++ [')'] = (text ++ [',']) ++ (later ++ [')']) := by
            simp
          rw [hrow, htext]
          exact hfirst.append (ih hvs' (Or.inr rfl))

end

/-! ### Lines -/

/-- The lexemes that declare a name, up to the name of the call. -/
def lineFront (name : Text) : List Lexeme :=
  [⟨.directive, "#const".toList⟩, ⟨.blank, [' ']⟩, ⟨.word, name⟩, ⟨.blank, [' ']⟩,
    ⟨.word, "rnd".toList⟩]

section
variable {table : SymbolTable} {x : Hoisted}

/-- A call as it is declared. -/
theorem Hoisted.Declares.significant_declared (h : x.Declares table) :
    ∃ us, List.Forall₂ (Folded table) (Token.significant x.call.group.inner) us ∧
      x.declared = x.call.name :: x.call.opening :: (us ++ [x.call.group.closer]) := by
  obtain ⟨hformed, -⟩ := RandomCall.read?_eq_some_iff.1 h.read
  have hrow : Token.significant x.call.arguments = x.call.opening ::
      Token.significant x.call.group.inner ++ [x.call.group.closer] := by
    simp [RandomCall.arguments, Token.significant, Token.isTrivia_of_isPunct hformed.opening,
      Token.isTrivia_of_isPunct hformed.closer]
  have hargs := forall₂_folded_significant h.args
  rw [hrow, List.cons_append] at hargs
  obtain ⟨opening, vs, hopening, hvs, hsignificant⟩ := List.forall₂_cons_left_iff.1 hargs
  obtain ⟨us, ws, rfl, hus, hws⟩ := exists_of_forall₂_append hvs
  obtain ⟨closer, hcloser, rfl⟩ := exists_of_forall₂_singleton hws
  rw [hopening.eq_of_kind (by simp [Token.kind_of_isPunct hformed.opening]),
    hcloser.eq_of_kind (by simp [Token.kind_of_isPunct hformed.closer])] at hsignificant
  have htrivia : x.call.name.isTrivia = false := by
    simp [Token.isTrivia, hformed.kind, TokenKind.isTrivia]
  refine ⟨us, hus, ?_⟩
  rw [Hoisted.declared, Token.significant_cons, htrivia, if_neg Bool.false_ne_true, hsignificant]

/-- The lexemes of the line that declares a call. -/
theorem Hoisted.Declares.map_line (h : x.Declares table) :
    ∃ us, List.Forall₂ (Folded table) (Token.significant x.call.group.inner) us ∧
      x.line.map Token.toLexeme = lineFront x.name ++
        (mark '(' :: us.map Token.toLexeme ++ [mark ')', ⟨.newline, ['\n']⟩]) := by
  obtain ⟨hformed, -⟩ := RandomCall.read?_eq_some_iff.1 h.read
  obtain ⟨us, hus, hdeclared⟩ := h.significant_declared
  have hname : x.call.name.toLexeme = ⟨.word, "rnd".toList⟩ := by
    have hword := hformed.name
    rw [Token.isWord, Bool.and_eq_true, beq_iff_eq, beq_iff_eq] at hword
    rw [← hword.1, ← hword.2]
  rw [Hoisted.declared] at hdeclared
  refine ⟨us, hus, ?_⟩
  simp [Hoisted.line, declaration, hdeclared, hname, lineFront, Token.made,
    Token.toLexeme_of_isPunct hformed.opening, Token.toLexeme_of_isPunct hformed.closer]

variable {keepLines : Bool}

variable (keepLines) in
/-- A word behind a space behind a word in its line. -/
theorem renderFrom_word {j : Joint} {l r : Lexeme} (ls : List Lexeme) (hlast : j.last = some l)
    (hbreak : j.lineBreak = false) (hl : l.kind.isWordlike = true)
    (hr : r.kind.isWordlike = true) :
    let j' := (j.widen ⟨.blank, [' ']⟩).write [' '] r
    renderFrom keepLines j (⟨.blank, [' ']⟩ :: r :: ls) =
        ' ' :: r.raw ++ renderFrom keepLines j' ls ∧
      after keepLines j (⟨.blank, [' ']⟩ :: r :: ls) = after keepLines j' ls := by
  have htrivia : r.isTrivia = false := by
    rw [Lexeme.isTrivia]
    generalize r.kind = kind at hr
    cases kind <;> first | rfl | cases hr
  have hblank : (⟨.blank, [' ']⟩ : Lexeme).isTrivia = true := rfl
  have hspace : needsSpace l r true = true := by simp [needsSpace, hl, hr]
  have hseparator : (j.widen ⟨.blank, [' ']⟩).separator keepLines r = [' '] := by
    rw [separator_of_last (show (j.widen _).last = some l from hlast)]
    simp [Joint.widen, hbreak, hspace]
  constructor
  · rw [renderFrom, if_pos hblank, renderFrom, if_neg (by simp [htrivia])]
    simp only [hseparator]
    rfl
  · rw [after, if_pos hblank, after, if_neg (by simp [htrivia]), hseparator]

variable (keepLines) in
/-- A line is written behind what separates it from the text before. -/
theorem renderFrom_lineFront (j : Joint) (name : Text) :
    renderFrom keepLines j (lineFront name) = j.separator keepLines ⟨.directive, "#const".toList⟩ ++
        ("#const ".toList ++ name ++ " rnd".toList) ∧
      Tight (after keepLines j (lineFront name)) ⟨.word, "rnd".toList⟩ := by
  let const : Lexeme := ⟨.directive, "#const".toList⟩
  let first := j.write (j.separator keepLines const) const
  let second := (first.widen ⟨.blank, [' ']⟩).write [' '] ⟨.word, name⟩
  obtain ⟨hname, hname'⟩ := renderFrom_word keepLines (j := first) (l := const)
    (r := ⟨.word, name⟩) [⟨.blank, [' ']⟩, ⟨.word, "rnd".toList⟩] rfl rfl rfl rfl
  obtain ⟨hcall, hcall'⟩ := renderFrom_word keepLines (j := second)
    (l := ⟨.word, name⟩) (r := ⟨.word, "rnd".toList⟩) [] rfl rfl rfl rfl
  constructor
  · rw [lineFront, renderFrom, if_neg (by decide)]
    dsimp only
    rw [hname, hcall, renderFrom]
    simp
  · rw [lineFront, after, if_neg (by decide), hname', hcall', after]
    exact ⟨rfl, rfl, rfl, fun g hg => by cases hg⟩

variable (keepLines) in
/-- After a line something is written and the line is over. -/
theorem Hoisted.Declares.after_line (h : x.Declares table) (j : Joint) :
    (after keepLines j (x.line.map Token.toLexeme)).last ≠ none ∧
      (after keepLines j (x.line.map Token.toLexeme)).lineBreak = true := by
  obtain ⟨us, -, hline⟩ := h.map_line
  have hsplit : x.line.map Token.toLexeme = (lineFront x.name ++ mark '(' ::
      us.map Token.toLexeme) ++ [mark ')', ⟨.newline, ['\n']⟩] := by
    rw [hline]
    simp
  rw [hsplit, after_append, after, if_neg (by decide), after, if_pos (by decide)]
  exact ⟨Option.some_ne_none _, rfl⟩

variable (keepLines) in
theorem after_lines {calls : List Hoisted} (hcalls : ∀ y ∈ calls, y.Declares table)
    (hne : calls ≠ []) (j : Joint) :
    (after keepLines j ((calls.flatMap Hoisted.line).map Token.toLexeme)).last ≠ none ∧
      (after keepLines j ((calls.flatMap Hoisted.line).map Token.toLexeme)).lineBreak = true := by
  obtain ⟨calls, y, rfl⟩ := (List.eq_nil_or_concat' calls).resolve_left hne
  rw [List.flatMap_append, List.map_append, after_append,
    List.flatMap_singleton]
  exact (hcalls y (by simp)).after_line keepLines _

end

/-! ### Text -/

/-- The declaration of a name for a call. -/
def declarationText (name arguments : Text) : Text :=
  "#const ".toList ++ name ++ " rnd".toList ++ '(' :: arguments ++ [')']

/-- A text has a line in it, which stands on its own if line breaks are kept. -/
def Shows (keepLines : Bool) (line text : Text) : Prop :=
  ∃ front back, text = front ++ line ++ back ∧
    (keepLines = true → (∀ c ∈ front.getLast?, c = '\n') ∧ ∀ c ∈ back.head?, c = '\n')

section
variable {keepLines : Bool} {line text : Text}

theorem Shows.behind (h : Shows keepLines line text) (front : Text) :
    Shows keepLines line (front ++ '\n' :: text) := by
  obtain ⟨front', back, rfl, hends⟩ := h
  refine ⟨front ++ '\n' :: front', back, by simp, fun hkeep => ⟨?_, (hends hkeep).2⟩⟩
  intro c hc
  cases front' with
  | nil => simpa using hc.symm
  | cons d front' => exact (hends hkeep).1 c (by simpa using hc)

theorem Shows.join (h : Shows keepLines line text) (lines : List Text) :
    Shows keepLines line (Text.join ['\n'] (lines ++ [text])) := by
  induction lines with
  | nil => simpa [Text.join] using h
  | cons first lines ih =>
      rw [List.cons_append, Text.join_cons, if_neg (by simp)]
      exact ih.behind first

/-- After a line break the text goes on with one. -/
theorem head?_renderFrom {j : Joint} (hlast : j.last ≠ none) (hbreak : j.lineBreak = true)
    (ls : List Lexeme) : ∀ c ∈ (renderFrom true j ls).head?, c = '\n' := by
  intro c hc
  by_cases hsome : ∃ l ∈ ls, l.isTrivia = false
  · rw [renderFrom_of_lineBreak hlast hbreak hsome] at hc
    simpa using hc.symm
  · push Not at hsome
    rw [renderFrom_trivia true j fun l hl => by simpa using hsome l hl] at hc
    cases hc

variable {table : SymbolTable}

theorem writesBehind_opening :
    WritesBehind keepLines ⟨.word, "rnd".toList⟩ [mark '('] ['('] (mark '(') := by
  have hname : Lexer.IsName "rnd".toList := ⟨'r', ['n', 'd'], rfl, rfl, List.all_eq_true.1 rfl⟩
  have hmerges : merges [⟨.word, "rnd".toList⟩, mark '('] = false := by decide +kernel
  refine writesBehind_glued rfl rfl (spells_name hname) (spells_callMark (by decide)) rfl ?_
  rw [needsSpace, hmerges]
  rfl

/-- The line of a call is written as it is declared. -/
theorem renderFrom_line (hwrites : table.Writes) {x : Hoisted} (hx : x.Declares table)
    {arguments : Text} (hlisted : ListedAs table (Token.significant x.call.group.inner) arguments)
    (j : Joint) :
    renderFrom keepLines j (x.line.map Token.toLexeme) =
      j.separator keepLines ⟨.directive, "#const".toList⟩ ++ declarationText x.name arguments := by
  obtain ⟨us, hfolded, hline⟩ := hx.map_line
  obtain ⟨hfront, htight⟩ := renderFrom_lineFront keepLines j x.name
  have harguments : WritesBehind keepLines _ _ _ _ :=
    hlisted.writesBehind hwrites hfolded (Or.inl rfl)
  obtain ⟨hcall, -⟩ := writesBehind_opening.append harguments _ htight
  have hrow : x.line.map Token.toLexeme = lineFront x.name ++ ([mark '('] ++
      (us.map Token.toLexeme ++ [mark ')'])) ++ [⟨.newline, ['\n']⟩] := by
    rw [hline]
    simp
  rw [hrow, renderFrom_append, renderFrom_append, hfront, hcall,
    renderFrom_trivia keepLines _ (by simp [Lexeme.isTrivia, TokenKind.isTrivia])]
  unfold declarationText
  simp only [List.append_assoc, List.cons_append, List.nil_append, List.append_nil]

/-- The lines of declared calls stand in the text that begins with them. -/
theorem shows_render (hwrites : table.Writes) {calls : List Hoisted}
    (hcalls : ∀ y ∈ calls, y.Declares table) {x : Hoisted} (hx : x ∈ calls) {arguments : Text}
    (hlisted : ListedAs table (Token.significant x.call.group.inner) arguments)
    (later : List Lexeme) :
    Shows keepLines (declarationText x.name arguments)
      (render keepLines ((calls.flatMap Hoisted.line).map Token.toLexeme ++ later)) := by
  obtain ⟨front, back, rfl⟩ := List.append_of_mem hx
  have hdeclares := hcalls x hx
  let before := (front.flatMap Hoisted.line).map Token.toLexeme
  let behind := (back.flatMap Hoisted.line).map Token.toLexeme ++ later
  let j := after keepLines .start before
  let separator := j.separator keepLines ⟨.directive, "#const".toList⟩
  have hrow : ((front ++ x :: back).flatMap Hoisted.line).map Token.toLexeme ++ later =
      before ++ (x.line.map Token.toLexeme ++ behind) := by
    simp [before, behind]
  refine ⟨renderFrom keepLines .start before ++ separator,
    renderFrom keepLines (after keepLines j (x.line.map Token.toLexeme)) behind, ?_, ?_⟩
  · rw [hrow, render, renderFrom_append, renderFrom_append,
      renderFrom_line hwrites hdeclares hlisted]
    simp [j, separator]
  · rintro rfl
    obtain ⟨hlast, hbreak⟩ := hdeclares.after_line true j
    refine ⟨?_, head?_renderFrom hlast hbreak behind⟩
    cases front with
    | nil =>
        intro c hc
        cases hc
    | cons y front =>
        -- the line before is over, so a line break separates the two
        obtain ⟨hlast, hbreak⟩ := after_lines true
          (fun z hz => hcalls z (List.mem_append_left _ hz)) (List.cons_ne_nil y front) .start
        obtain ⟨last, hsome⟩ := Option.ne_none_iff_exists'.1 hlast
        have hseparator : separator = ['\n'] := by
          rw [show separator = j.separator true _ from rfl, separator_of_last hsome, hbreak]
          rfl
        rw [hseparator]
        intro c hc
        simpa using hc.symm

/-- A call that is taken out of a script is declared. -/
theorem Remains.declares {parts rest : List Piece} {stretches : List Stretch}
    (h : Remains table parts rest stretches) {x : Hoisted} (hx : .call x ∈ stretches) :
    x.Declares table := by
  induction h with
  | nil => cases hx
  | run hrow _ ih => exact (List.mem_append.1 hx).elim (fun hx => (hrow.declared x hx).1) ih
  | other _ _ ih => exact ih hx

theorem mem_hoisted_iff {stretches : List Stretch} {x : Hoisted} :
    x ∈ stretches.filterMap Stretch.hoisted? ↔ .call x ∈ stretches := by
  rw [List.mem_filterMap]
  constructor
  · rintro ⟨stretch, hstretch, hx⟩
    cases stretch with
    | call y =>
        obtain rfl := Option.some.inj hx
        exact hstretch
    | token t => cases hx
    | kept c blocker => cases hx
  · exact fun hx => ⟨_, hx, rfl⟩

end

end Hoist

/-! ### Runs -/

namespace Preprocess

variable {options : Options} {source : Text} {named : Script Node} {s s₁ : Session}

theorem resolve_of_resolved (h : runPass options (resolved source) = (.ok named, s)) :
    ∃ script, Script.ofSource source = .ok script ∧
      script.resolve.run.run (Session.start options).table = (.ok named, s.table) := by
  have hends : Ends (resolved source) (Session.start options)
      (fun out s => ∃ script, Script.ofSource source = .ok script ∧
        script.resolve.run.run (Session.start options).table = (.ok out, s.table))
      (fun _ _ => True) := by
    unfold resolved blocks
    simp only [Ends.bind_iff, Pass.ofReport_ends_iff, Pass.onTable_ends_iff]
    refine ⟨fun script hscript => ?_, fun _ _ => trivial⟩
    exact Ends.of_run (fun _ _ hrun => ⟨script, hscript, hrun⟩) fun _ _ _ => trivial
  exact hends.of_run_ok h

/-- Expansion keeps the names of a resolved script and finds right values. -/
theorem knows_of_expand {script : Script Node} {tree : Script Piece}
    (hresolve : script.resolve.run.run (Session.start options).table = (.ok named, s.table))
    (hexpand : named.expand.run.run s = (.ok tree, s₁)) : Hoist.Knows s.table s₁ := by
  obtain ⟨hreached, harguments, hcalls⟩ := (script.resolve_atFault options).of_run_ok hresolve
  have hs : s.Keeps s.table script.operands :=
    ⟨fun _ => hreached.mem_operands, s.table.values, rfl, hreached.sound.2⟩
  have hargs : Resolve.argumentsIn named.parts ⊆ script.operands := by
    rw [harguments]
    exact List.subset_append_right _ _
  have hcalled : Resolve.callsIn named.parts ⊆ script.calls := by
    rw [hcalls]
    exact List.Subset.refl _
  exact ((named.expand_arises hs hargs hcalled).of_run_ok hexpand).values

theorem expanded_of_preprocess {text : Text} (h : preprocess options source = .ok text) :
    ∃ tree s, runPass options (expanded source) = (.ok tree, s) := by
  cases hexpanded : runPass options (expanded source) with
  | mk outcome s =>
      cases outcome with
      | ok tree => exact ⟨tree, s, rfl⟩
      | error e =>
          rw [preprocess, run_text_of_error (Or.inr (Or.inl hexpanded))] at h
          cases h

end Preprocess

/-- What stands in the text of the runs stands in the whole. -/
theorem Hoist.Shows.engineText {keepLines : Bool} {line : Text} {pieces : List Piece}
    (h : Shows keepLines line (Compact.render keepLines (pieces.flatMap Piece.lexemes)))
    (hline : line ≠ []) : Shows keepLines line (MapScript.engineText keepLines pieces) := by
  have hbody : (Compact.render keepLines (pieces.flatMap Piece.lexemes)).isEmpty = false := by
    obtain ⟨front, back, htext, -⟩ := h
    rw [htext]
    simp [hline]
  unfold MapScript.engineText
  simp only [hbody, Bool.false_eq_true, if_false]
  exact h.join _

open Preprocess (runPass resolved expanded hoisted)

/-- A script that is preprocessed with its random calls taken out declares each of them on a
line of its own.  An integer literal among the arguments is written as it stands and a constant
with an integer value as the numeral, without gaps but for those on both sides of a negative
value. -/
theorem preprocess_declares_calls {options : Options} {source text : Text}
    (hrandom : options.hoistRandom = true) (h : preprocess options source = .ok text) :
    ∃ named s₀ tree s₁ rest stretches s₂,
      runPass options (resolved source) = (.ok named, s₀) ∧
      runPass options (expanded source) = (.ok tree, s₁) ∧
      runPass options (hoisted options source) =
        (.ok ⟨Hoist.declarationRun (stretches.filterMap Hoist.Stretch.hoisted?)
          tree.span.start ++ rest, tree.span⟩, s₂) ∧
      Hoist.Remains s₀.table tree.parts rest stretches ∧
      ∀ x, .call x ∈ stretches → ∀ arguments,
        Hoist.ListedAs s₀.table (Token.significant x.call.group.inner) arguments →
          Hoist.Shows options.keepLines (Hoist.declarationText x.name arguments) text := by
  obtain ⟨named, s₀, hnamed⟩ := Preprocess.resolved_of_preprocess h
  obtain ⟨tree, s₁, htree⟩ := Preprocess.expanded_of_preprocess h
  obtain ⟨script, hsource, hresolve⟩ := Preprocess.resolve_of_resolved hnamed
  have hwrites := Script.writes_of_resolve hsource ⟨rfl, rfl, rfl⟩ hresolve
  have hknows := Preprocess.knows_of_expand hresolve ((Preprocess.run_expanded hnamed).symm.trans
    htree)
  obtain ⟨out, s₂, hrun, rest, stretches, -, hremains, rfl, -, -⟩ :=
    (tree.hoist_accounts hwrites options.stem hknows).exists_run
  have hhoisted := Preprocess.run_hoisted htree
  rw [if_pos hrandom, hrun] at hhoisted
  refine ⟨named, s₀, tree, s₁, rest, stretches, s₂, hnamed, htree, hhoisted, hremains, ?_⟩
  intro x hx arguments hlisted
  have hcall := Hoist.mem_hoisted_iff.2 hx
  rw [preprocess, Preprocess.run_text_of_hoisted hhoisted] at h
  obtain rfl := Except.ok.inj h
  generalize hcalls : stretches.filterMap Hoist.Stretch.hoisted? = calls at hcall
  have hdeclares : ∀ y ∈ calls, y.Declares s₀.table := fun y hy =>
    hremains.declares (Hoist.mem_hoisted_iff.1 (hcalls ▸ hy))
  have hsome : calls.isEmpty = false := by
    rw [List.isEmpty_eq_false_iff]
    exact List.ne_nil_of_mem hcall
  apply Hoist.Shows.engineText
  · rw [Hoist.declarationRun, hsome, if_neg Bool.false_ne_true]
    exact Hoist.shows_render hwrites hdeclares hcall hlisted _
  · unfold Hoist.declarationText
    simp

/-- Two negative numerals, one of a constant and one that stands in the call, among others. -/
theorem preprocess_declares_calls_mixed :
    ({} : Options).hoistRandom = true ∧
      ∃ text, preprocess {} "#const A -5\n#const B 7\nx rnd(A, B) rnd( -3,4)".toList = .ok text ∧
        text = ("#const C1 rnd( -5 ,7)\n#const C2 rnd(-3,4)\n#const A -5\n#const B 7\n" ++
          "x C1 C2").toList ∧
        ∃ named s₀ tree s₁ rest stretches s₂,
          runPass {} (resolved "#const A -5\n#const B 7\nx rnd(A, B) rnd( -3,4)".toList) =
            (.ok named, s₀) ∧
          runPass {} (expanded "#const A -5\n#const B 7\nx rnd(A, B) rnd( -3,4)".toList) =
            (.ok tree, s₁) ∧
          runPass {} (hoisted {} "#const A -5\n#const B 7\nx rnd(A, B) rnd( -3,4)".toList) =
            (.ok ⟨Hoist.declarationRun (stretches.filterMap Hoist.Stretch.hoisted?)
              tree.span.start ++ rest, tree.span⟩, s₂) ∧
          Hoist.Remains s₀.table tree.parts rest stretches ∧
          ∀ x, .call x ∈ stretches → ∀ arguments,
            Hoist.ListedAs s₀.table (Token.significant x.call.group.inner) arguments →
              Hoist.Shows true (Hoist.declarationText x.name arguments) text := by
  have hruns : (preprocess {} "#const A -5\n#const B 7\nx rnd(A, B) rnd( -3,4)".toList).toOption.any
      (fun text => decide (text = ("#const C1 rnd( -5 ,7)\n#const C2 rnd(-3,4)\n" ++
        "#const A -5\n#const B 7\nx C1 C2").toList)) = true := by
    decide +kernel
  obtain ⟨text, htext, hlines⟩ := toOption_any_iff.1 hruns
  exact ⟨rfl, text, htext, of_decide_eq_true hlines, preprocess_declares_calls rfl htext⟩

/-- The value of a negative constant does not stand in its declaration without gaps. -/
theorem preprocess_parts_negative :
    ∃ text, preprocess {} "#const A -5\nx rnd(A,3)".toList = .ok text ∧
      ¬ Hoist.Shows true (Hoist.declarationText ['C', '1'] "-5,3".toList) text := by
  have hruns : (preprocess {} "#const A -5\nx rnd(A,3)".toList).toOption.any
      (fun text => !decide (Hoist.declarationText ['C', '1'] "-5,3".toList <:+: text)) = true := by
    decide +kernel
  obtain ⟨text, htext, hnone⟩ := toOption_any_iff.1 hruns
  refine ⟨text, htext, ?_⟩
  rintro ⟨front, back, rfl, -⟩
  have hinfix : Hoist.declarationText ['C', '1'] "-5,3".toList <:+:
      front ++ Hoist.declarationText ['C', '1'] "-5,3".toList ++ back := ⟨front, back, rfl⟩
  rw [decide_eq_true hinfix] at hnone
  cases hnone

end MapScript
