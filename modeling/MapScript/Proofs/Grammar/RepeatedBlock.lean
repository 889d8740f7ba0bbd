import MapScript.Proofs.FixedPoint
import MapScript.Proofs.Lexing.LineBreak
import MapScript.Proofs.Separators

/-!
# Repeated blocks

A text between the directives of a repeated block, the opening one on a line before it
and the closing one on a line after it.  It reads as it does alone, but for what
separates at its end, and becomes the one run of the block.
-/

namespace MapScript

open Lexer

/-- A text as a block that is repeated so often. -/
def repeatedText (count : Nat) (body : Text) : Text :=
  "#REPEAT(".toList ++ Text.ofNat count ++ ")\n".toList ++ body ++ "\n#END_REPEAT".toList

/-! ### Lexemes -/

/-- The lexemes that open a repeated block, up to its line end. -/
def repeatOpening (count : Nat) : List Lexeme :=
  [⟨.directive, "#REPEAT".toList⟩, ⟨.punct, ['(']⟩, ⟨.number, Text.ofNat count⟩, ⟨.punct, [')']⟩,
    ⟨.newline, ['\n']⟩]

/-- The lexeme that closes a repeated block. -/
def repeatClosing : Lexeme := ⟨.directive, "#END_REPEAT".toList⟩

namespace Lexer

theorem stands_parenthesis {c : Char} (h : c = '(' ∨ c = ')') (rest : Text) :
    Stands ⟨.punct, [c]⟩ rest := by
  rcases h with rfl | rfl
  · exact Compact.stands_mark (by decide) (by decide) rest
  · exact Compact.stands_mark (by decide) (by decide) rest

theorem stands_directive {name rest : Text} (hname : ∀ c ∈ name, isNameChar c = true)
    (hne : name ≠ []) (hrest : rest.head?.any isNameChar = false) :
    Stands ⟨.directive, '#' :: name⟩ rest := by
  obtain ⟨c, cs, rfl⟩ := List.exists_cons_of_ne_nil hne
  have hopening : opening '#' (c :: cs ++ rest) = .directive := by
    rw [opening_hash, if_pos]
    simpa using hname c (by simp)
  refine ⟨'#', c :: cs, rfl, ?_⟩
  rw [scanScript, hopening, Opening.scan, spanAhead_eq hname hrest]
  rfl

theorem stands_ofNat (n : Nat) {rest : Text} (hrest : rest.head?.any Char.isDigit = false)
    (hpoint : rest.head? ≠ some '.') : Stands ⟨.number, Text.ofNat n⟩ rest := by
  apply Compact.stands_digits Nat.toDigits_ne_nil (fun _ => Number.isDigit_of_mem_ofNat) hrest
  rintro e es rfl
  exact absurd rfl hpoint

theorem rawText_repeatOpening (n : Nat) :
    Lexeme.rawText (repeatOpening n) = "#REPEAT(".toList ++ Text.ofNat n ++ ")\n".toList := by
  rw [List.append_assoc]
  rfl

theorem lineFeed_repeatClosing :
    ['\n'] ++ Lexeme.rawText [repeatClosing] = "\n#END_REPEAT".toList := rfl

theorem reads_repeatOpening (n : Nat) (rest : Text) : Reads (repeatOpening n) rest := by
  refine ⟨?_, rfl, ?_, rfl, ?_, rfl, ?_, rfl, stands_lineFeed _, rfl, trivial⟩
  · exact @stands_directive "REPEAT".toList _ (List.all_eq_true.1 rfl) (List.cons_ne_nil _ _) rfl
  · exact stands_parenthesis (Or.inl rfl) _
  · exact stands_ofNat n rfl (by simp [Lexeme.rawText])
  · exact stands_parenthesis (Or.inr rfl) _

theorem reads_repeatClosing : Reads [repeatClosing] [] :=
  ⟨@stands_directive "END_REPEAT".toList [] (List.all_eq_true.1 rfl) (List.cons_ne_nil _ _) rfl,
    rfl, trivial⟩

/-- Between the directives a script reads as it did alone, but for what separates at its
end. -/
theorem lexScript_repeatedText {ls : List Lexeme} (h : Reads ls []) (n : Nat) :
    ∃ core tail tail', ls = core ++ tail ∧ (∀ l ∈ tail, l.isTrivia = true) ∧
      (∀ l ∈ tail', l.isTrivia = true) ∧
      lexScript (repeatedText n (Lexeme.rawText ls)) =
        .ok (repeatOpening n ++ (core ++ (tail' ++ [repeatClosing]))) := by
  obtain ⟨core, tail, tail', hls, htail, htail', htext, hreads⟩ :=
    h.before_lineFeed "#END_REPEAT".toList
  refine ⟨core, tail, tail', hls, htail, htail', ?_⟩
  have hwhole : Reads (repeatOpening n ++ (core ++ tail' ++ [repeatClosing])) [] := by
    apply (reads_repeatOpening n _).append
    apply Reads.append _ reads_repeatClosing
    exact hreads
  have hraw : Lexeme.rawText (repeatOpening n ++ (core ++ tail' ++ [repeatClosing])) =
      repeatedText n (Lexeme.rawText ls) := by
    have happend (ls ms : List Lexeme) : Lexeme.rawText (ls ++ ms) =
        Lexeme.rawText ls ++ Lexeme.rawText ms := List.flatMap_append
    unfold repeatedText
    rw [happend, happend, htext, rawText_repeatOpening, List.append_assoc (Lexeme.rawText ls),
      lineFeed_repeatClosing]
    exact (List.append_assoc _ _ _).symm
  rw [← hraw, hwhole.lexScript_rawText, List.append_assoc]

end Lexer

/-! ### Blocks -/

/-- The tokens around a row that is repeated so often as a block. -/
structure RepeatFrame (n : Nat) where
  directive : Token
  opener : Token
  count : Token
  closer : Token
  lineFeed : Token
  ending : Token
  directive_eq : directive.toLexeme = ⟨.directive, "#REPEAT".toList⟩
  opener_eq : opener.toLexeme = ⟨.punct, ['(']⟩
  count_eq : count.toLexeme = ⟨.number, Text.ofNat n⟩
  closer_eq : closer.toLexeme = ⟨.punct, [')']⟩
  lineFeed_eq : lineFeed.toLexeme = ⟨.newline, ['\n']⟩
  ending_eq : ending.toLexeme = repeatClosing

namespace RepeatFrame

variable {n : Nat} (f : RepeatFrame n)

/-- The run that is repeated: the row behind the line break. -/
def run (row : List Token) : Run := ⟨f.lineFeed :: row, Token.spanOf f.lineFeed row⟩

/-- The part of the script that opens the block. -/
def openSpan : Span := ⟨f.directive.span.start, f.closer.span.stop⟩

/-- The block in which a row is repeated. -/
def node (row : List Token) : Node :=
  .repeated [[f.count]] [.run (f.run row)] f.openSpan ⟨f.openSpan.start, f.ending.span.stop⟩

/-- The tokens of the block. -/
def around (row : List Token) : List Token :=
  f.directive :: f.opener :: f.count :: f.closer :: ((f.run row).tokens ++ [f.ending])

theorem exists_around {ts : List Token} {ls : List Lexeme}
    (h : ts.map Token.toLexeme = repeatOpening n ++ (ls ++ [repeatClosing])) :
    ∃ (f : RepeatFrame n) (row : List Token), ts = f.around row ∧ row.map Token.toLexeme = ls := by
  obtain ⟨directive, ts₁, rfl, hdirective, h₁⟩ := List.map_eq_cons_iff.1 h
  obtain ⟨opener, ts₂, rfl, hopener, h₂⟩ := List.map_eq_cons_iff.1 h₁
  obtain ⟨count, ts₃, rfl, hcount, h₃⟩ := List.map_eq_cons_iff.1 h₂
  obtain ⟨closer, ts₄, rfl, hcloser, h₄⟩ := List.map_eq_cons_iff.1 h₃
  obtain ⟨lineFeed, ts₅, rfl, hlineFeed, h₅⟩ := List.map_eq_cons_iff.1 h₄
  have hrest : ts₅.map Token.toLexeme = ls ++ [repeatClosing] := h₅
  obtain ⟨row, last, rfl, hrow, hlast⟩ := List.map_eq_append_iff.1 hrest
  obtain ⟨ending, rfl, hending⟩ := List.map_eq_singleton_iff.1 hlast
  exact ⟨⟨directive, opener, count, closer, lineFeed, ending, hdirective, hopener, hcount, hcloser,
    hlineFeed, hending⟩, row, rfl, hrow⟩

theorem count_kind : f.count.kind = .number := by rw [f.count_eq]

theorem readArguments_eq (rest : List Token) :
    Call.readArguments f.directive (f.opener :: f.count :: f.closer :: rest) =
      .ok (some ⟨[f.count], f.closer, rest⟩) := by
  have hgroup : Group.parens? (f.count :: f.closer :: rest) =
      some ⟨[f.count], f.closer, rest⟩ := by
    simp [Group.parens?, Group.read, Token.isPunct, f.count_kind, f.closer_eq, Except.map,
      Group.cons]
  have hopen : f.opener.isPunct '(' = true := by simp [Token.isPunct, f.opener_eq]
  have hblank : (f.opener.kind == .blank) = false := by simp [f.opener_eq]
  simp [Call.readArguments, hblank, hopen, hgroup]

theorem arguments_eq : Call.arguments [f.count] = [[f.count]] := by
  simp [Call.arguments, Call.splitCommas, Call.consFirst, Token.isPunct, Token.isTrivia,
    TokenKind.isTrivia, f.count_kind]

/-- What is open after the line break and a row, given with its newest token first. -/
def opened (pending : List Token) : Builder :=
  ⟨{}, [⟨.repeated [[f.count]], f.openSpan, ⟨[], pending⟩⟩]⟩

open Builder in
theorem step_directive (rest : List Token) :
    step {} f.directive (f.opener :: f.count :: f.closer :: rest) = .ok (f.opened [], rest) := by
  have hown : f.directive.isOwnDirective = true := by
    unfold Token.isOwnDirective Token.isNative Token.value
    rw [f.directive_eq]
    decide +kernel
  have hcloser : isCloser f.directive = false := by
    unfold isCloser Token.isDirective Token.value
    rw [f.directive_eq]
    decide +kernel
  have hopener : f.directive.isDirective (BlockKind.repeated []).opener = true := by
    unfold Token.isDirective Token.value
    rw [f.directive_eq]
    decide +kernel
  have hscript : ({} : Builder).inHeader = false := rfl
  rw [step, hscript, hown, if_neg Bool.false_ne_true, if_pos rfl, Builder.directive, hcloser,
    hopener, if_neg Bool.false_ne_true, if_pos rfl, enterRepeat, f.readArguments_eq]
  dsimp only
  rw [f.arguments_eq]
  rfl

open Builder in
theorem step_ending (row : List Token) :
    step (f.opened (f.run row).tokens.reverse) f.ending [] =
      .ok (⟨⟨[f.node row], []⟩, []⟩, []) := by
  have hown : f.ending.isOwnDirective = true := by
    unfold Token.isOwnDirective Token.isNative Token.value
    rw [f.ending_eq]
    decide +kernel
  have hname : f.ending.isDirective (BlockKind.repeated []).closer = true := by
    unfold Token.isDirective Token.value
    rw [f.ending_eq]
    decide +kernel
  have hcloser : isCloser f.ending = true := Bool.or_eq_true_iff.2 (Or.inl hname)
  have hscript : (f.opened (f.run row).tokens.reverse).inHeader = false := rfl
  have hfinish : Content.finish ⟨[], (f.run row).tokens.reverse⟩ = [.run (f.run row)] := by
    rw [Content.finish, Content.flush, List.reverse_reverse]
    rfl
  have hclose : close (f.opened (f.run row).tokens.reverse) f.ending =
      .ok ⟨⟨[f.node row], []⟩, []⟩ := by
    rw [close, opened]
    dsimp only
    have hname : f.ending.isDirective (BlockKind.repeated [[f.count]]).closer = true := hname
    rw [if_pos hname, OpenBlock.close, hfinish]
    rfl
  rw [step, hscript, hown, if_neg Bool.false_ne_true, if_pos rfl, Builder.directive,
    if_pos hcloser, hclose]
  rfl

/-- A row that is left to the engine becomes the run of the block around it. -/
theorem ofStream_around {row : List Token} (h : ∀ t ∈ row, t.isOwnDirective = false)
    (stop : Position) :
    Script.ofStream ⟨f.around row, stop⟩ = .ok ⟨[f.node row], ⟨.origin, stop⟩⟩ := by
  have hnative : ∀ t ∈ (f.run row).tokens, t.isOwnDirective = false := by
    refine List.forall_mem_cons.2 ⟨?_, h⟩
    simp [Token.isOwnDirective, f.lineFeed_eq]
  have hopened : (f.opened []).inHeader = false := rfl
  have hpending : ((f.opened []).update fun c =>
      { c with pending := (f.run row).tokens.reverse ++ c.pending }) =
        f.opened (f.run row).tokens.reverse := by
    simp [opened, Builder.update]
  have hrun : Builder.run {} (f.around row) = .ok ⟨⟨[f.node row], []⟩, []⟩ := by
    rw [around, Builder.run_of_step (f.step_directive _), Builder.run_native hnative hopened,
      hpending, Builder.run_of_step (f.step_ending row), Builder.run]
  simp only [Script.ofStream, hrun]
  rfl

end RepeatFrame

theorem Token.isOwnDirective_congr {t u : Token} (h : t.toLexeme = u.toLexeme) :
    t.isOwnDirective = u.isOwnDirective := by
  rw [isOwnDirective, isOwnDirective, isNative, isNative, value, value, h]

theorem Token.isOwnDirective_of_isTrivia {t : Token} (h : t.isTrivia = true) :
    t.isOwnDirective = false := by
  by_contra hown
  simp only [isOwnDirective, Bool.not_eq_false, Bool.and_eq_true, beq_iff_eq] at hown
  rw [isTrivia, hown.1] at h
  cases h

/-- Between the directives stand the lexemes of the text alone, but for what separates at
its end. -/
theorem Script.ofSource_repeatedText {source : Text} {stream : TokenStream}
    (hstream : TokenStream.ofSource source = .ok stream)
    (hnative : ∀ t ∈ stream.tokens, t.isOwnDirective = false) (n : Nat) :
    ∃ (f : RepeatFrame n) (core core' tail tail' : List Token) (span : Span),
      stream.tokens = core ++ tail ∧ core.map Token.toLexeme = core'.map Token.toLexeme ∧
      (∀ t ∈ tail, t.isTrivia = true) ∧ (∀ t ∈ tail', t.isTrivia = true) ∧
      Script.ofSource (repeatedText n source) = .ok ⟨[f.node (core' ++ tail')], span⟩ := by
  obtain ⟨ls, hlex, hls⟩ := TokenStream.lexScript_of_ofSource hstream
  have hopens : ∀ l ∈ ls, opensHeader l = false := by
    intro l hl
    rw [← hls] at hl
    obtain ⟨t, ht, rfl⟩ := List.mem_map.1 hl
    exact opensHeader_of_isOwnDirective (hnative t ht)
  obtain ⟨rfl, hreads⟩ := reads_of_lexScript hlex hopens
  obtain ⟨coreLexemes, tailLexemes, tailLexemes', rfl, htail, htail', hrepeated⟩ :=
    lexScript_repeatedText hreads n
  obtain ⟨stream', hstream', htokens⟩ := TokenStream.ofSource_of_lexScript hrepeated
  obtain ⟨core, tail, hsplit, hcore, rfl⟩ := List.map_eq_append_iff.1 hls
  rw [← List.append_assoc coreLexemes] at htokens
  obtain ⟨f, row, hrow, hlexemes⟩ := RepeatFrame.exists_around htokens
  obtain ⟨core', tail'', rfl, hcore', rfl⟩ := List.map_eq_append_iff.1 hlexemes
  have htrivia : ∀ t ∈ tail'', t.isTrivia = true := fun t ht =>
    htail' _ (List.mem_map_of_mem ht)
  have hown : ∀ t ∈ core' ++ tail'', t.isOwnDirective = false := by
    intro t ht
    rcases List.mem_append.1 ht with ht | ht
    · have hmem := List.mem_map_of_mem (f := Token.toLexeme) ht
      rw [hcore', ← hcore] at hmem
      obtain ⟨u, hu, hlexeme⟩ := List.mem_map.1 hmem
      rw [← Token.isOwnDirective_congr hlexeme]
      exact hnative u (by simp [hsplit, hu])
    · exact Token.isOwnDirective_of_isTrivia (htrivia t ht)
  refine ⟨f, core, core', tail, tail'', ⟨.origin, stream'.stop⟩, hsplit, hcore.trans hcore'.symm,
    ?_, ?_, ?_⟩
  · exact fun t ht => htail _ (List.mem_map_of_mem ht)
  · exact htrivia
  · rw [Script.ofSource, hstream']
    dsimp only
    rw [← f.ofStream_around hown, ← hrow]

end MapScript
