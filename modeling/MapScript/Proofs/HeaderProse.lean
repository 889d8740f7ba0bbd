import MapScript.Block.Builder
import MapScript.Proofs.Grammar.Coverage
import MapScript.Proofs.Lexing.LineEnds
import MapScript.Proofs.Outcome

/-!
# The prose of headers

A header holds its prose as it is written, from the end of the directive that opens it to
the first place behind it where the directive that closes it is spelled and does not run
on.  A name runs on over the characters of names, and here over four more as well, which
are other cases of their letters: before one of those a header is not closed.
-/

namespace MapScript

open Lexer (headerStart headerEnd)

namespace Lexer

open Text (spanAhead)

/-! ### Where prose ends -/

/-- The directive that closes a header stands first, in any case, and no character of names
follows it. -/
def ClosesProse (t : Text) : Prop :=
  Text.upper (t.take (headerEnd.length + 1)) = '#' :: headerEnd ∧
    (t.drop (headerEnd.length + 1)).head?.any isNameChar = false

/-- The characters beyond ASCII that are another case of a letter of names. -/
def letterCases : Text := ['\u0130', '\u0131', '\u017f', '\u212a']

/-- One of those follows the directive that closes a header. -/
def MeetsLetterCase (t : Text) : Prop :=
  (t.drop (headerEnd.length + 1)).head?.any (letterCases.contains ·) = true

instance (t : Text) : Decidable (ClosesProse t) := inferInstanceAs (Decidable (_ ∧ _))

instance (t : Text) : Decidable (MeetsLetterCase t) := inferInstanceAs (Decidable (_ = true))

theorem toUpper_eq_hash {c : Char} : c.toUpper = '#' ↔ c = '#' := by
  constructor
  · intro h
    have halpha : c.isAlpha = false := by
      rw [← Char.isAlpha_toUpper_eq_isAlpha, h]
      rfl
    have hlower : ¬ c.isLower = true := fun hlower => by simp [Char.isAlpha, hlower] at halpha
    rwa [Char.toUpper_eq_of_not_isLower hlower] at h
  · rintro rfl
    rfl

theorem runsOn_eq (c : Char) : runsOn c = (isNameChar c || letterCases.contains c) := by
  rw [runsOn, letterCases, Bool.or_assoc, Bool.or_assoc, Bool.or_assoc, List.contains_cons,
    List.contains_cons, List.contains_cons, List.contains_cons, List.contains_nil, Bool.or_false]

/-- Prose ends where the directive is spelled that closes it, but for the characters beyond
ASCII. -/
theorem startsHeaderEnd_iff {t : Text} :
    startsHeaderEnd t = true ↔ ClosesProse t ∧ ¬ MeetsLetterCase t := by
  have hruns (next : Option Char) : next.any runsOn = false ↔
      next.any isNameChar = false ∧ ¬ next.any (letterCases.contains ·) = true := by
    cases next <;> simp [runsOn_eq]
  cases t with
  | nil => simp [startsHeaderEnd, ClosesProse, Text.upper]
  | cons c cs =>
      have hspelled : Text.upper ((c :: cs).take (headerEnd.length + 1)) = '#' :: headerEnd ↔
          c = '#' ∧ Text.upper (cs.take headerEnd.length) = headerEnd := by
        rw [List.take_succ_cons, Text.upper, List.map_cons, List.cons.injEq, toUpper_eq_hash]
        rfl
      rw [ClosesProse, MeetsLetterCase, hspelled, List.drop_succ_cons, and_assoc, ← hruns]
      by_cases hc : c = '#'
      · subst hc
        simp [startsHeaderEnd]
      · simp [startsHeaderEnd, hc]

/-- Within a lexeme of prose no prose ends. -/
theorem startsHeaderEnd_within {c : Char} {tail rest x y : Text} {kind : TokenKind}
    (hends : startsHeaderEnd (c :: (tail ++ rest)) = false)
    (hscan : scanProse c (tail ++ rest) = .ok ⟨kind, tail, rest⟩) (hcut : c :: tail = x ++ y)
    (hy : y ≠ []) : startsHeaderEnd (y ++ rest) = false := by
  cases x with
  | nil =>
      rw [List.nil_append] at hcut
      rw [← hcut]
      exact hends
  | cons d x =>
      rw [List.cons_append] at hcut
      obtain ⟨rfl, rfl⟩ := List.cons.inj hcut
      obtain ⟨d, ds, rfl⟩ := List.exists_cons_of_ne_nil hy
      unfold scanProse at hscan
      split_ifs at hscan with hnul hfeed hline
      · simp at hscan
      · -- a line ends in two characters, and no directive begins with the second
        simp only [Except.ok.injEq, Scan.mk.injEq] at hscan
        obtain ⟨-, htail, -⟩ := hscan
        have hnext : (x ++ d :: ds ++ rest).head? = some '\n' := by
          have hboth : c = '\r' ∧ (x ++ d :: ds ++ rest).head? = some '\n' := by
            simpa [endsLine, hfeed] using hline
          exact hboth.2
        obtain ⟨after, hafter⟩ := List.head?_eq_some_iff.1 hnext
        rw [hafter, List.take_succ_cons, List.take_zero] at htail
        obtain ⟨-, hd⟩ | ⟨-, hd⟩ := List.singleton_eq_append_iff.1 htail
        · obtain ⟨rfl, rfl⟩ := List.cons.inj hd
          rfl
        · cases hd
      · obtain ⟨-, htaken⟩ := Scan.of_eq_iff.1 (Except.ok.inj hscan)
        have hstays : staysProse d (ds ++ rest) = true := (spanAhead_iff.1 htaken).1 x d ds rfl
        simp only [staysProse, Bool.not_eq_true', Bool.or_eq_false_iff] at hstays
        exact hstays.2

/-- Behind any lexemes the others are read in some mode. -/
theorem exists_mode {mode : Mode} {front ls : List Lexeme}
    (h : lexemes mode (Lexeme.rawText (front ++ ls)) = .ok (front ++ ls)) :
    ∃ mode', lexemes mode' (Lexeme.rawText ls) = .ok ls := by
  induction front generalizing mode with
  | nil => exact ⟨mode, h⟩
  | cons l front ih =>
      obtain ⟨-, -, -, -, hrest⟩ := lexemes_cons h
      exact ih hrest

/-- Prose stands behind the directive that opens a header. -/
theorem lexemes_behind_opener {mode : Mode} {front ls : List Lexeme} {l : Lexeme}
    (h : lexemes mode (Lexeme.rawText (front ++ l :: ls)) = .ok (front ++ l :: ls))
    (hopens : opensHeader l = true) : lexemes .prose (Lexeme.rawText ls) = .ok ls := by
  obtain ⟨mode', hmode⟩ := exists_mode h
  obtain ⟨-, -, -, -, hrest⟩ := lexemes_cons hmode
  have hprose (mode : Mode) : mode.leave l = .prose := by
    simp only [opensHeader, Bool.and_eq_true, beq_iff_eq] at hopens
    simp [Mode.leave, hopens]
  rwa [hprose] at hrest

/-- Prose ends with the first directive behind it and not before. -/
theorem startsHeaderEnd_behind {ls ms : List Lexeme} {e : Lexeme}
    (h : lexemes .prose (Lexeme.rawText (ls ++ e :: ms)) = .ok (ls ++ e :: ms))
    (hls : ∀ l ∈ ls, closesHeader l = false) (he : closesHeader e = true) :
    startsHeaderEnd (Lexeme.rawText (e :: ms)) = true ∧
      ∀ x y, Lexeme.rawText ls = x ++ y → y ≠ [] →
        startsHeaderEnd (y ++ Lexeme.rawText (e :: ms)) = false := by
  induction ls with
  | nil =>
      refine ⟨?_, fun x y hcut hy => ?_⟩
      · rcases lexemes_prose h with ⟨hends, -⟩ | ⟨-, hkind, -⟩
        · exact hends
        · simp only [closesHeader, Bool.and_eq_true, beq_iff_eq] at he
          rw [he.1] at hkind
          simp at hkind
      · exact absurd (List.append_eq_nil_iff.1 hcut.symm).2 hy
  | cons l ls ih =>
      obtain ⟨hl, hls⟩ := List.forall_mem_cons.1 hls
      rcases lexemes_prose h with ⟨-, hcloses, -⟩ | ⟨hends, -, ⟨c, tail, hraw, hscan⟩, hrest⟩
      · rw [hl] at hcloses
        cases hcloses
      obtain ⟨hcloses, hfirst⟩ := ih hrest hls
      refine ⟨hcloses, fun x y hcut hy => ?_⟩
      have hwhole : l.raw ++ Lexeme.rawText ls = x ++ y := hcut
      have hrow : Lexeme.rawText (ls.append (e :: ms)) =
          Lexeme.rawText ls ++ Lexeme.rawText (e :: ms) := List.flatMap_append
      rcases List.append_eq_append_iff.1 hwhole with ⟨x', -, hlater⟩ | ⟨y', hlexeme, rfl⟩
      · exact hfirst x' y hlater hy
      · cases y' with
        | nil => exact hfirst [] _ rfl hy
        | cons d ds =>
            rw [hrow] at hends hscan
            rw [hraw] at hends hlexeme
            rw [List.append_assoc]
            exact startsHeaderEnd_within hends hscan hlexeme (List.cons_ne_nil d ds)

end Lexer

open Lexer (ClosesProse MeetsLetterCase startsHeaderEnd)

/-! ### Headers among the tokens -/

/-- The header is in the tree of a block. -/
inductive Node.Holds (h : Header) : Node → Prop
  | here : Holds h (.header h)
  | within {args : List (List Token)} {children : List Node} {openSpan span : Span} {n : Node}
      (mem : n ∈ children) (held : Holds h n) : Holds h (.repeated args children openSpan span)

/-- The header stands in a row of tokens behind some and before others: its prose between the
directive that opens it and the first that closes it. -/
structure Header.Enclosed (h : Header) (tokens front back : List Token) (opener closer : Token) :
    Prop where
  split : tokens = front ++ opener :: (h.tokens ++ closer :: back)
  starts : opener.isDirective headerStart = true
  within : ∀ t ∈ h.tokens, t.isDirective headerEnd = false
  finishes : closer.isDirective headerEnd = true
  span : h.span = ⟨opener.span.start, closer.span.stop⟩

/-- A header that stands at the end of a row stands in the row. -/
theorem Header.exists_enclosed_of_isSuffix {h : Header} {us ts : List Token} (hsuffix : us <:+ ts)
    (hh : ∃ front back opener closer, h.Enclosed us front back opener closer) :
    ∃ front back opener closer, h.Enclosed ts front back opener closer := by
  obtain ⟨before, rfl⟩ := hsuffix
  obtain ⟨front, back, opener, closer, hh⟩ := hh
  refine ⟨before ++ front, back, opener, closer, ?_, hh.starts, hh.within, hh.finishes, hh.span⟩
  rw [hh.split, List.append_assoc]

namespace Grammar

theorem CallTakes.isSuffix {c : Call} {ts rest : List Token} (h : CallTakes c ts rest) :
    rest <:+ ts := by
  obtain ⟨-, -, -, -, -, hts, -⟩ := h
  next t ts taken _ _ => exact ⟨t :: taken, by rw [hts, List.cons_append]⟩

/-- What is left behind some blocks is the end of the row. -/
theorem Spells.isSuffix {ns : List Node} {ts rest : List Token} (h : Spells ns ts rest) :
    rest <:+ ts := by
  induction h with
  | nil => exact List.suffix_rfl
  | run _ _ ih => exact (ih.trans (List.suffix_append _ _)).trans (List.suffix_cons _ _)
  | marker _ _ ih => exact ih.trans (List.suffix_cons _ _)
  | @header t e prose us rest ns _ _ _ _ ih =>
      exact ih.trans ⟨t :: (prose ++ [e]), by simp⟩
  | call htaken _ ih => exact ih.trans htaken.isSuffix
  | @repeated t e args taken inner mid us rest children ns _ _ _ _ _ _ ihw ihr =>
      have hbody : us <:+ mid := (List.suffix_cons e us).trans ihw
      exact (ihr.trans hbody).trans ⟨t :: taken, rfl⟩

/-- A header in the tree of some blocks stands among the tokens they take up. -/
theorem Spells.exists_enclosed {h : Header} {ns : List Node} {ts rest : List Token}
    (hspells : Spells ns ts rest) {n : Node} (hn : n ∈ ns) (hh : n.Holds h) :
    ∃ front back opener closer, h.Enclosed ts front back opener closer := by
  induction hspells generalizing n with
  | nil => simp at hn
  | @run t ts us rest ns _ _ ih =>
      obtain rfl | hn := List.mem_cons.1 hn
      · cases hh
      · exact h.exists_enclosed_of_isSuffix ⟨t :: ts, rfl⟩ (ih hn hh)
  | @marker t us rest ns m _ _ ih =>
      obtain rfl | hn := List.mem_cons.1 hn
      · cases hh
      · exact h.exists_enclosed_of_isSuffix (List.suffix_cons t us) (ih hn hh)
  | @header t e prose us rest ns hstart hwithin hfinish _ ih =>
      obtain rfl | hn := List.mem_cons.1 hn
      · cases hh
        exact ⟨[], us, t, e, rfl, hstart, hwithin, hfinish, rfl⟩
      · exact h.exists_enclosed_of_isSuffix ⟨t :: (prose ++ [e]), by simp⟩ (ih hn hh)
  | @call c ts us rest ns htaken _ ih =>
      obtain rfl | hn := List.mem_cons.1 hn
      · cases hh
      · exact h.exists_enclosed_of_isSuffix htaken.isSuffix (ih hn hh)
  | @repeated t e args taken inner mid us rest children ns _ _ _ hwithin _ _ ihw ihr =>
      have hmid : mid <:+ t :: (taken ++ mid) := ⟨t :: taken, rfl⟩
      obtain rfl | hn := List.mem_cons.1 hn
      · obtain _ | ⟨hn, hh⟩ := hh
        exact h.exists_enclosed_of_isSuffix hmid (ihw hn hh)
      · have hlater : us <:+ mid := (List.suffix_cons e us).trans hwithin.isSuffix
        exact h.exists_enclosed_of_isSuffix (hlater.trans hmid) (ihr hn hh)

end Grammar

/-! ### Headers in the source -/

namespace Token

theorem rawText_append_cons (front : List Token) (t : Token) (ts : List Token) :
    rawText (front ++ t :: ts) = rawText (front ++ [t]) ++ rawText ts := by
  rw [List.append_cons, rawText_append]

/-- A token at its place reaches from the end of those before it to its own. -/
theorem Placed.span_eq {front rest : List Token} {t : Token} (h : Placed (front ++ t :: rest)) :
    t.span = ⟨.after (rawText front), .after (rawText (front ++ [t]))⟩ := by
  have hplaced : Placed (front ++ [t] ++ rest) := by rwa [← List.append_cons]
  exact hplaced.spanOf_eq

end Token

namespace Header

/-- A part of the source from where a header is opened to the first place where it is
closed. -/
structure Prose (source : Text) (start stop : Nat) : Prop where
  le : start ≤ stop
  closes : ClosesProse (source.drop stop)
  apart : ¬ MeetsLetterCase (source.drop stop)
  /-- Earlier it is closed nowhere but before another case of a letter of names. -/
  first : ∀ k, start ≤ k → k < stop → ClosesProse (source.drop k) →
    MeetsLetterCase (source.drop k)

/-- The prose of a header is written at its place: it is what stands between the directives
that open and close the header, and the latter stands where prose first ends. -/
structure Written (source : Text) (h : Header) (opener closer : Token) : Prop where
  text : h.text = Span.slice source ⟨opener.span.stop, closer.span.start⟩
  prose : Prose source opener.span.stop.offset closer.span.start.offset

/-- Where prose ends behind a text and not within it, the text is all of the prose. -/
theorem Prose.of_append {before text after : Text} (hends : startsHeaderEnd after = true)
    (hwithin : ∀ x y, text = x ++ y → y ≠ [] → startsHeaderEnd (y ++ after) = false) :
    Prose (before ++ text ++ after) before.length (before ++ text).length := by
  have hstop : (before ++ text ++ after).drop (before ++ text).length = after := List.drop_left
  obtain ⟨hcloses, hapart⟩ := Lexer.startsHeaderEnd_iff.1 hends
  refine ⟨by simp, hstop.symm ▸ hcloses, hstop.symm ▸ hapart, fun k hstart hlt hcloses => ?_⟩
  obtain ⟨j, rfl⟩ := Nat.exists_eq_add_of_le hstart
  have hj : j < text.length := by simpa using hlt
  have hdrop : (before ++ text ++ after).drop (before.length + j) = text.drop j ++ after := by
    rw [List.append_assoc, ← List.drop_drop, List.drop_left, List.drop_append_of_le_length hj.le]
  rw [hdrop] at hcloses ⊢
  by_contra hmeets
  have hnone := hwithin (text.take j) (text.drop j) (List.take_append_drop j text).symm
    (by simpa using hj)
  rw [Lexer.startsHeaderEnd_iff.2 ⟨hcloses, hmeets⟩] at hnone
  cases hnone

section
variable {source : Text} {stream : TokenStream} {h : Header} {front back : List Token}
variable {opener closer : Token}

/-- Prose ends with the token that closes a header and not within the text of the header. -/
theorem Enclosed.ends (hsource : TokenStream.ofSource source = .ok stream)
    (hh : h.Enclosed stream.tokens front back opener closer) :
    startsHeaderEnd (Token.rawText (closer :: back)) = true ∧
      ∀ x y, h.text = x ++ y → y ≠ [] →
        startsHeaderEnd (y ++ Token.rawText (closer :: back)) = false := by
  obtain ⟨ls, hlex, hls⟩ := TokenStream.lexScript_of_ofSource hsource
  obtain ⟨htext, -⟩ := TokenStream.adjoin_of_ofSource hsource
  rw [← htext, ← Token.rawText_map, ← hls, hh.split, List.map_append, List.map_cons,
    List.map_append, List.map_cons] at hlex
  have hends := Lexer.startsHeaderEnd_behind (Lexer.lexemes_behind_opener hlex hh.starts)
    (List.forall_mem_map.2 hh.within) hh.finishes
  rw [← List.map_cons, Token.rawText_map, Token.rawText_map] at hends
  exact hends

theorem Enclosed.written (hsource : TokenStream.ofSource source = .ok stream)
    (hh : h.Enclosed stream.tokens front back opener closer) :
    Written source h opener closer := by
  obtain ⟨htext, hadjoin, -, htokens⟩ := TokenStream.adjoin_of_ofSource hsource
  have hplaced : Token.Placed stream.tokens := ⟨hadjoin, fun t ht => (htokens t ht).2⟩
  rw [hh.split] at hplaced htext
  -- the source up to the prose, the prose and the rest
  have hcut : source =
      Token.rawText (front ++ [opener]) ++ h.text ++ Token.rawText (closer :: back) := by
    rw [← htext, Token.rawText_append_cons, Token.rawText_append h.tokens, ← List.append_assoc]
    rfl
  have hopener : opener.span.stop = .after (Token.rawText (front ++ [opener])) := by
    rw [hplaced.span_eq]
  have hcloser : closer.span.start =
      .after (Token.rawText (front ++ [opener]) ++ h.text) := by
    have hsplit : front ++ opener :: (h.tokens ++ closer :: back) =
        (front ++ opener :: h.tokens) ++ closer :: back := by simp
    rw [hsplit] at hplaced
    rw [hplaced.span_eq, Token.rawText_append_cons]
    rfl
  obtain ⟨hends, hwithin⟩ := hh.ends hsource
  constructor
  · rw [hopener, hcloser, hcut, Span.slice_after]
  · rw [hopener, hcloser, Position.offset_after, Position.offset_after, hcut]
    exact Prose.of_append hends hwithin

end

/-- Every header of a source that is read holds its prose as it is written, up to the first
place where the directive that closes it is spelled and does not run on; and the token that
closes it stands there. -/
theorem written_of_ofSource {source : Text} {script : Script Node} {n : Node} {h : Header}
    (hscript : Script.ofSource source = .ok script) (hn : n ∈ script.parts) (hh : n.Holds h) :
    ∃ stream front back opener closer, TokenStream.ofSource source = .ok stream ∧
      h.Enclosed stream.tokens front back opener closer ∧ Written source h opener closer := by
  unfold Script.ofSource at hscript
  split at hscript
  · cases hscript
  next stream hstream =>
    obtain ⟨hspells, -⟩ := Script.spells_of_ofStream hscript
    obtain ⟨front, back, opener, closer, henclosed⟩ := hspells.exists_enclosed hn hh
    exact ⟨stream, front, back, opener, closer, hstream, henclosed, henclosed.written hstream⟩

/-- A source is read and has a header for which a test succeeds. -/
theorem exists_mem_of_any {source : Text} {test : Header → Bool}
    (h : (Script.ofSource source).toOption.any (fun script => script.parts.any fun
      | .header header => test header
      | _ => false) = true) :
    ∃ script header, Script.ofSource source = .ok script ∧ Node.header header ∈ script.parts ∧
      test header = true := by
  obtain ⟨script, hscript, hany⟩ := toOption_any_iff.1 h
  obtain ⟨n, hn, htest⟩ := List.any_eq_true.1 hany
  split at htest
  · next header => exact ⟨script, header, hscript, hn, htest⟩
  · cases htest

/-- A header with the openers of a comment and a string in it, a directive, and another whose
name begins as that of the directive that closes it. -/
def motto : Text := "#HEADER_START /* \" #REPEAT #HEADER_ENDS #Header_End x".toList

theorem written_motto :
    ∃ script header, Script.ofSource motto = .ok script ∧ Node.header header ∈ script.parts ∧
      header.text = " /* \" #REPEAT #HEADER_ENDS ".toList ∧
      ∃ stream front back opener closer, TokenStream.ofSource motto = .ok stream ∧
        header.Enclosed stream.tokens front back opener closer ∧
        Written motto header opener closer := by
  obtain ⟨script, header, hscript, hmem, htext⟩ := @exists_mem_of_any motto
    (fun header => decide (header.text = " /* \" #REPEAT #HEADER_ENDS ".toList)) (by decide +kernel)
  exact ⟨script, header, hscript, hmem, of_decide_eq_true htext,
    written_of_ofSource hscript hmem .here⟩

/-- A header that is closed before a letter beyond ASCII, and again in a comment behind it. -/
def dotless : Text := "#HEADER_START x #HEADER_END\u0131 /* #HEADER_END */".toList

/-- No character of names follows the first directive that closes the header, and yet the
header goes on to the second. -/
theorem text_dotless :
    (∀ k < 16, 13 ≤ k → ¬ ClosesProse (dotless.drop k)) ∧
      ClosesProse (dotless.drop 16) ∧
      ∃ script header, Script.ofSource dotless = .ok script ∧ Node.header header ∈ script.parts ∧
        header.text = (dotless.take 32).drop 13 ∧ header.text ≠ (dotless.take 16).drop 13 := by
  obtain ⟨script, header, hscript, hmem, htext⟩ := @exists_mem_of_any dotless
    (fun header => decide (header.text = (dotless.take 32).drop 13)) (by decide +kernel)
  replace htext := of_decide_eq_true htext
  refine ⟨by decide, by decide, script, header, hscript, hmem, htext, ?_⟩
  rw [htext]
  decide

end Header

end MapScript
