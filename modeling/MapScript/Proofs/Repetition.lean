import MapScript.Proofs.Copies
import MapScript.Proofs.Grammar.RepeatedBlock
import MapScript.Proofs.Symbol.Framing
import MapScript.Proofs.Written

/-!
# Repeated text

A text that is repeated as a block is written so often, each time on a line of its
own.  Between the directives the text is read as it is alone, but for what separates
at its end; its names are resolved once, before it is copied; and each copy begins
with the line break after the opening directive, which sets it apart.  Only the count
can fail: one with too many digits is not read.
-/

namespace MapScript

open Preprocess (runPass resolved expanded hoisted)

/-! ### Copies of a block -/

theorem ofDigits_ofNat (n : Nat) : ofDigits (Text.ofNat n) = n := by
  calc ofDigits (Text.ofNat n) = Nat.ofDigitChars 10 (Nat.toDigits 10 n) 0 := by
        simp only [ofDigits, Text.ofNat, Nat.ofDigitChars, digitValue, Nat.mul_comm]
    _ = n := Nat.ofDigitChars_ten_toDigits

theorem length_ofNat_le_iff (n : Nat) :
    (Text.ofNat n).length ≤ Number.maxDigits ↔ n < 10 ^ Number.maxDigits := by
  exact Nat.length_toDigits_le_iff (by decide) (by decide)

/-- A numeral is read unless it has too many digits. -/
theorem Number.parse_ofNat (n : Nat) :
    parse (Text.ofNat n) = if n < 10 ^ maxDigits then .ok (int n) else .error .tooLong := by
  have hdigits : ∀ c ∈ Text.ofNat n, (c != '.') = true := by
    intro c hc
    rw [bne_iff_ne]
    rintro rfl
    exact absurd (isDigit_of_mem_ofNat hc) (by decide)
  have hspan : (Text.ofNat n).span (· != '.') = (Text.ofNat n, []) := by
    rw [List.span_eq_takeWhile_dropWhile, List.takeWhile_eq_self_iff.2 hdigits,
      List.dropWhile_eq_nil_iff.2 hdigits]
  have hread : readNat (Text.ofNat n) =
      if n < 10 ^ maxDigits then .ok n else .error .tooLong := by
    rw [readNat, ofDigits_ofNat]
    by_cases hshort : n < 10 ^ maxDigits
    · rw [if_pos hshort, if_neg (Nat.not_lt.2 ((length_ofNat_le_iff n).2 hshort))]
    · rw [if_neg hshort, if_pos (Nat.lt_of_not_le fun h => hshort ((length_ofNat_le_iff n).1 h))]
  rw [parse, hspan]
  dsimp only
  rw [hread]
  split <;> rfl

theorem Pass.run_fold_number {count : Token} (hcount : count.kind = .number) (s : Session) :
    (Pass.fold [count]).run.run s =
      (((Number.parse count.raw).map some).mapError .fault, s) := by
  have hreferences : Operand.references [count] = [] := by
    simp [Operand.references, hcount]
  have hsignificant : Token.significant [count] = [count] := by
    simp [Token.significant, Token.isTrivia, TokenKind.isTrivia, hcount]
  have hfold (table : SymbolTable) : Evaluation.fold table [] [count] =
      Evaluation.foldExpression [] [count] := by
    rw [Evaluation.fold, hreferences, Evaluation.valuesOf, pure_bind]
  unfold Pass.fold Resolving.evaluate
  simp only [hfold, Evaluation.foldExpression, hsignificant, Operand.fold_number _ hcount]
  cases Number.parse count.raw with
  | ok v => rfl
  | error f => rfl

namespace Expansion

theorem run_repeatCount {count : Token} {n : Nat}
    (hcount : count.toLexeme = ⟨.number, Text.ofNat n⟩) (openSpan : Span) (s : Session) :
    (repeatCount [[count]] openSpan).run.run s =
      if n < 10 ^ Number.maxDigits then (.ok n, s) else (.error (.fault .tooLong), s) := by
  have hkind : count.kind = .number := congrArg Lexeme.kind hcount
  have hraw : count.raw = Text.ofNat n := congrArg Lexeme.raw hcount
  have hfold := Pass.run_fold_number hkind s
  rw [hraw, Number.parse_ofNat] at hfold
  by_cases hshort : n < 10 ^ Number.maxDigits
  · rw [if_pos hshort] at hfold ⊢
    rw [repeatCount, Ends.run_bind, hfold]
    rfl
  · rw [if_neg hshort] at hfold ⊢
    rw [repeatCount, Ends.run_bind, hfold]
    rfl

/-- A run in a repeated block becomes so many. -/
theorem expandNodes_repeat (args : List (List Token)) (r : Run) (openSpan whole : Span) :
    expandNodes [.repeated args [.run r] openSpan whole] = do
      let n ← repeatCount args openSpan
      return (List.replicate n r).map Leaf.run := by
  have hcopies (n : Nat) : copies n [.run r] = (List.replicate n r).map Leaf.run := by
    rw [copies_eq, List.flatten_replicate_singleton, List.map_replicate]
  simp only [expandNodes, expandNode, pure_bind, bind_assoc, List.append_nil, hcopies]

end Expansion

/-- A run that is repeated becomes so many runs, unless the count is not read. -/
theorem Script.run_expand_repeat {count : Token} {n : Nat}
    (hcount : count.toLexeme = ⟨.number, Text.ofNat n⟩) (r : Run) (openSpan whole span : Span)
    (s : Session) :
    (Script.expand ⟨[.repeated [[count]] [.run r] openSpan whole], span⟩).run.run s =
      if n < 10 ^ Number.maxDigits then (.ok ⟨(List.replicate n r).map Piece.run, span⟩, s)
      else (.error (.fault .tooLong), s) := by
  have hcopies := Expansion.run_repeatCount hcount openSpan s
  by_cases hshort : n < 10 ^ Number.maxDigits
  · rw [if_pos hshort] at hcopies ⊢
    rw [Script.expand, Expansion.expandNodes_repeat, bind_assoc, Ends.run_bind, hcopies]
    dsimp only
    rw [pure_bind, Placement.placeAll_runs]
    rfl
  · rw [if_neg hshort] at hcopies ⊢
    rw [Script.expand, Expansion.expandNodes_repeat, bind_assoc, Ends.run_bind, hcopies]

/-! ### Rows behind a line break -/

/-- The second row is the first behind a line break, but for what separates at their ends. -/
structure Behind (row row' : List Token) : Prop where
  lexemes : ∃ feed mid mid' tail tail', row = mid ++ tail ∧ row' = feed :: (mid' ++ tail') ∧
    feed.kind = .newline ∧ mid.map Token.toLexeme = mid'.map Token.toLexeme ∧
    (∀ t ∈ tail, t.isTrivia = true) ∧ ∀ t ∈ tail', t.isTrivia = true

namespace Behind

variable {row row' : List Token}

/-- The row behind the line break has no random call that the row has not. -/
theorem uncalled (h : Behind row row') (hrow : RandomCall.Uncalled row) :
    RandomCall.Uncalled row' := by
  obtain ⟨feed, mid, mid', tail, tail', rfl, rfl, hfeed, hmid, htail, htail'⟩ := h.lexemes
  have hword : ∀ t ∈ [feed], t.isWord "rnd".toList = false := by simp [Token.isWord, hfeed]
  have hlater : RandomCall.Uncalled (mid' ++ tail') := by
    rw [RandomCall.uncalled_append_trivia_iff htail] at hrow
    rw [RandomCall.uncalled_append_trivia_iff htail']
    exact hrow.congr hmid
  exact RandomCall.uncalled_append hword hlater

/-- Copies of the row behind the line break are written like the row, on lines of
their own. -/
theorem render_copies (h : Behind row row')
    (hrow : Compact.render true (row.map Token.toLexeme) ≠ []) (n : Nat) (place : Span) :
    Compact.render true (((List.replicate n (⟨row', place⟩ : Run)).flatMap Run.tokens).map
        Token.toLexeme) =
      Text.join ['\n'] (List.replicate n (Compact.render true (row.map Token.toLexeme))) := by
  obtain ⟨feed, mid, mid', tail, tail', rfl, rfl, hfeed, hmid, htail, htail'⟩ := h.lexemes
  have htrivia {ts : List Token} (h : ∀ t ∈ ts, t.isTrivia = true) :
      ∀ l ∈ ts.map Token.toLexeme, l.isTrivia = true := by
    intro l hl
    obtain ⟨t, ht, rfl⟩ := List.mem_map.1 hl
    exact h t ht
  have hsame : Compact.render true ((mid' ++ tail').map Token.toLexeme) =
      Compact.render true ((mid ++ tail).map Token.toLexeme) := by
    rw [List.map_append, List.map_append, ← hmid, Compact.render, Compact.render,
      Compact.renderFrom_append, Compact.renderFrom_append,
      Compact.renderFrom_trivia true _ (htrivia htail),
      Compact.renderFrom_trivia true _ (htrivia htail')]
  have hcopies : ((List.replicate n (⟨feed :: (mid' ++ tail'), place⟩ : Run)).flatMap
      Run.tokens).map Token.toLexeme =
        (List.replicate n (feed.toLexeme :: (mid' ++ tail').map Token.toLexeme)).flatten := by
    rw [List.flatMap_def, List.map_flatten, List.map_replicate, List.map_replicate]
    rfl
  rw [hcopies, Compact.render_copies hfeed (hsame ▸ hrow), hsame]

end Behind

/-! ### Texts -/

section
variable {options : Options} {source : Text}

theorem Preprocess.resolved_eq {script : Script Node} (h : Script.ofSource source = .ok script) :
    resolved source = Pass.onTable script.resolve := by
  unfold resolved blocks
  rw [h]
  rfl

/-- What goes along with a script that is resolved is resolved. -/
theorem Preprocess.resolved_of_parallel {source' : Text} {script script' : Script Node}
    (hsource : Script.ofSource source = .ok script)
    (hsource' : Script.ofSource source' = .ok script') {R : Script Node → Script Node → Prop}
    (hparallel : Resolving.Parallel .anywhere R script.resolve script'.resolve)
    {named : Script Node} {s : Session}
    (h : runPass options (resolved source) = (.ok named, s)) :
    ∃ named' s', runPass options (resolved source') = (.ok named', s') ∧ R named named' := by
  have hends : Ends (resolved source) (Session.start options)
      (fun out _ => Ends (resolved source') (Session.start options) (fun out' _ => R out out')
        fun _ _ => False) fun _ _ => True := by
    simp only [resolved_eq hsource, resolved_eq hsource', Pass.onTable_ends_iff]
    exact hparallel.ends (SymbolTable.Alike.refl_of_constants rfl)
  exact (hends.of_run_ok h).exists_run

theorem Preprocess.resolved_of_preprocess {text : Text} (h : preprocess options source = .ok text) :
    ∃ named s, runPass options (resolved source) = (.ok named, s) := by
  cases hresolved : runPass options (resolved source) with
  | mk outcome s =>
      cases outcome with
      | ok named => exact ⟨named, s, rfl⟩
      | error e =>
          rw [preprocess, Preprocess.run_text_of_error (Or.inl hresolved)] at h
          cases h

/-- The text of runs that no random call leaves. -/
theorem preprocess_runs {runs : List Run} {span : Span} {s : Session}
    (h : runPass options (expanded source) = (.ok ⟨runs.map Piece.run, span⟩, s))
    (hcalls : options.hoistRandom = false ∨ ∀ r ∈ runs, RandomCall.Uncalled r.tokens) :
    preprocess options source = .ok (Compact.render options.keepLines
      ((runs.flatMap Run.tokens).map Token.toLexeme)) := by
  have hhoisted : runPass options (hoisted options source) =
      (.ok ⟨runs.map Piece.run, span⟩, s) := by
    rw [Preprocess.run_hoisted h]
    split
    · next hon =>
      rcases hcalls with hoff | huncalled
      · rw [hoff] at hon
        cases hon
      · exact Script.hoist_eq_pure span
          (fun r hr => Hoist.hoistTokens_uncalled options.stem (huncalled r hr) []) s
    · rfl
  rw [preprocess, Preprocess.run_text_of_hoisted hhoisted, truncate_runs, engineText_runs,
    lexemes_runs]

variable {stream : TokenStream} (hstream : TokenStream.ofSource source = .ok stream)
  (hnative : ∀ t ∈ stream.tokens, t.isOwnDirective = false)

include hstream hnative

theorem tokens_ne_nil_of_preprocess {text : Text} (h : preprocess options source = .ok text)
    (htext : text ≠ []) : stream.tokens ≠ [] := by
  intro hempty
  obtain ⟨named, s, hnamed⟩ := Preprocess.resolved_of_preprocess h
  obtain ⟨runs, span, edits, -, hexpanded, hedited⟩ := runs_of_resolved hstream hnative hnamed
  have htokens : runs.flatMap Run.tokens = [] := by
    rw [hedited.tokens, hempty]
    rfl
  have huncalled : ∀ r ∈ runs, RandomCall.Uncalled r.tokens := by
    intro r hr
    rw [List.flatMap_eq_nil_iff.1 htokens r hr]
    exact RandomCall.uncalled_nil
  rw [preprocess_runs hexpanded (Or.inr huncalled), htokens] at h
  cases h
  exact htext rfl

/-- A text that is resolved is expanded to a run, and repeated to copies of the run behind a
line break. -/
theorem expanded_repeatedText (hne : stream.tokens ≠ []) {named : Script Node} {s : Session}
    (h : runPass options (resolved source) = (.ok named, s)) (n : Nat) :
    ∃ row row' place place' span span' s', Contracts stream.tokens row ∧ Behind row row' ∧
      runPass options (expanded source) = (.ok ⟨[⟨row, place⟩].map Piece.run, span⟩, s) ∧
      runPass options (expanded (repeatedText n source)) =
        if n < 10 ^ Number.maxDigits then
          (.ok ⟨(List.replicate n ⟨row', place'⟩).map Piece.run, span'⟩, s')
        else (.error (.fault .tooLong), s') := by
  obtain ⟨f, core, core', tail, tail', span', htokens, hcore, htail, htail', hrepeated⟩ :=
    Script.ofSource_repeatedText hstream hnative n
  have hsource : ∃ place span, Script.ofSource source =
      .ok ⟨[.run ⟨core ++ tail, place⟩], span⟩ := by
    obtain ⟨t, ts, hcons⟩ := List.exists_cons_of_ne_nil hne
    rw [Script.ofSource_native hstream hnative, ← htokens, hcons]
    exact ⟨_, _, rfl⟩
  obtain ⟨place, span, hsource⟩ := hsource
  have hfront : ∀ t ∈ [f.lineFeed], t.isTrivia = true := by
    simp [Token.isTrivia, TokenKind.isTrivia, f.lineFeed_eq]
  have hargs : ∀ arg ∈ [[f.count]], Operand.references arg = [] := by
    simp [Operand.references, f.count_kind]
  have hparallel := Resolve.resolve_framed hcore hfront htail htail' hargs span span' place
    (f.run (core' ++ tail')).span f.openSpan ⟨f.openSpan.start, f.ending.span.stop⟩
  obtain ⟨_, s', hnamed, row, row', rfl, rfl, hframed⟩ :=
    Preprocess.resolved_of_parallel hsource hrepeated hparallel h
  refine ⟨row, row', place, (f.run (core' ++ tail')).span, span, span', s', ?_, ?_, ?_, ?_⟩
  · rw [htokens]
    exact hframed.contracts
  · obtain ⟨mid, mid', rfl, rfl, hmid⟩ := hframed.lexemes
    exact ⟨f.lineFeed, mid, mid', tail, tail', rfl, rfl, by rw [f.lineFeed_eq], hmid, htail, htail'⟩
  · rw [Preprocess.run_expanded h]
    exact congrArg (fun pass => pass.run.run s) (Script.expand_runs [⟨row, place⟩] span)
  · rw [Preprocess.run_expanded hnamed]
    exact Script.run_expand_repeat f.count_eq _ _ _ span' s'

end

/-- A text without directives of ours that is repeated is written so often, each time on a
line of its own; only a count of too many digits is not read. -/
theorem preprocess_repeat {options : Options} {source text : Text} {stream : TokenStream}
    (hlines : options.keepLines = true) (h : preprocess options source = .ok text)
    (htext : text ≠ []) (hstream : TokenStream.ofSource source = .ok stream)
    (hnative : ∀ t ∈ stream.tokens, t.isOwnDirective = false)
    (hcalls : options.hoistRandom = false ∨ RandomCall.Uncalled stream.tokens) (n : Nat) :
    preprocess options (repeatedText n source) =
      if n < 10 ^ Number.maxDigits then .ok (Text.join ['\n'] (List.replicate n text))
      else .error (.fault .tooLong) := by
  have hne := tokens_ne_nil_of_preprocess hstream hnative h htext
  obtain ⟨named, s, hnamed⟩ := Preprocess.resolved_of_preprocess h
  obtain ⟨row, row', place, place', span, span', s', hcontracts, hbehind, hsource, hrepeated⟩ :=
    expanded_repeatedText hstream hnative hne hnamed n
  have hrow : options.hoistRandom = false ∨ RandomCall.Uncalled row :=
    hcalls.imp_right hcontracts.uncalled
  have hrender : text = Compact.render true (row.map Token.toLexeme) := by
    rw [preprocess_runs hsource (hrow.imp_right fun hr => by simpa using hr), hlines] at h
    simpa using (Except.ok.inj h).symm
  by_cases hshort : n < 10 ^ Number.maxDigits
  · rw [if_pos hshort] at hrepeated ⊢
    have hcopies : options.hoistRandom = false ∨
        ∀ r ∈ List.replicate n (⟨row', place'⟩ : Run), RandomCall.Uncalled r.tokens := by
      apply hrow.imp_right
      intro huncalled r hr
      rw [List.eq_of_mem_replicate hr]
      exact hbehind.uncalled huncalled
    rw [preprocess_runs hrepeated hcopies, hlines, hbehind.render_copies (hrender ▸ htext),
      ← hrender]
  · rw [if_neg hshort] at hrepeated ⊢
    rw [preprocess, Preprocess.run_text_of_error (Or.inr (Or.inl hrepeated))]

/-- Where no directive is ours and no word names a random call, there is none of either. -/
theorem exists_uncalled_stream {source : Text}
    (h : (TokenStream.ofSource source).toOption.any (fun stream =>
      stream.tokens.all fun t => !t.isOwnDirective && !t.isWord "rnd".toList) = true) :
    ∃ stream, TokenStream.ofSource source = .ok stream ∧
      (∀ t ∈ stream.tokens, t.isOwnDirective = false) ∧ RandomCall.Uncalled stream.tokens := by
  obtain ⟨stream, hsource, htokens⟩ := toOption_any_iff.1 h
  simp only [List.all_eq_true, Bool.and_eq_true, Bool.not_eq_true'] at htokens
  refine ⟨stream, hsource, fun t ht => (htokens t ht).1, ?_⟩
  exact RandomCall.uncalled_of_isWord fun t ht => (htokens t ht).2

/-- A text with a constant and an area, the last line of which ends in a carriage return. -/
def refrain : Text := "#const A (2 * 3)\nactor_area Q // A\navoid_actor_area Q A\r".toList

/-- It is written twice, the last line break of it being that of the closing directive. -/
theorem preprocess_repeat_twice :
    ∃ text stream, preprocess {} refrain = .ok text ∧ text ≠ [] ∧
      TokenStream.ofSource refrain = .ok stream ∧
      (∀ t ∈ stream.tokens, t.isOwnDirective = false) ∧ RandomCall.Uncalled stream.tokens ∧
      preprocess {} (repeatedText 2 refrain) =
        if 2 < 10 ^ Number.maxDigits then .ok (Text.join ['\n'] (List.replicate 2 text))
        else .error (.fault .tooLong) := by
  have htext : (preprocess {} refrain).toOption.any (fun t => !t.isEmpty) = true := by
    decide +kernel
  obtain ⟨text, hpreprocess, hne⟩ := toOption_any_iff.1 htext
  obtain ⟨stream, hsource, hnative, huncalled⟩ :=
    @exists_uncalled_stream refrain (by decide +kernel)
  have hsome : text ≠ [] := by
    rintro rfl
    cases hne
  exact ⟨text, stream, hpreprocess, hsome, hsource, hnative, huncalled,
    preprocess_repeat rfl hpreprocess hsome hsource hnative (Or.inr huncalled) 2⟩

/-- A count of too many digits is not read, so a text that has copies has none repeated. -/
theorem preprocess_repeat_tooLong :
    (∃ stream, TokenStream.ofSource ['x'] = .ok stream ∧
      (∀ t ∈ stream.tokens, t.isOwnDirective = false) ∧ RandomCall.Uncalled stream.tokens) ∧
      preprocess {} ['x'] = .ok ['x'] ∧
      preprocess {} (repeatedText (10 ^ Number.maxDigits) ['x']) = .error (.fault .tooLong) := by
  have htext : (preprocess {} ['x']).toOption.any (fun t => t == ['x']) = true := by
    decide +kernel
  obtain ⟨text, hpreprocess, heq⟩ := toOption_any_iff.1 htext
  obtain rfl : text = ['x'] := by simpa using heq
  obtain ⟨stream, hsource, hnative, huncalled⟩ := @exists_uncalled_stream ['x'] (by decide +kernel)
  refine ⟨⟨stream, hsource, hnative, huncalled⟩, hpreprocess, ?_⟩
  have hne := tokens_ne_nil_of_preprocess hsource hnative hpreprocess (List.cons_ne_nil _ _)
  obtain ⟨named, s, hnamed⟩ := Preprocess.resolved_of_preprocess hpreprocess
  obtain ⟨_, _, _, _, _, _, s', _, _, _, hrepeated⟩ :=
    expanded_repeatedText hsource hnative hne hnamed (10 ^ Number.maxDigits)
  rw [if_neg (Nat.lt_irrefl _)] at hrepeated
  rw [preprocess, Preprocess.run_text_of_error (Or.inr (Or.inl hrepeated))]

end MapScript
