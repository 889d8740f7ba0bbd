import MapScript.Proofs.Lines
import MapScript.Proofs.Respacing.Reading
import MapScript.Proofs.Respacing.Text

/-!
# What snippets show

Every diagnostic of a run stands at a character of the source, at one that begins a
significant lexeme or that no lexeme can hold.  A run goes alongside itself, with places
that correspond if they are one and of this kind, so every refusal and every warning is at
such a place.  The snippet of it shows the line that the lexer means as far as the two rules
for lines agree.
-/

namespace MapScript

open Lexer

/-! ### Places of characters -/

/-- The place of a character of the source that is no space and ends no line. -/
def Position.InScript (source : Text) (p : Position) : Prop :=
  ∃ before c after, source = before ++ c :: after ∧ p = .after before ∧ c ∉ spaceChars

/-- One script alike to itself, in the places of its characters. -/
def Likeness.standing (source : Text) : Likeness where
  place p p' := p = p' ∧ p.InScript source
  quote := Eq
  quote_refl _ := rfl
  quote_append := by
    rintro _ _ _ _ rfl rfl
    rfl

/-- A significant lexeme of the source is alike to itself. -/
theorem Lexer.Stands.alike {l : Lexeme} {u : Text} (h : Stands l u) (hl : l.isTrivia = false)
    {source before rest : Text} (hsource : source = before ++ (l.raw ++ rest))
    (stop : Position) :
    Token.Alike (.standing source) ⟨l, ⟨.after before, stop⟩⟩ ⟨l, ⟨.after before, stop⟩⟩ := by
  obtain ⟨c, tail, hraw, hc⟩ := h.head_notMem hl
  exact ⟨rfl, rfl, before, c, tail ++ rest, by rw [hsource, hraw]; rfl, rfl, hc⟩

/-- The tokens of a source from some place on track themselves. -/
theorem tracks_standing {source : Text} (before : Text) (ls : List Lexeme)
    (hsource : source = before ++ Lexeme.rawText ls) :
    (lexemes .script (Lexeme.rawText ls) = .ok ls →
      Tracks (.standing source) (Token.place (.after before) ls)
        (Token.place (.after before) ls)) ∧
    (lexemes .prose (Lexeme.rawText ls) = .ok ls →
      InProse (.standing source) Eq (Token.place (.after before) ls)
        (Token.place (.after before) ls)) := by
  induction ls generalizing before with
  | nil =>
      have hnone : ∀ t ∈ Token.place (.after before) [], t.kind = .text ∨ t.kind = .newline := by
        simp [Token.place]
      exact ⟨fun _ => .nil, fun _ => .unclosed hnone hnone rfl rfl⟩
  | cons l ls ih =>
      have hlater : source = (before ++ l.raw) ++ Lexeme.rawText ls := by
        rw [hsource, List.append_assoc]
        rfl
      obtain ⟨hscript, hprose⟩ := ih (before ++ l.raw) hlater
      have hplace : Token.place (.after before) (l :: ls) =
          ⟨l, ⟨.after before, .after (before ++ l.raw)⟩⟩ ::
            Token.place (.after (before ++ l.raw)) ls := by
        rw [Token.place, Position.advance_after]
      rw [hplace]
      constructor
      · intro hlex
        obtain ⟨c, tail, hraw, hscan, hrest⟩ := lexemes_cons hlex
        rw [Mode.enter_script, Mode.leave_script] at hrest
        have hstands : Stands l (Lexeme.rawText ls) := ⟨c, tail, hraw, hscan⟩
        cases hl : l.isTrivia with
        | true =>
            have hgap (t : Token) (ht : t.toLexeme = l) : Gap [t] [t] :=
              .single rfl (by rwa [Token.isTrivia, ht])
            rw [opensHeader_of_isTrivia hl] at hrest
            exact .gap (hgap _ rfl) (hscript hrest)
        | false =>
            have halike := hstands.alike hl hsource (.after (before ++ l.raw))
            cases hopens : opensHeader l with
            | true =>
                rw [hopens] at hrest
                refine (hprose hrest).tracks halike hopens ?_
                intro p p' span span' heq
                rw [Header.lines, Header.lines, Header.text, Header.text, heq]
            | false =>
                rw [hopens] at hrest
                exact .token halike hl hopens (fun _ => rfl) (hscript hrest)
      · intro hlex
        rcases lexemes_prose hlex with ⟨-, hcloses, hstands, hrest⟩ | ⟨-, hkind, -, hrest⟩
        · exact .finish rfl (hstands.alike (isTrivia_of_closesHeader hcloses) hsource _) hcloses
            (hscript hrest)
        · have hone : ∀ t ∈ [(⟨l, ⟨.after before, .after (before ++ l.raw)⟩⟩ : Token)],
              t.kind = .text ∨ t.kind = .newline := by
            simpa using hkind
          refine (hprose hrest).append hone hone ?_ rfl
          rintro w _ rfl
          rfl

/-! ### Refusals by the lexer -/

namespace Lexer

/-- A character at which a lexeme cannot be read begins no space. -/
theorem notMem_of_scan_error {mode : Mode} {c : Char} {cs : Text} {cause : Cause}
    (h : mode.scan c cs = .error cause) : c ∉ spaceChars := by
  intro hc
  cases mode with
  | prose =>
      have hnul : c = '\x00' := by
        simp only [Mode.scan, scanProse] at h
        split_ifs at h with hnul
        exact beq_iff_eq.1 hnul
      rw [hnul] at hc
      exact absurd hc (by decide)
  | script =>
      replace h : (opening c cs).scan cs = .error cause := h
      have hopening := opening_spaceChars hc cs
      simp only [List.mem_cons, List.not_mem_nil, or_false] at hopening
      rcases hopening with ho | ho | ho <;> rw [ho] at h <;> cases h

/-- A text that has no lexemes is refused at a character of it. -/
theorem exists_of_lexemes_error {mode : Mode} {t : Text} {refusal : Refusal}
    (h : lexemes mode t = .error refusal) :
    ∃ before c after, t = before ++ c :: after ∧ before.length = refusal.offset ∧
      c ∉ spaceChars := by
  fun_induction lexemes mode t generalizing refusal with
  | case1 => cases h
  | case2 mode c cs here cause =>
      next hscan =>
      cases h
      exact ⟨[], c, cs, rfl, rfl, notMem_of_scan_error hscan⟩
  | case3 mode c cs here s hscan lexeme inner hrest =>
      next ih =>
      obtain ⟨before, d, after, hsplit, hlength, hd⟩ := ih hrest
      cases h
      refine ⟨lexeme.raw ++ before, d, after, ?_, ?_, hd⟩
      · rw [← Mode.scan_append hscan, hsplit, List.append_assoc]
        rfl
      · rw [List.length_append, hlength, Nat.add_comm]
  | case4 => cases h

end Lexer

/-- A source goes alongside itself. -/
theorem reading_standing (source : Text) :
    Preprocess.Reading (.standing source) source source := by
  unfold Preprocess.Reading TokenStream.ofSource lexScript
  cases hlex : lexemes .script source with
  | ok ls =>
      obtain ⟨htext, -⟩ := rawText_of_lexemes hlex
      rw [← htext] at hlex
      exact .ok ((tracks_standing [] ls htext.symm).1 hlex)
  | error refusal =>
      obtain ⟨before, c, after, hsplit, hlength, hc⟩ := exists_of_lexemes_error hlex
      refine .error ⟨.same _, rfl, before, c, after, hsplit, ?_, hc⟩
      show Position.origin.advance (source.take refusal.offset) = .after before
      rw [← hlength, hsplit, List.take_left, Position.advance_origin]

/-- Every diagnostic is at a character of the source. -/
theorem process_inScript (options : Options) (filename source : Text) {r : Result}
    (h : process options filename source = .ok r) :
    ∀ d ∈ r.diagnostics, d.span.start.InScript source := by
  obtain ⟨hboth, hwarnings⟩ := Preprocess.runPass_alike options (reading_standing source)
  unfold process at h
  generalize Preprocess.runPass options (Preprocess.text options source) = ran at *
  obtain ⟨result, session⟩ := ran
  have hwarned : ∀ d ∈ session.warnings.map (Diagnostic.ofWarning filename),
      d.span.start.InScript source := by
    rw [List.forall_mem_map]
    exact fun w hw => (List.forall₂_same.1 hwarnings w hw).place.2
  cases result with
  | ok text =>
      cases h
      exact hwarned
  | error e =>
      cases e with
      | fault f => cases h
      | report report =>
          cases h
          have hreport : report.span.start.InScript source := by
            cases hboth with
            | error hfailure =>
                cases hfailure with
                | report hreport => exact hreport.place.2
          exact List.forall_mem_append.2 ⟨hwarned, List.forall_mem_singleton.2 hreport⟩

/-! ### What is shown -/

namespace Snippet

/-- In a text stands a line behind its number, and in the next line, as far from the margin,
a caret in a column. -/
def Underlines (t : Text) (number : Nat) (line : Text) (column : Nat) : Prop :=
  ∃ head tail, t = head ++ '\n' :: Text.ofNat number ++ " | ".toList ++ line ++
    '\n' :: Text.fill (Text.ofNat number).length ' ' ++ " | ".toList ++
    Text.fill (column - 1) ' ' ++ '^' :: tail

theorem underlines_render (s : Snippet) :
    Underlines s.render s.span.start.line (sourceLine s.source s.span.start.line)
      s.span.start.column := by
  obtain ⟨n, hn⟩ : ∃ n, underline s.span (sourceLine s.source s.span.start.line) = n + 1 := by
    refine Nat.exists_eq_succ_of_ne_zero (Nat.ne_of_gt ?_)
    unfold underline
    split <;> exact Nat.lt_of_lt_of_le Nat.one_pos (Nat.le_max_left ..)
  have hgutter (u : Text) : Text.fill ((Text.ofNat s.span.start.line).length + 1) ' ' ++
      ("| ".toList ++ u) =
        Text.fill (Text.ofNat s.span.start.line).length ' ' ++ (" | ".toList ++ u) := by
    rw [Text.fill, List.replicate_succ', List.append_assoc]
    rfl
  have hbar (u : Text) : "|\n".toList ++ u = '|' :: '\n' :: u := rfl
  have hcarets : Text.fill (n + 1) '^' = '^' :: Text.fill n '^' := rfl
  refine ⟨s.severity ++ ": ".toList ++ s.message ++
    '\n' :: Text.fill ((Text.ofNat s.span.start.line).length + 1) ' ' ++ "--> ".toList ++
    s.filename ++ ':' :: s.span.start.display ++
    '\n' :: Text.fill ((Text.ofNat s.span.start.line).length + 1) ' ' ++ ['|'],
    Text.fill n '^' ++ s.notes.flatMap fun m =>
      '\n' :: Text.fill ((Text.ofNat s.span.start.line).length + 1) ' ' ++ "= note: ".toList ++
        m.text ++ " at ".toList ++ s.filename ++ ':' :: m.span.start.display, ?_⟩
  unfold render
  dsimp only
  rw [hn, hcarets]
  simp only [List.append_assoc, List.cons_append, List.nil_append, hgutter, hbar]

end Snippet

namespace Diagnostic

open Snippet (Underlines Marks sourceLine lexerLine)

/-- What the diagnostic shows that is at the character `c` of a source behind `before`. -/
structure Shows (d : Diagnostic) (source before : Text) (c : Char) (after : Text) : Prop where
  source_eq : source = before ++ c :: after
  start : d.span.start = .after before
  layout : Underlines (d.format source) d.span.start.line
    (sourceLine source d.span.start.line) d.span.start.column
  /-- The line of the place, as the lexer means it, has the character in its column. -/
  meant : (lexerLine source d.span.start.line)[d.span.start.column - 1]? = some c
  /-- The caret stands under the character of the offset. -/
  marks_iff : Marks source d.span.start ↔ Text.strayEnds before = 0
  above : Text.strayEnds before = 0 →
    (sourceLine source d.span.start.line)[d.span.start.column - 1]? = some c
  /-- The line that is shown is the one that is meant. -/
  line_eq_iff : Text.strayEnds before = 0 →
    (sourceLine source d.span.start.line = lexerLine source d.span.start.line ↔
      Text.Unbroken (lexerLine source d.span.start.line).dropLast)

end Diagnostic

/-- Every diagnostic is at a character of the source, and its snippet has the caret under
that character exactly if no line end but those of the lexer stands before it; the line is
shown as the lexer means it then, exactly if nothing but its last character ends a line. -/
theorem process_shows (options : Options) (filename source : Text) {r : Result}
    (h : process options filename source = .ok r) :
    ∀ d ∈ r.diagnostics, ∃ before c after, d.Shows source before c after := by
  intro d hd
  obtain ⟨before, c, after, hsource, hstart, hc⟩ := process_inScript options filename source h d hd
  have hfeed : c ≠ '\n' := by
    rintro rfl
    exact hc (by decide)
  have hcarriage : c ≠ '\r' := by
    rintro rfl
    exact hc (by decide)
  have hmarks : Snippet.Marks (before ++ c :: after) (.after before) ↔ Text.strayEnds before = 0 :=
    Snippet.marks_iff hfeed hcarriage
  refine ⟨before, c, after, hsource, hstart, Snippet.underlines_render _, ?_, ?_, ?_, ?_⟩ <;>
    rw [hstart, hsource]
  · exact Snippet.getElem?_lexerLine hfeed hcarriage
  · exact hmarks
  · intro hfree
    rw [(hmarks.2 hfree).getElem?]
    simp
  · exact Snippet.sourceLine_eq_iff

/-- A line end of two characters before the place. -/
theorem process_shows_wide :
    ∃ r, process {} "input.rms".toList "\tx // y\r\n#END_REPEAT".toList = .ok r ∧
      ∀ d ∈ r.diagnostics, ∃ before c after,
        d.Shows "\tx // y\r\n#END_REPEAT".toList before c after := by
  have hok : (process {} "input.rms".toList "\tx // y\r\n#END_REPEAT".toList).isOk = true := by
    decide +kernel
  obtain ⟨r, hr⟩ := isOk_iff.1 hok
  exact ⟨r, hr, process_shows {} _ _ hr⟩

/-- A form feed ends a line for the snippet and none for the lexer: the line below it is
not shown. -/
theorem process_shows_formFeed :
    (process {} "input.rms".toList "a\x0c\n#END_REPEAT".toList).map (fun r =>
        r.diagnostics.map fun d => (d.format "a\x0c\n#END_REPEAT".toList,
          Snippet.lexerLine "a\x0c\n#END_REPEAT".toList d.span.start.line)) =
      .ok [(("error: unmatched #END_REPEAT: no open block\n  --> input.rms:2:1\n" ++
        "  |\n2 | \n  | ^^^^^^^^^^^").toList, "#END_REPEAT".toList)] := by
  decide +kernel

end MapScript
