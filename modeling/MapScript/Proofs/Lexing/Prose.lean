import MapScript.Proofs.Lexing.Place

/-!
# Script and prose

The lexemes of a script change between two modes.  In script every significant
lexeme can stand alone.  A header start directive turns to prose, which is cut
into texts and line breaks only; the first directive after it is the header end,
and it turns back to script.
-/

namespace MapScript.Lexer

open Text (spanAhead spanAhead_append)

/-- Whether a lexeme is the directive that ends prose. -/
def closesHeader (l : Lexeme) : Bool := l.kind == .directive && Text.upper l.value == headerEnd

/-- Lexemes as a text that begins in a mode is cut into them. -/
def Tidy : Mode → List Lexeme → Prop
  | _, [] => True
  | .script, l :: ls =>
    (l.isTrivia = false → Stands l []) ∧ Tidy (if opensHeader l then .prose else .script) ls
  | .prose, l :: ls =>
    ((l.kind = .text ∨ l.kind = .newline) ∧ Tidy .prose ls) ∨
      (closesHeader l = true ∧ Tidy .script ls)

theorem isNameChar_of_toUpper {c : Char} (h : isNameChar c.toUpper = true) :
    isNameChar c = true := by
  unfold Char.toUpper at h
  split at h
  · next hlower =>
    have halpha : c.isAlpha = true := by
      simp only [Char.isAlpha, Char.isLower, Bool.or_eq_true, Bool.and_eq_true, decide_eq_true_eq]
      exact Or.inr hlower
    simp [isNameChar, Char.isAlphanum, halpha]
  · exact h

/-- A text that is the header end but for case is a name. -/
theorem isNameChar_of_upper_eq {w : Text} (h : Text.upper w = headerEnd) :
    ∀ c ∈ w, isNameChar c = true := by
  intro c hc
  have hmem : c.toUpper ∈ headerEnd := by
    rw [← h]
    exact List.mem_map_of_mem hc
  have hall : ∀ d ∈ headerEnd, isNameChar d = true := List.all_eq_true.1 rfl
  exact isNameChar_of_toUpper (hall _ hmem)

/-- A scan by a class of characters takes a row of them and stops at another. -/
theorem spanAhead_eq {p : Char → Bool} {a v : Text} (ha : ∀ c ∈ a, p c = true)
    (hv : v.head?.any p = false) : spanAhead (fun c _ => p c) (a ++ v) = (a, v) := by
  induction a with
  | nil =>
      cases v with
      | nil => rfl
      | cons d ds => simp [spanAhead, show p d = false by simpa using hv]
  | cons x a ih =>
      have hx := ha x (by simp)
      simp [spanAhead, hx, ih fun c hc => ha c (by simp [hc])]

/-- Where prose ends, script reads the header end directive. -/
theorem scanScript_headerEnd {c : Char} {cs : Text} {s : Scan}
    (hends : startsHeaderEnd (c :: cs) = true) (h : scanScript c cs = .ok s) :
    closesHeader ⟨s.kind, c :: s.tail⟩ = true := by
  obtain ⟨rfl, hname, hstop⟩ : c = '#' ∧ Text.upper (cs.take headerEnd.length) = headerEnd ∧
      (cs.drop headerEnd.length).head?.any runsOn = false := by
    unfold startsHeaderEnd at hends
    split at hends
    · next ds heq =>
      obtain ⟨rfl, rfl⟩ := List.cons.inj heq
      simpa using hends
    · simp at hends
  set name := cs.take headerEnd.length with hn
  have hcs : cs = name ++ cs.drop headerEnd.length := (List.take_append_drop _ cs).symm
  have hchars := isNameChar_of_upper_eq hname
  have hspan : spanAhead (fun c _ => isNameChar c) cs = (name, cs.drop headerEnd.length) := by
    conv_lhs => rw [hcs]
    apply spanAhead_eq hchars
    by_contra hrun
    simp only [Bool.not_eq_false] at hrun
    have : (cs.drop headerEnd.length).head?.any runsOn = true := by
      obtain ⟨d, hd, hdn⟩ := Option.any_eq_true .. |>.1 hrun
      exact Option.any_eq_true .. |>.2 ⟨d, hd, by simp [runsOn, hdn]⟩
    rw [hstop] at this
    exact absurd this (by decide)
  have hopen : opening '#' cs = .directive := by
    rw [opening_hash, if_pos]
    cases hw : name with
    | nil =>
        rw [hw] at hname
        exact absurd hname (by decide)
    | cons x xs =>
        rw [hcs, hw]
        simpa using hchars x (by simp [hw])
  simp only [scanScript, hopen, Opening.scan, hspan, Scan.of, Except.ok.injEq] at h
  subst h
  simp [closesHeader, Lexeme.value, hname]

theorem kind_of_scanProse {c : Char} {cs : Text} {s : Scan} (h : scanProse c cs = .ok s) :
    s.kind = .text ∨ s.kind = .newline := by
  unfold scanProse at h
  split_ifs at h
  · cases h
    exact Or.inr rfl
  · cases h
    exact Or.inr rfl
  · cases h
    exact Or.inl rfl

theorem opensHeader_of_closesHeader {l : Lexeme} (h : closesHeader l = true) :
    opensHeader l = false := by
  simp only [closesHeader, Bool.and_eq_true, beq_iff_eq] at h
  rw [opensHeader, h.2]
  simp [show headerEnd ≠ headerStart by decide]

theorem isTrivia_of_closesHeader {l : Lexeme} (h : closesHeader l = true) :
    l.isTrivia = false := by
  simp only [closesHeader, Bool.and_eq_true, beq_iff_eq] at h
  rw [Lexeme.isTrivia, h.1]
  rfl

/-! ### One lexeme after the other -/

theorem raw_ne_nil_of_lexemes {mode : Mode} {ls : List Lexeme}
    (h : lexemes mode (Lexeme.rawText ls) = .ok ls) : ∀ l ∈ ls, l.raw ≠ [] :=
  fun l hl => ((rawText_of_lexemes h).2 l hl).2

/-- The first lexeme of a text and the reading of the others. -/
theorem lexemes_cons {mode : Mode} {l : Lexeme} {ls : List Lexeme}
    (h : lexemes mode (Lexeme.rawText (l :: ls)) = .ok (l :: ls)) :
    ∃ c tail, l.raw = c :: tail ∧
      (mode.enter (l.raw ++ Lexeme.rawText ls)).scan c (tail ++ Lexeme.rawText ls) =
        .ok ⟨l.kind, tail, Lexeme.rawText ls⟩ ∧
      lexemes ((mode.enter (l.raw ++ Lexeme.rawText ls)).leave l) (Lexeme.rawText ls) =
        .ok ls := by
  obtain ⟨c, tail, rest, htext, hraw, hscan, hrest⟩ := lexemes_inv h
  have hls := (rawText_of_lexemes hrest).1
  subst hls
  have hwhole : Lexeme.rawText (l :: ls) = l.raw ++ Lexeme.rawText ls := rfl
  rw [hwhole] at hscan hrest
  exact ⟨c, tail, hraw, hscan, hrest⟩

/-- Prose begins with the header end, before which script follows, or with a lexeme of
prose. -/
theorem lexemes_prose {l : Lexeme} {ls : List Lexeme}
    (h : lexemes .prose (Lexeme.rawText (l :: ls)) = .ok (l :: ls)) :
    (startsHeaderEnd (l.raw ++ Lexeme.rawText ls) = true ∧ closesHeader l = true ∧
        Stands l (Lexeme.rawText ls) ∧ lexemes .script (Lexeme.rawText ls) = .ok ls) ∨
      (startsHeaderEnd (l.raw ++ Lexeme.rawText ls) = false ∧
        (l.kind = .text ∨ l.kind = .newline) ∧
        (∃ c tail, l.raw = c :: tail ∧
          scanProse c (tail ++ Lexeme.rawText ls) = .ok ⟨l.kind, tail, Lexeme.rawText ls⟩) ∧
        lexemes .prose (Lexeme.rawText ls) = .ok ls) := by
  obtain ⟨c, tail, hraw, hscan, hrest⟩ := lexemes_cons h
  cases hends : startsHeaderEnd (l.raw ++ Lexeme.rawText ls) with
  | true =>
      have henter : Mode.prose.enter (l.raw ++ Lexeme.rawText ls) = .script := by
        simp [Mode.enter, hends]
      rw [henter] at hscan hrest
      have hcloses : closesHeader l = true := by
        rw [hraw] at hends
        have hlexeme := scanScript_headerEnd hends hscan
        rwa [← hraw] at hlexeme
      rw [Mode.leave_script, opensHeader_of_closesHeader hcloses] at hrest
      exact Or.inl ⟨rfl, hcloses, ⟨c, tail, hraw, hscan⟩, hrest⟩
  | false =>
      have henter : Mode.prose.enter (l.raw ++ Lexeme.rawText ls) = .prose := by
        simp [Mode.enter, hends]
      rw [henter] at hscan hrest
      exact Or.inr ⟨rfl, kind_of_scanProse hscan, ⟨c, tail, hraw, hscan⟩, hrest⟩

/-! ### Tidy rows -/

/-- The lexemes of a text are tidy. -/
theorem tidy_of_lexemes {mode : Mode} {t : Text} {ls : List Lexeme}
    (h : lexemes mode t = .ok ls) : Tidy mode ls := by
  obtain rfl := (rawText_of_lexemes h).1
  induction ls generalizing mode with
  | nil => cases mode <;> trivial
  | cons l ls ih =>
      cases mode with
      | script =>
          obtain ⟨c, tail, hraw, hscan, hrest⟩ := lexemes_cons h
          rw [Mode.enter_script] at hscan hrest
          rw [Mode.leave_script] at hrest
          exact ⟨Stands.alone ⟨c, tail, hraw, hscan⟩, ih hrest⟩
      | prose =>
          rcases lexemes_prose h with ⟨-, hcloses, -, hrest⟩ | ⟨-, hkind, -, hrest⟩
          · exact Or.inr ⟨hcloses, ih hrest⟩
          · exact Or.inl ⟨hkind, ih hrest⟩

theorem Tidy.cons_script {l : Lexeme} {ls : List Lexeme} (h : Tidy .script (l :: ls))
    (hopens : opensHeader l = false) : (l.isTrivia = false → Stands l []) ∧ Tidy .script ls := by
  rw [Tidy, hopens] at h
  exact h

/-- Script without a header start stays script. -/
theorem Tidy.append_script {ls ms : List Lexeme} (h : Tidy .script (ls ++ ms))
    (hopens : ∀ l ∈ ls, opensHeader l = false) :
    (∀ l ∈ ls, l.isTrivia = false → Stands l []) ∧ Tidy .script ms := by
  induction ls with
  | nil => exact ⟨by simp, h⟩
  | cons l ls ih =>
      obtain ⟨hl, htail⟩ := h.cons_script (hopens l (by simp))
      obtain ⟨hls, hms⟩ := ih htail fun m hm => hopens m (by simp [hm])
      exact ⟨List.forall_mem_cons.2 ⟨hl, hls⟩, hms⟩

/-- Prose holds no punctuation, so script follows it. -/
theorem Tidy.after_punct {mode : Mode} {ls ms : List Lexeme} {l : Lexeme}
    (h : Tidy mode (ls ++ l :: ms)) (hl : l.kind = .punct) : Tidy .script ms := by
  have hopens : opensHeader l = false := by simp [opensHeader, hl]
  have hcloses : closesHeader l = false := by simp [closesHeader, hl]
  induction ls generalizing mode with
  | nil =>
      cases mode with
      | script => exact (h.cons_script hopens).2
      | prose =>
          rcases h with ⟨hkind, -⟩ | ⟨hend, -⟩
          · simp [hl] at hkind
          · rw [hcloses] at hend
            cases hend
  | cons m ls ih =>
      cases mode with
      | script => exact ih h.2
      | prose =>
          rcases h with ⟨-, htail⟩ | ⟨-, htail⟩
          · exact ih htail
          · exact ih htail

/-! ### Refusals -/

theorem kind_of_scan_error {mode : Mode} {c : Char} {cs : Text} {cause : Cause}
    (h : mode.scan c cs = .error cause) : cause.kind = .lexical := by
  cases mode with
  | prose =>
      simp only [Mode.scan, scanProse] at h
      split_ifs at h
      cases h
      rfl
  | script =>
      replace h : (opening c cs).scan cs = .error cause := h
      cases ho : opening c cs with
      | nul =>
          rw [ho] at h
          cases h
          rfl
      | blockComment | string =>
          rw [ho] at h
          simp only [Opening.scan, Scan.closed] at h
          split at h
          · cases h
            rfl
          · cases h
      | lineComment | lineFeed | carriageReturn | space | directive | word | number | punct
      | text =>
          rw [ho] at h
          cases h

theorem kind_of_lexemes_error {mode : Mode} {t : Text} {refusal : Refusal}
    (h : lexemes mode t = .error refusal) : refusal.cause.kind = .lexical := by
  fun_induction lexemes mode t generalizing refusal with
  | case1 => cases h
  | case2 mode c cs here cause =>
      next hscan =>
      cases h
      exact kind_of_scan_error hscan
  | case3 mode c cs here s hscan lexeme inner hrest =>
      next ih =>
      have hinner := ih hrest
      cases h
      exact hinner
  | case4 => cases h

end MapScript.Lexer

namespace MapScript.TokenStream

theorem kind_of_ofSource_error {source : Text} {r : Report} (h : ofSource source = .error r) :
    r.cause.kind = .lexical := by
  unfold ofSource at h
  split at h
  · next refusal hlex =>
    cases h
    exact Lexer.kind_of_lexemes_error hlex
  · cases h

/-- The tokens of a script are tidy. -/
theorem tidy_of_ofSource {source : Text} {stream : TokenStream} (h : ofSource source = .ok stream) :
    Lexer.Tidy .script (stream.tokens.map Token.toLexeme) := by
  obtain ⟨ls, hlex, heq⟩ := lexScript_of_ofSource h
  rw [heq]
  exact Lexer.tidy_of_lexemes hlex

end MapScript.TokenStream
