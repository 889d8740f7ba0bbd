import MapScript.Proofs.Lexing.Numeral
import MapScript.Proofs.Lexing.Prose
import MapScript.Proofs.Spelling

/-!
# Separators of compact text

Compact text is as compact as it gets: a separator that was written is a gap of the
text, and the joint after it asks for the same one.  What stood together stays
together, unless two words or a curly bracket meet, or a whole number that lost the
gap behind it would become a decimal.
-/

namespace MapScript.Compact

open Lexer

/-! ### Compact text of compact text -/

/-- The place as if nothing had stood there since the last lexeme. -/
def Joint.shut (j : Joint) : Joint := { j with gap := false, lineBreak := false }

/-- A gap only asks for more spaces. -/
theorem needsSpace_mono {left right : Lexeme} {gap gap' : Bool} (hgap : gap = true → gap' = true)
    (h : needsSpace left right gap = true) : needsSpace left right gap' = true := by
  cases gap with
  | false =>
      simp only [needsSpace, Bool.false_and, Bool.or_false, Bool.or_eq_true] at h ⊢
      rcases h with h | h
      · exact Or.inl (Or.inl (Or.inl (Or.inl h)))
      · exact Or.inr h
  | true => rwa [hgap rfl]

theorem last_after_separatorRow (keepLines : Bool) (j : Joint) (separator : Text) :
    (after keepLines j (separatorRow separator)).last = j.last := by
  cases separator with
  | nil => rfl
  | cons c cs => by_cases hc : c = '\n' <;> simp [separatorRow, hc, after, Lexeme.isTrivia,
      TokenKind.isTrivia, Joint.widen]

/-- Behind a separator the same one is written again. -/
theorem separator_again (keepLines : Bool) (j : Joint) (next : Lexeme) :
    (after keepLines j.shut (separatorRow (j.separator keepLines next))).separator keepLines next =
      j.separator keepLines next := by
  have hlater := last_after_separatorRow keepLines j.shut (j.separator keepLines next)
  cases hlast : j.last with
  | none =>
      have hnone : j.shut.last = none := hlast
      rw [Joint.separator, hlater, hnone, Joint.separator, hlast]
  | some last =>
      have hsome : j.shut.last = some last := hlast
      have hsep : j.separator keepLines next = _ := separator_of_last hlast
      rw [separator_of_last (hlater.trans hsome)]
      by_cases hbreak : (j.lineBreak && keepLines) = true
      · rw [if_pos hbreak] at hsep
        rw [hsep, if_pos]
        have hkeep := (Bool.and_eq_true_iff.1 hbreak).2
        simp [separatorRow, after, Lexeme.isTrivia, TokenKind.isTrivia, Joint.widen, hkeep]
      · rw [if_neg hbreak] at hsep
        by_cases hspace : (needsSpace last next j.gap ||
            j.glued.any fun g => merges [g, last, next]) = true
        · rw [if_pos hspace] at hsep
          rw [hsep, if_neg, if_pos]
          · rw [Bool.or_eq_true] at hspace ⊢
            exact hspace.imp (needsSpace_mono fun _ => rfl) id
          · simp [separatorRow, after, Lexeme.isTrivia, TokenKind.isTrivia, Joint.widen, Joint.shut]
        · rw [if_neg hspace] at hsep
          rw [hsep, if_neg (by simp [separatorRow, after, Joint.shut]), if_neg]
          rw [Bool.or_eq_true, not_or] at hspace ⊢
          exact hspace.imp (mt (needsSpace_mono (by simp [separatorRow, after, Joint.shut]))) id

/-- The row that compact text reads as is written as it was. -/
theorem renderFrom_rowFrom (keepLines : Bool) (j : Joint) (ls : List Lexeme) :
    renderFrom keepLines j.shut (rowFrom (fun l => [l]) keepLines j ls) =
      renderFrom keepLines j ls := by
  induction ls generalizing j with
  | nil => rfl
  | cons l ls ih =>
      rw [rowFrom, renderFrom]
      cases htrivia : l.isTrivia with
      | true => exact ih (j.widen l)
      | false =>
          have hrow := isTrivia_of_mem_separatorRow (j.separator keepLines l)
          have hwrite : (after keepLines j.shut (separatorRow (j.separator keepLines l))).write
              (j.separator keepLines l) l = j.write (j.separator keepLines l) l := by
            rw [Joint.write, last_after_separatorRow]
            rfl
          dsimp only
          rw [if_neg (by simp), if_neg (by simp), List.append_assoc, renderFrom_append,
            renderFrom_trivia keepLines _ hrow, List.singleton_append, renderFrom,
            if_neg (by simp [htrivia])]
          dsimp only
          rw [separator_again, hwrite, List.nil_append]
          congr 1
          exact ih (j.write (j.separator keepLines l) l)

/-- Compact text is its own compact text. -/
theorem render_of_render (keepLines : Bool) {source : Text} {stream : TokenStream}
    (h : TokenStream.ofSource source = .ok stream)
    (hheader : ∀ t ∈ stream.tokens, t.isDirective headerStart = false) :
    ∃ again, TokenStream.ofSource (render keepLines (stream.tokens.map Token.toLexeme)) =
        .ok again ∧
      render keepLines (again.tokens.map Token.toLexeme) =
        render keepLines (stream.tokens.map Token.toLexeme) := by
  obtain ⟨again, hagain, htokens⟩ := ofSource_render h hheader keepLines
  refine ⟨again, hagain, ?_⟩
  rw [htokens]
  exact renderFrom_rowFrom keepLines .start _

/-- Gaps that are lost and gaps that are kept. -/
theorem render_of_render_marks :
    ∃ stream, TokenStream.ofSource "a / / b (c , 1 .5)\n\x7b".toList = .ok stream ∧
      (∀ t ∈ stream.tokens, t.isDirective headerStart = false) ∧
      ∃ again, TokenStream.ofSource (render true (stream.tokens.map Token.toLexeme)) =
          .ok again ∧
        render true (again.tokens.map Token.toLexeme) =
          render true (stream.tokens.map Token.toLexeme) := by
  obtain ⟨stream, h, hheader⟩ : ∃ stream, TokenStream.ofSource "a / / b (c , 1 .5)\n\x7b".toList =
      .ok stream ∧ ∀ t ∈ stream.tokens, t.isDirective headerStart = false :=
    ⟨_, by cbv, by decide +kernel⟩
  exact ⟨stream, h, hheader, render_of_render true h hheader⟩

/-! ### What stood together -/

/-- Whether a whole number, a point and a number would read as one decimal. -/
def isDecimal (whole point fraction : Lexeme) : Bool :=
  whole.kind == .number && !whole.raw.contains '.' && isMark '.' point && fraction.kind == .number

theorem kind_eq_plainKind {l : Lexeme} {rest : Text} {c : Char} {tail : Text}
    (h : Stands l rest) (hraw : l.raw = c :: tail) (hc : isPlain c = true) :
    l.kind = plainKind c := by
  obtain ⟨d, ds, hd, hscan⟩ := h
  rw [hraw, List.cons.injEq] at hd
  obtain ⟨s, hs, hkind, -⟩ := scan_plain hc (ds ++ rest)
  rw [hd.1, hscan, Except.ok.injEq] at hs
  rw [← hkind, ← hs]

/-- Lexemes that stand one before the other run together as a decimal only: no other
scanner sees more than one character ahead. -/
theorem stands_append_iff {g l r : Lexeme} (hg : g.isTrivia = false) (hgl : Stands g l.raw)
    (hlr : Stands l r.raw) (hr : Stands r []) :
    Stands g (l.raw ++ r.raw) ↔ isDecimal g l r = false := by
  obtain ⟨c, tail, hl, hscan⟩ := id hlr
  obtain ⟨d, ds, hrd, -⟩ := id hr
  constructor
  · intro hstands
    by_contra hdecimal
    simp only [isDecimal, Bool.not_eq_false, Bool.and_eq_true, beq_iff_eq, isMark] at hdecimal
    obtain ⟨⟨⟨hnumber, hwhole⟩, -, hpoint⟩, hfraction⟩ := hdecimal
    obtain ⟨e, es, hraw, hdigit, -⟩ := hr.numeral hfraction
    obtain ⟨x, a, hgraw, -, htail⟩ := hstands.numeral hnumber
    rw [hpoint, hraw] at htail
    have hmem := mem_of_numeralTail htail hdigit
    simp [hgraw, hmem] at hwhole
  · intro hdecimal
    cases tail with
    | cons x tail =>
        have hcalm := Calmer.append_two [] r.raw (w := l.raw) (by simp [hl])
        rw [List.append_nil] at hcalm
        exact hgl.calmer hg hcalm
    | nil =>
        have hcalm : Calm l.raw (l.raw ++ r.raw) := Or.inr (by rw [hl]; rfl)
        apply hgl.calm hg hcalm
        intro x a hnumber hgraw htail
        apply numeralTail_calm htail hcalm
        -- a fraction begins behind a whole number only if the point and it make a decimal
        intro hpoint e es hfraction
        by_contra hdigit
        rw [Bool.not_eq_false] at hdigit
        rw [hl, hrd] at hfraction
        obtain ⟨rfl, rfl, rfl⟩ : c = '.' ∧ d = e ∧ ds = es := by simpa using hfraction
        have hkind : l.kind = .punct := kind_eq_plainKind hlr hl rfl
        have hfraction : r.kind = .number :=
          (kind_eq_plainKind hr hrd (isPlain_of_isDigit hdigit)).trans
            (Number.plainKind_of_isDigit hdigit)
        obtain ⟨x', a', hgraw', hx, -⟩ := hgl.numeral hnumber
        obtain ⟨rfl, rfl⟩ : x = x' ∧ a = a' := by simpa [hgraw] using hgraw'
        have hx : x ≠ '.' := by
          rintro rfl
          cases hx
        simp [isDecimal, isMark, hnumber, hgraw, hpoint, hl, hkind, hfraction, hx.symm] at hdecimal

/-- Lexemes do not run together if the first of them stands before the others. -/
theorem merges_cons_eq_false_iff {l : Lexeme} {ls : List Lexeme} (hopens : opensHeader l = false)
    (hls : Reads ls []) : merges (l :: ls) = false ↔ Stands l (Lexeme.rawText ls) := by
  refine ⟨stands_of_merges, ?_⟩
  intro hstands
  have hreads : Reads (l :: ls) [] := ⟨by rwa [List.append_nil], hopens, hls⟩
  simp [merges, hreads.lexScript_rawText]

theorem after_append (keepLines : Bool) (j : Joint) (ls ms : List Lexeme) :
    after keepLines j (ls ++ ms) = after keepLines (after keepLines j ls) ms := by
  induction ls generalizing j with
  | nil => rfl
  | cons l ls ih =>
      rw [List.cons_append, after, after]
      split <;> exact ih _

/-- Whether a lexeme goes over a line break. -/
def breaksLine (l : Lexeme) : Bool := l.kind == .newline || l.raw.contains '\n'

theorem after_trivia (keepLines : Bool) (j : Joint) {gap : List Lexeme}
    (h : ∀ l ∈ gap, l.isTrivia = true) :
    (after keepLines j gap).glued = j.glued ∧ (after keepLines j gap).last = j.last ∧
      (after keepLines j gap).lineBreak = (j.lineBreak || gap.any breaksLine) := by
  induction gap generalizing j with
  | nil => simp [after]
  | cons l gap ih =>
      obtain ⟨hl, hgap⟩ := List.forall_mem_cons.1 h
      rw [after, if_pos hl]
      obtain ⟨hglued, hlast, hbreak⟩ := ih (j.widen l) hgap
      refine ⟨hglued, hlast, hbreak.trans ?_⟩
      simp [Joint.widen, breaksLine, Bool.or_assoc]

/-- Lexemes are all trivia, or there is a last one that is not. -/
theorem exists_written (ls : List Lexeme) :
    (∀ l ∈ ls, l.isTrivia = true) ∨
      ∃ ahead l gap, ls = ahead ++ l :: gap ∧ l.isTrivia = false ∧
        ∀ t ∈ gap, t.isTrivia = true := by
  induction ls with
  | nil => exact Or.inl (by simp)
  | cons m ls ih =>
      rcases ih with hall | ⟨ahead, l, gap, rfl, hl, hgap⟩
      · cases hm : m.isTrivia with
        | true => exact Or.inl (List.forall_mem_cons.2 ⟨hm, hall⟩)
        | false => exact Or.inr ⟨[], m, ls, rfl, hm, hall⟩
      · exact Or.inr ⟨m :: ahead, l, gap, rfl, hl, hgap⟩

/-- A mark that begins the same wherever it stands is a lexeme there. -/
theorem stands_mark {c : Char} (hc : c ∉ lookAhead) (hpunct : opening c [] = .punct)
    (rest : Text) : Stands ⟨.punct, [c]⟩ rest :=
  ⟨c, [], rfl, by rw [scanScript, List.nil_append, opening_eq_of_notMem hc rest [], hpunct,
    Opening.scan]⟩

/-- Digits stand before what does not go on with them. -/
theorem stands_digits {ds v : Text} (hne : ds ≠ []) (hdigits : ∀ c ∈ ds, c.isDigit = true)
    (hv : v.head?.any Char.isDigit = false)
    (hfraction : ∀ d ds, v = '.' :: d :: ds → d.isDigit = false) : Stands ⟨.number, ds⟩ v := by
  obtain ⟨d, tail, rfl⟩ := List.exists_cons_of_ne_nil hne
  obtain ⟨hd, htail⟩ := List.forall_mem_cons.1 hdigits
  have hopening : opening d (tail ++ v) = .number := by
    rw [opening_plain (isPlain_of_isDigit hd), Number.isNameStart_of_isDigit hd, hd]
    rfl
  refine ⟨d, tail, rfl, ?_⟩
  rw [scanScript, hopening, Opening.scan, numeralTail_whole (spanAhead_eq htail hv) hfraction]
  rfl

/-- A whole number stands before what does not go on with it. -/
theorem stands_whole {l : Lexeme} {rest v : Text} (h : Stands l rest) (hkind : l.kind = .number)
    (hpoint : '.' ∉ l.raw) (hv : v.head?.any Char.isDigit = false)
    (hfraction : ∀ d ds, v = '.' :: d :: ds → d.isDigit = false) : Stands l v := by
  obtain ⟨kind, raw⟩ := l
  obtain rfl : kind = .number := hkind
  obtain ⟨d, tail, hraw, -⟩ := h.numeral rfl
  apply stands_digits (by simpa using congrArg (· ≠ []) hraw) _ hv hfraction
  intro c hc
  exact h.isDigit rfl hc fun hpointed => hpoint (hpointed ▸ hc)

/-- Of three lexemes that can stand in pairs only a decimal runs together. -/
theorem merges_triple {g l r : Lexeme} (hg : g.isTrivia = false) (hgs : Spells g [g])
    (hls : Spells l [l]) (hrs : Spells r [r]) (hgl : merges [g, l] = false)
    (hlr : merges [l, r] = false) : merges [g, l, r] = isDecimal g l r := by
  have hgl' : Stands g l.raw := by simpa [Lexeme.rawText] using stands_of_merges hgl
  have hlr' : Stands l r.raw := by simpa [Lexeme.rawText] using stands_of_merges hlr
  have hr : Stands r [] := by simpa [Lexeme.rawText] using hrs.reads.1
  have hreads : Reads [l, r] [] := ⟨by simpa [Lexeme.rawText] using hlr', hls.reads.2.1, hrs.reads⟩
  have hiff := merges_cons_eq_false_iff hgs.reads.2.1 hreads
  rw [show Lexeme.rawText [l, r] = l.raw ++ r.raw by simp [Lexeme.rawText],
    stands_append_iff hg hgl' hlr' hr] at hiff
  rw [Bool.eq_iff_iff, ← not_iff_not, Bool.not_eq_true, Bool.not_eq_true]
  exact hiff

/-- What a joint remembers was written. -/
theorem mem_of_after {keepLines : Bool} {j : Joint} {ls : List Lexeme} {l : Lexeme}
    (h : (after keepLines j ls).last = some l ∨ (after keepLines j ls).glued = some l) :
    l ∈ ls ∨ j.last = some l ∨ j.glued = some l := by
  induction ls generalizing j with
  | nil => exact Or.inr h
  | cons m ls ih =>
      rw [after] at h
      split at h
      · exact (ih h).imp_left (List.mem_cons_of_mem m)
      · rcases ih h with hmem | hlast | hglued
        · exact Or.inl (List.mem_cons_of_mem m hmem)
        · obtain rfl : m = l := by simpa [Joint.write] using hlast
          exact Or.inl List.mem_cons_self
        · simp only [Joint.write] at hglued
          split at hglued
          · exact Or.inr (Or.inl hglued)
          · cases hglued

theorem Sound.after (keepLines : Bool) {spelling : Lexeme → List Lexeme} {ls : List Lexeme}
    (hls : ∀ l ∈ ls, l.isTrivia = false → Spells l (spelling l)) {j : Joint}
    (hj : Sound spelling j) : Sound spelling (after keepLines j ls) := by
  induction ls generalizing j with
  | nil => exact hj
  | cons l ls ih =>
      obtain ⟨hl, hls⟩ := List.forall_mem_cons.1 hls
      rw [Compact.after]
      cases htrivia : l.isTrivia with
      | true => exact ih hls ⟨hj.last, hj.glued⟩
      | false => exact ih hls (hj.write keepLines htrivia (hl htrivia))

/-- Behind a whole number and a gap in its line a point loses the gap, and a number
that follows would make both a decimal. -/
def LosesGap (keepLines : Bool) (front : List Lexeme) (point fraction : Lexeme) : Prop :=
  ∃ ahead whole gap, front = ahead ++ whole :: gap ∧ (∀ t ∈ gap, t.isTrivia = true) ∧
    (gap.any breaksLine && keepLines) = false ∧ isDecimal whole point fraction = true

section
variable {keepLines : Bool} {front : List Lexeme}

variable (keepLines) in
/-- The last significant lexeme and the line breaks since. -/
theorem after_written (ahead : List Lexeme) {gap : List Lexeme} {l : Lexeme}
    (hl : l.isTrivia = false) (hgap : ∀ t ∈ gap, t.isTrivia = true) :
    (after keepLines .start (ahead ++ l :: gap)).last = some l ∧
      (after keepLines .start (ahead ++ l :: gap)).lineBreak = gap.any breaksLine := by
  rw [after_append, after, if_neg (by simp [hl])]
  obtain ⟨-, hlast, hbreak⟩ := after_trivia keepLines
    ((after keepLines .start ahead).write ((after keepLines .start ahead).separator keepLines l) l)
    hgap
  exact ⟨hlast, hbreak⟩

/-- A point behind a whole number gets no separator in its line. -/
theorem separator_point {whole point fraction : Lexeme}
    (hfront : ∀ l ∈ front, l.isTrivia = false → Spells l [l]) (hpoint : Spells point [point])
    (hlast : (after keepLines .start front).last = some whole)
    (hbreak : ((after keepLines .start front).lineBreak && keepLines) = false)
    (hdecimal : isDecimal whole point fraction = true) :
    (after keepLines .start front).separator keepLines point = [] := by
  have hsound := (sound_start _).after keepLines hfront
  obtain ⟨hwhole, hspells⟩ := hsound.last whole hlast
  simp only [isDecimal, Bool.and_eq_true, beq_iff_eq, isMark, Bool.not_eq_true'] at hdecimal
  obtain ⟨⟨⟨hnumber, hnone⟩, hkind, hraw⟩, -⟩ := hdecimal
  have hstands : Stands whole point.raw := by
    apply stands_whole hspells.reads.1 hnumber (by simpa using hnone) <;> simp [hraw]
  have hpair : merges [whole, point] = false := by
    rw [merges_cons_eq_false_iff hspells.reads.2.1 hpoint.reads]
    simpa [Lexeme.rawText] using hstands
  rw [separator_of_last hlast, if_neg (by simp [hbreak]), if_neg]
  simp only [Bool.or_eq_true, not_or, Bool.not_eq_true]
  constructor
  · simp [needsSpace, isBrace, isSign, isMark, hnumber, hkind, hraw, hpair, TokenKind.isWordlike]
  · cases hglued : (after keepLines .start front).glued with
    | none => rfl
    | some g =>
        obtain ⟨hg, hmerges⟩ := hsound.glued g hglued
        have hmem : g ∈ front := by
          simpa [Joint.start] using mem_of_after (Or.inr hglued)
        have htriple := merges_triple hg (hfront g hmem hg) hspells hpoint (hmerges whole hlast)
          hpair
        simp [htriple, isDecimal, isMark, hnumber]

/-- A gap is lost before a point that the last separator did not part from a number. -/
theorem losesGap_iff {l r : Lexeme} (hfront : ∀ l ∈ front, l.isTrivia = false → Spells l [l])
    (hl : Spells l [l]) :
    LosesGap keepLines front l r ↔
      (after keepLines .start front).separator keepLines l = [] ∧
        ∃ g, (after keepLines .start front).last = some g ∧ isDecimal g l r = true := by
  constructor
  · rintro ⟨ahead, whole, gap, rfl, hgap, hbreak, hdecimal⟩
    have hwhole : whole.isTrivia = false := by
      simp only [isDecimal, Bool.and_eq_true, beq_iff_eq] at hdecimal
      simp [Lexeme.isTrivia, hdecimal.1.1.1, TokenKind.isTrivia]
    obtain ⟨hlast, hline⟩ := after_written keepLines ahead hwhole hgap
    rw [← hline] at hbreak
    exact ⟨separator_point hfront hl hlast hbreak hdecimal, whole, hlast, hdecimal⟩
  · rintro ⟨hsep, g, hlast, hdecimal⟩
    rcases exists_written front with hall | ⟨ahead, whole, gap, rfl, hwhole, hgap⟩
    · rw [(after_trivia keepLines .start hall).2.1] at hlast
      cases hlast
    · obtain ⟨hwritten, hline⟩ := after_written keepLines ahead hwhole hgap
      obtain rfl : whole = g := by simpa [hwritten] using hlast
      refine ⟨ahead, whole, gap, rfl, hgap, ?_, hdecimal⟩
      rw [separator_of_last hlast] at hsep
      rw [← hline]
      by_contra hbreak
      rw [if_pos (by simpa using hbreak)] at hsep
      cases hsep

/-- A significant lexeme is written behind its separator. -/
theorem render_concat {ls : List Lexeme} {l : Lexeme} (hl : l.isTrivia = false) :
    render keepLines (ls ++ [l]) =
      render keepLines ls ++ (after keepLines .start ls).separator keepLines l ++ l.raw := by
  rw [render, renderFrom_append, renderFrom, if_neg (by simp [hl])]
  simp [render, renderFrom]

/-- Nothing but the lexeme before both parts neighbours that need no space. -/
theorem separator_write {j : Joint} {separator : Text} {l r : Lexeme}
    (h : needsSpace l r false = false) :
    (j.write separator l).separator keepLines r =
      if separator.isEmpty && j.last.any fun g => merges [g, l, r] then [' '] else [] := by
  have hlast : (j.write separator l).last = some l := rfl
  rw [separator_of_last hlast]
  cases hempty : separator.isEmpty <;> simp [Joint.write, h, hempty]

variable (keepLines) in
/-- What stands together is written together, but for two words, curly brackets and the
decimals that a lost gap would make. -/
theorem separator_adjacent {back : List Lexeme} {l r : Lexeme}
    (hreads : Reads (front ++ l :: r :: back) [])
    (hspells : ∀ m ∈ front ++ l :: r :: back, m.isTrivia = false → Spells m [m])
    (hl : l.isTrivia = false) (hr : r.isTrivia = false)
    (hbraces : isBrace l = false ∧ isBrace r = false)
    (hwords : (l.kind.isWordlike && r.kind.isWordlike) = false) :
    (LosesGap keepLines front l r →
      (after keepLines .start (front ++ [l])).separator keepLines r = [' ']) ∧
    (¬LosesGap keepLines front l r →
      (after keepLines .start (front ++ [l])).separator keepLines r = []) := by
  have hfront : ∀ m ∈ front, m.isTrivia = false → Spells m [m] := fun m hm =>
    hspells m (List.mem_append_left _ hm)
  have hls := hspells l (by simp) hl
  have hrs := hspells r (by simp) hr
  have hpair : merges [l, r] = false := by
    rw [merges_cons_eq_false_iff hls.reads.2.1 hrs.reads]
    have hstands := hreads.right.1
    apply hstands.calmer hl
    simpa [Lexeme.rawText] using Calmer.append_gap r.raw (Lexeme.rawText back) (v := []) rfl
  have hspace : needsSpace l r false = false := by simp [needsSpace, hbraces, hwords, hpair]
  have hsound := (sound_start _).after keepLines hfront
  rw [losesGap_iff hfront hls, after_append]
  set j := after keepLines .start front
  have hafter : after keepLines j [l] = j.write (j.separator keepLines l) l := by simp [after, hl]
  have htriple {g : Lexeme} (hsep : j.separator keepLines l = []) (hg : j.last = some g) :
      merges [g, l, r] = isDecimal g l r := by
    obtain ⟨hgs, hspells⟩ := hsound.last g hg
    exact merges_triple hgs hspells hls hrs (merges_of_separator hsep hg).1 hpair
  rw [hafter, separator_write hspace]
  constructor
  · rintro ⟨hsep, g, hg, hdecimal⟩
    rw [hsep, hg, if_pos]
    simpa [htriple hsep hg] using hdecimal
  · intro hnone
    rw [if_neg]
    simp only [Bool.and_eq_true, List.isEmpty_iff, Option.any_eq_true, not_and]
    rintro hsep ⟨g, hg, hmerges⟩
    exact hnone ⟨hsep, g, hg, htriple hsep hg ▸ hmerges⟩

end

/-- Compact text never splits what stood together.  Two significant tokens with nothing
between them, of which none is a curly bracket and one at most is a word, are written one
directly behind the other; only where a whole number was parted from a point by a gap in
their line, nothing is written for the gap, and a space parts the point from the digits
behind it. -/
theorem render_adjacent (keepLines : Bool) {source : Text} {stream : TokenStream}
    (h : TokenStream.ofSource source = .ok stream)
    (hheader : ∀ t ∈ stream.tokens, t.isDirective headerStart = false)
    {front back : List Token} {l r : Token} (hsplit : stream.tokens = front ++ l :: r :: back)
    (hl : l.isTrivia = false) (hr : r.isTrivia = false)
    (hbraces : isBrace l.toLexeme = false ∧ isBrace r.toLexeme = false)
    (hwords : (l.kind.isWordlike && r.kind.isWordlike) = false) :
    ∃ ahead separator behind,
      render keepLines ((front ++ [l]).map Token.toLexeme) = ahead ++ l.raw ∧
      render keepLines ((front ++ [l, r]).map Token.toLexeme) =
        ahead ++ l.raw ++ separator ++ r.raw ∧
      render keepLines (stream.tokens.map Token.toLexeme) =
        ahead ++ l.raw ++ separator ++ r.raw ++ behind ∧
      (LosesGap keepLines (front.map Token.toLexeme) l.toLexeme r.toLexeme →
        ahead = render keepLines (front.map Token.toLexeme) ∧ separator = [' ']) ∧
      (¬LosesGap keepLines (front.map Token.toLexeme) l.toLexeme r.toLexeme → separator = []) := by
  obtain ⟨hreads, -⟩ := reads_of_ofSource h hheader
  have hspells := spells_of_ofSource h hheader
  rw [hsplit, List.map_append, List.map_cons, List.map_cons] at hreads hspells
  obtain ⟨hloses, hkeeps⟩ := separator_adjacent keepLines hreads hspells hl hr
    hbraces hwords
  set ls := front.map Token.toLexeme
  have hjoins (hgap : LosesGap keepLines ls l.toLexeme r.toLexeme) :
      (after keepLines .start ls).separator keepLines l.toLexeme = [] := by
    have hls : ∀ m ∈ ls, m.isTrivia = false → Spells m [m] := fun m hm =>
      hspells m (List.mem_append_left _ hm)
    exact ((losesGap_iff hls (hspells l.toLexeme (by simp) hl)).1 hgap).1
  have hfirst : render keepLines (ls ++ [l.toLexeme]) = _ := render_concat hl
  have hsecond : render keepLines (ls ++ [l.toLexeme] ++ [r.toLexeme]) = _ := render_concat hr
  rw [hfirst] at hsecond
  have hall : stream.tokens.map Token.toLexeme =
      ls ++ [l.toLexeme] ++ [r.toLexeme] ++ back.map Token.toLexeme := by simp [hsplit, ls]
  refine ⟨render keepLines ls ++ (after keepLines .start ls).separator keepLines l.toLexeme,
    (after keepLines .start (ls ++ [l.toLexeme])).separator keepLines r.toLexeme,
    renderFrom keepLines (after keepLines .start (ls ++ [l.toLexeme] ++ [r.toLexeme]))
      (back.map Token.toLexeme), ?_, ?_, ?_, fun hgap => ⟨?_, hloses hgap⟩, hkeeps⟩
  · rw [List.map_append]
    exact hfirst
  · rw [List.map_append, List.map_cons, List.map_singleton, List.append_cons]
    exact hsecond
  · rw [hall, render, renderFrom_append]
    exact congrArg (· ++ _) hsecond
  · rw [hjoins hgap, List.append_nil]

/-- A name and its bracket stay together.  A point loses the gap between it and the number
before, and the digits behind are parted from both. -/
theorem render_adjacent_call :
    ∃ stream name opener whole gap point digits closer,
      TokenStream.ofSource "rnd(1 .5)".toList = .ok stream ∧
      (∀ t ∈ stream.tokens, t.isDirective headerStart = false) ∧
      stream.tokens = [name, opener, whole, gap, point, digits, closer] ∧
      (∀ t ∈ [name, opener, point, digits], t.isTrivia = false ∧ isBrace t.toLexeme = false) ∧
      (name.kind.isWordlike && opener.kind.isWordlike) = false ∧
      (point.kind.isWordlike && digits.kind.isWordlike) = false ∧
      ¬LosesGap true [] name.toLexeme opener.toLexeme ∧
      LosesGap true ([name, opener, whole, gap].map Token.toLexeme) point.toLexeme
        digits.toLexeme ∧
      (∃ behind, render true (stream.tokens.map Token.toLexeme) =
        "rnd".toList ++ "(".toList ++ behind) ∧
      ∃ behind, render true (stream.tokens.map Token.toLexeme) =
        "rnd(1".toList ++ ".".toList ++ " ".toList ++ "5".toList ++ behind := by
  obtain ⟨stream, name, opener, whole, gap, point, digits, closer, h, hheader, htokens, hplain,
      hcall, hdecimal, hkeeps, hloses, hraws, hfirst, hfront⟩ :
      ∃ stream name opener whole gap point digits closer,
        TokenStream.ofSource "rnd(1 .5)".toList = .ok stream ∧
        (∀ t ∈ stream.tokens, t.isDirective headerStart = false) ∧
        stream.tokens = [name, opener, whole, gap, point, digits, closer] ∧
        (∀ t ∈ [name, opener, point, digits], t.isTrivia = false ∧ isBrace t.toLexeme = false) ∧
        (name.kind.isWordlike && opener.kind.isWordlike) = false ∧
        (point.kind.isWordlike && digits.kind.isWordlike) = false ∧
        ¬LosesGap true [] name.toLexeme opener.toLexeme ∧
        LosesGap true ([name, opener, whole, gap].map Token.toLexeme) point.toLexeme
          digits.toLexeme ∧
        [name, opener, point, digits].map (fun t => t.raw) =
          ["rnd".toList, "(".toList, ".".toList, "5".toList] ∧
        render true ([name].map Token.toLexeme) = "rnd".toList ∧
        render true ([name, opener, whole, gap].map Token.toLexeme) = "rnd(1".toList := by
    refine ⟨_, _, _, _, _, _, _, _, by cbv, by decide +kernel, by rfl, by decide +kernel,
      by decide, by decide, ?_, ?_, by rfl, by decide +kernel, by decide +kernel⟩
    · rintro ⟨ahead, whole, gap, hnil, -⟩
      simp at hnil
    · exact ⟨[_, _], _, [_], by rfl, by decide, by decide, by decide⟩
  obtain ⟨hname, hopener, hpoint, hdigits⟩ : (name.isTrivia = false ∧
      isBrace name.toLexeme = false) ∧ (opener.isTrivia = false ∧
      isBrace opener.toLexeme = false) ∧ (point.isTrivia = false ∧
      isBrace point.toLexeme = false) ∧ (digits.isTrivia = false ∧
      isBrace digits.toLexeme = false) := by simpa using hplain
  obtain ⟨hname', hopener', hpoint', hdigits'⟩ : name.raw = "rnd".toList ∧
      opener.raw = "(".toList ∧ point.raw = ".".toList ∧ digits.raw = "5".toList := by
    simpa using hraws
  refine ⟨stream, name, opener, whole, gap, point, digits, closer, h, hheader, htokens, hplain,
    hcall, hdecimal, hkeeps, hloses, ?_, ?_⟩
  · have hsplit : stream.tokens = [] ++ name :: opener :: [whole, gap, point, digits, closer] :=
      htokens
    obtain ⟨ahead, separator, behind, hahead, -, hall, -, hnone⟩ :=
      render_adjacent true h hheader hsplit hname.1 hopener.1 ⟨hname.2, hopener.2⟩ hcall
    obtain rfl : ahead = [] := by simpa [hname'] using hfirst.symm.trans hahead
    rw [hname', hopener', hnone hkeeps, List.append_nil] at hall
    exact ⟨behind, hall⟩
  · have hsplit : stream.tokens = [name, opener, whole, gap] ++ point :: digits :: [closer] :=
      htokens
    obtain ⟨ahead, separator, behind, -, -, hall, hgap, -⟩ :=
      render_adjacent true h hheader hsplit hpoint.1 hdigits.1 ⟨hpoint.2, hdigits.2⟩ hdecimal
    obtain ⟨rfl, rfl⟩ := hgap hloses
    rw [hpoint', hdigits', hfront] at hall
    exact ⟨behind, hall⟩

/-- A number before a word is parted from it, and a point that lost the gap before it from
the digits behind it. -/
theorem render_parts_adjacent :
    (∃ stream l r, TokenStream.ofSource "5abc".toList = .ok stream ∧ stream.tokens = [l, r] ∧
      l.isTrivia = false ∧ r.isTrivia = false ∧
      isBrace l.toLexeme = false ∧ isBrace r.toLexeme = false ∧
      render true (stream.tokens.map Token.toLexeme) = l.raw ++ [' '] ++ r.raw) ∧
    ∃ stream whole gap l r, TokenStream.ofSource "1 .5".toList = .ok stream ∧
      stream.tokens = [whole, gap, l, r] ∧ l.isTrivia = false ∧ r.isTrivia = false ∧
      isBrace l.toLexeme = false ∧ isBrace r.toLexeme = false ∧
      render true (stream.tokens.map Token.toLexeme) = whole.raw ++ l.raw ++ [' '] ++ r.raw := by
  constructor
  · exact ⟨_, _, _, by cbv, by rfl, by decide, by decide, by decide, by decide, by decide +kernel⟩
  · exact ⟨_, _, _, _, _, by cbv, by rfl, by decide, by decide, by decide, by decide,
      by decide +kernel⟩

end MapScript.Compact
