import MapScript.Proofs.Lexing.LineEnds
import MapScript.Proofs.Lines
import MapScript.Proofs.Respacing.Reading
import MapScript.Proofs.Respacing.Text

/-!
# Reading with other line ends

A script whose lines end in a carriage return and a line feed is read abreast with what it
is with line feeds alone, lexeme by lexeme in script and line by line in prose.  A carriage
return that stands alone before such a line end is part of the line end without the other:
the line gives up its last character then, which is seen in the prose of headers only.
-/

namespace MapScript

open Grammar
open Lexer
open Text (spanAhead unixLines)

/-! ### What is alike -/

namespace Text

/-- The second text is the first without some of its carriage returns. -/
inductive DropsReturns : Text → Text → Prop
  | nil : DropsReturns [] []
  | keep {t t' : Text} (c : Char) (h : DropsReturns t t') : DropsReturns (c :: t) (c :: t')
  | drop {t t' : Text} (h : DropsReturns t t') : DropsReturns ('\r' :: t) t'

namespace DropsReturns

theorem refl (t : Text) : DropsReturns t t := by
  induction t with
  | nil => exact .nil
  | cons c t ih => exact .keep c ih

theorem append {s s' t t' : Text} (h : DropsReturns s s') (h' : DropsReturns t t') :
    DropsReturns (s ++ t) (s' ++ t') := by
  induction h with
  | nil => exact h'
  | keep c _ ih => exact .keep c ih
  | drop _ ih => exact .drop ih

end DropsReturns

/-- A carriage return that stands alone, before a line end of two characters. -/
def strayReturn : Text := ['\r', '\r', '\n']

end Text

/-- Alike but for offsets, and for carriage returns in what is quoted if one stands alone
before a line end of two characters. -/
def Likeness.lineEnds (source : Text) : Likeness where
  place p p' := p.line = p'.line ∧ p.column = p'.column
  quote t t' := t = t' ∨ (Text.strayReturn <:+: source ∧ Text.DropsReturns t t')
  quote_refl _ := Or.inl rfl
  quote_append := by
    rintro s s' t t' (rfl | ⟨hstray, hs⟩) (rfl | ⟨hstray', ht⟩)
    · exact Or.inl rfl
    · exact Or.inr ⟨hstray', .append (.refl s) ht⟩
    · exact Or.inr ⟨hstray, .append hs (.refl t)⟩
    · exact Or.inr ⟨hstray, .append hs ht⟩

instance (source : Text) : (Likeness.lineEnds source).Anchored := ⟨rfl, rfl⟩

/-- Streams that track each other, with an argument list ahead in both or in neither. -/
def TracksAhead (k : Likeness) (ts ts' : List Token) : Prop :=
  Tracks k ts ts' ∧ argumentList.ahead ts = argumentList.ahead ts'

/-- A text and what it becomes, read abreast as script. -/
abbrev AbreastScript (source t : Text) : Prop :=
  Abreast (.lineEnds source) (TracksAhead (.lineEnds source)) .script t (unixLines t)

/-- A text and what it becomes, read abreast as the prose of a header of which `T` holds. -/
abbrev AbreastProse (source : Text) (T : Text → Text → Prop) (t : Text) : Prop :=
  Abreast (.lineEnds source) (InProse (.lineEnds source) T) .prose t (unixLines t)

/-- A text and what it becomes are read abreast, as script and as prose. -/
structure Alongside (source t : Text) : Prop where
  script : AbreastScript source t
  prose : AbreastProse source (fun w w' => w' = unixLines w) t

/-! ### Lexemes at the front -/

namespace Lexeme

/-- The lexeme of a text, none if that is empty. -/
def row (kind : TokenKind) (t : Text) : List Lexeme := if t = [] then [] else [⟨kind, t⟩]

theorem row_of_ne {t : Text} (h : t ≠ []) (kind : TokenKind) : row kind t = [⟨kind, t⟩] := if_neg h

@[simp] theorem rawText_row (kind : TokenKind) (t : Text) : rawText (row kind t) = t := by
  by_cases h : t = []
  · rw [h, row, if_pos rfl]
    rfl
  · rw [row_of_ne h, rawText_singleton]

theorem kind_of_mem_row {kind : TokenKind} {t : Text} {l : Lexeme} (h : l ∈ row kind t) :
    l.kind = kind := by
  unfold row at h
  split at h
  · cases h
  · rw [List.mem_singleton.1 h]

/-- The lexemes of a line and the break behind it. -/
def line (kind : TokenKind) (t b : Text) : List Lexeme := row kind t ++ [⟨.newline, b⟩]

@[simp] theorem rawText_line (kind : TokenKind) (t b : Text) :
    rawText (line kind t b) = t ++ b := by
  rw [line, rawText, List.flatMap_append]
  exact congrArg₂ (· ++ ·) (rawText_row kind t) (rawText_singleton _)

theorem kind_of_mem_line {kind : TokenKind} {t b : Text} {l : Lexeme} (h : l ∈ line kind t b) :
    l.kind = kind ∨ l.kind = .newline := by
  rcases List.mem_append.1 h with hrow | hbreak
  · exact Or.inl (kind_of_mem_row hrow)
  · rw [List.mem_singleton.1 hbreak]
    exact Or.inr rfl

theorem line_ne_nil (kind : TokenKind) (t b : Text) : line kind t b ≠ [] := by simp [line]

end Lexeme

namespace Lexer

theorem reads_blank {u r : Text} (h : spanAhead isSpace (u ++ r) = (u, r)) :
    Reads (Lexeme.row .blank u) r := by
  cases u with
  | nil => trivial
  | cons c tail =>
      rw [List.cons_append] at h
      obtain ⟨hc, htail⟩ := spanAhead_cons_iff.1 h
      rw [Lexeme.row_of_ne (List.cons_ne_nil c tail)]
      refine ⟨⟨c, tail, rfl, ?_⟩, rfl, trivial⟩
      show scanScript c (tail ++ r) = _
      rw [scanScript, opening_of_isSpace hc, Opening.scan, htail]
      rfl

theorem reads_lineComment {tail r : Text}
    (h : spanAhead (fun c cs => !endsLine c cs) ('/' :: '/' :: tail ++ r) =
      ('/' :: '/' :: tail, r)) : Reads (Lexeme.row .comment ('/' :: '/' :: tail)) r := by
  obtain ⟨-, htail⟩ := spanAhead_cons_iff.1 h
  have hopen : opening '/' ('/' :: tail ++ r) = .lineComment := by simp [opening]
  rw [Lexeme.row_of_ne (List.cons_ne_nil _ _)]
  refine ⟨⟨'/', '/' :: tail, rfl, ?_⟩, rfl, trivial⟩
  show scanScript '/' ('/' :: tail ++ r) = _
  rw [scanScript, hopen, Opening.scan]
  exact congrArg (fun taken => Except.ok (Scan.of .comment taken)) htail

theorem takes_text {u r : Text} (h : spanAhead staysProse (u ++ r) = (u, r)) :
    Takes .prose (Lexeme.row .text u) r .prose := by
  cases u with
  | nil => exact .nil .prose r
  | cons c tail =>
      rw [List.cons_append] at h
      obtain ⟨hc, htail⟩ := spanAhead_cons_iff.1 h
      simp only [staysProse, Bool.not_eq_true', Bool.or_eq_false_iff] at hc
      obtain ⟨⟨hnul, hends⟩, hheader⟩ := hc
      have hfeed : (c == '\n') = false := (Bool.or_eq_false_iff.1 hends).1
      rw [Lexeme.row_of_ne (List.cons_ne_nil c tail)]
      refine Lexer.takes_prose rfl ?_ hheader
      show scanProse c (tail ++ r) = _
      rw [scanProse, hnul, hfeed, hends]
      exact congrArg (fun taken => Except.ok (Scan.of .text taken)) htail

theorem IsBreak.takes_prose {b : Text} (h : IsBreak b) (r : Text) :
    Takes .prose [⟨.newline, b⟩] r .prose := by
  rcases h with rfl | rfl
  · have hscan : scanProse '\n' ([] ++ r) = .ok ⟨.newline, [], r⟩ := by simp [scanProse]
    exact Lexer.takes_prose rfl hscan rfl
  · have hscan : scanProse '\r' (['\n'] ++ r) = .ok ⟨.newline, ['\n'], r⟩ := by
      simp [scanProse, Lexer.endsLine]
    exact Lexer.takes_prose rfl hscan rfl

/-- Prose ends with the text, before the header end or before what is refused. -/
theorem prose_ends {r : Text} (h : goesAt staysProse r = false)
    (hends : goesAt (fun c cs => Lexer.endsLine c cs) r = false) :
    r = [] ∨ (∃ cs, r = '\x00' :: cs) ∨ startsHeaderEnd r = true := by
  cases r with
  | nil => exact Or.inl rfl
  | cons c cs =>
      have hstops : staysProse c cs = false := h
      have hline : Lexer.endsLine c cs = false := hends
      rw [staysProse, hline, Bool.or_false, Bool.not_eq_false', Bool.or_eq_true, beq_iff_eq]
        at hstops
      rcases hstops with rfl | hheader
      · exact Or.inr (Or.inl ⟨cs, rfl⟩)
      · exact Or.inr (Or.inr hheader)

/-- Where prose ends stands the header end directive. -/
theorem exists_headerEnd {r : Text} (h : startsHeaderEnd r = true) :
    ∃ l rest, r = l.raw ++ rest ∧ closesHeader l = true ∧ Stands l rest := by
  cases r with
  | nil => cases h
  | cons c cs =>
      obtain rfl : c = '#' := by
        by_contra hc
        rw [startsHeaderEnd] at h
        · cases h
        · simpa using hc
      obtain ⟨s, hscan⟩ : ∃ s, scanScript '#' cs = .ok s := by
        rw [scanScript, opening_hash]
        split <;> exact ⟨_, rfl⟩
      have happend := Opening.scan_append hscan
      refine ⟨⟨s.kind, '#' :: s.tail⟩, s.rest, by rw [← happend]; rfl,
        scanScript_headerEnd h hscan, '#', s.tail, rfl, ?_⟩
      rw [happend]
      exact hscan

/-- What is refused is refused with other line ends, for the same cause. -/
theorem scanScript_error {c : Char} {cs : Text} {cause : Cause}
    (h : scanScript c cs = .error cause) :
    unixLines (c :: cs) = c :: unixLines cs ∧ scanScript c (unixLines cs) = .error cause := by
  have hmeets := opening_meets c cs
  have hclosed {kind : TokenKind} {missing : Cause} {taken : Option (Text × Text)}
      (h : Scan.closed kind missing taken = .error cause) : taken = none ∧ missing = cause := by
    cases taken with
    | none => exact ⟨rfl, Except.error.inj h⟩
    | some taken => cases h
  have hcons {c : Char} (hc : c ≠ '\r') (cs : Text) : unixLines (c :: cs) = c :: unixLines cs :=
    Text.unixLines_cons fun hreturn => absurd hreturn hc
  unfold scanScript at h ⊢
  cases ho : opening c cs with
  | lineComment | lineFeed | carriageReturn | space | directive | word | number | punct | text =>
      rw [ho] at h
      cases h
  | nul =>
      rw [ho] at h hmeets
      obtain rfl : c = '\x00' := hmeets
      exact ⟨hcons (by decide) cs, h⟩
  | string =>
      rw [ho] at h hmeets
      obtain rfl : c = '"' := hmeets
      have hopen : opening '"' (unixLines cs) = .string := by
        simp [opening, endsLine, isSpace]
      obtain ⟨hnone, hcause⟩ := hclosed h
      refine ⟨hcons (by decide) cs, ?_⟩
      rw [hopen, Opening.scan, stringTail_unixLines, hnone, ← hcause]
      rfl
  | blockComment =>
      rw [ho] at h hmeets
      obtain ⟨rfl, hnext⟩ : c = '/' ∧ cs.head? = some '*' := hmeets
      obtain ⟨ds, rfl⟩ := List.head?_eq_some_iff.1 hnext
      have hopen : opening '/' ('*' :: unixLines ds) = .blockComment := by simp [opening]
      obtain ⟨hnone, hcause⟩ := hclosed h
      have hopened : commentTail 1 ds = none := Option.map_eq_none_iff.1 hnone
      refine ⟨hcons (by decide) _, ?_⟩
      rw [hcons (by decide), hopen, ← hcause]
      show Scan.closed .comment .openComment ((commentTail 1 (unixLines ds)).map _) = _
      rw [commentTail_unixLines, hopened]
      rfl

end Lexer

/-! ### Lines of a header -/

namespace Text

/-- The first line. -/
def firstLine (t : Text) : Text := ((lines t).head?.map Line.content).getD []

/-- The lines after the first that are not empty. -/
def laterLines (t : Text) : List Text :=
  ((lines t).tail.map Line.content).filter fun l => !l.isEmpty

/-- The lines that are not empty. -/
def fullLines (t : Text) : List Text := ((lines t).map Line.content).filter fun l => !l.isEmpty

theorem fullLines_eq (t : Text) :
    fullLines t = if (firstLine t).isEmpty then laterLines t else firstLine t :: laterLines t := by
  rw [fullLines, firstLine, laterLines]
  cases lines t with
  | nil => rfl
  | cons l ls =>
      rw [List.map_cons, List.filter_cons]
      cases hempty : l.content.isEmpty <;> simp [hempty]

theorem firstLine_consFirst (c : Char) (t : Text) :
    ((Line.consFirst c (lines t)).head?.map Line.content).getD [] = c :: firstLine t ∧
      (Line.consFirst c (lines t)).tail = (lines t).tail := by
  rw [firstLine]
  cases lines t <;> exact ⟨rfl, rfl⟩

/-- The first line stays, and the other lines but for empty ones. -/
theorem lines_unixLines (t : Text) :
    firstLine (unixLines t) = firstLine t ∧ laterLines (unixLines t) = laterLines t := by
  have hcons {c : Char} {cs ds : Text} (h : c = '\r' → cs.head? ≠ some '\n')
      (h' : c = '\r' → ds.head? ≠ some '\n') (hfirst : firstLine ds = firstLine cs)
      (hlater : laterLines ds = laterLines cs) :
      firstLine (c :: ds) = firstLine (c :: cs) ∧ laterLines (c :: ds) = laterLines (c :: cs) := by
    rw [firstLine, firstLine, laterLines, laterLines, lines_cons h, lines_cons h']
    split
    · refine ⟨rfl, ?_⟩
      show fullLines ds = fullLines cs
      rw [fullLines_eq, fullLines_eq, hfirst, hlater]
    · obtain ⟨hcs, hcs'⟩ := firstLine_consFirst c cs
      obtain ⟨hds, hds'⟩ := firstLine_consFirst c ds
      rw [hcs, hcs', hds, hds', hfirst]
      exact ⟨rfl, hlater⟩
  induction t using unixLines.induct with
  | case1 => exact ⟨rfl, rfl⟩
  | case2 cs ih =>
      have hfull : fullLines (unixLines cs) = fullLines cs := by
        rw [fullLines_eq, fullLines_eq, ih.1, ih.2]
      exact ⟨rfl, hfull⟩
  | case3 c cs hbreak ih =>
      have hc : c = '\r' → cs.head? ≠ some '\n' := by
        rintro rfl hfeed
        obtain ⟨ds, rfl⟩ := List.head?_eq_some_iff.1 hfeed
        exact hbreak ds rfl rfl
      rw [unixLines_cons hc]
      by_cases hnext : c = '\r' ∧ (unixLines cs).head? = some '\n'
      · -- the carriage return ended a line of its own, and is part of the line end now
        obtain ⟨rfl, hfeed⟩ := hnext
        obtain ⟨es, hes⟩ := List.head?_eq_some_iff.1 hfeed
        have hlines : lines ('\r' :: cs) = ⟨[], ['\r']⟩ :: lines cs := lines_cons hc
        have hlater : laterLines (unixLines cs) = fullLines es := by rw [hes]; rfl
        have hempty : firstLine (unixLines cs) = [] := by rw [hes]; rfl
        rw [hes]
        refine ⟨by rw [firstLine, firstLine, hlines]; rfl, ?_⟩
        show fullLines es = _
        rw [laterLines, hlines]
        show _ = fullLines cs
        rw [fullLines_eq cs, ← ih.1, ← ih.2, hempty, hlater]
        rfl
      · exact hcons hc (fun hreturn hfeed => hnext ⟨hreturn, hfeed⟩) ih.1 ih.2

theorem fullLines_unixLines (t : Text) : fullLines (unixLines t) = fullLines t := by
  obtain ⟨hfirst, hlater⟩ := lines_unixLines t
  rw [fullLines_eq, fullLines_eq, hfirst, hlater]

end Text

/-- The comments of a header are made of its lines that are not empty. -/
theorem Header.lines_eq (h : Header) :
    h.lines = (((Text.fullLines h.text).map Text.strip).filter fun l => !l.isEmpty).map
      commentLine := by
  rw [Header.lines, Text.fullLines]
  congr 1
  induction Text.lines h.text with
  | nil => rfl
  | cons l ls ih =>
      rw [List.map_cons, List.map_cons, List.filter_cons, List.filter_cons]
      cases hempty : l.content with
      | nil =>
          have hstrip : (Text.strip []).isEmpty = true := rfl
          simpa [hstrip] using ih
      | cons c cs => simp [List.filter_cons, ih]

/-! ### Steps abreast -/

section
variable {source : Text}

/-- Lexemes at the front of a text, and those at the front of what it becomes. -/
structure Exchange (mode next : Mode) (ls ls' : List Lexeme) (r : Text) : Prop where
  takes : Takes mode ls r next
  takes' : Takes mode ls' (unixLines r) next
  splits : Text.Splits (Lexeme.rawText ls) (Lexeme.rawText ls') r

theorem Exchange.abreast {R R' : List Token → List Token → Prop} {mode next : Mode}
    {ls ls' : List Lexeme} {r : Text} (h : Exchange mode next ls ls' r)
    (hR : ∀ p p' ts ts', (Likeness.lineEnds source).place p p' → R ts ts' →
      R' (Token.place p ls ++ ts) (Token.place p' ls' ++ ts'))
    (hrest : Abreast (.lineEnds source) R next r (unixLines r)) :
    Abreast (.lineEnds source) R' mode (Lexeme.rawText ls ++ r)
      (unixLines (Lexeme.rawText ls ++ r)) := by
  rw [h.splits.apart]
  refine Abreast.behind h.takes h.takes' ?_ hR hrest
  intro p p' hp
  rw [← h.splits.own]
  exact Text.advance_unixLines hp _

/-- A significant lexeme is exchanged for itself. -/
theorem Lexer.Stands.exchange {l : Lexeme} {r : Text} (h : Stands l r) (hl : l.isTrivia = false)
    {mode next : Mode} (htakes : ∀ s, Stands l s → startsHeaderEnd (l.raw ++ s) =
      startsHeaderEnd (l.raw ++ r) → Takes mode [l] s next) : Exchange mode next [l] [l] r := by
  obtain ⟨hsplits, hstands⟩ := h.before_unixLines hl
  refine ⟨htakes r h rfl, htakes _ hstands ?_, ?_⟩
  · rw [← hsplits.apart, startsHeaderEnd_unixLines]
  · rwa [Lexeme.rawText_singleton]

/-- Separators in front of both. -/
theorem abreast_separators {g g' : List Lexeme} {r : Text} (hreads : Reads g r)
    (hreads' : Reads g' (unixLines r)) (hg : ∀ l ∈ g, l.isTrivia = true)
    (hg' : ∀ l ∈ g', l.isTrivia = true) (hne : g ≠ []) (hne' : g' ≠ [])
    (hsplits : Text.Splits (Lexeme.rawText g) (Lexeme.rawText g') r)
    (hblank : (g.all fun l => l.kind == .blank) = g'.all fun l => l.kind == .blank)
    (hrest : AbreastScript source r) : AbreastScript source (Lexeme.rawText g ++ r) := by
  have hbreak {g : List Lexeme} {r : Text} (hreads : Reads g r) :
      ∀ l ∈ g, l.kind = .newline → '\n' ∈ l.raw := by
    intro l hl
    obtain ⟨rest, hstands⟩ := hreads.stands_of_mem hl
    exact hstands.lineFeed_mem
  have hlines : (Lexeme.rawText g).contains '\n' = (Lexeme.rawText g').contains '\n' := by
    rw [← hsplits.own, Bool.eq_iff_iff, List.contains_iff_mem, List.contains_iff_mem,
      Text.lineFeed_mem_unixLines]
  refine Exchange.abreast ⟨hreads.takes, hreads'.takes, hsplits⟩ ?_ hrest
  rintro p p' ts ts' - ⟨htracks, hahead⟩
  have hgap := Gap.of_lexemes hg hg' hne hne' (hbreak hreads) (hbreak hreads') hlines p p'
  refine ⟨.gap hgap htracks, ?_⟩
  rw [Part.ahead_gap hgap.trivia, Part.ahead_gap hgap.trivia', ← hahead, Token.all_gap_place,
    Token.all_gap_place, hblank]

/-! ### Lines of script -/

section
variable {p : Char → Text → Bool} (kind : TokenKind) {u b r : Text}

/-- Space or a comment up to the end of its line, and the line break. -/
theorem abreast_scriptLine (hp : Steady p) (hkind : kind.isTrivia = true) (hb : IsBreak b)
    (h : spanAhead p (u ++ (b ++ r)) = (u, b ++ r))
    (hreads : ∀ w s, (w = u ∨ u = w ++ ['\r']) → spanAhead p (w ++ s) = (w, s) →
      Reads (Lexeme.row kind w) s)
    (hrest : AbreastScript source r) : AbreastScript source (u ++ (b ++ r)) := by
  obtain ⟨v, b', hb', hv, hsplits, h'⟩ := hp.spanAhead_break hb h
  have hv' : v = u ∨ u = v ++ ['\r'] := hv.imp_right And.left
  have htrivia (u b : Text) : ∀ l ∈ Lexeme.line kind u b, l.isTrivia = true := by
    intro l hl
    rcases Lexeme.kind_of_mem_line hl with hkind' | hkind' <;> rw [Lexeme.isTrivia, hkind']
    · exact hkind
    · rfl
  have hbroken (u b : Text) :
      ((Lexeme.line kind u b).all fun l => l.kind == .blank) = false := by
    rw [Lexeme.line, List.all_append]
    exact Bool.and_false _
  have hline {w b s : Text} (hb : IsBreak b) (hw : w = u ∨ u = w ++ ['\r'])
      (h : spanAhead p (w ++ (b ++ s)) = (w, b ++ s)) : Reads (Lexeme.line kind w b) s := by
    refine Reads.append ?_ ⟨hb.stands _, rfl, trivial⟩
    rw [Lexeme.rawText_singleton]
    exact hreads w (b ++ s) hw h
  rw [← List.append_assoc, ← Lexeme.rawText_line kind u b]
  refine abreast_separators (hline hb (Or.inl rfl) h) (hline hb' hv' h') (htrivia u b)
    (htrivia v b') (Lexeme.line_ne_nil kind u b) (Lexeme.line_ne_nil kind v b') ?_
    ((hbroken u b).trans (hbroken v b').symm) hrest
  rw [Lexeme.rawText_line, Lexeme.rawText_line]
  exact hsplits r

/-- Space or a comment, to where its line ends or something else begins. -/
theorem abreast_run (hp : Steady p) (hkind : kind.isTrivia = true) (hu : u ≠ [])
    (h : spanAhead p (u ++ r) = (u, r))
    (hreads : ∀ w s, (w = u ∨ u = w ++ ['\r']) → spanAhead p (w ++ s) = (w, s) →
      Reads (Lexeme.row kind w) s)
    (hrest : ∀ s, s <:+ r → AbreastScript source s) : AbreastScript source (u ++ r) := by
  cases hr : goesAt (fun c cs => Lexer.endsLine c cs) r with
  | true =>
      obtain ⟨b, s, rfl, hb⟩ := exists_break hr
      exact abreast_scriptLine kind hp hkind hb h hreads (hrest s (List.suffix_append b s))
  | false =>
      obtain ⟨hsplits, h'⟩ := hp.spanAhead_unixLines h hr
      have hrow : Lexeme.row kind u = [⟨kind, u⟩] := Lexeme.row_of_ne hu kind
      have htrivia : ∀ l ∈ Lexeme.row kind u, l.isTrivia = true := by
        simpa [hrow, Lexeme.isTrivia] using hkind
      have hstep : AbreastScript source (Lexeme.rawText (Lexeme.row kind u) ++ r) := by
        refine abreast_separators (hreads u r (Or.inl rfl) h) (hreads u _ (Or.inl rfl) h') htrivia
          htrivia (by simp [hrow]) (by simp [hrow]) ?_ rfl (hrest r (List.suffix_refl r))
        rwa [Lexeme.rawText_row]
      rwa [Lexeme.rawText_row] at hstep

end

/-- A comment that is closed, with its line ends. -/
theorem abreast_blockComment {tail r : Text} (h : commentTail 1 (tail ++ r) = some (tail, r))
    (hrest : AbreastScript source r) : AbreastScript source ('/' :: '*' :: tail ++ r) := by
  have hcons (t : Text) : unixLines ('/' :: '*' :: t) = '/' :: '*' :: unixLines t := by
    rw [Text.unixLines_cons (by simp), Text.unixLines_cons (by simp)]
  have htail : commentTail 1 (unixLines (tail ++ r)) = some (unixLines tail, unixLines r) := by
    rw [commentTail_unixLines, h]
    rfl
  have happend : unixLines tail ++ unixLines r = unixLines (tail ++ r) := commentTail_append htail
  rw [← happend] at htail
  have hreads {t s : Text} (h : commentTail 1 (t ++ s) = some (t, s)) :
      Reads [⟨.comment, '/' :: '*' :: t⟩] s := ⟨stands_blockComment h, rfl, trivial⟩
  have htrivia (t : Text) : ∀ l ∈ [(⟨.comment, t⟩ : Lexeme)], l.isTrivia = true := by
    simp [Lexeme.isTrivia, TokenKind.isTrivia]
  have hstep := abreast_separators (hreads h) (hreads htail) (htrivia _) (htrivia _)
    (by simp) (by simp) ?_ rfl hrest
  · rwa [Lexeme.rawText_singleton] at hstep
  · rw [Lexeme.rawText_singleton, Lexeme.rawText_singleton]
    refine ⟨hcons tail, ?_⟩
    show unixLines ('/' :: '*' :: (tail ++ r)) = '/' :: '*' :: (unixLines tail ++ unixLines r)
    rw [hcons, happend]

/-- What separates, in front of both. -/
theorem abreast_trivia {l : Lexeme} {r : Text} (h : Stands l r) (hl : l.isTrivia = true)
    (hrest : ∀ s, s <:+ r → AbreastScript source s) : AbreastScript source (l.raw ++ r) := by
  have hne : l.raw ≠ [] := by
    obtain ⟨c, tail, hraw, -⟩ := h
    simp [hraw]
  have hspace : Steady isSpace := isSpace_eq_goesOn ▸ steady_goesOn rfl
  have hcomment : Steady fun c cs => !Lexer.endsLine c cs :=
    endsLine_eq_goesOn ▸ steady_goesOn rfl
  rcases h.trivia_cases hl with ⟨-, hbreak⟩ | ⟨-, hspan⟩ | ⟨-, ⟨tail, hraw⟩, hspan⟩ |
      ⟨-, tail, hraw, hscan⟩
  · have hnone : spanAhead isSpace ([] ++ (l.raw ++ r)) = ([], l.raw ++ r) :=
      spanAhead_iff.2 ⟨by simp, hspace.goesAt_break hbreak r⟩
    exact abreast_scriptLine .blank hspace rfl hbreak hnone
      (fun _ _ _ h => reads_blank h) (hrest r (List.suffix_refl r))
  · exact abreast_run .blank hspace rfl hne hspan (fun _ _ _ h => reads_blank h) hrest
  · refine abreast_run .comment hcomment rfl hne hspan ?_ hrest
    rintro w s hw hspan'
    -- the line gives up a carriage return at most, so the slashes stay
    obtain ⟨t, rfl⟩ : ∃ t, w = '/' :: '/' :: t := by
      rcases hw with rfl | hw
      · exact ⟨tail, hraw⟩
      · rw [hraw] at hw
        match w, hw with
        | [], hw => simp at hw
        | [_], hw => simp at hw
        | x :: y :: t, hw =>
            simp only [List.cons_append, List.cons.injEq] at hw
            exact ⟨t, by rw [← hw.1, ← hw.2.1]⟩
    exact reads_lineComment hspan'
  · rw [hraw]
    exact abreast_blockComment hscan (hrest r (List.suffix_refl r))

/-- A significant lexeme, in front of both. -/
theorem abreast_written {l : Lexeme} {r : Text} (h : Stands l r) (hl : l.isTrivia = false)
    (hrest : Alongside source r) : AbreastScript source (l.raw ++ r) := by
  have hexchange : Exchange .script (if opensHeader l then .prose else .script) [l] [l] r :=
    h.exchange hl fun _ hs _ => hs.takes
  have halike {p p' : Position} (hp : (Likeness.lineEnds source).place p p') :
      Token.Alike (.lineEnds source) ⟨l, ⟨p, p.advance l.raw⟩⟩ ⟨l, ⟨p', p'.advance l.raw⟩⟩ :=
    ⟨rfl, hp⟩
  rw [← Lexeme.rawText_singleton l]
  cases hopens : opensHeader l with
  | false =>
      rw [hopens] at hexchange
      refine hexchange.abreast ?_ hrest.script
      rintro p p' ts ts' hp ⟨htracks, hahead⟩
      exact ⟨.token (halike hp) hl hopens (fun _ => hahead) htracks, (halike hp).ahead_eq hl _ _⟩
  | true =>
      rw [hopens] at hexchange
      refine hexchange.abreast ?_ hrest.prose
      intro p p' ts ts' hp hts
      refine ⟨hts.tracks (halike hp) hopens ?_, (halike hp).ahead_eq hl _ _⟩
      intro q q' span span' htext
      rw [Header.lines_eq, Header.lines_eq, Header.text, Header.text, htext,
        Text.fullLines_unixLines]

/-- One lexeme of script, or what is refused. -/
theorem abreast_script {t : Text}
    (hlater : ∀ s, s <:+ t → s.length < t.length → Alongside source s) :
    AbreastScript source t := by
  cases t with
  | nil => exact Abreast.nil ⟨.nil, rfl⟩
  | cons c cs =>
      cases hscan : scanScript c cs with
      | error cause =>
          obtain ⟨heq, hscan'⟩ := scanScript_error hscan
          rw [AbreastScript, heq]
          exact Abreast.refused hscan hscan'
      | ok s =>
          have happend := Opening.scan_append hscan
          have hstands : Stands ⟨s.kind, c :: s.tail⟩ s.rest :=
            ⟨c, s.tail, rfl, by rw [happend]; exact hscan⟩
          have hcut : c :: cs = c :: s.tail ++ s.rest := by rw [← happend]; rfl
          have hrest (w : Text) (hw : w <:+ s.rest) : Alongside source w := by
            have hlength := hw.length_le
            refine hlater w (hw.trans ⟨c :: s.tail, hcut.symm⟩) ?_
            rw [hcut, List.length_append, List.length_cons]
            omega
          rw [hcut]
          cases hl : (⟨s.kind, c :: s.tail⟩ : Lexeme).isTrivia with
          | false => exact abreast_written hstands hl (hrest _ (List.suffix_refl _))
          | true => exact abreast_trivia hstands hl fun w hw => (hrest w hw).script

/-! ### Lines of prose -/

theorem Token.rawText_place (p : Position) (ls : List Lexeme) :
    rawText (place p ls) = Lexeme.rawText ls := by
  rw [← rawText_map, map_place]

theorem Token.rawText_significant_place (p : Position) (ls : List Lexeme) :
    rawText (significant (place p ls)) =
      Lexeme.rawText (ls.filter fun l => !l.isTrivia) := by
  conv_rhs => rw [← map_place p ls, List.filter_map]
  rw [← rawText_map]
  rfl

theorem Lexeme.filter_row (t : Text) :
    (row .text t).filter (fun l => !l.isTrivia) = row .text t := by
  rw [List.filter_eq_self]
  intro l hl
  rw [isTrivia, kind_of_mem_row hl]
  rfl

theorem Lexeme.filter_line (t b : Text) :
    (line .text t b).filter (fun l => !l.isTrivia) = row .text t := by
  rw [line, List.filter_append, filter_row]
  exact List.append_nil _

/-- A line of prose and its break. -/
theorem abreast_proseLine {u b r : Text} (hsource : u ++ (b ++ r) <:+ source) (hb : IsBreak b)
    (h : spanAhead staysProse (u ++ (b ++ r)) = (u, b ++ r)) (hrest : Alongside source r) :
    AbreastProse source (fun w w' => w' = unixLines w) (u ++ (b ++ r)) := by
  obtain ⟨v, b', hb', hv, hsplits, h'⟩ := steady_staysProse.spanAhead_break hb h
  have htakes {w c s : Text} (hc : IsBreak c)
      (h : spanAhead staysProse (w ++ (c ++ s)) = (w, c ++ s)) :
      Takes .prose (Lexeme.line .text w c) s .prose := by
    refine Takes.append ?_ (hc.takes_prose s)
    rw [Lexeme.rawText_singleton]
    exact takes_text h
  have hquote : (Likeness.lineEnds source).quote u v := by
    rcases hv with rfl | ⟨hreturn, rfl⟩
    · exact Or.inl rfl
    · subst hreturn
      have hstray : Text.strayReturn <:+: v ++ ['\r'] ++ (['\r', '\n'] ++ r) :=
        ⟨v, r, by simp [Text.strayReturn]⟩
      have hdrop := (Text.DropsReturns.refl v).append (.drop .nil)
      rw [List.append_nil] at hdrop
      exact Or.inr ⟨hstray.trans hsource.isInfix, hdrop⟩
  have hkind (w c : Text) (p : Position) :
      ∀ t ∈ Token.place p (Lexeme.line .text w c), t.kind = .text ∨ t.kind = .newline := by
    intro t ht
    have hmem := List.mem_map_of_mem (f := Token.toLexeme) ht
    rw [Token.map_place] at hmem
    exact Lexeme.kind_of_mem_line hmem
  rw [← List.append_assoc, ← Lexeme.rawText_line .text u b]
  have hexchange : Exchange .prose .prose (Lexeme.line .text u b) (Lexeme.line .text v b') r := by
    refine ⟨htakes hb h, htakes hb' h', ?_⟩
    rw [Lexeme.rawText_line, Lexeme.rawText_line]
    exact hsplits r
  refine hexchange.abreast ?_ hrest.prose
  intro p p' ts ts' hp hts
  refine hts.append (hkind u b p) (hkind v b' p') ?_ ?_
  · rintro w w' rfl
    rw [Token.rawText_place, Token.rawText_place, Lexeme.rawText_line, Lexeme.rawText_line,
      (hsplits w).apart]
  · rw [Token.rawText_significant_place, Token.rawText_significant_place, Lexeme.filter_line,
      Lexeme.filter_line, Lexeme.rawText_row, Lexeme.rawText_row]
    exact hquote

/-- The end of the prose. -/
theorem abreast_proseEnd {r : Text}
    (hends : r = [] ∨ (∃ cs, r = '\x00' :: cs) ∨ startsHeaderEnd r = true)
    (hlater : ∀ s, s <:+ r → s.length < r.length → Alongside source s) :
    AbreastProse source (fun w w' => w = [] ∧ w' = []) r := by
  rcases hends with rfl | ⟨cs, rfl⟩ | hheader
  · exact Abreast.nil (.unclosed (by simp) (by simp) ⟨rfl, rfl⟩ (Or.inl rfl))
  · rw [AbreastProse, Text.unixLines_cons (by simp)]
    exact Abreast.refused rfl rfl
  · obtain ⟨l, rest, rfl, hcloses, hstands⟩ := exists_headerEnd hheader
    have hl := isTrivia_of_closesHeader hcloses
    have hne := List.length_pos_of_ne_nil (l := l.raw) (by
      obtain ⟨c, tail, hraw, -⟩ := hstands
      simp [hraw])
    have hrest := hlater rest (List.suffix_append l.raw rest) (by
      rw [List.length_append]
      omega)
    have hexchange : Exchange .prose .script [l] [l] rest :=
      hstands.exchange hl fun s hs hsame => hs.takes_prose hcloses (hsame.trans hheader)
    rw [← Lexeme.rawText_singleton l]
    refine hexchange.abreast ?_ hrest.script
    rintro p p' ts ts' hp ⟨htracks, -⟩
    exact .finish ⟨rfl, rfl⟩ ⟨rfl, hp⟩ hcloses htracks

/-- The last line of prose, before its end. -/
theorem abreast_lastLine {u r : Text} (h : spanAhead staysProse (u ++ r) = (u, r))
    (hr : goesAt (fun c cs => Lexer.endsLine c cs) r = false)
    (hlater : ∀ s, s <:+ r → s.length < r.length → Alongside source s) :
    AbreastProse source (fun w w' => w' = unixLines w) (u ++ r) := by
  obtain ⟨hsplits, h'⟩ := steady_staysProse.spanAhead_unixLines h hr
  have hexchange : Exchange .prose .prose (Lexeme.row .text u) (Lexeme.row .text u) r := by
    refine ⟨takes_text h, takes_text h', ?_⟩
    rwa [Lexeme.rawText_row]
  have hkind (p : Position) :
      ∀ t ∈ Token.place p (Lexeme.row .text u), t.kind = .text ∨ t.kind = .newline := by
    intro t ht
    have hmem := List.mem_map_of_mem (f := Token.toLexeme) ht
    rw [Token.map_place] at hmem
    exact Or.inl (Lexeme.kind_of_mem_row hmem)
  rw [← Lexeme.rawText_row .text u] at h ⊢
  refine hexchange.abreast ?_ (abreast_proseEnd (prose_ends (spanAhead_iff.1 h).2 hr) hlater)
  intro p p' ts ts' hp hts
  refine hts.append (hkind p) (hkind p') ?_ ?_
  · rintro w w' ⟨rfl, rfl⟩
    rw [Token.rawText_place, Token.rawText_place, Lexeme.rawText_row, List.append_nil,
      hsplits.own]
  · rw [Token.rawText_significant_place, Token.rawText_significant_place, Lexeme.filter_row]
    exact Or.inl rfl

/-- A line of prose, or its end. -/
theorem abreast_header {t : Text} (hsource : t <:+ source)
    (hlater : ∀ s, s <:+ t → s.length < t.length → Alongside source s) :
    AbreastProse source (fun w w' => w' = unixLines w) t := by
  have hcut := Text.spanAhead_append staysProse t
  have hspan : spanAhead staysProse ((spanAhead staysProse t).1 ++ (spanAhead staysProse t).2) =
      ((spanAhead staysProse t).1, (spanAhead staysProse t).2) := by rw [hcut]
  generalize (spanAhead staysProse t).1 = u at hcut hspan
  generalize (spanAhead staysProse t).2 = r at hcut hspan
  subst hcut
  cases hr : goesAt (fun c cs => Lexer.endsLine c cs) r with
  | true =>
      obtain ⟨b, s, rfl, hb⟩ := exists_break hr
      refine abreast_proseLine hsource hb hspan (hlater s ?_ ?_)
      · exact ⟨u ++ b, List.append_assoc u b s⟩
      · have hpos := hb.length_pos
        rw [List.length_append, List.length_append]
        omega
  | false =>
      refine abreast_lastLine hspan hr fun s hs hlt => hlater s ?_ ?_
      · exact hs.trans (List.suffix_append u r)
      · rw [List.length_append]
        omega

/-! ### Whole scripts -/

/-- Every end of a script is read abreast with what it becomes. -/
theorem alongside {t : Text} (hsource : t <:+ source) : Alongside source t := by
  induction hn : t.length using Nat.strongRecOn generalizing t with
  | _ n ih =>
      have hlater (s : Text) (hs : s <:+ t) (hlt : s.length < t.length) : Alongside source s :=
        ih s.length (hn ▸ hlt) (hs.trans hsource) rfl
      exact ⟨abreast_script hlater, abreast_header hsource hlater⟩

theorem reading_unixLines (source : Text) :
    Preprocess.Reading (.lineEnds source) source (unixLines source) :=
  Abreast.reading ((alongside (List.suffix_refl source)).script.mono fun _ _ h => h.1)

end

end MapScript
