import MapScript.Proofs.Lexing.Place

/-!
# A line break behind a script

A script that goes on with a line feed reads as it did, but for what separates at
its end: a carriage return that stood last is part of the line break.  Lexemes that
are closed stand before anything; space and line comments go on up to the end of
their line.
-/

namespace MapScript.Lexer

open Text (spanAhead)

/-- Whether a scan up to the end of a line goes on over `c` before `cs`: over a class of
characters, and over a carriage return that no line feed follows. -/
def goesOn (q : Char → Bool) (c : Char) (cs : Text) : Bool :=
  if c = '\r' then cs.head? != some '\n' else q c

theorem isSpace_eq_goesOn :
    isSpace = goesOn fun c => c == ' ' || c == '\t' || c == '\x0c' || c == '\x0b' := by
  funext c cs
  by_cases h : c = '\r' <;> simp [isSpace, goesOn, h]

theorem endsLine_eq_goesOn : (fun c cs => !endsLine c cs) = goesOn fun c => c != '\n' := by
  funext c cs
  by_cases h : c = '\r'
  · simp [endsLine, goesOn, h, bne]
  · have hreturn : (c == '\r') = false := by simpa using h
    simp [endsLine, goesOn, h, hreturn, bne]

theorem spanAhead_cons_iff {p : Char → Text → Bool} {c : Char} {cs a w : Text} :
    spanAhead p (c :: cs) = (c :: a, w) ↔ p c cs = true ∧ spanAhead p cs = (a, w) := by
  rw [spanAhead]
  cases hc : p c cs with
  | false => simp
  | true => simp [Prod.ext_iff]

theorem spanAhead_nil_iff {p : Char → Text → Bool} {c : Char} {cs : Text} :
    spanAhead p (c :: cs) = ([], c :: cs) ↔ p c cs = false := by
  rw [spanAhead]
  cases hc : p c cs <;> simp

section
variable {q : Char → Bool}

/-- Only for a carriage return it counts what follows, and of that the first character. -/
theorem goesOn_congr {c : Char} {cs ds : Text} (h : c = '\r' → cs.head? = ds.head?) :
    goesOn q c cs = goesOn q c ds := by
  rw [goesOn, goesOn]
  split
  · next hc => rw [h hc]
  · rfl

/-- A scan that stopped, or ended with the script on no carriage return, stops there
before a line feed, too. -/
theorem spanAhead_lineFeed (hq : q '\n' = false) {a w : Text}
    (h : spanAhead (goesOn q) (a ++ w) = (a, w)) (hend : w = [] → a.getLast? ≠ some '\r')
    (v : Text) : spanAhead (goesOn q) (a ++ (w ++ '\n' :: v)) = (a, w ++ '\n' :: v) := by
  induction a with
  | nil =>
      cases w with
      | nil => simp [spanAhead, goesOn, hq]
      | cons c w =>
          have hstop : goesOn q c w = false := spanAhead_nil_iff.1 h
          refine spanAhead_nil_iff.2 ?_
          rw [← hstop]
          apply goesOn_congr
          rintro rfl
          -- what stops a scan at a carriage return is the line feed behind it
          cases w with
          | nil => simp [goesOn] at hstop
          | cons d w => rfl
  | cons c a ih =>
      obtain ⟨hc, ha⟩ := spanAhead_cons_iff.1 h
      have hlast : w = [] → a.getLast? ≠ some '\r' := by
        intro hw hreturn
        apply hend hw
        rw [List.getLast?_cons, hreturn]
        rfl
      refine spanAhead_cons_iff.2 ⟨?_, ih ha hlast⟩
      rw [← hc]
      apply goesOn_congr
      rintro rfl
      cases a with
      | cons d a => rfl
      | nil =>
          cases w with
          | cons d w => rfl
          | nil => exact absurd rfl (hend rfl)

/-- A scan that took a carriage return at the end of the script leaves it before a line
feed. -/
theorem spanAhead_carriageReturn {front : Text}
    (h : spanAhead (goesOn q) (front ++ ['\r']) = (front ++ ['\r'], [])) (v : Text) :
    spanAhead (goesOn q) (front ++ '\r' :: '\n' :: v) = (front, '\r' :: '\n' :: v) := by
  induction front with
  | nil => simp [spanAhead, goesOn]
  | cons c front ih =>
      obtain ⟨hc, hfront⟩ := spanAhead_cons_iff.1 h
      refine spanAhead_cons_iff.2 ⟨?_, ih hfront⟩
      rw [← hc]
      apply goesOn_congr
      rintro -
      cases front <;> rfl

end

/-! ### Lexemes before a line feed -/

theorem stands_carriageReturn (t : Text) : Stands ⟨.newline, ['\r', '\n']⟩ t := by
  have hopen : opening '\r' ('\n' :: t) = .carriageReturn := by simp [opening, endsLine]
  exact ⟨'\r', ['\n'], rfl, by simp [scanScript, hopen, Opening.scan]⟩

/-- Only a carriage return begins something else before a line feed than at the end of
the script. -/
theorem opening_lineFeed {c : Char} (h : c ≠ '\r') (v : Text) :
    opening c ('\n' :: v) = opening c [] := by
  have hname : isNameChar '\n' = false := rfl
  have hreturn : (c == '\r') = false := by simpa using h
  simp [opening, endsLine, isSpace, hname, hreturn]

theorem opening_eq_lineFeed {c : Char} {cs : Text} (h : opening c cs = .lineFeed) : c = '\n' := by
  have hmeets := opening_meets c cs
  rwa [h] at hmeets

theorem opening_eq_carriageReturn {c : Char} {cs : Text} (h : opening c cs = .carriageReturn) :
    c = '\r' ∧ cs.head? = some '\n' := by
  have hmeets := opening_meets c cs
  rwa [h] at hmeets

theorem opening_of_isSpace {c : Char} {cs : Text} (h : isSpace c cs = true) :
    opening c cs = .space := by
  simp only [isSpace, Bool.or_eq_true, Bool.and_eq_true, beq_iff_eq, bne_iff_ne] at h
  rcases h with (((rfl | rfl) | rfl) | rfl) | ⟨rfl, hnext⟩
  case inr => simp [opening, endsLine, isSpace, hnext]
  all_goals simp [opening, endsLine, isSpace]

/-! ### What separates -/

/-- A line feed, or a carriage return and a line feed. -/
def IsBreak (b : Text) : Prop := b = ['\n'] ∨ b = ['\r', '\n']

theorem IsBreak.stands {b : Text} (h : IsBreak b) (t : Text) : Stands ⟨.newline, b⟩ t := by
  rcases h with rfl | rfl
  · exact stands_lineFeed t
  · exact stands_carriageReturn t

theorem stands_blockComment {tail r : Text}
    (h : commentTail 1 (tail ++ r) = some (tail, r)) :
    Stands ⟨.comment, '/' :: '*' :: tail⟩ r := by
  refine ⟨'/', '*' :: tail, rfl, ?_⟩
  have hopen : opening '/' ('*' :: (tail ++ r)) = .blockComment := by simp [opening]
  show scanScript '/' ('*' :: (tail ++ r)) = _
  rw [scanScript, hopen]
  show Scan.closed .comment .openComment ((commentTail 1 (tail ++ r)).map _) = _
  rw [h]
  rfl

/-- How a lexeme that separates was scanned. -/
theorem Stands.trivia_cases {l : Lexeme} {r : Text} (h : Stands l r) (hl : l.isTrivia = true) :
    (l.kind = .newline ∧ IsBreak l.raw) ∨
      (l.kind = .blank ∧ spanAhead isSpace (l.raw ++ r) = (l.raw, r)) ∨
      (l.kind = .comment ∧ (∃ tail, l.raw = '/' :: '/' :: tail) ∧
        spanAhead (fun c cs => !endsLine c cs) (l.raw ++ r) = (l.raw, r)) ∨
      (l.kind = .comment ∧ ∃ tail, l.raw = '/' :: '*' :: tail ∧
        commentTail 1 (tail ++ r) = some (tail, r)) := by
  obtain ⟨c, tail, hraw, hscan⟩ := h
  have hkind := Opening.kind?_of_scan hscan
  have hmeets := opening_meets c (tail ++ r)
  unfold scanScript at hscan
  rw [hraw]
  cases ho : opening c (tail ++ r) with
  | nul =>
      rw [ho] at hkind
      cases hkind
  | directive | string | word | number | punct | text =>
      rw [ho] at hkind
      have hsignificant := congrArg TokenKind.isTrivia (Option.some.inj hkind)
      exact absurd (hsignificant.trans hl) (by decide)
  | lineFeed =>
      rw [ho, Opening.scan, Except.ok.injEq, Scan.mk.injEq] at hscan
      obtain ⟨hnewline, rfl, -⟩ := hscan
      rw [opening_eq_lineFeed ho]
      exact Or.inl ⟨hnewline.symm, Or.inl rfl⟩
  | carriageReturn =>
      obtain ⟨rfl, hfeed⟩ := opening_eq_carriageReturn ho
      rw [ho, Opening.scan, Except.ok.injEq, Scan.mk.injEq, List.take_one, hfeed] at hscan
      obtain ⟨hnewline, rfl, -⟩ := hscan
      exact Or.inl ⟨hnewline.symm, Or.inr rfl⟩
  | space =>
      rw [ho] at hscan
      obtain ⟨hblank, htaken⟩ := Scan.of_eq_iff.1 (Except.ok.inj hscan)
      rw [ho] at hmeets
      exact Or.inr (Or.inl ⟨hblank.symm, spanAhead_cons_iff.2 ⟨hmeets, htaken⟩⟩)
  | lineComment =>
      obtain ⟨rfl, hnext⟩ : c = '/' ∧ (tail ++ r).head? = some '/' := by rwa [ho] at hmeets
      rw [ho] at hscan
      obtain ⟨hcomment, htaken⟩ := Scan.of_eq_iff.1 (Except.ok.inj hscan)
      have hgoes (cs : Text) : (!endsLine '/' cs) = true := by simp [endsLine]
      refine Or.inr (Or.inr (Or.inl ⟨hcomment.symm, ?_, spanAhead_cons_iff.2 ⟨hgoes _, htaken⟩⟩))
      obtain ⟨ds, hds⟩ := List.head?_eq_some_iff.1 hnext
      rw [hds] at htaken
      cases tail with
      | nil =>
          have hstop := spanAhead_nil_iff.1 (htaken.trans (by rw [← hds]; rfl))
          rw [hgoes] at hstop
          cases hstop
      | cons d tail =>
          obtain rfl : d = '/' := (List.cons.inj hds).1
          exact ⟨tail, rfl⟩
  | blockComment =>
      obtain ⟨rfl, hnext⟩ : c = '/' ∧ (tail ++ r).head? = some '*' := by rwa [ho] at hmeets
      rw [ho] at hscan hkind
      obtain ⟨taken, htaken, heq⟩ := Option.map_eq_some_iff.1 (Scan.closed_append hscan)
      obtain ⟨ds, hds⟩ := List.head?_eq_some_iff.1 hnext
      rw [hds] at htaken heq
      obtain ⟨rfl, rfl⟩ : '*' :: taken.1 = tail ∧ taken.2 = r := Prod.mk.inj heq
      obtain rfl : taken.1 ++ taken.2 = ds := (List.cons.inj hds).2
      exact Or.inr (Or.inr (Or.inr ⟨(Option.some.inj hkind).symm, taken.1, rfl, htaken⟩))

/-- A lexeme that goes on up to the end of its line, by a class of characters that a line
feed is not in; what it begins with decides the rest. -/
def Runs (l : Lexeme) (w : Text) : Prop :=
  ∃ c tail q, l.raw = c :: tail ∧ q '\n' = false ∧ spanAhead (goesOn q) (tail ++ w) = (tail, w) ∧
    ∀ tail' v, opening c (tail' ++ v) = opening c (tail ++ w) →
      spanAhead (goesOn q) (tail' ++ v) = (tail', v) → Stands ⟨l.kind, c :: tail'⟩ v

/-- A lexeme that separates is closed and stands before anything, or it goes on up to the
end of its line. -/
theorem Stands.closed_or_runs {l : Lexeme} {w : Text} (h : Stands l w) (hl : l.isTrivia = true) :
    (∀ v, Stands l v) ∨ Runs l w := by
  obtain ⟨c, tail, hraw, -⟩ := id h
  obtain ⟨kind, raw⟩ := l
  dsimp only at hraw
  subst hraw
  rcases h.trivia_cases hl with ⟨rfl, hbreak⟩ | ⟨rfl, hspan⟩ | ⟨rfl, ⟨tail', hraw⟩, hspan⟩ |
      ⟨rfl, tail', hraw, hscan⟩
  · exact Or.inl hbreak.stands
  · have hcons : spanAhead isSpace (c :: (tail ++ w)) = (c :: tail, w) := hspan
    obtain ⟨hc, htail⟩ := spanAhead_cons_iff.1 hcons
    refine Or.inr ⟨c, tail, fun c => c == ' ' || c == '\t' || c == '\x0c' || c == '\x0b', rfl, rfl,
      isSpace_eq_goesOn ▸ htail, ?_⟩
    intro tail' v hopen hspan'
    rw [← isSpace_eq_goesOn] at hspan'
    refine ⟨c, tail', rfl, ?_⟩
    rw [scanScript, hopen, opening_of_isSpace hc, Opening.scan, hspan']
    rfl
  · obtain ⟨rfl, rfl⟩ := List.cons.inj hraw
    obtain ⟨-, htail⟩ := spanAhead_cons_iff.1 hspan
    refine Or.inr ⟨'/', '/' :: tail', fun c => c != '\n', rfl, rfl, endsLine_eq_goesOn ▸ htail, ?_⟩
    intro tail v hopen hspan'
    have hcomment : opening '/' ('/' :: tail' ++ w) = .lineComment := by simp [opening]
    rw [← endsLine_eq_goesOn] at hspan'
    refine ⟨'/', tail, rfl, ?_⟩
    rw [scanScript, hopen, hcomment, Opening.scan, hspan']
    rfl
  · obtain ⟨rfl, rfl⟩ := List.cons.inj hraw
    exact Or.inl fun v => stands_blockComment (commentTail_before hscan v)

/-- A lexeme inside a script does not see the line feed behind it. -/
theorem Stands.before_lineFeed {l : Lexeme} {w : Text} (h : Stands l w) (hw : w ≠ []) (v : Text) :
    Stands l (w ++ '\n' :: v) := by
  cases hl : l.isTrivia with
  | false =>
      have hcalmer := Calmer.append_gap w [] (v := '\n' :: v) rfl
      rw [List.append_nil] at hcalmer
      exact h.calmer hl hcalmer
  | true =>
      rcases h.closed_or_runs hl with hclosed | ⟨c, tail, q, hraw, hq, hspan, hstands⟩
      · exact hclosed _
      · have hopen : opening c (tail ++ (w ++ '\n' :: v)) = opening c (tail ++ w) := by
          have hlater : tail ++ w ≠ [] := List.append_ne_nil_of_right_ne_nil tail hw
          obtain ⟨d, ds, hds⟩ := List.exists_cons_of_ne_nil hlater
          apply opening_congr
          rw [← List.append_assoc, hds]
          rfl
        have hlexeme := hstands tail (w ++ '\n' :: v) hopen
          (spanAhead_lineFeed hq hspan (fun h => absurd h hw) v)
        rwa [← hraw] at hlexeme

/-- The last lexeme of a script stands before a line feed, or it separates and gives up
the carriage return at its end. -/
theorem Stands.last_before_lineFeed {l : Lexeme} (h : Stands l []) :
    (∀ v, Stands l ('\n' :: v)) ∨ l.isTrivia = true ∧ ∃ front, l.raw = front ++ ['\r'] ∧
      (front = [] ∨ ∀ v, Stands ⟨l.kind, front⟩ ('\r' :: '\n' :: v)) := by
  cases hl : l.isTrivia with
  | false => exact Or.inl fun v => h.calmer hl (.of_gap rfl)
  | true =>
      rcases h.closed_or_runs hl with hclosed | ⟨c, tail, q, hraw, hq, hspan, hstands⟩
      · exact Or.inl fun v => hclosed _
      rw [List.append_nil] at hspan hstands
      rcases List.eq_nil_or_concat' tail with rfl | ⟨front, d, rfl⟩
      · by_cases hc : c = '\r'
        · exact Or.inr ⟨rfl, [], by rw [hraw, hc]; rfl, Or.inl rfl⟩
        · left
          intro v
          have hlexeme := hstands [] ('\n' :: v) (opening_lineFeed hc v)
            (by simp [spanAhead, goesOn, hq])
          rwa [← hraw] at hlexeme
      by_cases hd : d = '\r'
      · subst hd
        refine Or.inr ⟨rfl, c :: front, hraw, Or.inr fun v => ?_⟩
        apply hstands front ('\r' :: '\n' :: v) _ (spanAhead_carriageReturn hspan v)
        apply opening_congr
        cases front <;> rfl
      · left
        intro v
        have hopen : opening c (front ++ [d] ++ '\n' :: v) = opening c (front ++ [d] ++ []) := by
          apply opening_congr
          cases front <;> rfl
        have hspan' := spanAhead_lineFeed (w := []) hq (by simpa using hspan) (by simpa using hd) v
        have hlexeme := hstands (front ++ [d]) ('\n' :: v) (by simpa using hopen) hspan'
        rwa [← hraw] at hlexeme

/-! ### Scripts before a line feed -/

theorem opensHeader_of_isTrivia {l : Lexeme} (h : l.isTrivia = true) : opensHeader l = false := by
  cases hkind : l.kind <;> simp [Lexeme.isTrivia, TokenKind.isTrivia, opensHeader, hkind] at h ⊢

/-- What separates at the end of a script, one lexeme that is to give up its carriage
return, goes on with a line break. -/
theorem reads_carriageReturn {l : Lexeme} {front : Text} (hl : l.isTrivia = true)
    (hraw : l.raw = front ++ ['\r'])
    (hfront : front = [] ∨ ∀ v, Stands ⟨l.kind, front⟩ ('\r' :: '\n' :: v)) (v : Text) :
    ∃ tail, (∀ m ∈ tail, m.isTrivia = true) ∧ Lexeme.rawText tail = l.raw ++ ['\n'] ∧
      Reads tail v := by
  have hreturn : Reads [⟨.newline, ['\r', '\n']⟩] v := ⟨stands_carriageReturn v, rfl, trivial⟩
  rcases hfront with rfl | hstands
  · refine ⟨_, ?_, ?_, hreturn⟩
    · simp [Lexeme.isTrivia, TokenKind.isTrivia]
    · simp [Lexeme.rawText, hraw]
  · refine ⟨⟨l.kind, front⟩ :: [⟨.newline, ['\r', '\n']⟩], ?_, ?_, hstands v, ?_, hreturn⟩
    · simpa [Lexeme.isTrivia, TokenKind.isTrivia] using hl
    · simp [Lexeme.rawText, hraw]
    · exact opensHeader_of_isTrivia hl

/-- A script before a line feed reads as it did alone, but for what separates at its end. -/
theorem Reads.before_lineFeed {ls : List Lexeme} (h : Reads ls []) (v : Text) :
    ∃ core tail tail', ls = core ++ tail ∧ (∀ l ∈ tail, l.isTrivia = true) ∧
      (∀ l ∈ tail', l.isTrivia = true) ∧
      Lexeme.rawText (core ++ tail') = Lexeme.rawText ls ++ ['\n'] ∧ Reads (core ++ tail') v := by
  have hfeed : ∀ l ∈ [(⟨.newline, ['\n']⟩ : Lexeme)], l.isTrivia = true := by
    simp [Lexeme.isTrivia, TokenKind.isTrivia]
  have hreads : Reads [⟨.newline, ['\n']⟩] v := ⟨stands_lineFeed v, rfl, trivial⟩
  induction ls with
  | nil => exact ⟨[], [], _, rfl, by simp, hfeed, rfl, hreads⟩
  | cons l ls ih =>
      obtain ⟨hstands, hopens, htail⟩ := h
      rw [List.append_nil] at hstands
      by_cases hls : ls = []
      · subst hls
        rcases hstands.last_before_lineFeed with hbefore | ⟨hl, front, hraw, hfront⟩
        · exact ⟨[l], [], _, rfl, by simp, hfeed, by simp [Lexeme.rawText], hbefore v, hopens,
            hreads⟩
        · obtain ⟨tail', htrivia, htext, hbreak⟩ := reads_carriageReturn hl hraw hfront v
          refine ⟨[], [l], tail', rfl, by simpa using hl, htrivia, ?_, hbreak⟩
          simpa [Lexeme.rawText] using htext
      · obtain ⟨core, tail, tail', rfl, htrivia, htrivia', htext, hcore⟩ := ih htail
        have hne : Lexeme.rawText (core ++ tail) ≠ [] := fun he =>
          hls (htail.eq_nil_of_rawText he)
        have hstands' : Stands l (Lexeme.rawText (core ++ tail') ++ v) := by
          rw [htext, List.append_assoc]
          exact hstands.before_lineFeed hne v
        refine ⟨l :: core, tail, tail', rfl, htrivia, htrivia', ?_, hstands', hopens, hcore⟩
        calc Lexeme.rawText (l :: (core ++ tail'))
            = l.raw ++ Lexeme.rawText (core ++ tail') := rfl
          _ = Lexeme.rawText (l :: (core ++ tail)) ++ ['\n'] := by
              rw [htext, ← List.append_assoc]
              rfl

end MapScript.Lexer
