import MapScript.Proofs.Lexing.Lookahead
import MapScript.Proofs.Lexing.Numeral
import MapScript.Proofs.Lexing.Space

/-!
# Line ends of one or two characters

A script with a carriage return before some of its line feeds, and what it is without
those.  No significant lexeme of script goes over a line end, so each stands before the
changed rest as it did; strings, comments and prose are followed through their scanners.
-/

namespace MapScript

/-- The text with line feeds alone where a carriage return and a line feed stood. -/
def Text.unixLines : Text → Text
  | [] => []
  | '\r' :: '\n' :: cs => '\n' :: unixLines cs
  | c :: cs => c :: unixLines cs

namespace Text

theorem unixLines_break (cs : Text) : unixLines ('\r' :: '\n' :: cs) = '\n' :: unixLines cs := by
  rw [unixLines]

theorem unixLines_cons {c : Char} {cs : Text} (h : c = '\r' → cs.head? ≠ some '\n') :
    unixLines (c :: cs) = c :: unixLines cs := by
  rw [unixLines]
  rintro ds rfl rfl
  exact h rfl rfl

/-- A text without a line feed stays, and what follows changes on its own. -/
theorem unixLines_append {u v : Text} (hu : '\n' ∉ u)
    (h : u.getLast? = some '\r' → v.head? ≠ some '\n') :
    unixLines (u ++ v) = u ++ unixLines v := by
  induction u with
  | nil => rfl
  | cons c u ih =>
      rw [List.mem_cons, not_or] at hu
      have hlater : u.getLast? = some '\r' → v.head? ≠ some '\n' := by
        intro hlast
        apply h
        rw [List.getLast?_cons, hlast]
        rfl
      rw [List.cons_append, unixLines_cons, ih hu.2 hlater, List.cons_append]
      rintro rfl
      cases u with
      | nil => exact h rfl
      | cons d u =>
          rw [List.cons_append, List.head?_cons]
          rintro ⟨⟩
          exact hu.2 List.mem_cons_self

/-- The front of a text becomes another, on its own and before the rest. -/
structure Splits (u u' r : Text) : Prop where
  own : unixLines u = u'
  apart : unixLines (u ++ r) = u' ++ unixLines r

/-- A text without a line feed stays, before anything that does not end a line with it. -/
theorem splits_self {u r : Text} (hu : '\n' ∉ u)
    (h : u.getLast? = some '\r' → r.head? ≠ some '\n') : Splits u u r where
  own := by
    have hself := unixLines_append (v := []) hu (by simp)
    simpa [unixLines] using hself
  apart := unixLines_append hu h

/-- How a text that is not empty begins, before and after. -/
theorem unixLines_uncons (c : Char) (cs : Text) :
    (∃ ds, c = '\r' ∧ cs = '\n' :: ds ∧ unixLines (c :: cs) = '\n' :: unixLines ds) ∨
      ((c = '\r' → cs.head? ≠ some '\n') ∧ unixLines (c :: cs) = c :: unixLines cs) := by
  by_cases h : c = '\r' ∧ cs.head? = some '\n'
  · obtain ⟨rfl, hfeed⟩ := h
    cases cs with
    | nil => cases hfeed
    | cons d ds =>
        obtain rfl : d = '\n' := by simpa using hfeed
        exact Or.inl ⟨ds, rfl, rfl, unixLines_break ds⟩
  · have hc : c = '\r' → cs.head? ≠ some '\n' := fun hc hfeed => h ⟨hc, hfeed⟩
    exact Or.inr ⟨hc, unixLines_cons hc⟩

/-- The first character stays, or a line feed comes in the place of a carriage return. -/
theorem head?_unixLines (t : Text) :
    (unixLines t).head? = t.head? ∨
      (t.head? = some '\r' ∧ (unixLines t).head? = some '\n') := by
  cases t with
  | nil => exact Or.inl rfl
  | cons c cs =>
      rcases unixLines_uncons c cs with ⟨ds, rfl, rfl, heq⟩ | ⟨-, heq⟩
      · exact Or.inr ⟨rfl, by rw [heq]; rfl⟩
      · exact Or.inl (by rw [heq]; rfl)

theorem lineFeed_mem_unixLines (t : Text) : '\n' ∈ unixLines t ↔ '\n' ∈ t := by
  induction t using unixLines.induct with
  | case1 => rfl
  | case2 cs ih => simp [unixLines_break]
  | case3 c cs hbreak ih =>
      rw [unixLines, List.mem_cons, List.mem_cons, ih]
      exact hbreak

/-- What stands in front without a line feed stood there before. -/
theorem exists_append_of_unixLines {t w v : Text} (hw : '\n' ∉ w) (h : unixLines t = w ++ v) :
    ∃ u, t = w ++ u ∧ unixLines u = v := by
  induction w generalizing t with
  | nil => exact ⟨t, rfl, h⟩
  | cons c w ih =>
      rw [List.mem_cons, not_or] at hw
      cases t with
      | nil => cases h
      | cons d ds =>
          rcases unixLines_uncons d ds with ⟨es, -, -, heq⟩ | ⟨-, heq⟩
          · rw [heq, List.cons_append, List.cons.injEq] at h
            exact absurd h.1 hw.1
          · rw [heq, List.cons_append, List.cons.injEq] at h
            obtain ⟨u, rfl, hu⟩ := ih hw.2 h.2
            exact ⟨u, by rw [h.1]; rfl, hu⟩

/-- A carriage return goes with the line feed behind it only. -/
theorem advance_unixLines {p p' : Position} (h : p.line = p'.line ∧ p.column = p'.column)
    (t : Text) : (p.advance t).line = (p'.advance (unixLines t)).line ∧
      (p.advance t).column = (p'.advance (unixLines t)).column := by
  have hnext {p p' : Position} (h : p.line = p'.line ∧ p.column = p'.column) (c : Char) :
      (p.next c).line = (p'.next c).line ∧ (p.next c).column = (p'.next c).column := by
    rw [Position.next, Position.next, h.1, h.2]
    split <;> exact ⟨rfl, rfl⟩
  induction t using unixLines.induct generalizing p p' with
  | case1 => exact h
  | case2 cs ih =>
      rw [unixLines_break, Position.advance_cons, Position.advance_cons, Position.advance_cons]
      apply ih
      refine ⟨?_, rfl⟩
      show p.line + 1 = p'.line + 1
      rw [h.1]
  | case3 c cs hbreak ih =>
      rw [unixLines, Position.advance_cons, Position.advance_cons]
      · exact ih (hnext h c)
      · exact hbreak

end Text

namespace Lexer

open Text (spanAhead unixLines unixLines_cons unixLines_break unixLines_append unixLines_uncons)

/-! ### Significant lexemes -/

/-- A string ends with its quote and goes over no line end. -/
theorem stringTail_unbroken {cs : Text} {taken : Text × Text} (h : stringTail cs = some taken) :
    '\n' ∉ taken.1 ∧ taken.1.getLast? = some '"' := by
  have hcons {c : Char} {t : Text} (hc : c ≠ '\n') (ht : '\n' ∉ t ∧ t.getLast? = some '"') :
      '\n' ∉ c :: t ∧ (c :: t).getLast? = some '"' := by
    refine ⟨?_, by rw [List.getLast?_cons, ht.2]; rfl⟩
    rw [List.mem_cons, not_or]
    exact ⟨hc.symm, ht.1⟩
  fun_induction stringTail cs generalizing taken with
  | case1 => cases h
  | case2 cs ih =>
      obtain ⟨inner, hi, rfl⟩ := Option.map_eq_some_iff.1 h
      exact hcons (by decide) (hcons (by decide) (ih hi))
  | case3 cs =>
      cases h
      exact ⟨by simp, rfl⟩
  | case4 => cases h
  | case5 c cs hescape hquote hends ih =>
      obtain ⟨inner, hi, rfl⟩ := Option.map_eq_some_iff.1 h
      refine hcons ?_ (ih hi)
      rintro rfl
      exact hends rfl

/-- A significant lexeme of script goes over no line end and does not stop within one. -/
theorem Stands.unbroken {l : Lexeme} {u : Text} (h : Stands l u) (hl : l.isTrivia = false) :
    '\n' ∉ l.raw ∧ l.raw.getLast? ≠ some '\r' := by
  obtain ⟨c, tail, hraw, hscan⟩ := h
  have hfirst : c ∉ spaceChars := by
    obtain ⟨d, rest, hraw', hd⟩ := Stands.head_notMem ⟨c, tail, hraw, hscan⟩ hl
    rw [hraw, List.cons.injEq] at hraw'
    rwa [hraw'.1]
  have hsig := Opening.isSignificant_of_scan hscan hl
  have hclass (htail : ∀ d ∈ tail, d ≠ '\n' ∧ d ≠ '\r') :
      '\n' ∉ c :: tail ∧ (c :: tail).getLast? ≠ some '\r' := by
    have hall : ∀ d ∈ c :: tail, d ≠ '\n' ∧ d ≠ '\r' := by
      refine List.forall_mem_cons.2 ⟨⟨?_, ?_⟩, htail⟩ <;> rintro rfl <;> simp [spaceChars] at hfirst
    exact ⟨fun hmem => (hall _ hmem).1 rfl,
      fun hlast => (hall _ (List.mem_of_getLast? hlast)).2 rfl⟩
  have hspan {p : Char → Bool} {kind : TokenKind} (hfeed : p '\n' = false)
      (hreturn : p '\r' = false)
      (hs : Except.ok (Scan.of kind (spanAhead (fun c _ => p c) (tail ++ u))) =
        (.ok ⟨l.kind, tail, u⟩ : Except Cause Scan)) : ∀ d ∈ tail, d ≠ '\n' ∧ d ≠ '\r' := by
    obtain ⟨-, htaken⟩ := Scan.of_eq_iff.1 (Except.ok.inj hs)
    have hmem := of_mem_spanAhead (p := p) (tail ++ u)
    rw [htaken] at hmem
    intro d hd
    have hpd := hmem d hd
    constructor <;> rintro rfl
    · rw [hfeed] at hpd
      cases hpd
    · rw [hreturn] at hpd
      cases hpd
  rw [hraw]
  unfold scanScript at hscan
  cases ho : opening c (tail ++ u) with
  | nul | blockComment | lineComment | lineFeed | carriageReturn | space =>
      rw [ho] at hsig
      cases hsig
  | directive | word =>
      rw [ho] at hscan
      exact hclass (hspan (p := isNameChar) rfl rfl hscan)
  | text =>
      rw [ho] at hscan
      exact hclass (hspan (p := fun c => 128 ≤ c.toNat && !Text.isBlank c) (by decide) (by decide)
        hscan)
  | number =>
      rw [ho] at hscan
      obtain ⟨-, htaken⟩ := Scan.of_eq_iff.1 (Except.ok.inj hscan)
      have hmem := of_mem_numeralTail (t := tail ++ u)
      rw [htaken] at hmem
      refine hclass fun d hd => ?_
      rcases hmem d hd with hdigit | rfl
      · constructor <;> rintro rfl <;> simp at hdigit
      · decide
  | punct =>
      rw [ho, Opening.scan, Except.ok.injEq, Scan.mk.injEq] at hscan
      obtain ⟨-, rfl, -⟩ := hscan
      exact hclass (by simp)
  | string =>
      rw [ho] at hscan
      have htaken := stringTail_unbroken (Scan.closed_append hscan)
      refine ⟨?_, ?_⟩
      · rw [List.mem_cons, not_or]
        refine ⟨?_, htaken.1⟩
        rintro rfl
        simp [spaceChars] at hfirst
      · rw [List.getLast?_cons, htaken.2]
        simp

theorem calmer_unixLines (t : Text) : Calmer t (unixLines t) := by
  cases t with
  | nil => exact .of_gap rfl
  | cons c cs =>
      rcases unixLines_uncons c cs with ⟨ds, rfl, rfl, heq⟩ | ⟨-, heq⟩
      · rw [heq]
        exact .of_gap rfl
      · rw [heq]
        refine Or.inr ⟨rfl, ?_⟩
        rcases Text.head?_unixLines cs with hsame | ⟨-, hfeed⟩
        · exact Or.inr hsame.symm
        · left
          rw [List.tail_cons, hfeed]
          rfl

/-- A significant lexeme stands before the changed rest, and is not changed itself. -/
theorem Stands.before_unixLines {l : Lexeme} {u : Text} (h : Stands l u)
    (hl : l.isTrivia = false) :
    Text.Splits l.raw l.raw u ∧ Stands l (unixLines u) := by
  obtain ⟨hfeed, hlast⟩ := h.unbroken hl
  exact ⟨Text.splits_self hfeed fun hreturn => absurd hreturn hlast,
    h.calmer hl (calmer_unixLines u)⟩

/-! ### Strings and comments -/

/-- Where a line comes to end that did not, two characters end it. -/
theorem exists_break_of_endsLine {c : Char} {cs : Text} (h : endsLine c cs = false)
    (h' : endsLine c (unixLines cs) = true) : ∃ es, cs = '\r' :: '\n' :: es := by
  have hc : c ≠ '\n' := by
    rintro rfl
    simp [endsLine] at h
  rcases Text.head?_unixLines cs with hsame | ⟨hreturn, -⟩
  · rw [endsLine, hsame, ← endsLine, h] at h'
    cases h'
  · obtain ⟨ds, rfl⟩ := List.head?_eq_some_iff.1 hreturn
    rcases unixLines_uncons '\r' ds with ⟨es, -, rfl, -⟩ | ⟨-, heq⟩
    · exact ⟨es, rfl⟩
    · rw [heq] at h'
      simp [endsLine, hc] at h'

/-- A string is closed in both texts or in neither. -/
theorem stringTail_unixLines (cs : Text) :
    stringTail (unixLines cs) = (stringTail cs).map fun taken => (taken.1, unixLines taken.2) := by
  fun_induction stringTail cs with
  | case1 => rfl
  | case2 cs ih =>
      rw [unixLines_cons (by simp), unixLines_cons (by simp), stringTail, ih, Option.map_map,
        Option.map_map]
      rfl
  | case3 cs =>
      rw [unixLines_cons (by simp), stringTail]
      rfl
  | case4 c cs hescape hquote hends =>
      have hfeed : ∃ ds, unixLines (c :: cs) = '\n' :: ds := by
        rcases unixLines_uncons c cs with ⟨ds, -, -, heq⟩ | ⟨hc, heq⟩
        · exact ⟨_, heq⟩
        · simp only [endsLine, Bool.or_eq_true, Bool.and_eq_true, beq_iff_eq] at hends
          rcases hends with rfl | ⟨hreturn, hnext⟩
          · exact ⟨_, heq⟩
          · exact absurd hnext (hc hreturn)
      obtain ⟨ds, hds⟩ := hfeed
      rw [hds, stringTail] <;> simp [endsLine]
  | case5 c cs hescape hquote hends ih =>
      have hc : c = '\r' → cs.head? ≠ some '\n' := by
        rintro rfl hfeed
        simp [endsLine, hfeed] at hends
      rw [unixLines_cons hc, stringTail]
      · by_cases hends' : endsLine c (unixLines cs) = true
        · -- the rest begins with the two characters of a line end, where no string goes on
          obtain ⟨es, rfl⟩ := exists_break_of_endsLine (by simpa using hends) hends'
          have hnone : stringTail ('\r' :: '\n' :: es) = none := by
            rw [stringTail] <;> simp [endsLine]
          rw [if_pos hends', hnone]
          rfl
        · rw [if_neg hends', ih, Option.map_map, Option.map_map]
          rfl
      · rintro ds rfl hcs
        rcases Text.head?_unixLines cs with hsame | ⟨-, hfeed⟩
        · rw [hcs] at hsame
          cases cs with
          | nil => cases hsame
          | cons d ds' =>
              obtain rfl : '"' = d := by simpa using hsame
              exact hescape ds' rfl rfl
        · rw [hcs] at hfeed
          cases hfeed
      · exact hquote

/-- A comment is closed in both texts or in neither. -/
theorem commentTail_unixLines (depth : Nat) (cs : Text) :
    commentTail depth (unixLines cs) =
      (commentTail depth cs).map fun taken => (unixLines taken.1, unixLines taken.2) := by
  have hcons {c : Char} {t : Text} (hc : c ≠ '\r') : unixLines (c :: t) = c :: unixLines t :=
    unixLines_cons fun hreturn => absurd hreturn hc
  fun_induction commentTail depth cs with
  | case1 cs => simp [commentTail, unixLines]
  | case2 => rfl
  | case3 depth cs ih =>
      rw [hcons (by decide), hcons (by decide), commentTail, ih, Option.map_map, Option.map_map]
      rfl
  | case4 depth cs ih =>
      rw [hcons (by decide), hcons (by decide), commentTail, ih, Option.map_map, Option.map_map]
      rfl
  | case5 depth c cs hopen hclose ih =>
      rcases unixLines_uncons c cs with ⟨ds, rfl, rfl, heq⟩ | ⟨hc, heq⟩
      · rw [heq, ← hcons (by decide), ih]
        -- what the scan of the rest took begins with the line feed
        have hinner : commentTail (depth + 1) ('\n' :: ds) =
            (commentTail (depth + 1) ds).map (putFront ['\n']) := by
          rw [commentTail] <;> simp
        rw [hinner, Option.map_map, Option.map_map, Option.map_map]
        rfl
      · have hpair {x y : Char} (hx : x ≠ '\n') (hno : ∀ ds, c = y → cs = x :: ds → False) :
            ∀ ds, c = y → unixLines cs = x :: ds → False := by
          intro ds hcy hds
          rcases Text.head?_unixLines cs with hsame | ⟨-, hfeed⟩
          · rw [hds] at hsame
            cases cs with
            | nil => cases hsame
            | cons d ds' =>
                obtain rfl : x = d := by simpa using hsame
                exact hno ds' hcy rfl
          · rw [hds, List.head?_cons, Option.some.injEq] at hfeed
            exact hx hfeed
        rw [heq, commentTail, ih]
        · cases hinner : commentTail (depth + 1) cs with
          | none => rfl
          | some inner =>
              obtain ⟨x, xs, hx⟩ := List.exists_cons_of_ne_nil (commentTail_ne_nil hinner)
              have hhead : inner.1.head? = cs.head? := by
                rw [← commentTail_append hinner, hx]
                rfl
              simp only [Option.map_some, putFront, List.cons_append, List.nil_append]
              rw [unixLines_cons fun hreturn => hhead ▸ hc hreturn]
        · exact hpair (by decide) hopen
        · exact hpair (by decide) hclose

/-! ### Prose -/

/-- The header end begins in both texts or in neither. -/
theorem startsHeaderEnd_unixLines (t : Text) :
    startsHeaderEnd (unixLines t) = startsHeaderEnd t := by
  have hname {w : Text} (h : Text.upper w = headerEnd) : '\n' ∉ w ∧ w.getLast? ≠ some '\r' := by
    have hchars := isNameChar_of_upper_eq h
    constructor
    · intro hmem
      cases hchars _ hmem
    · intro hlast
      cases hchars _ (List.mem_of_getLast? hlast)
  have hruns (v : Text) : (unixLines v).head?.any runsOn = v.head?.any runsOn := by
    rcases Text.head?_unixLines v with hsame | ⟨hreturn, hfeed⟩
    · rw [hsame]
    · rw [hreturn, hfeed]
      rfl
  have hend {w v : Text} (hw : w.length = headerEnd.length) (hupper : Text.upper w = headerEnd) :
      startsHeaderEnd ('#' :: (w ++ v)) = !v.head?.any runsOn := by
    rw [startsHeaderEnd, ← hw, List.take_left, List.drop_left, hupper]
    simp
  cases t with
  | nil => rfl
  | cons c cs =>
      by_cases hc : c = '#'
      · subst hc
        rw [unixLines_cons (by simp)]
        have hlength {w : Text} (h : Text.upper w = headerEnd) : w.length = headerEnd.length := by
          rw [← h, Text.upper, List.length_map]
        by_cases hhere : Text.upper (cs.take headerEnd.length) = headerEnd
        · obtain ⟨hfeed, hlast⟩ := hname hhere
          have hcut := List.take_append_drop headerEnd.length cs
          rw [← hcut, unixLines_append hfeed fun h => absurd h hlast, hend (hlength hhere) hhere,
            hend (hlength hhere) hhere, hruns]
        · by_cases hthere : Text.upper ((unixLines cs).take headerEnd.length) = headerEnd
          · have hcut := List.take_append_drop headerEnd.length (unixLines cs)
            obtain ⟨u, hu, -⟩ := Text.exists_append_of_unixLines (hname hthere).1 hcut.symm
            exfalso
            apply hhere
            rw [hu, List.take_left' (hlength hthere)]
            exact hthere
          · have hno {cs : Text} (h : ¬Text.upper (cs.take headerEnd.length) = headerEnd) :
                startsHeaderEnd ('#' :: cs) = false := by
              simp [startsHeaderEnd, h]
            rw [hno hhere, hno hthere]
      · have hno {c : Char} (hc : c ≠ '#') (cs : Text) : startsHeaderEnd (c :: cs) = false := by
          rw [startsHeaderEnd]
          simpa using hc
        rcases unixLines_uncons c cs with ⟨ds, rfl, rfl, heq⟩ | ⟨-, heq⟩
        · rw [heq, hno (by decide), hno (by decide)]
        · rw [heq, hno hc, hno hc]

/-! ### Lines -/

/-- A scan takes a text and leaves another if it goes on all over the one and not over
the other. -/
theorem spanAhead_iff {p : Char → Text → Bool} {a w : Text} :
    spanAhead p (a ++ w) = (a, w) ↔
      (∀ x c b, a = x ++ c :: b → p c (b ++ w) = true) ∧ goesAt p w = false := by
  induction a with
  | nil =>
      have hstop : spanAhead p w = ([], w) ↔ goesAt p w = false := by
        cases w with
        | nil => simp [spanAhead, goesAt]
        | cons c cs => exact spanAhead_nil_iff
      rw [List.nil_append, hstop]
      constructor
      · intro hgoes
        exact ⟨by simp, hgoes⟩
      · exact And.right
  | cons d a ih =>
      rw [List.cons_append, spanAhead_cons_iff, ih]
      constructor
      · rintro ⟨hd, ha, hstop⟩
        refine ⟨?_, hstop⟩
        intro x c b hcut
        cases x with
        | nil =>
            obtain ⟨rfl, rfl⟩ := List.cons.inj hcut
            exact hd
        | cons y x => exact ha x c b (List.cons.inj hcut).2
      · rintro ⟨ha, hstop⟩
        refine ⟨ha [] d a rfl, ?_, hstop⟩
        intro x c b hcut
        exact ha (d :: x) c b (by rw [hcut]; rfl)

/-- No line ends within a text where it stands before another. -/
def Unended (u w : Text) : Prop := '\n' ∉ u ∧ (u.getLast? = some '\r' → w.head? ≠ some '\n')

theorem unended_iff {u w : Text} :
    Unended u w ↔ ∀ x c b, u = x ++ c :: b → endsLine c (b ++ w) = false := by
  constructor
  · rintro ⟨hfeed, hlast⟩ x c b rfl
    rw [List.mem_append, List.mem_cons, not_or, not_or] at hfeed
    have hc : c ≠ '\n' := fun hc => hfeed.2.1 hc.symm
    simp only [endsLine, Bool.or_eq_false_iff, beq_eq_false_iff_ne, Bool.and_eq_false_iff]
    refine ⟨hc, ?_⟩
    by_cases hreturn : c = '\r'
    · right
      cases b with
      | nil => exact hlast (by simp [hreturn])
      | cons d b =>
          rw [List.cons_append, List.head?_cons]
          rintro ⟨⟩
          exact hfeed.2.2 List.mem_cons_self
    · exact Or.inl hreturn
  · intro h
    constructor
    · intro hmem
      obtain ⟨x, b, rfl⟩ := List.append_of_mem hmem
      have hends := h x '\n' b rfl
      simp [endsLine] at hends
    · intro hlast hfeed
      obtain ⟨x, rfl⟩ := List.getLast?_eq_some_iff.1 hlast
      have hends := h x '\r' [] rfl
      rw [List.nil_append, endsLine, hfeed] at hends
      cases hends

theorem exists_break {r : Text} (h : goesAt (fun c cs => Lexer.endsLine c cs) r = true) :
    ∃ b s, r = b ++ s ∧ IsBreak b := by
  cases r with
  | nil => cases h
  | cons c cs =>
      simp only [goesAt, Lexer.endsLine, Bool.or_eq_true, Bool.and_eq_true, beq_iff_eq] at h
      rcases h with rfl | ⟨rfl, hfeed⟩
      · exact ⟨['\n'], cs, rfl, Or.inl rfl⟩
      · obtain ⟨ds, rfl⟩ := List.head?_eq_some_iff.1 hfeed
        exact ⟨['\r', '\n'], ds, rfl, Or.inr rfl⟩

theorem IsBreak.length_pos {b : Text} (h : IsBreak b) : 0 < b.length := by
  rcases h with rfl | rfl <;> simp

theorem IsBreak.endsLine {b : Text} (h : IsBreak b) (r : Text) :
    goesAt (fun c cs => Lexer.endsLine c cs) (b ++ r) = true := by
  rcases h with rfl | rfl <;> simp [goesAt, Lexer.endsLine]

/-- Where no line ends, the first character stays as it is. -/
theorem unixLines_cons_of_endsLine {c : Char} {cs : Text} (h : endsLine c cs = false) :
    unixLines (c :: cs) = c :: unixLines cs := by
  apply unixLines_cons
  rintro rfl hfeed
  simp [endsLine, hfeed] at h

/-- What stands behind a character within its line becomes what stands behind it then. -/
theorem unixLines_behind {x w y : Text} {c : Char} (hfeed : '\n' ∉ x ++ [c])
    (hends : endsLine c w = false) (h : unixLines (x ++ c :: w) = x ++ c :: y) :
    unixLines w = y := by
  have hlast : (x ++ [c]).getLast? = some '\r' → w.head? ≠ some '\n' := by
    intro hreturn hnext
    obtain rfl : c = '\r' := by simpa using hreturn
    rw [endsLine, hnext] at hends
    cases hends
  rw [List.append_cons, unixLines_append hfeed hlast] at h
  simpa using h

theorem head?_unixLines_of_goesAt {r : Text}
    (h : goesAt (fun c cs => Lexer.endsLine c cs) r = false) :
    (unixLines r).head? = r.head? := by
  cases r with
  | nil => rfl
  | cons c cs => rw [unixLines_cons_of_endsLine h, List.head?_cons, List.head?_cons]

/-- A line before its break: what they become is a line before its break again, and the
line gives up a carriage return to the break, if anything. -/
theorem unixLines_line {u b : Text} (hb : IsBreak b) (hu : Unended u b) :
    ∃ v b', IsBreak b' ∧ (∀ r, Unended v (b' ++ r)) ∧
      (v = u ∨ u = v ++ ['\r'] ∧ b = ['\r', '\n']) ∧
      ∀ r, Text.Splits (u ++ b) (v ++ b') r := by
  obtain ⟨hfeed, hlast⟩ := hu
  have splits {v b' : Text}
      (h : ∀ r, unixLines (u ++ (b ++ r)) = v ++ (b' ++ unixLines r)) (r : Text) :
      Text.Splits (u ++ b) (v ++ b') r := by
    constructor
    · have hown := h []
      simpa [unixLines] using hown
    · rw [List.append_assoc, List.append_assoc, h]
  rcases hb with rfl | rfl
  · refine ⟨u, ['\n'], Or.inl rfl, fun r => ⟨hfeed, hlast⟩, Or.inl rfl, splits fun r => ?_⟩
    rw [unixLines_append hfeed fun h => absurd rfl (hlast h)]
    rfl
  · by_cases hreturn : u.getLast? = some '\r'
    · obtain ⟨v, rfl⟩ := List.getLast?_eq_some_iff.1 hreturn
      have hfeed' : '\n' ∉ v := fun h => hfeed (List.mem_append_left _ h)
      refine ⟨v, ['\r', '\n'], Or.inr rfl, fun r => ⟨hfeed', by simp⟩, Or.inr ⟨rfl, rfl⟩,
        splits fun r => ?_⟩
      rw [List.append_assoc, unixLines_append hfeed' (by simp)]
      rfl
    · refine ⟨u, ['\n'], Or.inl rfl, fun r => ⟨hfeed, fun h => absurd h hreturn⟩, Or.inl rfl,
        splits fun r => ?_⟩
      rw [unixLines_append hfeed fun h => absurd h hreturn]
      rfl

/-! ### Scans within a line -/

/-- A scan that ends with its line at the latest, and where no line ends goes on before a
text as before what the text becomes. -/
structure Steady (p : Char → Text → Bool) : Prop where
  line : ∀ {c cs}, p c cs = true → endsLine c cs = false
  unix : ∀ {c cs}, endsLine c cs = false → endsLine c (unixLines cs) = false →
    p c (unixLines cs) = p c cs

theorem steady_goesOn {q : Char → Bool} (hq : q '\n' = false) : Steady (goesOn q) where
  line := by
    intro c cs h
    rw [goesOn] at h
    split at h
    · next hc => simpa [endsLine, hc] using h
    · next hc =>
      have hfeed : c ≠ '\n' := by
        rintro rfl
        rw [hq] at h
        cases h
      simp [endsLine, hc, hfeed]
  unix := by
    intro c cs h h'
    rw [goesOn, goesOn]
    split
    · next hc =>
      have hnext {w : Text} (hw : endsLine c w = false) : (w.head? != some '\n') = true := by
        simpa [endsLine, hc] using hw
      rw [hnext h, hnext h']
    · rfl

/-- Whether prose goes on in its line over `c` before `cs`. -/
def staysProse (c : Char) (cs : Text) : Bool :=
  !(c == '\x00' || endsLine c cs || startsHeaderEnd (c :: cs))

theorem steady_staysProse : Steady staysProse where
  line := by
    intro c cs h
    simp only [staysProse, Bool.not_eq_true', Bool.or_eq_false_iff] at h
    exact h.1.2
  unix := by
    intro c cs h h'
    rw [staysProse, staysProse, h, h', ← unixLines_cons_of_endsLine h, startsHeaderEnd_unixLines]

namespace Steady

variable {p : Char → Text → Bool} {u b r : Text}

theorem unended (hp : Steady p) (h : spanAhead p (u ++ r) = (u, r)) : Unended u r :=
  unended_iff.2 fun x c d hcut => hp.line ((spanAhead_iff.1 h).1 x c d hcut)

/-- No scan goes on over a break. -/
theorem goesAt_break (hp : Steady p) (hb : IsBreak b) (r : Text) :
    goesAt p (b ++ r) = false := by
  have hends := hb.endsLine r
  cases hcut : b ++ r with
  | nil => rfl
  | cons c cs =>
      have hhere : endsLine c cs = true := by rwa [hcut] at hends
      by_contra hgoes
      have hover : p c cs = true := by simpa [goesAt] using hgoes
      rw [hp.line hover] at hhere
      cases hhere

/-- A scan that stops at a break takes what remains of its line before what remains of the
break. -/
theorem spanAhead_break (hp : Steady p) (hb : IsBreak b)
    (h : spanAhead p (u ++ (b ++ r)) = (u, b ++ r)) :
    ∃ v b', IsBreak b' ∧ (v = u ∨ u = v ++ ['\r'] ∧ b = ['\r', '\n']) ∧
      (∀ s, Text.Splits (u ++ b) (v ++ b') s) ∧
      spanAhead p (v ++ (b' ++ unixLines r)) = (v, b' ++ unixLines r) := by
  have hu : Unended u b := by
    obtain ⟨hfeed, hlast⟩ := hp.unended h
    refine ⟨hfeed, fun hreturn => ?_⟩
    rcases hb with rfl | rfl
    · exact hlast hreturn
    · simp
  obtain ⟨v, b', hb', hv, hline, hsplits⟩ := unixLines_line hb hu
  refine ⟨v, b', hb', hline, hsplits, spanAhead_iff.2 ⟨?_, hp.goesAt_break hb' _⟩⟩
  rintro x c d rfl
  -- the scan went on over this character, before what the rest of the line was
  obtain ⟨e, hcut⟩ : ∃ e, u = x ++ c :: (d ++ e) := by
    rcases hline with hsame | ⟨hreturn, -⟩
    · exact ⟨[], by simp [← hsame]⟩
    · exact ⟨['\r'], by simp [hreturn]⟩
  have hgoes := (spanAhead_iff.1 h).1 x c (d ++ e) hcut
  have hends := hp.line hgoes
  have hrest : unixLines (d ++ e ++ (b ++ r)) = d ++ (b' ++ unixLines r) := by
    have hwhole := (hsplits r).apart
    rw [List.append_assoc, List.append_assoc, hcut, List.append_assoc, List.append_assoc]
      at hwhole
    refine unixLines_behind (fun hmem => hu.1 ?_) hends hwhole
    rw [hcut, List.append_cons]
    exact List.mem_append_left _ hmem
  have hends' := unended_iff.1 (hv (unixLines r)) x c d rfl
  rw [← hrest] at hends' ⊢
  rw [hp.unix hends hends', hgoes]

/-- A scan that stops within its line, or with the text, stops there before what follows
becomes. -/
theorem spanAhead_unixLines (hp : Steady p) (h : spanAhead p (u ++ r) = (u, r))
    (hr : goesAt (fun c cs => Lexer.endsLine c cs) r = false) :
    Text.Splits u u r ∧ spanAhead p (u ++ unixLines r) = (u, unixLines r) := by
  have hu := hp.unended h
  have hu' : Unended u (unixLines r) := ⟨hu.1, head?_unixLines_of_goesAt hr ▸ hu.2⟩
  refine ⟨Text.splits_self hu.1 hu.2, spanAhead_iff.2 ⟨?_, ?_⟩⟩
  · rintro x c d rfl
    have hgoes := (spanAhead_iff.1 h).1 x c d rfl
    have hrest : unixLines (d ++ r) = d ++ unixLines r := by
      refine unixLines_append (fun hmem => hu.1 ?_) fun hlast => hu.2 ?_
      · exact List.mem_append_right _ (List.mem_cons_of_mem _ hmem)
      · rw [List.getLast?_append, List.getLast?_cons, hlast]
        rfl
    have hends := unended_iff.1 hu' x c d rfl
    rw [← hrest] at hends ⊢
    rw [hp.unix (hp.line hgoes) hends, hgoes]
  · have hstop := (spanAhead_iff.1 h).2
    cases r with
    | nil => rfl
    | cons c cs =>
        rw [unixLines_cons_of_endsLine hr]
        show p c (unixLines cs) = false
        by_contra hgoes
        have hends := hp.line (by simpa using hgoes)
        rw [hp.unix hr hends] at hgoes
        exact hgoes hstop

end Steady

end Lexer

end MapScript
