import MapScript.Token.Lexer
import Mathlib

/-!
# Boundaries between lexemes

A lexeme stands before a text if a script that goes on with both reads it first
and leaves the text.  A scanner looks at most two characters beyond its lexeme,
and no scanner of a significant lexeme goes on over a gap, so a lexeme that
stands before one text stands before every text that is no harder to stop at.
Rows of lexemes that stand one before the other are what a script reads as.
-/

namespace MapScript

namespace Lexer

open Text (spanAhead spanAhead_append)

/-- Reading a script that begins with the lexeme takes the lexeme and leaves the rest. -/
def Stands (l : Lexeme) (rest : Text) : Prop :=
  ∃ c tail, l.raw = c :: tail ∧ scanScript c (tail ++ rest) = .ok ⟨l.kind, tail, rest⟩

/-- Nothing, a space or a line feed: no significant lexeme takes it up. -/
def isGap : Option Char → Bool
  | none => true
  | some c => c == ' ' || c == '\n'

/-- The second text begins with a gap or as the first does. -/
def Calm (u v : Text) : Prop := isGap v.head? = true ∨ u.head? = v.head?

/-- The second text agrees with the first in the two characters that a scanner
can see, unless a gap comes before. -/
def Calmer (u v : Text) : Prop :=
  isGap v.head? = true ∨
    (u.head? = v.head? ∧ (isGap v.tail.head? = true ∨ u.tail.head? = v.tail.head?))

theorem Calmer.calm {u v : Text} (h : Calmer u v) : Calm u v := h.imp_right And.left

theorem Calmer.of_gap {u v : Text} (h : isGap v.head? = true) : Calmer u v := Or.inl h

/-- Behind the same characters a gap is as calm as any text. -/
theorem Calmer.append_gap (w u : Text) {v : Text} (h : isGap v.head? = true) :
    Calmer (w ++ u) (w ++ v) := by
  match w with
  | [] => exact Or.inl h
  | [x] => exact Or.inr ⟨rfl, Or.inl h⟩
  | x :: y :: w => exact Or.inr ⟨rfl, Or.inr rfl⟩

/-- Behind two characters nothing is seen any more. -/
theorem Calmer.append_two {w : Text} (u v : Text) (h : 2 ≤ w.length) :
    Calmer (w ++ u) (w ++ v) := by
  match w, h with
  | x :: y :: w, _ => exact Or.inr ⟨rfl, Or.inr rfl⟩

/-! ### Scanners before calmer texts -/

theorem of_mem_spanAhead {p : Char → Bool} (t : Text) :
    ∀ c ∈ (spanAhead (fun c _ => p c) t).1, p c = true := by
  induction t with
  | nil => simp [spanAhead]
  | cons c t ih =>
      rw [spanAhead]
      split
      · next hc => exact List.forall_mem_cons.2 ⟨hc, ih⟩
      · simp

/-- A scan by a class of characters that no gap belongs to stops at calm texts too. -/
theorem spanAhead_calm {p : Char → Bool} (hspace : p ' ' = false) (hfeed : p '\n' = false)
    {a u v : Text} (h : spanAhead (fun c _ => p c) (a ++ u) = (a, u)) (hc : Calm u v) :
    spanAhead (fun c _ => p c) (a ++ v) = (a, v) := by
  induction a with
  | nil =>
      cases v with
      | nil => rfl
      | cons d ds =>
          have hd : p d = false := by
            rcases hc with hgap | hhead
            · simp only [isGap, List.head?_cons, Bool.or_eq_true, beq_iff_eq] at hgap
              rcases hgap with rfl | rfl
              · exact hspace
              · exact hfeed
            · cases u with
              | nil => simp at hhead
              | cons c cs =>
                  simp only [List.head?_cons, Option.some.injEq] at hhead
                  subst hhead
                  by_contra hp
                  simp [spanAhead, hp] at h
          simp [spanAhead, hd]
  | cons x a ih =>
      by_cases hp : p x = true
      · simp only [List.cons_append, spanAhead, hp, if_true, Prod.mk.injEq, List.cons.injEq,
          true_and] at h
        have ht : spanAhead (fun c _ => p c) (a ++ u) = (a, u) := Prod.ext h.1 h.2
        simp [spanAhead, hp, ih ht]
      · simp [spanAhead, hp] at h

theorem isDigit_of_isGap {c : Char} (h : isGap (some c) = true) : c.isDigit = false ∧ c ≠ '.' := by
  simp only [isGap, Bool.or_eq_true, beq_iff_eq] at h
  rcases h with rfl | rfl <;> decide

/-- Where a fraction does not begin, none begins in a calmer text. -/
theorem Calmer.fraction {u ds : Text} {d : Char} (hc : Calmer u ('.' :: d :: ds))
    (hd : d.isDigit = true) : ∃ us, u = '.' :: d :: us := by
  rcases hc with hgap | ⟨hhead, hgap | hsecond⟩
  · exact absurd rfl (isDigit_of_isGap hgap).2
  · have hn := (isDigit_of_isGap hgap).1
    rw [hd] at hn
    exact absurd hn (by decide)
  · match u, hhead, hsecond with
    | [_], _, hsecond => simp at hsecond
    | _ :: _ :: us, hhead, hsecond =>
        simp only [List.head?_cons, Option.some.injEq, List.tail_cons] at hhead hsecond
        exact ⟨us, by rw [hhead, hsecond]⟩

/-- A row of digits before a text in which no fraction begins is a numeral. -/
theorem numeralTail_whole {a v : Text} (h : spanAhead (fun c _ => c.isDigit) (a ++ v) = (a, v))
    (hv : ∀ d ds, v = '.' :: d :: ds → d.isDigit = false) : numeralTail (a ++ v) = (a, v) := by
  unfold numeralTail
  rw [h]
  split
  · next whole d ds heq =>
    obtain ⟨rfl, rfl⟩ := Prod.mk.inj heq
    rw [if_neg (by simp [hv d ds rfl])]
  · next whole rest hne heq => exact heq.symm

/-- Where a fraction begins, a numeral that does not take it up has one already. -/
theorem mem_of_numeralTail {a us : Text} {d : Char}
    (h : numeralTail (a ++ '.' :: d :: us) = (a, '.' :: d :: us)) (hd : d.isDigit = true) :
    '.' ∈ a := by
  unfold numeralTail at h
  split at h
  · next digits e ds heq =>
    split at h
    · obtain ⟨rfl, -⟩ := Prod.mk.inj h
      simp
    · next he =>
      obtain ⟨-, htail⟩ := Prod.mk.inj h
      obtain ⟨rfl, -⟩ := List.cons.inj (List.cons.inj htail).2
      exact absurd hd he
  · next digits rest hne heq =>
    obtain ⟨rfl, rfl⟩ := Prod.mk.inj h
    exact absurd rfl (hne d us)

/-- A numeral that ends before a text ends before calm ones, unless it is whole and a
fraction begins there. -/
theorem numeralTail_calm {a u v : Text} (h : numeralTail (a ++ u) = (a, u)) (hc : Calm u v)
    (hv : '.' ∉ a → ∀ d ds, v = '.' :: d :: ds → d.isDigit = false) :
    numeralTail (a ++ v) = (a, v) := by
  have digits {a u v : Text} := @spanAhead_calm Char.isDigit (by decide) (by decide) a u v
  have hall := spanAhead_append (fun c _ => c.isDigit) (a ++ u)
  have hmem := of_mem_spanAhead (p := Char.isDigit) (a ++ u)
  -- without a fraction the digits are the whole numeral
  have whole (hs : spanAhead (fun c _ => c.isDigit) (a ++ u) = (a, u)) :
      numeralTail (a ++ v) = (a, v) := by
    rw [hs] at hmem
    exact numeralTail_whole (digits hs hc) (hv fun hpoint => absurd (hmem _ hpoint) (by decide))
  unfold numeralTail at h
  split at h
  · next front d ds heq =>
    rw [heq] at hall
    split at h
    · next hd =>
      have hfraction := spanAhead_append (fun c _ => c.isDigit) ds
      simp only [Prod.mk.injEq] at h
      obtain ⟨rfl, rfl⟩ := h
      set fraction := (spanAhead (fun c _ => c.isDigit) ds).1
      set rest := (spanAhead (fun c _ => c.isDigit) ds).2
      have hfront : spanAhead (fun c _ => c.isDigit) (front ++ '.' :: d :: (fraction ++ v)) =
          (front, '.' :: d :: (fraction ++ v)) := by
        apply digits (u := '.' :: d :: ds)
        · rw [hall]
          exact heq
        · exact Or.inr rfl
      have hrest : spanAhead (fun c _ => c.isDigit) (fraction ++ v) = (fraction, v) := by
        apply digits (u := rest) _ hc
        rw [hfraction]
      simp [numeralTail, hfront, hrest, hd]
    · obtain ⟨rfl, rfl⟩ := Prod.mk.inj h
      exact whole heq
  · next front rest hne heq =>
    rw [h] at heq
    exact whole heq

/-- A numeral that ends before a text ends before calmer ones. -/
theorem numeralTail_calmer {a u v : Text} (h : numeralTail (a ++ u) = (a, u))
    (hc : Calmer u v) : numeralTail (a ++ v) = (a, v) := by
  apply numeralTail_calm h hc.calm
  intro hpoint d ds hv
  by_contra hd
  subst hv
  obtain ⟨us, rfl⟩ := hc.fraction (by simpa using hd)
  exact hpoint (mem_of_numeralTail h (by simpa using hd))

/-- A string takes its closing quote at least. -/
theorem stringTail_ne_nil {cs : Text} {taken : Text × Text} (h : stringTail cs = some taken) :
    taken.1 ≠ [] := by
  unfold stringTail at h
  split at h
  · simp at h
  · obtain ⟨inner, -, rfl⟩ := Option.map_eq_some_iff.1 h
    simp [putFront]
  · cases h
    simp
  · split at h
    · simp at h
    · obtain ⟨inner, -, rfl⟩ := Option.map_eq_some_iff.1 h
      simp [putFront]

/-- A string ends at its closing quote, whatever follows. -/
theorem stringTail_before {cs : Text} {taken : Text × Text} (h : stringTail cs = some taken)
    (v : Text) : stringTail (taken.1 ++ v) = some (taken.1, v) := by
  fun_induction stringTail cs generalizing taken with
  | case1 => simp at h
  | case2 cs ih =>
      obtain ⟨inner, hi, rfl⟩ := Option.map_eq_some_iff.1 h
      simp [putFront, stringTail, ih hi]
  | case3 cs =>
      cases h
      simp [stringTail]
  | case4 => simp at h
  | case5 c cs hescape hquote hends ih =>
      obtain ⟨inner, hi, rfl⟩ := Option.map_eq_some_iff.1 h
      -- the character after `c` is still the first of what the inner scan took
      obtain ⟨x, xs, hx⟩ := List.exists_cons_of_ne_nil (stringTail_ne_nil hi)
      have hcs : cs = x :: (xs ++ inner.2) := by rw [← stringTail_append hi, hx]; rfl
      have hv := ih hi
      rw [hx] at hv
      simp only [putFront, hx, List.cons_append, List.nil_append]
      rw [stringTail]
      · rw [if_neg (by simpa [endsLine, hcs] using hends), ← List.cons_append, hv]
        simp [putFront]
      · intro ys hc hys
        have hxq : x = '"' := (List.cons.inj hys).1
        exact hescape (xs ++ inner.2) hc (by rw [hcs, hxq])
      · exact hquote

/-- An open comment takes its closer at least. -/
theorem commentTail_ne_nil {depth : Nat} {cs : Text} {taken : Text × Text}
    (h : commentTail (depth + 1) cs = some taken) : taken.1 ≠ [] := by
  unfold commentTail at h
  split at h
  · omega
  · simp at h
  all_goals
    obtain ⟨inner, -, rfl⟩ := Option.map_eq_some_iff.1 h
    simp [putFront]

/-- A comment ends at its closer, whatever follows. -/
theorem commentTail_before {depth : Nat} {cs : Text} {taken : Text × Text}
    (h : commentTail depth cs = some taken) (v : Text) :
    commentTail depth (taken.1 ++ v) = some (taken.1, v) := by
  fun_induction commentTail depth cs generalizing taken with
  | case1 cs =>
      cases h
      simp [commentTail]
  | case2 => simp at h
  | case3 depth cs ih =>
      obtain ⟨inner, hi, rfl⟩ := Option.map_eq_some_iff.1 h
      simp [putFront, commentTail, ih hi]
  | case4 depth cs ih =>
      obtain ⟨inner, hi, rfl⟩ := Option.map_eq_some_iff.1 h
      simp [putFront, commentTail, ih hi]
  | case5 depth c cs hopen hclose ih =>
      obtain ⟨inner, hi, rfl⟩ := Option.map_eq_some_iff.1 h
      obtain ⟨x, xs, hx⟩ := List.exists_cons_of_ne_nil (commentTail_ne_nil hi)
      have hcs : cs = x :: (xs ++ inner.2) := by rw [← commentTail_append hi, hx]; rfl
      have hv := ih hi
      rw [hx] at hv
      simp only [putFront, hx, List.cons_append, List.nil_append]
      rw [commentTail]
      · rw [← List.cons_append, hv]
        simp [putFront]
      · intro ys hc hys
        have hxs : x = '*' := (List.cons.inj hys).1
        exact hopen (xs ++ inner.2) hc (by rw [hcs, hxs])
      · intro ys hc hys
        have hxs : x = '/' := (List.cons.inj hys).1
        exact hclose (xs ++ inner.2) hc (by rw [hcs, hxs])

/-! ### What begins where -/

/-- The characters that begin different things by what stands after them, and
those that begin trivia only. -/
def lookAhead : List Char := ['\x00', '/', '#', ' ', '\t', '\x0c', '\x0b', '\r', '\n']

/-- Any other character begins the same wherever it stands. -/
theorem opening_eq_of_notMem {c : Char} (h : c ∉ lookAhead) (cs ds : Text) :
    opening c cs = opening c ds := by
  simp only [lookAhead, List.mem_cons, List.not_mem_nil, or_false, not_or] at h
  obtain ⟨hnul, hslash, hhash, hspace, htab, hff, hvt, hcr, hlf⟩ := h
  simp only [opening, endsLine, isSpace, beq_eq_false_iff_ne.mpr, hnul, hslash, hhash, hspace,
    htab, hff, hvt, hcr, hlf, ne_eq, not_false_eq_true, Bool.false_and, Bool.or_false]

/-- What begins a lexeme is seen in its first character and the one after it. -/
theorem opening_congr {c : Char} {cs ds : Text} (h : cs.head? = ds.head?) :
    opening c cs = opening c ds := by
  unfold opening endsLine isSpace
  rw [h]

/-- The characters of space within and between lines. -/
def spaceChars : List Char := [' ', '\t', '\x0c', '\x0b', '\r', '\n']

theorem opening_spaceChars {c : Char} (h : c ∈ spaceChars) (cs : Text) :
    opening c cs ∈ [Opening.space, .lineFeed, .carriageReturn] := by
  simp only [spaceChars, List.mem_cons, List.not_mem_nil, or_false] at h
  rcases h with rfl | rfl | rfl | rfl | rfl | rfl
  case inr.inr.inr.inr.inl =>
    by_cases hcs : cs.head? = some '\n' <;> simp [opening, endsLine, isSpace, hcs]
  all_goals simp [opening, endsLine, isSpace]

theorem opening_slash {cs : Text} (hstar : cs.head? ≠ some '*') (hslash : cs.head? ≠ some '/') :
    opening '/' cs = .punct := by
  simp [opening, endsLine, isSpace, isNameStart, hstar, hslash]

theorem opening_hash (cs : Text) :
    opening '#' cs = if cs.head?.any isNameChar then .directive else .punct := by
  simp [opening, endsLine, isSpace, isNameStart]

/-- What stands where something begins. -/
def Opening.Meets (c : Char) (cs : Text) : Opening → Prop
  | nul => c = '\x00'
  | blockComment => c = '/' ∧ cs.head? = some '*'
  | lineComment => c = '/' ∧ cs.head? = some '/'
  | lineFeed => c = '\n'
  | carriageReturn => c = '\r' ∧ cs.head? = some '\n'
  | space => isSpace c cs = true
  | directive => c = '#' ∧ cs.head?.any isNameChar = true
  | string => c = '"'
  | word => isNameStart c = true
  | number => c.isDigit = true
  | punct => c.toNat < 128
  | text => 128 ≤ c.toNat

theorem opening_meets (c : Char) (cs : Text) : (opening c cs).Meets c cs := by
  have step {b : Bool} {o o' : Opening} (ho : b = true → o.Meets c cs)
      (ho' : b = false → o'.Meets c cs) : (if b then o else o').Meets c cs := by
    cases b
    · exact ho' rfl
    · exact ho rfl
  have number : (if c.toNat < 128 then Opening.punct else .text).Meets c cs :=
    iteInduction (motive := Opening.Meets c cs) id Nat.not_lt.1
  refine step eq_of_beq fun _ => step (fun h => ?_) fun _ => step (fun h => ?_) fun _ =>
    step eq_of_beq fun hfeed => step (fun h => ?_) fun _ => step id fun _ => step (fun h => ?_)
      fun _ => step eq_of_beq fun _ => step id fun _ => step id fun _ => number
  · simpa [Opening.Meets] using h
  · simpa [Opening.Meets] using h
  · simpa [Opening.Meets, endsLine, hfeed] using h
  · simpa [Opening.Meets] using h

/-- Only a hash sign before a name begins a directive. -/
theorem opening_eq_directive {c : Char} {cs : Text} (h : opening c cs = .directive) :
    (c == '#' && cs.head?.any isNameChar) = true := by
  have hmeets := opening_meets c cs
  rw [h] at hmeets
  simpa [Opening.Meets] using hmeets

/-- Openings of lexemes that are neither trivia nor refused. -/
def Opening.isSignificant : Opening → Bool
  | directive | string | word | number | punct | text => true
  | _ => false

theorem Opening.isSignificant_of_scan {o : Opening} {cs : Text} {s : Scan} (h : o.scan cs = .ok s)
    (hs : s.kind.isTrivia = false) : o.isSignificant = true := by
  cases o with
  | directive | string | word | number | punct | text => rfl
  | nul => simp [Opening.scan] at h
  | blockComment =>
      obtain ⟨taken, -, -⟩ := Option.map_eq_some_iff.1 (Scan.closed_append h)
      simp only [Opening.scan, Scan.closed] at h
      split at h
      · simp at h
      · cases h
        simp [Scan.of, TokenKind.isTrivia] at hs
  | lineComment | lineFeed | carriageReturn | space =>
      cases h
      simp [Scan.of, TokenKind.isTrivia] at hs

theorem head?_ne_of_isGap {v : Text} (h : isGap v.head? = true) {c : Char}
    (hspace : c ≠ ' ') (hfeed : c ≠ '\n') : v.head? ≠ some c := by
  intro hv
  rw [hv] at h
  simp [isGap, hspace, hfeed] at h

theorem any_isNameChar_of_isGap {v : Text} (h : isGap v.head? = true) :
    v.head?.any isNameChar = false := by
  cases hv : v.head? with
  | none => rfl
  | some d =>
      rw [hv] at h
      simp only [isGap, Bool.or_eq_true, beq_iff_eq] at h
      rcases h with rfl | rfl <;> rfl

/-- A significant lexeme that begins with one character before a text, and is no
directive, begins before calm texts. -/
theorem opening_calm {c : Char} {u v : Text} (hs : (opening c u).isSignificant = true)
    (hd : opening c u ≠ .directive) (hc : Calm u v) : opening c v = opening c u := by
  rcases hc with hgap | hhead
  · by_cases hmem : c ∈ lookAhead
    · by_cases hspace : c ∈ spaceChars
      · have h := opening_spaceChars hspace u
        simp only [List.mem_cons, List.not_mem_nil, or_false] at h
        rcases h with h | h | h <;> simp [h, Opening.isSignificant] at hs
      · simp only [spaceChars, List.mem_cons, List.not_mem_nil, or_false, not_or] at hspace
        obtain ⟨h1, h2, h3, h4, h5, h6⟩ := hspace
        simp only [lookAhead, List.mem_cons, List.not_mem_nil, or_false, h1, h2, h3, h4, h5,
          h6] at hmem
        rcases hmem with rfl | rfl | rfl
        · simp [opening, Opening.isSignificant] at hs
        · rw [opening_slash (head?_ne_of_isGap hgap (by decide) (by decide))
            (head?_ne_of_isGap hgap (by decide) (by decide))]
          by_cases hstar : u.head? = some '*'
          · simp [opening, hstar, Opening.isSignificant] at hs
          by_cases hslash : u.head? = some '/'
          · simp [opening, hslash, Opening.isSignificant] at hs
          rw [opening_slash hstar hslash]
        · rw [opening_hash] at hd
          rw [opening_hash, opening_hash, any_isNameChar_of_isGap hgap]
          by_cases hu : u.head?.any isNameChar <;> simp [hu] at hd ⊢
    · exact opening_eq_of_notMem hmem v u
  · exact (opening_congr hhead).symm

/-! ### Lexemes before calm texts -/

theorem Scan.of_eq_iff {kind kind' : TokenKind} {taken : Text × Text} {tail rest : Text} :
    Scan.of kind taken = ⟨kind', tail, rest⟩ ↔ kind = kind' ∧ taken = (tail, rest) := by
  cases taken
  simp [Scan.of]

/-- A directive has a name. -/
theorem directive_tail_ne_nil {c : Char} {cs : Text} {s : Scan}
    (ho : opening c cs = .directive) (h : scanScript c cs = .ok s) : s.tail ≠ [] := by
  have hname := (Bool.and_eq_true_iff.1 (opening_eq_directive ho)).2
  unfold scanScript at h
  rw [ho] at h
  cases cs with
  | nil => simp at hname
  | cons d ds =>
      have hd : isNameChar d = true := by simpa using hname
      simp only [Opening.scan, spanAhead, hd, if_true, Scan.of, Except.ok.injEq] at h
      simp [← h]

/-- A significant lexeme that stands before a text stands before calm ones, where a
numeral ends too. -/
theorem Stands.calm {l : Lexeme} {u v : Text} (h : Stands l u) (hl : l.isTrivia = false)
    (hc : Calm u v) (hnumeral : ∀ d a, l.kind = .number → l.raw = d :: a →
      numeralTail (a ++ u) = (a, u) → numeralTail (a ++ v) = (a, v)) : Stands l v := by
  obtain ⟨c, tail, hraw, hscan⟩ := h
  refine ⟨c, tail, hraw, ?_⟩
  have hsig := Opening.isSignificant_of_scan hscan hl
  have hopen : opening c (tail ++ v) = opening c (tail ++ u) := by
    cases tail with
    | cons x tail => exact opening_congr rfl
    | nil =>
        apply opening_calm hsig _ hc
        intro hd
        exact directive_tail_ne_nil hd hscan rfl
  have spans {p : Char → Bool} {kind : TokenKind} (hspace : p ' ' = false) (hfeed : p '\n' = false)
      (hs : Except.ok (Scan.of kind (spanAhead (fun c _ => p c) (tail ++ u))) =
        (.ok ⟨l.kind, tail, u⟩ : Except Cause Scan)) :
      Except.ok (Scan.of kind (spanAhead (fun c _ => p c) (tail ++ v))) =
        (.ok ⟨l.kind, tail, v⟩ : Except Cause Scan) := by
    obtain ⟨hkind, htaken⟩ := Scan.of_eq_iff.1 (Except.ok.inj hs)
    rw [spanAhead_calm hspace hfeed htaken hc, hkind]
    rfl
  unfold scanScript at hscan ⊢
  rw [hopen]
  cases ho : opening c (tail ++ u) with
  | nul | blockComment | lineComment | lineFeed | carriageReturn | space =>
      simp [ho, Opening.isSignificant] at hsig
  | directive | word =>
      rw [ho] at hscan
      exact spans (by decide) (by decide) hscan
  | text =>
      rw [ho] at hscan
      exact spans (p := fun c => 128 ≤ c.toNat && !Text.isBlank c) (by decide) (by decide) hscan
  | string =>
      rw [ho] at hscan
      have htaken := Scan.closed_append hscan
      simp only [Opening.scan, htaken, Scan.closed, Scan.of, Except.ok.injEq, Scan.mk.injEq]
        at hscan
      simp [Opening.scan, stringTail_before htaken, Scan.closed, Scan.of, hscan.1]
  | number =>
      rw [ho] at hscan
      obtain ⟨hkind, htaken⟩ := Scan.of_eq_iff.1 (Except.ok.inj hscan)
      simp only [Opening.scan]
      rw [hnumeral c tail hkind.symm hraw htaken, hkind]
      rfl
  | punct =>
      rw [ho] at hscan
      simp only [Opening.scan, Except.ok.injEq, Scan.mk.injEq] at hscan
      obtain ⟨hkind, htail, -⟩ := hscan
      simp [Opening.scan, ← htail, hkind]

/-- A significant lexeme stands before every text that is calmer than one it
stands before. -/
theorem Stands.calmer {l : Lexeme} {u v : Text} (h : Stands l u) (hl : l.isTrivia = false)
    (hc : Calmer u v) : Stands l v :=
  h.calm hl hc.calm fun _ _ _ _ htail => numeralTail_calmer htail hc

/-- A significant lexeme that stands before some text can end the script. -/
theorem Stands.alone {l : Lexeme} {u : Text} (h : Stands l u) (hl : l.isTrivia = false) :
    Stands l [] := h.calmer hl (.of_gap rfl)

/-- No significant lexeme begins with space. -/
theorem Stands.head_notMem {l : Lexeme} {u : Text} (h : Stands l u) (hl : l.isTrivia = false) :
    ∃ c tail, l.raw = c :: tail ∧ c ∉ spaceChars := by
  obtain ⟨c, tail, hraw, hscan⟩ := h
  refine ⟨c, tail, hraw, ?_⟩
  intro hspace
  have hsig := Opening.isSignificant_of_scan hscan hl
  have hopen := opening_spaceChars hspace (tail ++ u)
  simp only [List.mem_cons, List.not_mem_nil, or_false] at hopen
  rcases hopen with ho | ho | ho <;> simp [ho, Opening.isSignificant] at hsig

/-- A text reads in one way. -/
theorem Stands.unique {l l' : Lexeme} {u u' : Text} (h : Stands l u) (h' : Stands l' u')
    (he : l.raw ++ u = l'.raw ++ u') : l = l' ∧ u = u' := by
  obtain ⟨c, tail, hraw, hscan⟩ := h
  obtain ⟨c', tail', hraw', hscan'⟩ := h'
  rw [hraw, hraw', List.cons_append, List.cons_append, List.cons.injEq] at he
  obtain ⟨rfl, he⟩ := he
  rw [he, hscan', Except.ok.injEq, Scan.mk.injEq] at hscan
  obtain ⟨hkind, rfl, rfl⟩ := hscan
  refine ⟨?_, rfl⟩
  cases l
  cases l'
  simp_all

/-- A space alone is a lexeme before anything but space. -/
theorem stands_space {t : Text} (h : ∀ c ∈ t.head?, c ∉ spaceChars) :
    Stands ⟨.blank, [' ']⟩ t := by
  refine ⟨' ', [], rfl, ?_⟩
  have hspan : spanAhead isSpace t = ([], t) := by
    cases t with
    | nil => rfl
    | cons c cs =>
        have hc := h c (by simp)
        simp only [spaceChars, List.mem_cons, List.not_mem_nil, or_false, not_or] at hc
        simp [spanAhead, isSpace, hc]
  have hopen : opening ' ' t = .space := by simp [opening, endsLine, isSpace]
  simp [scanScript, hopen, Opening.scan, hspan, Scan.of]

/-- A line feed is a lexeme wherever it stands. -/
theorem stands_lineFeed (t : Text) : Stands ⟨.newline, ['\n']⟩ t := by
  have hopen : opening '\n' t = .lineFeed := by simp [opening]
  exact ⟨'\n', [], rfl, by simp [scanScript, hopen, Opening.scan]⟩

/-! ### Rows of lexemes -/

/-- Whether a lexeme is the directive after which prose begins. -/
def opensHeader (l : Lexeme) : Bool := l.kind == .directive && Text.upper l.value == headerStart

theorem Mode.enter_script (t : Text) : Mode.script.enter t = .script := rfl

theorem Mode.leave_script (l : Lexeme) :
    Mode.script.leave l = if opensHeader l then .prose else .script := by
  simp [Mode.leave, opensHeader]

/-- Lexemes that are read one after the other before a text, which is left as script. -/
def Reads : List Lexeme → Text → Prop
  | [], _ => True
  | l :: ls, rest => Stands l (Lexeme.rawText ls ++ rest) ∧ opensHeader l = false ∧ Reads ls rest

theorem Reads.append {ls ms : List Lexeme} {rest : Text}
    (hl : Reads ls (Lexeme.rawText ms ++ rest)) (hm : Reads ms rest) : Reads (ls ++ ms) rest := by
  induction ls with
  | nil => exact hm
  | cons l ls ih =>
      obtain ⟨hstands, hopens, htail⟩ := hl
      refine ⟨?_, hopens, ih htail⟩
      simpa [Lexeme.rawText, List.append_assoc] using hstands

theorem Reads.right {ls ms : List Lexeme} {rest : Text} (h : Reads (ls ++ ms) rest) :
    Reads ms rest := by
  induction ls with
  | nil => exact h
  | cons l ls ih => exact ih h.2.2

theorem Reads.eq_nil_of_rawText {ls : List Lexeme} {t : Text} (h : Reads ls t)
    (he : Lexeme.rawText ls = []) : ls = [] := by
  cases ls with
  | nil => rfl
  | cons l ls =>
      obtain ⟨⟨c, tail, hraw, -⟩, -, -⟩ := h
      simp [Lexeme.rawText, hraw] at he

/-- Significant lexemes that are read before a text are read before a gap. -/
theorem Reads.before_gap {ls : List Lexeme} {u v : Text} (h : Reads ls u)
    (hls : ∀ l ∈ ls, l.isTrivia = false) (hv : isGap v.head? = true) : Reads ls v := by
  induction ls with
  | nil => trivial
  | cons l ls ih =>
      obtain ⟨hstands, hopens, htail⟩ := h
      refine ⟨?_, hopens, ih htail fun l hm => hls l (by simp [hm])⟩
      exact hstands.calmer (hls l (by simp)) (.append_gap _ u hv)

/-- What a script reads as when its text begins with a lexeme that stands there. -/
theorem lexScript_cons {l : Lexeme} {rest : Text} {ls : List Lexeme} (h : Stands l rest)
    (hopens : opensHeader l = false) (hrest : lexScript rest = .ok ls) :
    lexScript (l.raw ++ rest) = .ok (l :: ls) := by
  obtain ⟨c, tail, hraw, hscan⟩ := h
  obtain ⟨kind, raw⟩ := l
  simp only at hraw hscan
  subst hraw
  unfold lexScript at hrest ⊢
  rw [List.cons_append, lexemes]
  simp only [Mode.enter_script, Mode.scan]
  split
  · next cause heq => simp [hscan] at heq
  · next s heq =>
    rw [hscan, Except.ok.injEq] at heq
    subst heq
    simp [Mode.leave_script, hopens, hrest]

/-- A row of lexemes before a script is read in front of it. -/
theorem lexScript_append {ls ms : List Lexeme} {rest : Text} (h : Reads ls rest)
    (hrest : lexScript rest = .ok ms) :
    lexScript (Lexeme.rawText ls ++ rest) = .ok (ls ++ ms) := by
  induction ls with
  | nil => exact hrest
  | cons l ls ih =>
      obtain ⟨hstands, hopens, htail⟩ := h
      have hcons := lexScript_cons hstands hopens (ih htail)
      simpa [Lexeme.rawText, List.append_assoc] using hcons

theorem lexScript_nil : lexScript [] = .ok [] := by
  simp [lexScript, lexemes]

theorem Reads.lexScript_rawText {ls : List Lexeme} (h : Reads ls []) :
    lexScript (Lexeme.rawText ls) = .ok ls := by
  simpa using lexScript_append h lexScript_nil

/-- The first lexeme that a text in some mode reads as, and the reading of the rest. -/
theorem lexemes_inv {mode : Mode} {t : Text} {l : Lexeme} {ls : List Lexeme}
    (h : lexemes mode t = .ok (l :: ls)) :
    ∃ c tail rest, t = c :: (tail ++ rest) ∧ l.raw = c :: tail ∧
      (mode.enter t).scan c (tail ++ rest) = .ok ⟨l.kind, tail, rest⟩ ∧
      lexemes ((mode.enter t).leave l) rest = .ok ls := by
  cases t with
  | nil => simp [lexemes] at h
  | cons c cs =>
      rw [lexemes] at h
      simp only at h
      split at h
      · simp at h
      · next s hs =>
        split at h
        · simp at h
        · next rest hrest =>
          simp only [Except.ok.injEq, List.cons.injEq] at h
          obtain ⟨rfl, rfl⟩ := h
          have happ := Mode.scan_append hs
          refine ⟨c, s.tail, s.rest, by rw [happ], rfl, ?_, hrest⟩
          rw [happ]
          exact hs

/-- A script that reads as lexemes, none of which opens a header, is their text. -/
theorem reads_of_lexScript {t : Text} {ls : List Lexeme} (h : lexScript t = .ok ls)
    (hopens : ∀ l ∈ ls, opensHeader l = false) : Lexeme.rawText ls = t ∧ Reads ls [] := by
  induction ls generalizing t with
  | nil =>
      cases t with
      | nil => exact ⟨rfl, trivial⟩
      | cons c cs =>
          unfold lexScript at h
          rw [lexemes] at h
          simp only at h
          split at h
          · simp at h
          · split at h <;> simp at h
  | cons l ls ih =>
      obtain ⟨c, tail, rest, rfl, hraw, hscan, hrest⟩ := lexemes_inv h
      have hl := hopens l (by simp)
      rw [Mode.enter_script, Mode.leave_script, hl] at hrest
      obtain ⟨htext, hreads⟩ := ih hrest fun l hm => hopens l (by simp [hm])
      have hstands : Stands l rest := ⟨c, tail, hraw, hscan⟩
      constructor
      · simp only [Lexeme.rawText, List.flatMap_cons] at htext ⊢
        rw [htext, hraw]
        rfl
      · refine ⟨?_, hl, hreads⟩
        rwa [htext, List.append_nil]

theorem Reads.stands_of_mem {ls : List Lexeme} {t : Text} (h : Reads ls t) {l : Lexeme}
    (hl : l ∈ ls) : ∃ rest, Stands l rest := by
  induction ls with
  | nil => simp at hl
  | cons m ls ih =>
      obtain ⟨hstands, -, htail⟩ := h
      rcases List.mem_cons.1 hl with rfl | hl
      · exact ⟨_, hstands⟩
      · exact ih htail hl

end Lexer

/-! ### Tokens of a script -/

namespace Token

theorem map_place (p : Position) (ls : List Lexeme) : (place p ls).map toLexeme = ls := by
  induction ls generalizing p with
  | nil => rfl
  | cons l ls ih => simp [place, ih]

theorem map_significant (ts : List Token) :
    (significant ts).map toLexeme = (ts.map toLexeme).filter fun l => !l.isTrivia := by
  rw [List.filter_map]
  rfl

end Token

namespace TokenStream

theorem lexScript_of_ofSource {source : Text} {stream : TokenStream}
    (h : ofSource source = .ok stream) :
    ∃ ls, Lexer.lexScript source = .ok ls ∧ stream.tokens.map Token.toLexeme = ls := by
  unfold ofSource at h
  split at h
  · simp at h
  · next ls hlex =>
    cases h
    exact ⟨ls, hlex, Token.map_place _ ls⟩

theorem ofSource_of_lexScript {source : Text} {ls : List Lexeme}
    (h : Lexer.lexScript source = .ok ls) :
    ∃ stream, ofSource source = .ok stream ∧ stream.tokens.map Token.toLexeme = ls := by
  refine ⟨⟨Token.place .origin ls, Position.origin.advance source⟩, ?_, Token.map_place _ ls⟩
  simp [ofSource, h]

end TokenStream

end MapScript
