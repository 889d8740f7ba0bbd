import MapScript.Diagnostic.Snippet
import MapScript.Proofs.Lexing.Place

/-!
# Two rules for lines

A place is counted in lines that only a line feed ends, and a snippet shows a line of those
that end at every boundary of Unicode.  Each boundary without a line feed puts the second
count ahead of the first from there on.  Where none stands before a character, both rules
begin its line at one offset; the line is shown as far as its next boundary then, and the
character is in it.
-/

namespace MapScript

open Lexer (endsLine)

namespace Text

/-- How many characters end a line of the text that end none for the lexer: all line ends
but the line feed, and the carriage return before one. -/
def strayEnds : Text → Nat
  | [] => 0
  | c :: cs => (if isLineEnd c && !endsLine c cs then 1 else 0) + strayEnds cs

/-- Nothing, or lines the last of which a line feed ends. -/
def Closed (t : Text) : Prop := ∀ c ∈ t.getLast?, c = '\n'

/-- A part of one line under either rule. -/
def Unbroken (t : Text) : Prop := ∀ c ∈ t, isLineEnd c = false

theorem Unbroken.notMem {c : Char} {t : Text} (h : Unbroken t) (hc : isLineEnd c = true) :
    c ∉ t := by
  intro hmem
  rw [h c hmem] at hc
  cases hc

theorem Closed.tail {c : Char} {t : Text} (h : Closed (c :: t)) : Closed t := by
  cases t with
  | nil => simp [Closed]
  | cons d t => exact h

/-- A text that ends in no line feed is closed only if there is nothing of it. -/
theorem Closed.ne_nil {c : Char} {t : Text} (h : Closed (c :: t)) (hc : c ≠ '\n') : t ≠ [] := by
  rintro rfl
  exact hc (h c rfl)

theorem endsLine_of_ne {c : Char} {t : Text} (hc : c ≠ '\n') (ht : t.head? ≠ some '\n') :
    endsLine c t = false := by
  simp [endsLine, hc, ht]

/-- A part of a line for the lexer has stray line ends alone. -/
theorem strayEnds_eq_zero_iff {t : Text} (h : '\n' ∉ t) : strayEnds t = 0 ↔ Unbroken t := by
  induction t with
  | nil => simp [strayEnds, Unbroken]
  | cons c t ih =>
      obtain ⟨hc, ht⟩ := not_or.1 (mt List.mem_cons.2 h)
      have hhead : t.head? ≠ some '\n' := fun hfeed => ht (List.mem_of_mem_head? hfeed)
      rw [strayEnds, endsLine_of_ne (Ne.symm hc) hhead, Nat.add_eq_zero_iff, ih ht, Unbroken,
        Unbroken, List.forall_mem_cons]
      simp

theorem strayEnds_append {s t : Text} (h : t.head? ≠ some '\n') :
    strayEnds (s ++ t) = strayEnds s + strayEnds t := by
  induction s with
  | nil => simp [strayEnds]
  | cons c s ih =>
      have hends : endsLine c (s ++ t) = endsLine c s := by
        cases s with
        | nil => simp [endsLine, h]
        | cons d s => rfl
      rw [List.cons_append, strayEnds, strayEnds, hends, ih, Nat.add_assoc]

/-! ### Lines that end at every boundary -/

theorem lines_cons {c : Char} {cs : Text} (h : c = '\r' → cs.head? ≠ some '\n') :
    lines (c :: cs) =
      if isLineEnd c then ⟨[], [c]⟩ :: lines cs else Line.consFirst c (lines cs) := by
  rw [lines]
  rintro ds rfl rfl
  exact h rfl rfl

theorem lines_cons_of_unbroken {c : Char} (h : isLineEnd c = false) (t : Text) :
    lines (c :: t) = Line.consFirst c (lines t) := by
  rw [lines_cons (by rintro rfl; cases h), if_neg (by simp [h])]

/-- A line is the first of a text: it ends with the text, or at the first line end, which a
carriage return makes with the line feed behind it. -/
structure Line.Heads (l : Line) (t rest : Text) : Prop where
  text : t = l.full ++ rest
  content : Unbroken l.content
  ending : (l.ending = [] ∧ rest = []) ∨ l.ending = ['\r', '\n'] ∨
    ∃ c, l.ending = [c] ∧ isLineEnd c = true

theorem lines_eq_cons {t : Text} (h : t ≠ []) :
    ∃ l rest, lines t = l :: lines rest ∧ l.Heads t rest := by
  fun_induction lines t with
  | case1 => exact absurd rfl h
  | case2 cs => exact ⟨_, cs, rfl, rfl, by simp [Unbroken], Or.inr (Or.inl rfl)⟩
  | case3 c cs hwide hend =>
      exact ⟨_, cs, rfl, rfl, by simp [Unbroken], Or.inr (Or.inr ⟨c, rfl, hend⟩)⟩
  | case4 c cs hwide hend ih =>
      have hc : isLineEnd c = false := by simpa using hend
      cases cs with
      | nil =>
          exact ⟨⟨[c], []⟩, [], rfl, rfl, by simpa [Unbroken] using hc, Or.inl ⟨rfl, rfl⟩⟩
      | cons d ds =>
          obtain ⟨l, rest, hlines, hfirst⟩ := ih (by simp)
          refine ⟨⟨c :: l.content, l.ending⟩, rest, by rw [hlines]; rfl, ?_, ?_, hfirst.ending⟩
          · rw [hfirst.text]
            rfl
          · exact List.forall_mem_cons.2 ⟨hc, hfirst.content⟩

theorem lines_ne_nil {t : Text} (h : t ≠ []) : lines t ≠ [] := by
  obtain ⟨l, rest, hlines, -⟩ := lines_eq_cons h
  rw [hlines]
  simp

/-- No line is empty, and the lines make up the text. -/
theorem full_lines (t : Text) :
    (lines t).flatMap Line.full = t ∧ ∀ l ∈ lines t, l.full ≠ [] := by
  fun_induction lines t with
  | case1 => simp
  | case2 cs ih =>
      refine ⟨?_, List.forall_mem_cons.2 ⟨by simp [Line.full], ih.2⟩⟩
      rw [List.flatMap_cons, ih.1]
      rfl
  | case3 c cs hwide hend ih =>
      refine ⟨?_, List.forall_mem_cons.2 ⟨by simp [Line.full], ih.2⟩⟩
      rw [List.flatMap_cons, ih.1]
      rfl
  | case4 c cs hwide hend ih =>
      generalize lines cs = ls at ih
      cases ls with
      | nil =>
          obtain rfl : [] = cs := ih.1
          simp [Line.consFirst, Line.full]
      | cons l ls =>
          refine ⟨?_, List.forall_mem_cons.2 ⟨by simp [Line.full], fun m hm => ?_⟩⟩
          · rw [← ih.1]
            rfl
          · exact ih.2 m (List.mem_cons_of_mem _ hm)

/-- Lines after a line feed are those of the text after it. -/
theorem Closed.lines_append {s : Text} (h : Closed s) (t : Text) :
    lines (s ++ t) = lines s ++ lines t := by
  fun_induction lines s with
  | case1 => rfl
  | case2 cs ih => exact congrArg (_ :: ·) (ih h.tail.tail)
  | case3 c cs hwide hend ih =>
      rw [List.cons_append, lines_cons, if_pos hend, ih h.tail]
      · rfl
      · rintro rfl hfeed
        cases cs with
        | nil => cases h '\r' rfl
        | cons d ds =>
            obtain rfl : d = '\n' := by simpa using hfeed
            exact hwide ds rfl rfl
  | case4 c cs hwide hend ih =>
      have hc : isLineEnd c = false := by simpa using hend
      have hne : cs ≠ [] := h.ne_nil (by rintro rfl; cases hc)
      rw [List.cons_append, lines_cons_of_unbroken hc, ih h.tail]
      obtain ⟨l, ls, hls⟩ := List.exists_cons_of_ne_nil (lines_ne_nil hne)
      rw [hls]
      rfl

/-- Every line feed ends a line, and every stray line end does. -/
theorem Closed.length_lines {t : Text} (h : Closed t) :
    (lines t).length = t.count '\n' + strayEnds t := by
  fun_induction lines t with
  | case1 => rfl
  | case2 cs ih =>
      have hstray : strayEnds ('\r' :: '\n' :: cs) = strayEnds cs := by simp [strayEnds, endsLine]
      rw [List.length_cons, ih h.tail.tail, hstray]
      simp [Nat.add_right_comm]
  | case3 c cs hwide hend ih =>
      rw [List.length_cons, ih h.tail, strayEnds]
      by_cases hc : c = '\n'
      · simp [hc, endsLine, Nat.add_right_comm]
      · have hends : endsLine c cs = false := by
          rw [← Bool.not_eq_true]
          simp only [endsLine, Bool.or_eq_true, Bool.and_eq_true, beq_iff_eq, hc, false_or]
          rintro ⟨rfl, hfeed⟩
          obtain ⟨ds, rfl⟩ := List.head?_eq_some_iff.1 hfeed
          exact hwide ds rfl rfl
        simp [hc, hends, hend]
        omega
  | case4 c cs hwide hend ih =>
      have hc : isLineEnd c = false := by simpa using hend
      have hfeed : c ≠ '\n' := by
        rintro rfl
        cases hc
      have hne := lines_ne_nil (h.ne_nil hfeed)
      have hih := ih h.tail
      generalize lines cs = ls at hih hne
      obtain ⟨l, ls, rfl⟩ := List.exists_cons_of_ne_nil hne
      rw [strayEnds, hc, List.count_cons_of_ne hfeed]
      simpa [Line.consFirst] using hih

/-! ### Lines of the lexer -/

theorem splitOn_eq_cons (sep : Char) (t : Text) :
    ∃ parts, splitOn sep t = t.takeWhile (· != sep) :: parts := by
  induction t with
  | nil => exact ⟨[], rfl⟩
  | cons c t ih =>
      obtain ⟨parts, hparts⟩ := ih
      rw [splitOn]
      split
      · next heq => exact ⟨splitOn sep t, by simp [heq]⟩
      · next hne =>
        rw [hparts]
        exact ⟨parts, by simp [hne]⟩

/-- After so many line feeds the line goes on to the next. -/
theorem Closed.getElem?_splitOn {s : Text} (h : Closed s) (t : Text) :
    (splitOn '\n' (s ++ t))[s.count '\n']? = some (t.takeWhile (· != '\n')) := by
  induction s with
  | nil =>
      obtain ⟨parts, hparts⟩ := splitOn_eq_cons '\n' t
      simp [hparts]
  | cons c s ih =>
      have hrest := ih h.tail
      rw [List.cons_append, splitOn]
      split
      · next heq => rwa [heq, List.count_cons_self, List.getElem?_cons_succ]
      · next hne =>
        -- the line goes on in the text, so the one in question comes later
        have hcount : 0 < s.count '\n' := by
          rw [List.count_pos_iff]
          have hs := h.ne_nil hne
          have hlast := h.tail (s.getLast hs) (List.getLast?_eq_some_getLast hs)
          exact hlast ▸ List.getLast_mem hs
        obtain ⟨parts, hparts⟩ := splitOn_eq_cons '\n' (s ++ t)
        obtain ⟨n, hn⟩ := Nat.exists_eq_succ_of_ne_zero hcount.ne'
        rw [hparts, hn, List.getElem?_cons_succ] at hrest
        rw [hparts, List.count_cons_of_ne hne, hn, List.getElem?_cons_succ]
        exact hrest

/-! ### The line of a place -/

/-- A text falls into closed lines and a part of the next one. -/
theorem exists_closed_append (t : Text) :
    ∃ front row, t = front ++ row ∧ Closed front ∧ '\n' ∉ row := by
  induction t with
  | nil => exact ⟨[], [], rfl, by simp [Closed], by simp⟩
  | cons c t ih =>
      obtain ⟨front, row, rfl, hfront, hrow⟩ := ih
      by_cases hc : c ≠ '\n' ∧ front = []
      · obtain ⟨hc, rfl⟩ := hc
        exact ⟨[], c :: row, rfl, hfront, by simp [hrow, Ne.symm hc]⟩
      · refine ⟨c :: front, row, rfl, ?_, hrow⟩
        cases front with
        | nil => simpa [Closed] using hc
        | cons d front => exact hfront

end Text

theorem Position.after_closed {front row : Text} (hfront : Text.Closed front)
    (hrow : '\n' ∉ row) :
    Position.after (front ++ row) =
      ⟨1 + front.count '\n', 1 + row.length, (front ++ row).length⟩ := by
  have hkept : ∀ c ∈ row.reverse, (c != '\n') = true := by
    intro c hc
    simpa using fun heq : c = '\n' => hrow (heq ▸ List.mem_reverse.1 hc)
  have hstop : front.reverse.takeWhile (· != '\n') = [] := by
    cases hlast : front.reverse with
    | nil => rfl
    | cons c cs =>
        have hc : c = '\n' := hfront c (by simp [← List.head?_reverse, hlast])
        simp [hc]
  rw [Position.after, List.count_append, List.count_eq_zero_of_not_mem hrow, List.reverse_append,
    List.takeWhile_append_of_pos hkept, hstop]
  simp

/-! ### What a snippet shows -/

namespace Snippet

/-- A line as it is shown, less the line feeds and then the carriage returns at its end. -/
def shown (l : Text.Line) : Text :=
  Text.dropEndWhile (· == '\r') (Text.dropEndWhile (· == '\n') l.full)

/-- The line with a number from one on as the lexer counts lines, less the carriage returns
at its end. -/
def lexerLine (source : Text) (number : Nat) : Text :=
  Text.dropEndWhile (· == '\r') ((Text.splitOn '\n' source).getD (number - 1) [])

/-- The offset at which the line with a number begins that is shown. -/
def lineStart (source : Text) (number : Nat) : Nat :=
  (((Text.lines source).take (number - 1)).flatMap Text.Line.full).length

/-- The line that is shown for a place has a character in the column of the place, and that
is the character at its offset. -/
structure Marks (source : Text) (p : Position) : Prop where
  offset : lineStart source p.line + (p.column - 1) = p.offset
  within : p.column - 1 < (sourceLine source p.line).length

theorem dropEndWhile_unbroken {t : Text} (h : Text.Unbroken t) {c : Char}
    (hc : Text.isLineEnd c = true) : Text.dropEndWhile (· == c) t = t := by
  refine Text.dropEndWhile_of_forall fun d hd => ?_
  have hne : d ≠ c := by
    rintro rfl
    exact h.notMem hc hd
  simpa using hne

/-- A line is shown as far as its end, and with that end if it is another than a line feed
and a carriage return. -/
theorem shown_cases {l : Text.Line} {t rest : Text} (h : l.Heads t rest) :
    (shown l = l.content ∧ ∀ c ∈ l.ending, c = '\n' ∨ c = '\r') ∨
      ∃ c, l.ending = [c] ∧ c ≠ '\n' ∧ c ≠ '\r' ∧ shown l = l.content ++ [c] := by
  have hfeed := dropEndWhile_unbroken h.content (c := '\n') rfl
  have hreturn := dropEndWhile_unbroken h.content (c := '\r') rfl
  have hdrop (c : Char) (u : Text) : Text.dropEndWhile (· == c) (u ++ [c]) =
      Text.dropEndWhile (· == c) u := Text.dropEndWhile_append_of_forall (by simp) u
  have hkeep {c d : Char} (hne : d ≠ c) (u : Text) :
      Text.dropEndWhile (· == c) (u ++ [d]) = u ++ [d] :=
    Text.dropEndWhile_append_cons _ u [] (by simpa using hne)
  rw [shown, Text.Line.full]
  rcases h.ending with ⟨hnone, -⟩ | hwide | ⟨c, hc, -⟩
  · rw [hnone, List.append_nil, hfeed, hreturn]
    exact Or.inl ⟨rfl, by simp⟩
  · have hsplit : l.content ++ ['\r', '\n'] = l.content ++ ['\r'] ++ ['\n'] := by simp
    rw [hwide, hsplit, hdrop, hkeep (by decide), hdrop, hreturn]
    exact Or.inl ⟨rfl, by simp⟩
  · rw [hc]
    by_cases hf : c = '\n'
    · rw [hf, hdrop, hfeed, hreturn]
      exact Or.inl ⟨rfl, by simp⟩
    · by_cases hr : c = '\r'
      · rw [hr, hkeep (by decide), hdrop, hreturn]
        exact Or.inl ⟨rfl, by simp⟩
      · rw [hkeep hf, hkeep hr]
        exact Or.inr ⟨c, rfl, hf, hr, rfl⟩

section

variable {t rest : Text} {l : Text.Line}

/-- The first line is shown as the lexer means it exactly if nothing but its last character
ends a line. -/
theorem shown_eq_iff (h : l.Heads t rest) :
    shown l = Text.dropEndWhile (· == '\r') (t.takeWhile (· != '\n')) ↔
      Text.Unbroken (Text.dropEndWhile (· == '\r') (t.takeWhile (· != '\n'))).dropLast := by
  have hreturn := dropEndWhile_unbroken h.content (c := '\r') rfl
  have hline (u : Text) : (l.content ++ u).takeWhile (· != '\n') =
      l.content ++ u.takeWhile (· != '\n') :=
    List.takeWhile_append_of_pos fun c hc => by
      simpa using fun heq : c = '\n' => h.content.notMem (c := '\n') rfl (heq ▸ hc)
  rw [h.text, Text.Line.full, List.append_assoc, hline]
  constructor
  · intro heq
    rw [← heq]
    rcases shown_cases h with ⟨hshown, -⟩ | ⟨c, -, -, -, hshown⟩
    · rw [hshown]
      exact fun d hd => h.content d (List.mem_of_mem_dropLast hd)
    · rw [hshown, List.dropLast_concat]
      exact h.content
  · intro hunbroken
    set w := (l.ending ++ rest).takeWhile (· != '\n') with hw
    by_cases hall : ∀ d ∈ w, d = '\r'
    · rw [Text.dropEndWhile_append_of_forall (by simpa using hall), hreturn]
      rcases shown_cases h with ⟨hshown, -⟩ | ⟨c, hc, hfeed, hcarriage, -⟩
      · exact hshown
      · exact absurd (hall c (by simp [hw, hc, hfeed])) hcarriage
    · push Not at hall
      obtain ⟨d, hd, hcarriage⟩ := hall
      -- the end of the line stands first in what is left, so nothing is kept behind it
      obtain ⟨c, hc, hend, v, hv⟩ : ∃ c, l.ending = [c] ∧ Text.isLineEnd c = true ∧
          ∃ v, w = c :: v := by
        rcases h.ending with ⟨hnone, hrest⟩ | hwide | ⟨c, hc, hend⟩
        · simp [hw, hnone, hrest] at hd
        · exact absurd (by simpa [hw, hwide] using hd) hcarriage
        · by_cases hfeed : c = '\n'
          · simp [hw, hc, hfeed] at hd
          · exact ⟨c, hc, hend, rest.takeWhile (· != '\n'), by simp [hw, hc, hfeed]⟩
      obtain ⟨a, b, hsplit⟩ := List.append_of_mem hd
      have hkept := Text.dropEndWhile_append_cons (· == '\r') (l.content ++ a) b
        (by simpa using hcarriage)
      rw [List.append_assoc, ← hsplit, List.append_assoc] at hkept
      rw [hkept] at hunbroken ⊢
      obtain ⟨u, hu⟩ : ∃ u, a ++ d :: Text.dropEndWhile (· == '\r') b = c :: u := by
        cases a with
        | nil =>
            obtain ⟨rfl, -⟩ := List.cons.inj (hsplit.symm.trans hv)
            exact ⟨_, rfl⟩
        | cons e a =>
            obtain ⟨rfl, -⟩ := List.cons.inj (hsplit.symm.trans hv)
            exact ⟨_, rfl⟩
      have hone : a ++ d :: Text.dropEndWhile (· == '\r') b = [c] := by
        cases u with
        | nil => exact hu
        | cons e u =>
            rw [hu, List.dropLast_append_of_ne_nil (by simp)] at hunbroken
            exact absurd hend (by rw [hunbroken c (by simp)]; simp)
      obtain rfl : d = c := by
        have hmem : d ∈ [c] := hone ▸ by simp
        exact List.mem_singleton.1 hmem
      have hfeed : d ≠ '\n' := by simpa using List.mem_takeWhile_imp hd
      rw [hone]
      rcases shown_cases h with ⟨-, hending⟩ | ⟨e, he, -, -, hshown⟩
      · rcases hending d (by simp [hc]) with heq | heq
        · exact absurd heq hfeed
        · exact absurd heq hcarriage
      · rw [hshown, ← he, hc]

/-- The first line is shown beyond what stands before a character exactly if that is all in
one line. -/
theorem length_lt_shown_iff {row after : Text} {c : Char} (h : l.Heads (row ++ c :: after) rest)
    (hfeed : c ≠ '\n') (hcarriage : c ≠ '\r') :
    row.length < (shown l).length ↔ Text.Unbroken row := by
  have hcontent : l.content <+: row ++ c :: after :=
    ⟨l.ending ++ rest, by rw [h.text, Text.Line.full, List.append_assoc]⟩
  have hlength : (shown l).length ≤ l.content.length + 1 ∧
      l.content.length ≤ (shown l).length := by
    rcases shown_cases h with ⟨hshown, -⟩ | ⟨e, -, -, -, hshown⟩ <;> simp [hshown]
  constructor
  · intro hlt
    have hrow : row <+: l.content :=
      List.prefix_of_prefix_length_le (List.prefix_append row _) hcontent (by omega)
    exact fun d hd => h.content d (hrow.subset hd)
  · intro hrow
    by_contra hle
    obtain ⟨later, rfl⟩ :=
      List.prefix_of_prefix_length_le hcontent (List.prefix_append row _) (by omega)
    have hrest : l.ending ++ rest = later ++ c :: after := by
      have htext := h.text
      rw [Text.Line.full, List.append_assoc, List.append_assoc] at htext
      exact (List.append_cancel_left htext).symm
    obtain ⟨e, u, hending, hend⟩ : ∃ e u, l.ending = e :: u ∧ Text.isLineEnd e = true := by
      rcases h.ending with ⟨hnone, hnil⟩ | hwide | ⟨e, he, hend⟩
      · simp [hnone, hnil] at hrest
      · exact ⟨_, _, hwide, rfl⟩
      · exact ⟨e, [], he, hend⟩
    rw [hending, List.cons_append] at hrest
    cases later with
    | nil =>
        obtain ⟨rfl, -⟩ := List.cons.inj hrest
        rcases shown_cases h with ⟨-, hplain⟩ | ⟨d, -, -, -, hshown⟩
        · rcases hplain e (by simp [hending]) with heq | heq
          · exact hfeed heq
          · exact hcarriage heq
        · simp [hshown] at hle
    | cons d later =>
        obtain ⟨rfl, -⟩ := List.cons.inj hrest
        exact absurd hend (by rw [hrow e (by simp)]; simp)

end

theorem shown_isPrefix (l : Text.Line) : shown l <+: l.full := by
  have hkept (p : Char → Bool) (t : Text) : Text.dropEndWhile p t <+: t := by
    have h := List.reverse_prefix.2 (List.dropWhile_suffix p (l := t.reverse))
    rwa [List.reverse_reverse] at h
  exact (hkept _ _).trans (hkept _ _)

theorem sourceLine_of_lines {source : Text} {front later : List Text.Line} {l : Text.Line}
    (h : Text.lines source = front ++ l :: later) :
    sourceLine source (1 + front.length) = shown l := by
  rw [Nat.add_comm, sourceLine, h, List.drop_left]
  rfl

/-- What is shown of a line stands in the source from the start of the line on. -/
theorem getElem?_sourceLine {source : Text} {number i : Nat}
    (h : i < (sourceLine source number).length) :
    (sourceLine source number)[i]? = source[lineStart source number + i]? := by
  cases number with
  | zero => simp [sourceLine] at h
  | succ n =>
      obtain ⟨htext, -⟩ := Text.full_lines source
      rw [lineStart, Nat.add_sub_cancel]
      cases hdrop : (Text.lines source).drop n with
      | nil => simp [sourceLine, hdrop] at h
      | cons l later =>
          have hshown : sourceLine source (n + 1) = shown l := by
            rw [sourceLine, hdrop]
            rfl
          obtain ⟨u, hu⟩ := shown_isPrefix l
          rw [← List.take_append_drop n (Text.lines source), hdrop, List.flatMap_append,
            List.flatMap_cons, ← hu] at htext
          rw [hshown] at h ⊢
          generalize ((Text.lines source).take n).flatMap Text.Line.full = front at htext
          rw [← htext, List.getElem?_append_right (by omega), Nat.add_sub_cancel_left,
            List.append_assoc, List.getElem?_append_left h]

/-- A place that is marked has the character at its offset above the caret. -/
theorem Marks.getElem? {source : Text} {p : Position} (h : Marks source p) :
    (sourceLine source p.line)[p.column - 1]? = source[p.offset]? := by
  rw [getElem?_sourceLine h.within, h.offset]

/-! ### The line of a place -/

section

variable {front : Text}

/-- The two counts of lines begin a line at one offset exactly if no stray line end stands
before it. -/
theorem lineStart_eq_iff (hfront : Text.Closed front) (t : Text) :
    lineStart (front ++ t) (1 + front.count '\n') = front.length ↔ Text.strayEnds front = 0 := by
  have hlength := hfront.length_lines
  obtain ⟨htext, hfull⟩ := Text.full_lines front
  rw [lineStart, Nat.add_sub_cancel_left, hfront.lines_append,
    List.take_append_of_le_length (by omega)]
  generalize Text.lines front = ls at hlength htext hfull
  have hsplit : ((ls.take (front.count '\n')).flatMap Text.Line.full).length +
      ((ls.drop (front.count '\n')).flatMap Text.Line.full).length = front.length := by
    rw [← List.length_append, ← List.flatMap_append, List.take_append_drop, htext]
  have hnil : (ls.drop (front.count '\n')).flatMap Text.Line.full = [] ↔
      ls.drop (front.count '\n') = [] := by
    constructor
    · intro hall
      by_contra hne
      obtain ⟨l, hl⟩ := List.exists_mem_of_ne_nil _ hne
      exact hfull l (List.mem_of_mem_drop hl) (List.flatMap_eq_nil_iff.1 hall l hl)
    · intro h
      rw [h]
      rfl
  calc ((ls.take (front.count '\n')).flatMap Text.Line.full).length = front.length
      ↔ ((ls.drop (front.count '\n')).flatMap Text.Line.full).length = 0 := by omega
    _ ↔ ls.drop (front.count '\n') = [] := by rw [List.length_eq_zero_iff, hnil]
    _ ↔ Text.strayEnds front = 0 := by
      rw [List.drop_eq_nil_iff, hlength]
      omega

/-- Without a stray line end before a line, the line that is shown begins there. -/
theorem exists_heads (hfront : Text.Closed front) (hfree : Text.strayEnds front = 0) {t : Text}
    (ht : t ≠ []) : ∃ l rest, l.Heads t rest ∧
      sourceLine (front ++ t) (1 + front.count '\n') = shown l := by
  obtain ⟨l, rest, hlines, hheads⟩ := Text.lines_eq_cons ht
  have hlength : (Text.lines front).length = front.count '\n' := by
    rw [hfront.length_lines, hfree, Nat.add_zero]
  have happend : Text.lines (front ++ t) = Text.lines front ++ l :: Text.lines rest := by
    rw [hfront.lines_append, hlines]
  exact ⟨l, rest, hheads, hlength ▸ sourceLine_of_lines happend⟩

theorem lexerLine_closed (hfront : Text.Closed front) (t : Text) :
    lexerLine (front ++ t) (1 + front.count '\n') =
      Text.dropEndWhile (· == '\r') (t.takeWhile (· != '\n')) := by
  rw [lexerLine, Nat.add_sub_cancel_left, List.getD_eq_getElem?_getD,
    hfront.getElem?_splitOn]
  rfl

end

section

variable {before after : Text} {c : Char}

/-- The character of a place is in the line that the lexer means, in its column. -/
theorem getElem?_lexerLine (hfeed : c ≠ '\n') (hcarriage : c ≠ '\r') :
    (lexerLine (before ++ c :: after) (Position.after before).line)[
      (Position.after before).column - 1]? = some c := by
  obtain ⟨front, row, rfl, hfront, hrow⟩ := Text.exists_closed_append before
  have hkept : ∀ d ∈ row, (d != '\n') = true := by
    intro d hd
    simpa using fun heq : d = '\n' => hrow (heq ▸ hd)
  rw [Position.after_closed hfront hrow, List.append_assoc]
  dsimp only
  rw [lexerLine_closed hfront, List.takeWhile_append_of_pos hkept,
    List.takeWhile_cons_of_pos (by simpa using hfeed),
    Text.dropEndWhile_append_cons _ _ _ (by simpa using hcarriage), Nat.add_sub_cancel_left]
  simp

/-- The caret stands under the character of a place exactly if no stray line end stands
before it. -/
theorem marks_iff (hfeed : c ≠ '\n') (hcarriage : c ≠ '\r') :
    Marks (before ++ c :: after) (.after before) ↔ Text.strayEnds before = 0 := by
  obtain ⟨front, row, rfl, hfront, hrow⟩ := Text.exists_closed_append before
  have hhead : row.head? ≠ some '\n' := fun h => hrow (List.mem_of_mem_head? h)
  have hwithin (hfree : Text.strayEnds front = 0) : row.length <
      (sourceLine (front ++ (row ++ c :: after)) (1 + front.count '\n')).length ↔
        Text.Unbroken row := by
    obtain ⟨l, rest, hheads, hshown⟩ := exists_heads hfront hfree (t := row ++ c :: after) (by simp)
    rw [hshown, length_lt_shown_iff hheads hfeed hcarriage]
  have hstart := lineStart_eq_iff hfront (row ++ c :: after)
  rw [Position.after_closed hfront hrow, List.append_assoc, Text.strayEnds_append hhead,
    Nat.add_eq_zero_iff, Text.strayEnds_eq_zero_iff hrow]
  constructor
  · rintro ⟨hoffset, hcolumn⟩
    simp only [Nat.add_sub_cancel_left, List.length_append, Nat.add_right_cancel_iff] at *
    have hfree := hstart.1 hoffset
    exact ⟨hfree, (hwithin hfree).1 hcolumn⟩
  · rintro ⟨hfree, hunbroken⟩
    constructor
    · simp [hstart.2 hfree]
    · simpa using (hwithin hfree).2 hunbroken

/-- Without a stray line end before a place, its line is shown as the lexer means it exactly
if nothing but its last character ends a line. -/
theorem sourceLine_eq_iff (hfree : Text.strayEnds before = 0) :
    sourceLine (before ++ c :: after) (Position.after before).line =
        lexerLine (before ++ c :: after) (Position.after before).line ↔
      Text.Unbroken (lexerLine (before ++ c :: after) (Position.after before).line).dropLast := by
  obtain ⟨front, row, rfl, hfront, hrow⟩ := Text.exists_closed_append before
  have hhead : row.head? ≠ some '\n' := fun h => hrow (List.mem_of_mem_head? h)
  rw [Text.strayEnds_append hhead, Nat.add_eq_zero_iff] at hfree
  rw [Position.after_closed hfront hrow, List.append_assoc]
  obtain ⟨l, rest, hheads, hshown⟩ :=
    exists_heads hfront hfree.1 (t := row ++ c :: after) (by simp)
  dsimp only
  rw [lexerLine_closed hfront, hshown, shown_eq_iff hheads]

end

end Snippet

end MapScript
