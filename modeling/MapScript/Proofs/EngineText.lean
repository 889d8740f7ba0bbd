import MapScript.EngineText
import MapScript.Proofs.Compact

/-!
# Engine text reads as its parts

A header line becomes one comment, whatever it holds: after its marks of comments
are set apart, none is left to open or close one early.  So the lines before the
script text only separate, and the significant lexemes of the whole are those that
the runs of the script spell.
-/

namespace MapScript

open Lexer MapScript.Compact

namespace Header

/-! ### Marks set apart -/

/-- A character never stands directly before another in the text. -/
def Apart (a b : Char) : Text → Prop
  | [] => True
  | c :: cs => ¬ (c = a ∧ cs.head? = some b) ∧ Apart a b cs

theorem head?_setApart (a b : Char) (t : Text) : (setApart a b t).head? = t.head? := by
  fun_cases setApart a b t with
  | case1 x y rest h =>
      simp only [Bool.and_eq_true, beq_iff_eq] at h
      simp [h.1]
  | case2 x y rest h => simp
  | case3 t h => rfl

theorem apart_setApart {a b : Char} (ha : a ≠ ' ') (hb : b ≠ ' ') (hab : a ≠ b) (t : Text) :
    Apart a b (setApart a b t) := by
  fun_induction setApart a b t with
  | case1 x y rest h ih =>
      refine ⟨?_, ?_, ?_, ih⟩
      · rintro ⟨-, hhead⟩
        exact hb (Option.some.inj hhead).symm
      · rintro ⟨hblank, -⟩
        exact ha hblank.symm
      · rintro ⟨hmark, -⟩
        exact hab hmark.symm
  | case2 x y rest h ih =>
      refine ⟨?_, ih⟩
      rw [head?_setApart]
      simpa using h
  | case3 t h =>
      match t with
      | [] => trivial
      | [x] => exact ⟨by simp, trivial⟩
      | x :: y :: rest => exact absurd rfl (h x y rest)

/-- Setting marks apart brings no others together. -/
theorem Apart.setApart {a b : Char} (ha : a ≠ ' ') (hb : b ≠ ' ') {t : Text} (h : Apart a b t)
    (c d : Char) : Apart a b (setApart c d t) := by
  fun_induction Header.setApart c d t with
  | case1 x y rest hxy ih =>
      obtain ⟨-, hy, hrest⟩ := h
      simp only [Bool.and_eq_true, beq_iff_eq] at hxy
      refine ⟨?_, ?_, ?_, ih hrest⟩
      · rintro ⟨-, hhead⟩
        exact hb (Option.some.inj hhead).symm
      · rintro ⟨hblank, -⟩
        exact ha hblank.symm
      · rw [head?_setApart, ← hxy.2]
        exact hy
  | case2 x y rest _ ih =>
      refine ⟨?_, ih h.2⟩
      rw [head?_setApart]
      exact h.1
  | case3 t => exact h

/-- A comment that holds no marks ends with its closer. -/
theorem commentTail_apart {t : Text} (hopen : Apart '/' '*' t) (hclose : Apart '*' '/' t)
    (rest : Text) :
    commentTail 1 (t ++ ' ' :: '*' :: '/' :: rest) = some (t ++ [' ', '*', '/'], rest) := by
  induction t with
  | nil => simp [commentTail, putFront]
  | cons c cs ih =>
      have hlater := ih hopen.2 hclose.2
      rw [List.cons_append, commentTail, hlater]
      · rfl
      · intro us hc hus
        apply hopen.1
        refine ⟨hc, ?_⟩
        cases cs with
        | nil => simp at hus
        | cons d ds => simpa using congrArg List.head? hus
      · intro us hc hus
        apply hclose.1
        refine ⟨hc, ?_⟩
        cases cs with
        | nil => simp at hus
        | cons d ds => simpa using congrArg List.head? hus

/-- A block comment that ends where its text does is read whole before any text. -/
theorem stands_comment {t : Text} (h : commentTail 1 t = some (t, [])) (rest : Text) :
    Stands ⟨.comment, '/' :: '*' :: t⟩ rest := by
  have hopen : opening '/' ('*' :: (t ++ rest)) = .blockComment := by simp [opening]
  have htail : commentTail 1 (t ++ rest) = some (t, rest) := commentTail_before h rest
  refine ⟨'/', '*' :: t, rfl, ?_⟩
  simp [scanScript, hopen, Opening.scan, Scan.closed, Scan.of, htail, putFront]

/-- A line that is one comment is its opener and what is read to the end of the comment. -/
theorem exists_commentTail_of_isComment {line : Text} (h : isComment line = true) :
    ∃ body, line = '/' :: '*' :: body ∧ commentTail 1 body = some (body, []) := by
  simp only [isComment, Bool.and_eq_true] at h
  obtain ⟨hmark, hlex⟩ := h
  obtain ⟨body, rfl⟩ := List.isPrefixOf_iff_prefix.1 hmark
  split at hlex
  · next l hread =>
    have hkind : l.kind = .comment := by simpa using hlex
    obtain ⟨htext, ⟨c, tail, hraw, hscan⟩, -, -⟩ := reads_of_lexScript hread (by
      simp [opensHeader, hkind])
    have hline : l.raw = '/' :: '*' :: body := by simpa [Lexeme.rawText] using htext
    rw [hline, List.cons.injEq] at hraw
    obtain ⟨rfl, rfl⟩ := hraw
    have hopen : opening '/' ('*' :: body) = .blockComment := by simp [opening]
    simp only [Lexeme.rawText, List.flatMap_nil, List.append_nil, scanScript, hopen] at hscan
    obtain ⟨taken, htaken, heq⟩ := Option.map_eq_some_iff.1 (Scan.closed_append hscan)
    simp only [putFront, List.take_succ_cons, List.take_zero, List.cons_append, List.nil_append,
      Prod.mk.injEq, List.cons.injEq, true_and] at heq
    refine ⟨body, rfl, ?_⟩
    rw [show (body, []) = taken from Prod.ext heq.1.symm heq.2.symm]
    exact htaken
  · cases hlex

/-- A line that is one comment is read as it is. -/
theorem stands_of_isComment {line : Text} (h : isComment line = true) (rest : Text) :
    Stands ⟨.comment, line⟩ rest := by
  obtain ⟨body, rfl, htail⟩ := exists_commentTail_of_isComment h
  exact stands_comment htail rest

/-- A header line is one comment, whatever follows it. -/
theorem stands_commentLine (line rest : Text) : Stands ⟨.comment, commentLine line⟩ rest := by
  unfold commentLine
  split
  · next h => exact stands_of_isComment h rest
  · have hopen : Apart '/' '*' (setApart '/' '*' (setApart '*' '/' line)) :=
      apart_setApart (by decide) (by decide) (by decide) _
    have hclose : Apart '*' '/' (setApart '/' '*' (setApart '*' '/' line)) :=
      (apart_setApart (by decide) (by decide) (by decide) line).setApart (by decide) (by decide) _ _
    have htail := commentTail_apart (t := ' ' :: setApart '/' '*' (setApart '*' '/' line))
      ⟨by simp, hopen⟩ ⟨by simp, hclose⟩ []
    exact stands_comment (t := ' ' :: setApart '/' '*' (setApart '*' '/' line) ++ [' ', '*', '/'])
      (by simpa using htail) rest

end Header

/-! ### The whole text -/

theorem Text.join_cons (separator part : Text) (parts : List Text) :
    Text.join separator (part :: parts) =
      part ++ if parts = [] then [] else separator ++ Text.join separator parts := by
  cases parts with
  | nil => simp [Text.join]
  | cons next parts => simp [Text.join]

/-- Comments on lines of their own before a text that is read leave its significant
lexemes. -/
theorem readsAs_join {spelling : Lexeme → List Lexeme} {ls : List Lexeme} {lines parts : List Text}
    (hlines : ∀ line ∈ lines, ∀ rest, Stands ⟨.comment, line⟩ rest)
    (hparts : ReadsAs spelling ls (Text.join ['\n'] parts)) :
    ReadsAs spelling ls (Text.join ['\n'] (lines ++ parts)) := by
  induction lines with
  | nil => exact hparts
  | cons line lines ih =>
      have hline := hlines line (by simp)
      have hlater := ih fun l hl => hlines l (by simp [hl])
      rw [List.cons_append, Text.join_cons]
      split
      · next hnil =>
        rw [hnil] at hlater
        obtain ⟨out, htext, hreads, hsig⟩ := hlater
        exact ⟨⟨.comment, line⟩ :: out, congrArg (line ++ ·) htext, ⟨hline _, rfl, hreads⟩, hsig⟩
      · obtain ⟨out, htext, hreads, hsig⟩ := hlater.lineFeed
        exact ⟨⟨.comment, line⟩ :: out, congrArg (line ++ ·) htext, ⟨hline _, rfl, hreads⟩, hsig⟩

/-- The text of an expanded script reads as the spellings of the lexemes in its runs. -/
theorem readsAs_engineText {spelling : Lexeme → List Lexeme} (keepLines : Bool)
    {pieces : List Piece}
    (h : ∀ l ∈ pieces.flatMap Piece.lexemes, l.isTrivia = false → Spells l (spelling l)) :
    ReadsAs spelling (pieces.flatMap Piece.lexemes) (engineText keepLines pieces) := by
  unfold engineText
  apply readsAs_join
  · intro line hline rest
    obtain ⟨piece, -, hline⟩ := List.mem_flatMap.1 hline
    cases piece with
    | run r => simp [Piece.headerLines] at hline
    | cut span => simp [Piece.headerLines] at hline
    | header header =>
        obtain ⟨line, -, rfl⟩ := List.mem_map.1 hline
        exact Header.stands_commentLine line rest
  · have hbody := readsAs_render keepLines h
    split
    · next hempty =>
      rw [List.isEmpty_iff.1 hempty] at hbody
      simpa [Text.join] using hbody
    · simpa [Text.join] using hbody

end MapScript
