import MapScript.Proofs.EngineText
import MapScript.Proofs.HeaderProse

/-!
# Header lines as the engine reads them

The engine does not nest comments: it reads one up to the first closer.  A line whose
marks are set apart has no closer but the last, so the engine reads it whole.  A line
that is one comment already stays as it is, also if it is one only because comments
nest in a script; the engine ends such a comment at the closer of an inner one.
-/

namespace MapScript

open Lexer (commentTail putFront)

namespace Header

/-! ### Comments that do not nest -/

/-- The rest of a comment that ends with the first closer; none if the text ends first. -/
def flatTail : Text → Option (Text × Text)
  | [] => none
  | '*' :: '/' :: cs => some (['*', '/'], cs)
  | c :: cs => (flatTail cs).map (putFront [c])

/-- The comment that a text begins with for a reader who does not nest comments, and the text
behind it. -/
def flatComment? : Text → Option (Text × Text)
  | '/' :: '*' :: cs => (flatTail cs).map (putFront ['/', '*'])
  | _ => none

/-- The text is one comment that ends with its first closer. -/
structure OneComment (t : Text) : Prop where
  opener : ['/', '*'] <+: t
  closer : ['*', '/'] <:+ t.drop 2
  first : ¬ ['*', '/'] <:+: (t.drop 2).dropLast

theorem map_putFront_eq_some_iff (front : Text) {t : Text} {scan : Option (Text × Text)} :
    scan.map (putFront front) = some (front ++ t, []) ↔ scan = some (t, []) := by
  cases scan with
  | none => simp
  | some taken => simp [putFront, Prod.ext_iff]

theorem apart_iff {a b : Char} {t : Text} : Apart a b t ↔ ¬ [a, b] <:+: t := by
  induction t with
  | nil => simp [Apart]
  | cons c cs ih =>
      have hprefix : [a, b] <+: c :: cs ↔ c = a ∧ cs.head? = some b := by
        cases cs with
        | nil => simp
        | cons d ds => simp [List.cons_prefix_cons, eq_comm]
      rw [Apart, ih, List.infix_cons_iff, hprefix, not_or]

/-- A reader reaches the end with the first closer if that is the end. -/
theorem flatTail_eq_some_iff (t : Text) :
    flatTail t = some (t, []) ↔ ['*', '/'] <:+ t ∧ Apart '*' '/' t.dropLast := by
  fun_induction flatTail t with
  | case1 => simp
  | case2 cs =>
      cases cs with
      | nil => simp [Apart]
      | cons d ds => simp [Apart]
  | case3 c cs hmark ih =>
      have hscan := @map_putFront_eq_some_iff [c] cs (flatTail cs)
      have hne : ['*', '/'] ≠ c :: cs := by
        rintro heq
        obtain ⟨rfl, rfl⟩ := List.cons.inj heq
        exact hmark [] rfl rfl
      rw [List.singleton_append] at hscan
      rw [hscan, ih, List.suffix_cons_iff, or_iff_right hne]
      refine and_congr_right fun hcloser => ?_
      cases cs with
      | nil => simp at hcloser
      | cons d ds =>
          have hhead : ¬ (c = '*' ∧ (d :: ds).dropLast.head? = some '/') := by
            rintro ⟨rfl, hhead⟩
            cases ds with
            | nil => cases hhead
            | cons e es =>
                obtain rfl := Option.some.inj hhead
                exact hmark (e :: es) rfl rfl
          rw [List.dropLast_cons_cons, Apart]
          exact (and_iff_right hhead).symm

/-- A reader who does not nest comments reads a text whole if it is one comment. -/
theorem oneComment_iff {t : Text} : OneComment t ↔ flatComment? t = some (t, []) := by
  have hread (body : Text) : flatComment? ('/' :: '*' :: body) = some ('/' :: '*' :: body, []) ↔
      ['*', '/'] <:+ body ∧ ¬ ['*', '/'] <:+: body.dropLast := by
    rw [← apart_iff, ← flatTail_eq_some_iff]
    exact map_putFront_eq_some_iff ['/', '*']
  constructor
  · rintro ⟨⟨body, rfl⟩, hcloser, hfirst⟩
    exact (hread body).2 ⟨hcloser, hfirst⟩
  · intro h
    unfold flatComment? at h
    split at h
    · next body =>
      obtain ⟨hcloser, hfirst⟩ := (hread body).1 h
      exact ⟨⟨body, rfl⟩, hcloser, hfirst⟩
    · cases h

/-! ### Comments that nest -/

/-- Where no opener is, comments that nest end as those that do not. -/
theorem commentTail_of_apart {t : Text} (h : Apart '/' '*' t) : commentTail 1 t = flatTail t := by
  fun_induction flatTail t with
  | case1 => rfl
  | case2 cs => simp [commentTail, putFront]
  | case3 c cs hmark ih =>
      have hopen (ds : Text) (hc : c = '/') (hcs : cs = '*' :: ds) : False :=
        h.1 ⟨hc, by rw [hcs]; rfl⟩
      rw [commentTail, ih h.2]
      · exact hopen
      · exact hmark

/-- One closer does not end two comments. -/
theorem commentTail_of_flatTail {t : Text} (h : flatTail t = some (t, [])) (depth : Nat) :
    commentTail (depth + 2) t = none ∧ commentTail (depth + 2) t.tail = none := by
  fun_induction flatTail t generalizing depth with
  | case1 => cases h
  | case2 cs =>
      obtain rfl : cs = [] := by simpa using h
      exact ⟨rfl, rfl⟩
  | case3 c cs hmark ih =>
      have hcs := (map_putFront_eq_some_iff [c]).1 h
      refine ⟨?_, (ih hcs depth).1⟩
      by_cases hopen : c = '/' ∧ cs.head? = some '*'
      · obtain ⟨rfl, hhead⟩ := hopen
        obtain ⟨ds, rfl⟩ := List.head?_eq_some_iff.1 hhead
        rw [commentTail, show commentTail (depth + 3) ds = none from (ih hcs (depth + 1)).2]
        rfl
      · rw [commentTail, (ih hcs depth).1]
        · rfl
        · exact fun ds hc hds => hopen ⟨hc, by rw [hds]; rfl⟩
        · exact hmark

theorem commentTail_of_opener {t : Text} (h : flatTail t = some (t, []))
    (hopener : ¬ Apart '/' '*' t) : commentTail 1 t = none := by
  fun_induction flatTail t with
  | case1 => cases h
  | case2 cs =>
      obtain rfl : cs = [] := by simpa using h
      simp [Apart] at hopener
  | case3 c cs hmark ih =>
      have hcs := (map_putFront_eq_some_iff [c]).1 h
      by_cases hopen : c = '/' ∧ cs.head? = some '*'
      · obtain ⟨rfl, hhead⟩ := hopen
        obtain ⟨ds, rfl⟩ := List.head?_eq_some_iff.1 hhead
        rw [commentTail, show commentTail 2 ds = none from (commentTail_of_flatTail hcs 0).2]
        rfl
      · rw [commentTail, ih hcs fun hapart => hopener ⟨hopen, hapart⟩]
        · rfl
        · exact fun ds hc hds => hopen ⟨hc, by rw [hds]; rfl⟩
        · exact hmark

/-- What is one comment when comments nest is one for the engine, unless there is an opener
in it. -/
theorem flatTail_iff_of_commentTail {t : Text} (h : commentTail 1 t = some (t, [])) :
    flatTail t = some (t, []) ↔ Apart '/' '*' t := by
  refine ⟨fun hflat => ?_, fun hapart => commentTail_of_apart hapart ▸ h⟩
  by_contra hopener
  rw [commentTail_of_opener hflat hopener] at h
  cases h

/-! ### Lines -/

/-- The line is one comment only because comments nest in a script: it holds another. -/
def Nests (line : Text) : Prop := isComment line = true ∧ ['/', '*'] <:+: line.drop 2

/-- A line of a header as it is written: a comment that the engine ends at the end of the
line, unless it nests another. -/
structure Commented (line out : Text) : Prop where
  opener : ['/', '*'] <+: out
  one : OneComment out ↔ ¬ Nests line
  /-- A comment stays as it is. -/
  kept : isComment line = true → out = line
  /-- Other lines change in blanks only, between the marks of the comment. -/
  wrapped : isComment line = false →
    out.filter (· != ' ') = ['/', '*'] ++ line.filter (· != ' ') ++ ['*', '/']

theorem filter_setApart {a b : Char} (ha : a ≠ ' ') (hb : b ≠ ' ') (t : Text) :
    (setApart a b t).filter (· != ' ') = t.filter (· != ' ') := by
  fun_induction setApart a b t with
  | case1 x y rest h ih =>
      simp only [Bool.and_eq_true, beq_iff_eq] at h
      obtain ⟨rfl, rfl⟩ := h
      simp [ih, ha, hb]
  | case2 x y rest h ih => rw [List.filter_cons, List.filter_cons, ih]
  | case3 t h => rfl

theorem Apart.append_closer {t : Text} (h : Apart '/' '*' t) :
    Apart '/' '*' (t ++ [' ', '*', '/']) := by
  induction t with
  | nil => simp [Apart]
  | cons c cs ih =>
      refine ⟨?_, ih h.2⟩
      rintro ⟨rfl, hhead⟩
      cases cs with
      | nil => cases hhead
      | cons d ds => exact h.1 ⟨rfl, hhead⟩

/-- The engine reads a line whose marks are set apart to its end. -/
theorem flatComment?_setApart (line : Text) :
    flatComment? ("/* ".toList ++ setApart '/' '*' (setApart '*' '/' line) ++ " */".toList) =
      some ("/* ".toList ++ setApart '/' '*' (setApart '*' '/' line) ++ " */".toList, []) := by
  have hopen : Apart '/' '*' (' ' :: setApart '/' '*' (setApart '*' '/' line)) :=
    ⟨by simp, apart_setApart (by decide) (by decide) (by decide) _⟩
  have hclose : Apart '*' '/' (' ' :: setApart '/' '*' (setApart '*' '/' line)) :=
    ⟨by simp, (apart_setApart (by decide) (by decide) (by decide) line).setApart (by decide)
      (by decide) _ _⟩
  have htail := commentTail_apart hopen hclose []
  rw [commentTail_of_apart hopen.append_closer] at htail
  exact (map_putFront_eq_some_iff ['/', '*']).2 htail

/-- A line is written as one comment for the engine, unless it nests another. -/
theorem commented_commentLine (line : Text) : Commented line (commentLine line) := by
  unfold commentLine
  split
  · next hcomment =>
    obtain ⟨body, rfl, htail⟩ := exists_commentTail_of_isComment hcomment
    have hread : flatComment? ('/' :: '*' :: body) = some ('/' :: '*' :: body, []) ↔
        ¬ Nests ('/' :: '*' :: body) := by
      rw [Nests, and_iff_right hcomment, List.drop_succ_cons, List.drop_succ_cons, List.drop_zero,
        ← apart_iff, ← flatTail_iff_of_commentTail htail]
      exact map_putFront_eq_some_iff ['/', '*']
    exact ⟨⟨body, rfl⟩, oneComment_iff.trans hread, fun _ => rfl, by simp [hcomment]⟩
  · next hcomment =>
    have hnests : ¬ Nests line := fun h => hcomment h.1
    have hread := iff_of_true (flatComment?_setApart line) hnests
    refine ⟨⟨_, rfl⟩, oneComment_iff.trans hread, fun h => absurd h hcomment, fun _ => ?_⟩
    simp [filter_setApart]

/-- Nothing is left of a line of blanks, and of no other. -/
theorem isEmpty_strip (t : Text) : (Text.strip t).isEmpty = t.all Text.isBlank := by
  have hnil : Text.strip t = [] ↔ ∀ c ∈ t, Text.isBlank c = true := by
    rw [Text.strip, Text.dropEndWhile, List.reverse_eq_nil_iff, List.dropWhile_eq_nil_iff]
    induction t with
    | nil => simp
    | cons c cs ih =>
        by_cases hc : Text.isBlank c = true
        · rw [List.dropWhile_cons_of_pos hc, ih]
          simp [hc]
        · rw [List.dropWhile_cons_of_neg hc]
          simp [hc]
  rw [Bool.eq_iff_iff, List.isEmpty_iff, hnil, List.all_eq_true]

/-- A header has one line written for each of its lines that is not blank, in order.  Each
begins as a comment, and it is one comment to its end just if the line is not one comment with
another nested in it.  What is one comment to its end is what the engine, which does not nest
comments, reads as one with nothing left over. -/
theorem lines_commented (h : Header) :
    List.Forall₂ (fun l out => Commented (Text.strip l.content) out)
      ((Text.lines h.text).filter fun l => !l.content.all Text.isBlank) h.lines ∧
    ∀ out, OneComment out ↔ flatComment? out = some (out, []) := by
  have hlines : h.lines = ((Text.lines h.text).filter fun l => !l.content.all Text.isBlank).map
      fun l => commentLine (Text.strip l.content) := by
    rw [lines, List.filter_map, List.map_map]
    simp [Function.comp_def, isEmpty_strip]
  refine ⟨?_, fun _ => oneComment_iff⟩
  rw [hlines, List.forall₂_map_right_iff, List.forall₂_same]
  exact fun l _ => commented_commentLine (Text.strip l.content)

/-- A header with a comment in a comment. -/
def preamble : Text := "#HEADER_START\n/* a /* b */ c */\n#HEADER_END".toList

/-- The engine ends the comment at the closer of the inner one. -/
theorem lines_preamble :
    ∃ script header, Script.ofSource preamble = .ok script ∧ Node.header header ∈ script.parts ∧
      ∃ out ∈ header.lines, ¬ OneComment out ∧
        (flatComment? out).map Prod.snd = some " c */".toList := by
  obtain ⟨script, header, hscript, hmem, hout⟩ := @exists_mem_of_any preamble
    (fun header => header.lines.any fun out =>
      decide ((flatComment? out).map Prod.snd = some " c */".toList)) (by decide +kernel)
  obtain ⟨out, hout, hread⟩ := List.any_eq_true.1 hout
  replace hread := of_decide_eq_true hread
  refine ⟨script, header, hscript, hmem, out, hout, fun hone => ?_, hread⟩
  rw [oneComment_iff.1 hone] at hread
  cases hread

end Header

end MapScript
