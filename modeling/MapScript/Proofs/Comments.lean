import MapScript.Proofs.Lexing.Lookahead
import MapScript.Proofs.Respacing.Reading
import MapScript.Proofs.Respacing.Text

/-!
# Comments are space

Every comment of a script may be replaced, by a line feed if it holds one and by a
space otherwise, and the script comes to the same text or fails with the same error.
Only between a directive and a parenthesis a comment matters: space there leaves an
argument list to the directive, a comment does not.
-/

namespace MapScript

open Grammar
open Lexer

/-! ### Scripts without their comments -/

namespace Lexeme

/-- The text of a lexeme, a comment as the space that goes in its place. -/
def respaced (l : Lexeme) : Text :=
  if l.kind = .comment then if '\n' ∈ l.raw then ['\n'] else [' '] else l.raw

/-- Whether the next lexeme that does not only separate is an opening parenthesis. -/
def parenthesisNext (ls : List Lexeme) : Bool :=
  (ls.dropWhile isTrivia).head? == some ⟨.punct, ['(']⟩

/-- The text of lexemes with space for comments, but for those between a directive and
an opening parenthesis.  They come after a directive or not. -/
def withoutComments (directive : Bool) : List Lexeme → Text
  | [] => []
  | l :: ls =>
    if l.isTrivia then
      (if directive && parenthesisNext ls then l.raw else l.respaced) ++
        withoutComments directive ls
    else l.raw ++ withoutComments (l.kind == .directive) ls

end Lexeme

/-- The script with space for its comments. -/
def TokenStream.withoutComments (s : TokenStream) : Text :=
  Lexeme.withoutComments false (s.tokens.map Token.toLexeme)

/-- The class of an error: that of a refusal, or the fault of arithmetic. -/
def Failure.errorClass : Failure → ErrorKind ⊕ Fault
  | .report r => .inl r.cause.kind
  | .fault f => .inr f

namespace Lexeme

theorem parenthesisNext_append {g : List Lexeme} (hg : ∀ l ∈ g, l.isTrivia = true)
    (ls : List Lexeme) : parenthesisNext (g ++ ls) = parenthesisNext ls := by
  rw [parenthesisNext, parenthesisNext, List.dropWhile_append_of_pos hg]

/-- A gap is replaced as a whole or not at all. -/
theorem withoutComments_gap (directive : Bool) {g : List Lexeme}
    (hg : ∀ l ∈ g, l.isTrivia = true) (ls : List Lexeme) :
    withoutComments directive (g ++ ls) =
      (if directive && parenthesisNext ls then rawText g else g.flatMap respaced) ++
        withoutComments directive ls := by
  induction g with
  | nil => simp [rawText]
  | cons l g ih =>
      obtain ⟨hl, hg⟩ := List.forall_mem_cons.1 hg
      rw [List.cons_append, withoutComments, if_pos hl, ih hg, parenthesisNext_append hg]
      split <;> simp [rawText]

theorem withoutComments_significant (directive : Bool) {l : Lexeme} (hl : l.isTrivia = false)
    (ls : List Lexeme) :
    withoutComments directive (l :: ls) = l.raw ++ withoutComments (l.kind == .directive) ls := by
  rw [withoutComments, hl, if_neg (by simp)]

theorem respaced_of_ne {l : Lexeme} (h : l.kind ≠ .comment) : l.respaced = l.raw := if_neg h

theorem respaced_ne_nil {l : Lexeme} (h : l.raw ≠ []) : l.respaced ≠ [] := by
  rw [respaced]
  split
  · split <;> simp
  · exact h

theorem lineFeed_mem_respaced (l : Lexeme) : '\n' ∈ l.respaced ↔ '\n' ∈ l.raw := by
  rw [respaced]
  split
  · split
    · next hfeed => simp [hfeed]
    · next hfeed => simp [hfeed]
  · rfl

/-- What stands first, or a gap in its place. -/
theorem head?_withoutComments (directive : Bool) {ls : List Lexeme} (hls : ∀ l ∈ ls, l.raw ≠ []) :
    isGap (withoutComments directive ls).head? = true ∨
      (rawText ls).head? = (withoutComments directive ls).head? := by
  have hfirst {l : Lexeme} (h : l.raw ≠ []) (ls : List Lexeme) (t : Text) :
      (rawText (l :: ls)).head? = (l.raw ++ t).head? := by
    obtain ⟨c, tail, hraw⟩ := List.exists_cons_of_ne_nil h
    simp [rawText, hraw]
  cases ls with
  | nil => exact Or.inl rfl
  | cons l ls =>
      have hl := hls l (by simp)
      rw [withoutComments]
      split
      · split
        · exact Or.inr (hfirst hl ls _)
        · by_cases hcomment : l.kind = .comment
          · left
            rw [respaced, if_pos hcomment]
            split <;> rfl
          · rw [respaced_of_ne hcomment]
            exact Or.inr (hfirst hl ls _)
      · exact Or.inr (hfirst hl ls _)

/-- Nothing runs together when comments are replaced. -/
theorem calmer_withoutComments (directive : Bool) {ls : List Lexeme}
    (hls : ∀ l ∈ ls, l.raw ≠ []) : Calmer (rawText ls) (withoutComments directive ls) := by
  have hkept {l : Lexeme} {ls : List Lexeme} (directive : Bool) (hl : l.raw ≠ [])
      (hls : ∀ l ∈ ls, l.raw ≠ []) :
      Calmer (rawText (l :: ls)) (l.raw ++ withoutComments directive ls) := by
    show Calmer (l.raw ++ rawText ls) _
    match hraw : l.raw with
    | [] => exact absurd hraw hl
    | [x] => exact Or.inr ⟨rfl, head?_withoutComments directive hls⟩
    | x :: y :: tail => exact Or.inr ⟨rfl, Or.inr rfl⟩
  cases ls with
  | nil => exact .of_gap rfl
  | cons l ls =>
      obtain ⟨hl, hls⟩ := List.forall_mem_cons.1 hls
      rw [withoutComments]
      split
      · split
        · exact hkept directive hl hls
        · by_cases hcomment : l.kind = .comment
          · apply Calmer.of_gap
            rw [respaced, if_pos hcomment]
            split <;> rfl
          · rw [respaced_of_ne hcomment]
            exact hkept directive hl hls
      · exact hkept _ hl hls

end Lexeme

/-! ### Reading a script without its comments -/

namespace Lexer

/-- The separators at the front of a script. -/
theorem lexemes_gap {g ls : List Lexeme} (hg : ∀ l ∈ g, l.isTrivia = true)
    (h : lexemes .script (Lexeme.rawText (g ++ ls)) = .ok (g ++ ls)) :
    Reads g (Lexeme.rawText ls) ∧ lexemes .script (Lexeme.rawText ls) = .ok ls := by
  induction g with
  | nil => exact ⟨trivial, h⟩
  | cons l g ih =>
      obtain ⟨hl, hg⟩ := List.forall_mem_cons.1 hg
      obtain ⟨c, tail, hraw, hscan, hrest⟩ := lexemes_cons h
      have hopens := opensHeader_of_isTrivia hl
      rw [Mode.enter_script] at hscan hrest
      rw [Mode.leave_script, hopens] at hrest
      obtain ⟨hreads, hlater⟩ := ih hg hrest
      have hstands : Stands l (Lexeme.rawText g ++ Lexeme.rawText ls) := by
        rw [Lexeme.rawText, Lexeme.rawText, ← List.flatMap_append]
        exact ⟨c, tail, hraw, hscan⟩
      exact ⟨⟨hstands, hopens, hreads⟩, hlater⟩

end Lexer

namespace Lexeme

theorem withoutComments_prose (directive : Bool) {l : Lexeme}
    (hl : l.kind = .text ∨ l.kind = .newline) (ls : List Lexeme) :
    ∃ d, withoutComments directive (l :: ls) = l.raw ++ withoutComments d ls := by
  rcases hl with hkind | hkind
  · exact ⟨_, withoutComments_significant directive (by rw [isTrivia, hkind]; rfl) ls⟩
  · have htrivia : l.isTrivia = true := by
      rw [isTrivia, hkind]
      rfl
    have hne : l.kind ≠ .comment := by
      rw [hkind]
      decide
    refine ⟨directive, ?_⟩
    rw [withoutComments, if_pos htrivia, respaced_of_ne hne, ite_self]

/-- Prose has no comments, and none is taken for more of the header end. -/
theorem sameProse_withoutComments (directive : Bool) {ls : List Lexeme}
    (h : lexemes .prose (rawText ls) = .ok ls) :
    SameProse (rawText ls) (withoutComments directive ls) := by
  induction ls generalizing directive with
  | nil => exact Or.inl rfl
  | cons l ls ih =>
      obtain ⟨hl, hls⟩ := List.forall_mem_cons.1 (raw_ne_nil_of_lexemes h)
      rcases lexemes_prose h with ⟨hends, hcloses, -, -⟩ | ⟨-, hkind, -, hrest⟩
      · have hlength := length_of_closesHeader hcloses hl
        have hafter := next_of_startsHeaderEnd hends hlength
        rw [withoutComments_significant directive (isTrivia_of_closesHeader hcloses)]
        refine Or.inr ⟨l.raw, rawText ls, _, rfl, rfl, by omega, ?_⟩
        rcases head?_withoutComments (l.kind == .directive) hls with hgap | hhead
        · rw [hafter]
          cases hnext : (withoutComments (l.kind == .directive) ls).head? with
          | none => rfl
          | some d =>
              rw [hnext] at hgap
              simp only [isGap, Bool.or_eq_true, beq_iff_eq] at hgap
              rcases hgap with rfl | rfl <;> rfl
        · rw [hhead]
      · obtain ⟨d, hkept⟩ := withoutComments_prose directive hkind ls
        rw [hkept]
        exact (ih d hrest).append l.raw

end Lexeme

/-! ### Reading both scripts -/

/-- Streams that track each other, with an argument list ahead in both or in neither if a
directive stands before. -/
def Follows (directive : Bool) (ts ts' : List Token) : Prop :=
  Tracks .anywhere ts ts' ∧
    (directive = true → argumentList.ahead ts = argumentList.ahead ts')

/-- What is known of the lexemes of the first text goes along. -/
theorem Abreast.and_lexemes {k : Likeness} {R : List Token → List Token → Prop} {mode : Mode}
    {t t' : Text} {ls : List Lexeme} (h : Abreast k R mode t t') (hls : lexemes mode t = .ok ls) :
    Abreast k (fun ts ts' => ts.map Token.toLexeme = ls ∧ R ts ts') mode t t' := by
  intro p p' hp
  have hboth := h p p' hp
  rw [hls] at hboth ⊢
  generalize lexemes mode t' = result at hboth
  cases hboth with
  | ok hts => exact .ok ⟨Token.map_place p ls, hts⟩

theorem ahead_eq_parenthesisNext {ts : List Token}
    (hts : ∀ t ∈ ts.head?, t.isTrivia = false) :
    argumentList.ahead ts = Lexeme.parenthesisNext (ts.map Token.toLexeme) := by
  cases ts with
  | nil => rfl
  | cons t ts =>
      have ht : t.isTrivia = false := hts t rfl
      have hlexeme : t.toLexeme.isTrivia = false := ht
      rw [Part.ahead_cons (gap_of_significant ht), Lexeme.parenthesisNext, List.map_cons,
        List.dropWhile_cons_of_neg (by simp [hlexeme]), List.head?_cons, Token.isPunct]
      rw [Bool.eq_iff_iff]
      obtain ⟨⟨kind, raw⟩, span⟩ := t
      simp [argumentList]

/-- What a gap becomes is read as a gap that breaks the line where it did. -/
theorem Lexeme.reads_gap {g ls : List Lexeme} (directive : Bool) (hg : ∀ l ∈ g, l.isTrivia = true)
    (hls : ∀ l ∈ ls.head?, l.isTrivia = false) (hreads : Reads g (rawText ls))
    (hlater : lexemes .script (rawText ls) = .ok ls) :
    ∃ g', rawText g' = (if directive && parenthesisNext ls then rawText g
        else g.flatMap respaced) ∧ Reads g' (withoutComments directive ls) ∧
      (∀ l ∈ g', l.isTrivia = true) ∧ (∀ l ∈ g', l.kind = .newline → '\n' ∈ l.raw) ∧
      ((directive && parenthesisNext ls) = true → g' = g) := by
  have hbreak : ∀ l ∈ g, l.kind = .newline → '\n' ∈ l.raw := by
    intro l hl
    obtain ⟨rest, hstands⟩ := hreads.stands_of_mem hl
    exact hstands.lineFeed_mem
  cases hkept : directive && parenthesisNext ls with
  | true =>
      refine ⟨g, by simp, ?_, hg, hbreak, fun _ => rfl⟩
      rw [Bool.and_eq_true] at hkept
      cases ls with
      | nil => cases hkept.2
      | cons m ls =>
          have hm : m.isTrivia = false := hls m rfl
          have hparen := hkept.2
          rw [parenthesisNext, List.dropWhile_cons_of_neg (by simp [hm]), List.head?_cons,
            beq_iff_eq, Option.some.injEq] at hparen
          subst hparen
          rw [withoutComments_significant directive hm]
          exact hreads.of_head? hg rfl (by simp [rawText])
  | false =>
      have hspace : ∀ c ∈ g.flatMap respaced, c ∈ spaceChars := by
        intro c hc
        obtain ⟨l, hl, hcl⟩ := List.mem_flatMap.1 hc
        by_cases hcomment : l.kind = .comment
        · rw [respaced, if_pos hcomment] at hcl
          split at hcl <;> simp at hcl <;> rw [hcl] <;> simp [spaceChars]
        · rw [respaced_of_ne hcomment] at hcl
          obtain ⟨rest, hstands⟩ := hreads.stands_of_mem hl
          exact hstands.mem_spaceChars (hg l hl) hcomment c hcl
      have hhead : ∀ c ∈ (withoutComments directive ls).head?, c ∉ spaceChars := by
        cases ls with
        | nil => simp [withoutComments]
        | cons m ls =>
            have hm : m.isTrivia = false := hls m rfl
            obtain ⟨c, tail, hraw, hscan, -⟩ := lexemes_cons hlater
            obtain ⟨d, tail', hraw', hd⟩ := Stands.head_notMem ⟨c, tail, hraw, hscan⟩ hm
            rw [withoutComments_significant directive hm, hraw']
            simpa using hd
      obtain ⟨g', htext, hg', hreads'⟩ := reads_space hspace hhead
      refine ⟨g', by simp [htext], hreads', fun l hl => (hg' l hl).isTrivia, ?_, by simp⟩
      intro l hl hkind
      rcases hg' l hl with ⟨hblank, -⟩ | ⟨-, hfeed⟩
      · rw [hblank] at hkind
        cases hkind
      · exact hfeed

/-! ### One step of reading -/

/-- Streams that track each other from a gap on, as the scripts with and without comments
have it. -/
theorem abreast_gap {g ls : List Lexeme} (directive : Bool) (hne : g ≠ [])
    (hg : ∀ l ∈ g, l.isTrivia = true) (hhead : ∀ l ∈ ls.head?, l.isTrivia = false)
    (hlex : lexemes .script (Lexeme.rawText (g ++ ls)) = .ok (g ++ ls))
    (hrest : Abreast .anywhere (Follows directive) .script (Lexeme.rawText ls)
      (Lexeme.withoutComments directive ls)) :
    Abreast .anywhere (Follows directive) .script (Lexeme.rawText (g ++ ls))
      (Lexeme.withoutComments directive (g ++ ls)) := by
  have hraw := raw_ne_nil_of_lexemes hlex
  obtain ⟨hreads, hlater⟩ := lexemes_gap hg hlex
  obtain ⟨g', htext, hreads', hg', hbreak', hsame⟩ :=
    Lexeme.reads_gap directive hg hhead hreads hlater
  have hbreak : ∀ l ∈ g, l.kind = .newline → '\n' ∈ l.raw := by
    intro l hl
    obtain ⟨rest, hstands⟩ := hreads.stands_of_mem hl
    exact hstands.lineFeed_mem
  have hlines : (Lexeme.rawText g).contains '\n' = (Lexeme.rawText g').contains '\n' := by
    rw [htext, Bool.eq_iff_iff, List.contains_iff_mem, List.contains_iff_mem]
    split
    · rfl
    · simp [Lexeme.rawText, Lexeme.lineFeed_mem_respaced]
  have hne' : g' ≠ [] := by
    rintro rfl
    obtain ⟨l, g, rfl⟩ := List.exists_cons_of_ne_nil hne
    have hl : l.raw ≠ [] := hraw l (by simp)
    split at htext
    · exact hne (hsame (by assumption)).symm
    · rw [List.flatMap_cons, Lexeme.rawText, List.flatMap_nil, eq_comm,
        List.append_eq_nil_iff] at htext
      exact Lexeme.respaced_ne_nil hl htext.1
  have hwhole : Lexeme.rawText (g ++ ls) = Lexeme.rawText g ++ Lexeme.rawText ls :=
    List.flatMap_append
  rw [hwhole, Lexeme.withoutComments_gap directive hg, ← htext]
  refine Abreast.behind hreads.takes hreads'.takes (fun _ _ _ => trivial) ?_
    (hrest.and_lexemes hlater)
  rintro p p' ts ts' - ⟨rfl, htracks, hahead⟩
  have hgap := Gap.of_lexemes hg hg' hne hne' hbreak hbreak' hlines p p'
  refine ⟨.gap hgap htracks, ?_⟩
  rintro rfl
  rw [Part.ahead_gap hgap.trivia, Part.ahead_gap hgap.trivia', ← hahead rfl, Token.all_gap_place,
    Token.all_gap_place]
  have hts : ∀ t ∈ ts.head?, t.isTrivia = false := by
    intro t ht
    apply hhead t.toLexeme
    rw [List.head?_map, ht]
    rfl
  cases hparen : Lexeme.parenthesisNext (ts.map Token.toLexeme) with
  | true => rw [hsame (by rw [hparen]; rfl)]
  | false => rw [ahead_eq_parenthesisNext hts, hparen, Bool.and_false, Bool.and_false]

/-- A significant lexeme before the rest of both scripts. -/
theorem abreast_significant {l : Lexeme} {ls : List Lexeme} (directive : Bool)
    (hsig : l.isTrivia = false) (hlex : lexemes .script (Lexeme.rawText (l :: ls)) = .ok (l :: ls))
    (hscript : lexemes .script (Lexeme.rawText ls) = .ok ls →
      Abreast .anywhere (Follows (l.kind == .directive)) .script (Lexeme.rawText ls)
        (Lexeme.withoutComments (l.kind == .directive) ls))
    (hprose : lexemes .prose (Lexeme.rawText ls) = .ok ls →
      Abreast .anywhere (InProse .anywhere Eq) .prose (Lexeme.rawText ls)
        (Lexeme.withoutComments (l.kind == .directive) ls)) :
    Abreast .anywhere (Follows directive) .script (Lexeme.rawText (l :: ls))
      (Lexeme.withoutComments directive (l :: ls)) := by
  obtain ⟨-, hne⟩ := List.forall_mem_cons.1 (raw_ne_nil_of_lexemes hlex)
  obtain ⟨c, tail, hraw, hscan, hrest⟩ := lexemes_cons hlex
  have hstands : Stands l (Lexeme.rawText ls) := ⟨c, tail, hraw, hscan⟩
  have hstands' := hstands.calmer hsig
    (Lexeme.calmer_withoutComments (l.kind == .directive) hne)
  rw [Mode.enter_script, Mode.leave_script] at hrest
  rw [Lexeme.withoutComments_significant directive hsig]
  show Abreast .anywhere (Follows directive) .script (l.raw ++ Lexeme.rawText ls) _
  cases hopens : opensHeader l with
  | false =>
      rw [hopens] at hrest
      refine Abreast.script hstands hstands' hopens (fun _ _ _ => trivial) ?_ (hscript hrest)
      rintro t t' ts ts' alike rfl ⟨htracks, hafter⟩
      have hafter' (hkind : t.kind = .directive) := hafter (by rw [hkind]; rfl)
      exact ⟨.token alike hsig hopens hafter' htracks, fun _ => alike.ahead_eq hsig _ _⟩
  | true =>
      rw [hopens] at hrest
      have htakes {rest : Text} (h : Stands l rest) : Takes .script [l] rest .prose := by
        have hfirst := h.takes
        rwa [hopens] at hfirst
      rw [← Lexeme.rawText_singleton l]
      refine Abreast.behind (htakes hstands) (htakes hstands') (fun _ _ _ => trivial) ?_
        (hprose hrest)
      rintro p p' ts ts' hp hts
      have alike : Token.Alike .anywhere ⟨l, ⟨p, p.advance l.raw⟩⟩ ⟨l, ⟨p', p'.advance l.raw⟩⟩ :=
        ⟨rfl, hp⟩
      refine ⟨hts.tracks alike hopens ?_, fun _ => alike.ahead_eq hsig _ _⟩
      intro q q' span span' heq
      rw [Header.lines, Header.lines, Header.text, Header.text, heq]

/-- A lexeme of prose, or the header end, before the rest of both scripts. -/
theorem abreast_prose {l : Lexeme} {ls : List Lexeme} (directive : Bool)
    (hlex : lexemes .prose (Lexeme.rawText (l :: ls)) = .ok (l :: ls))
    (hscript : lexemes .script (Lexeme.rawText ls) = .ok ls → ∀ d,
      Abreast .anywhere (Follows d) .script (Lexeme.rawText ls) (Lexeme.withoutComments d ls))
    (hprose : lexemes .prose (Lexeme.rawText ls) = .ok ls → ∀ d,
      Abreast .anywhere (InProse .anywhere Eq) .prose (Lexeme.rawText ls)
        (Lexeme.withoutComments d ls)) :
    Abreast .anywhere (InProse .anywhere Eq) .prose (Lexeme.rawText (l :: ls))
      (Lexeme.withoutComments directive (l :: ls)) := by
  obtain ⟨-, hne⟩ := List.forall_mem_cons.1 (raw_ne_nil_of_lexemes hlex)
  have hsame := (Lexeme.sameProse_withoutComments directive hlex).startsHeaderEnd_eq
  show Abreast .anywhere (InProse .anywhere Eq) .prose (l.raw ++ Lexeme.rawText ls) _
  rcases lexemes_prose hlex with ⟨hends, hcloses, hstands, hrest⟩ |
      ⟨hends, hkind, ⟨c, tail, hraw, hscan⟩, hrest⟩
  · have hsig := isTrivia_of_closesHeader hcloses
    have hstands' := hstands.calmer hsig
      (Lexeme.calmer_withoutComments (l.kind == .directive) hne)
    rw [Lexeme.withoutComments_significant directive hsig] at hsame ⊢
    have hends' := hsame.symm.trans hends
    rw [← Lexeme.rawText_singleton l]
    refine Abreast.behind (hstands.takes_prose hcloses hends) (hstands'.takes_prose hcloses hends')
      (fun _ _ _ => trivial) ?_ (hscript hrest (l.kind == .directive))
    rintro p p' ts ts' hp ⟨htracks, -⟩
    exact .finish rfl ⟨rfl, hp⟩ hcloses htracks
  · obtain ⟨d, hkept⟩ := Lexeme.withoutComments_prose directive hkind ls
    rw [hkept] at hsame ⊢
    have hends' := hsame.symm.trans hends
    rw [← Lexeme.rawText_singleton l]
    have hscan' := (Lexeme.sameProse_withoutComments d hrest).scanProse_eq hscan
    refine Abreast.behind (takes_prose hraw hscan hends) (takes_prose hraw hscan' hends')
      (fun _ _ _ => trivial) ?_ (hprose hrest d)
    rintro p p' ts ts' - hts
    have hone (p : Position) : ∀ t ∈ Token.place p [l], t.kind = .text ∨ t.kind = .newline := by
      simpa [Token.place] using hkind
    refine hts.append (hone p) (hone p') ?_ trivial
    rintro w w' rfl
    rw [← Token.rawText_map, ← Token.rawText_map, Token.map_place, Token.map_place]

/-! ### The whole script -/

/-- A script and what it is without its comments are read abreast. -/
theorem abreast_withoutComments (ls : List Lexeme) (directive : Bool) :
    (lexemes .script (Lexeme.rawText ls) = .ok ls →
      Abreast .anywhere (Follows directive) .script (Lexeme.rawText ls)
        (Lexeme.withoutComments directive ls)) ∧
    (lexemes .prose (Lexeme.rawText ls) = .ok ls →
      Abreast .anywhere (InProse .anywhere Eq) .prose (Lexeme.rawText ls)
        (Lexeme.withoutComments directive ls)) := by
  induction hn : ls.length using Nat.strongRecOn generalizing ls directive with
  | _ n ih =>
      -- a row begins with a gap, taken as a whole, or with a significant lexeme
      have hcut := List.takeWhile_append_dropWhile (p := Lexeme.isTrivia) (l := ls)
      have hlength := congrArg List.length hcut
      rw [List.length_append, hn] at hlength
      constructor
      · intro hlex
        cases hg : ls.takeWhile Lexeme.isTrivia with
        | cons l g =>
            have htrivia : ∀ m ∈ l :: g, m.isTrivia = true := fun m hm =>
              List.mem_takeWhile_imp (hg ▸ hm)
            have hhead : ∀ m ∈ (ls.dropWhile Lexeme.isTrivia).head?, m.isTrivia = false := by
              intro m hm
              have hnot := List.head?_dropWhile_not Lexeme.isTrivia ls
              rw [Option.mem_def.1 hm] at hnot
              simpa using hnot
            rw [hg] at hcut
            rw [hg, List.length_cons] at hlength
            rw [← hcut] at hlex ⊢
            have hlater := ih _ (by omega) (ls.dropWhile Lexeme.isTrivia) directive rfl
            exact abreast_gap directive (by simp) htrivia hhead hlex
              (hlater.1 (lexemes_gap htrivia hlex).2)
        | nil =>
            cases ls with
            | nil => exact Abreast.nil ⟨.nil, fun _ => rfl⟩
            | cons l ls =>
                have hsig : l.isTrivia = false := by
                  by_contra hl
                  rw [List.takeWhile_cons_of_pos (by simpa using hl)] at hg
                  cases hg
                have hlater := ih ls.length (by simp [← hn]) ls
                exact abreast_significant directive hsig hlex (hlater _ rfl).1 (hlater _ rfl).2
      · intro hlex
        cases ls with
        | nil => exact Abreast.nil (.unclosed (by simp) (by simp) rfl trivial)
        | cons l ls =>
            have hlater := ih ls.length (by simp [← hn]) ls
            exact abreast_prose directive hlex (fun h d => (hlater d rfl).1 h)
              fun h d => (hlater d rfl).2 h

theorem Failure.Alike.errorClass_eq {k : Likeness} {e e' : Failure} (h : e.Alike k e') :
    e.errorClass = e'.errorClass := by
  cases h with
  | report hreport => exact congrArg Sum.inl hreport.cause.kind_eq
  | fault f => rfl

/-- A script with space for its comments comes to the same text, or fails with the same
class of error. -/
theorem preprocess_withoutComments (options : Options) {source : Text} {stream : TokenStream}
    (h : TokenStream.ofSource source = .ok stream) :
    (∃ text, preprocess options source = .ok text ∧
      preprocess options stream.withoutComments = .ok text) ∨
    ∃ e e', preprocess options source = .error e ∧
      preprocess options stream.withoutComments = .error e' ∧ e.errorClass = e'.errorClass := by
  obtain ⟨ls, hlex, hls⟩ := TokenStream.lexScript_of_ofSource h
  have hsource : Lexeme.rawText ls = source := (rawText_of_lexemes hlex).1
  have habreast : Abreast .anywhere (Tracks .anywhere) .script source stream.withoutComments := by
    rw [TokenStream.withoutComments, hls, ← hsource]
    refine ((abreast_withoutComments ls false).1 ?_).mono fun _ _ htracks => htracks.1
    rw [hsource]
    exact hlex
  obtain ⟨hboth, -⟩ := Preprocess.runPass_alike options habreast.reading
  unfold preprocess
  generalize (Preprocess.runPass options (Preprocess.text options source)).1 = x at hboth
  generalize (Preprocess.runPass options
    (Preprocess.text options stream.withoutComments)).1 = y at hboth
  cases hboth with
  | @ok text text' htext => exact Or.inl ⟨text, rfl, by rw [htext]⟩
  | @error e e' he => exact Or.inr ⟨e, e', rfl, rfl, he.errorClass_eq⟩

/-- Comments in an argument list, over a line break and at the end of a line. -/
theorem preprocess_withoutComments_repeat :
    ∃ stream, TokenStream.ofSource "#REPEAT(/* n */2)\na/* \n */b // c\n#END_REPEAT".toList =
        .ok stream ∧
      ((∃ text, preprocess {} "#REPEAT(/* n */2)\na/* \n */b // c\n#END_REPEAT".toList =
          .ok text ∧ preprocess {} stream.withoutComments = .ok text) ∨
        ∃ e e', preprocess {} "#REPEAT(/* n */2)\na/* \n */b // c\n#END_REPEAT".toList =
          .error e ∧ preprocess {} stream.withoutComments = .error e' ∧
            e.errorClass = e'.errorClass) := by
  have hok : (TokenStream.ofSource
      "#REPEAT(/* n */2)\na/* \n */b // c\n#END_REPEAT".toList).isOk = true := by
    decide +kernel
  cases h : TokenStream.ofSource "#REPEAT(/* n */2)\na/* \n */b // c\n#END_REPEAT".toList with
  | error e =>
      rw [h] at hok
      cases hok
  | ok stream => exact ⟨stream, rfl, preprocess_withoutComments {} h⟩

end MapScript
