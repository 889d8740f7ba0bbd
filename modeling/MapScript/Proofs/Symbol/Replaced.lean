import MapScript.Proofs.Symbol.Likeness
import MapScript.Proofs.Symbol.Remaining
import MapScript.Proofs.Symbol.Coordinates
import MapScript.Proofs.CallsInPlace

/-!
# Rows with parts replaced

In a row names and calls give way to single tokens, and operands of constants to numerals.
Both rows are read alike: a group has an end in one where it has in the other, operands
begin in the same places, and whatever the second row declares, or names where an area
stands, is declared or named there in the first.
-/

namespace MapScript

open Grammar (Balanced argumentList)

/-- Before balanced tokens one that is no mark is balanced, too. -/
theorem Grammar.Balanced.plain {t : Token} {ts : List Token} (h : t.kind ≠ .punct)
    (hts : Balanced argumentList ts) : Balanced argumentList (t :: ts) :=
  .token (by simp [Token.isPunct, h]) (by simp [Token.isPunct, h]) rfl hts

/-- What can be a coordinate is balanced. -/
theorem Coordinate.balanced {ts : List Token} (h : Coordinate ts) : Balanced argumentList ts := by
  cases h with
  | number hkind => exact .plain (by simp [hkind]) .nil
  | signed hsign hkind =>
      refine .token ?_ ?_ rfl (.plain (by simp [hkind]) .nil)
      · exact Token.isPunct_eq_false hsign (by decide)
      · exact Token.isPunct_eq_false hsign (by decide)
  | name hkind => exact .plain (by simp [hkind]) .nil
  | call hkind hopener hwithin hcloser =>
      exact .plain (by simp [hkind]) (.pair hopener hcloser hwithin .nil)
  | parens hopener hwithin hcloser => exact .pair hopener hcloser hwithin .nil

namespace Resolve

/-- Whether a command declares an area or uses one. -/
def isAreaCommand (command : Text) : Bool :=
  (areaDeclaration? command).isSome || isAreaReference command

/-- Whether a row begins with a token of the sort. -/
def begins (p : Token → Bool) (row : List Indexed) : Bool := row.head?.any fun x => p x.1

/-- The rows begin alike for a token before them: both with a name or none of them, unless a
value ends with the token. -/
def BeginAlike (t : Token) (ts us : List Indexed) : Prop :=
  t.EndsValue ∨ begins (fun t => t.kind == .word) ts = begins (fun t => t.kind == .word) us

/-- What is known where a row gives way: of a token that stays, of the operand of a constant
and the numeral in its place, and of another part and the token in its place. -/
structure Swaps where
  stays : Indexed → Prop
  operand : List Indexed → Indexed → Prop
  other : List Indexed → Indexed → Prop

/-- What stands first in two rows, before the rest of each: a token that stays, the directive
and the name of a constant, with or without the operand, or a part that is replaced. -/
inductive Step (S : Swaps) : List Indexed → List Indexed → List Indexed → List Indexed → Prop
  | token {x y : Indexed} {ts us : List Indexed} (lexeme : x.1.toLexeme = y.1.toLexeme)
      (stays : S.stays x) (alike : BeginAlike x.1 ts us)
      (single : isConst x.1 = true → begins (fun t => t.kind == .word) ts = false) :
      Step S [x] [y] ts us
  | declare {c c' n n' : Indexed} {ts us : List Indexed} (const : isConst c.1 = true)
      (name : n.1.kind = .word) (plain : isAreaCommand n.1.raw = false)
      (directive : c.1.toLexeme = c'.1.toLexeme) (lexeme : n.1.toLexeme = n'.1.toLexeme)
      (stays : ∀ x ∈ ts.head?, S.stays x) : Step S [c, n] [c', n'] ts us
  | operand {c c' n n' v : Indexed} {part ts us : List Indexed} (const : isConst c.1 = true)
      (name : n.1.kind = .word) (plain : isAreaCommand n.1.raw = false)
      (directive : c.1.toLexeme = c'.1.toLexeme) (lexeme : n.1.toLexeme = n'.1.toLexeme)
      (coordinate : Coordinate (part.map Prod.fst))
      (free : readsAsCall (part.map Prod.fst) (ts.map Prod.fst) = false)
      (undirected : ∀ x ∈ part, x.1.kind ≠ .directive) (number : v.1.kind = .number)
      (operand : S.operand part v) : Step S (c :: n :: part) [c', n', v] ts us
  | other {v : Indexed} {part ts us : List Indexed} (coordinate : Coordinate (part.map Prod.fst))
      (free : readsAsCall (part.map Prod.fst) (ts.map Prod.fst) = false)
      (undirected : ∀ x ∈ part, x.1.kind ≠ .directive)
      (named : begins (fun t => t.kind == .word) part = true)
      (value : v.1.kind = .number ∨ v.1.kind = .word ∧ isAreaCommand v.1.raw = false ∧
        begins (Token.isPunct '(') us = false)
      (other : S.other part v) : Step S part [v] ts us

/-- The second row is the first with parts replaced. -/
inductive Replaced (S : Swaps) : List Indexed → List Indexed → Prop
  | nil : Replaced S [] []
  | step {front front' ts us : List Indexed} (here : Step S front front' ts us)
      (rest : Replaced S ts us) : Replaced S (front ++ ts) (front' ++ us)

/-- Two rows that are empty, or begin as two others do. -/
def Cut (ts us ts' us' : List Indexed) : Prop :=
  (ts' = [] ∧ us' = []) ∨ (ts'.head? = ts.head? ∧ us'.head? = us.head?)

section
variable {S : Swaps} {front front' ts us ts' us' : List Indexed} {x : Indexed}

theorem BeginAlike.cut {t : Token} (h : BeginAlike t ts us) (hcut : Cut ts us ts' us') :
    BeginAlike t ts' us' := by
  rcases hcut with ⟨rfl, rfl⟩ | ⟨hts, hus⟩
  · exact Or.inr rfl
  · simpa only [BeginAlike, begins, hts, hus] using h

theorem readsAsCall_cut {part : List Token}
    (h : readsAsCall part (ts.map Prod.fst) = false) (hcut : Cut ts us ts' us') :
    readsAsCall part (ts'.map Prod.fst) = false := by
  rcases hcut with ⟨rfl, -⟩ | ⟨hts, -⟩
  · simp [readsAsCall]
  · simpa only [readsAsCall, List.head?_map, hts] using h

/-- What stands first stands before less, too. -/
theorem Step.cut (h : Step S front front' ts us) (hcut : Cut ts us ts' us') :
    Step S front front' ts' us' := by
  cases h with
  | token hlexeme hstays halike hsingle =>
      refine .token hlexeme hstays (halike.cut hcut) fun hconst => ?_
      rcases hcut with ⟨rfl, -⟩ | ⟨hts, -⟩
      · rfl
      · simpa only [begins, hts] using hsingle hconst
  | declare hconst hname hplain hdirective hlexeme hstays =>
      refine .declare hconst hname hplain hdirective hlexeme ?_
      rcases hcut with ⟨rfl, -⟩ | ⟨hts, -⟩
      · simp
      · rwa [hts]
  | operand hconst hname hplain hdirective hlexeme hcoordinate hfree hundirected hnumber hoperand =>
      exact .operand hconst hname hplain hdirective hlexeme hcoordinate (readsAsCall_cut hfree hcut)
        hundirected hnumber hoperand
  | other hcoordinate hfree hundirected hnamed hvalue hother =>
      refine .other hcoordinate (readsAsCall_cut hfree hcut) hundirected hnamed ?_ hother
      refine hvalue.imp_right fun ⟨hword, hplain, hcalled⟩ => ⟨hword, hplain, ?_⟩
      rcases hcut with ⟨-, rfl⟩ | ⟨-, hus⟩
      · rfl
      · simpa only [begins, hus] using hcalled

/-- A parenthesis stands first where it did. -/
theorem Replaced.opens (h : Replaced S ts us) :
    begins (Token.isPunct '(') ts = begins (Token.isPunct '(') us := by
  cases h with
  | nil => rfl
  | @step front front' ts us hhere _ =>
      cases hhere with
      | token hlexeme => simp [begins, Token.isPunct_congr hlexeme]
      | declare _ _ _ hdirective => simp [begins, Token.isPunct_congr hdirective]
      | operand _ _ _ hdirective => simp [begins, Token.isPunct_congr hdirective]
      | other _ _ _ hnamed hvalue =>
          have hv : ∀ v : Token, v.kind = .number ∨ v.kind = .word → v.isPunct '(' = false := by
            rintro v (hv | hv) <;> simp [Token.isPunct, hv]
          have hfirst := hv _ (hvalue.imp_right And.left)
          cases front with
          | nil => cases hnamed
          | cons w part =>
              replace hnamed : w.1.kind = .word := by simpa [begins] using hnamed
              simp [begins, hfirst, hv _ (Or.inr hnamed)]

/-- A numeral stands first where it did, if a name does. -/
theorem Replaced.numbers (h : Replaced S ts us)
    (hwords : begins (fun t => t.kind == .word) ts = begins (fun t => t.kind == .word) us) :
    begins (fun t => t.kind == .number) ts = begins (fun t => t.kind == .number) us := by
  cases h with
  | nil => rfl
  | @step front front' ts us hhere _ =>
      cases hhere with
      | token hlexeme => simp [begins, show _ = _ from congrArg Lexeme.kind hlexeme]
      | declare _ _ _ hdirective => simp [begins, show _ = _ from congrArg Lexeme.kind hdirective]
      | operand _ _ _ hdirective => simp [begins, show _ = _ from congrArg Lexeme.kind hdirective]
      | other _ _ _ hnamed _ =>
          cases front with
          | nil => cases hnamed
          | cons w part =>
              replace hnamed : w.1.kind = .word := by simpa [begins] using hnamed
              have hv := hwords.symm.trans (show _ = true by simp [begins, hnamed])
              simp only [begins, List.singleton_append, List.head?_cons, Option.any_some,
                beq_iff_eq] at hv
              simp [begins, hnamed, hv]

theorem Replaced.cons {y : Indexed} (h : Step S [x] [y] ts us) (hrest : Replaced S ts us) :
    Replaced S (x :: ts) (y :: us) := Replaced.step h hrest

/-- A token that is no name and no directive stays. -/
theorem Replaced.cons_inv (h : Replaced S (x :: ts) us) (hword : x.1.kind ≠ .word)
    (hdirective : x.1.kind ≠ .directive) :
    ∃ y us', us = y :: us' ∧ x.1.toLexeme = y.1.toLexeme ∧ Step S [x] [y] ts us' ∧
      Replaced S ts us' := by
  have hconst {c : Token} (h : isConst c = true) : c.kind = .directive := by
    rw [isConst, Bool.and_eq_true, beq_iff_eq] at h
    exact h.1
  generalize hrow : x :: ts = row at h
  cases h with
  | nil => cases hrow
  | @step front front' ts' us' here rest =>
      cases here with
      | token hlexeme hstays halike hsingle =>
          cases hrow
          exact ⟨_, _, rfl, hlexeme, .token hlexeme hstays halike hsingle, rest⟩
      | declare hc =>
          cases hrow
          exact absurd (hconst hc) hdirective
      | operand hc =>
          cases hrow
          exact absurd (hconst hc) hdirective
      | other _ _ _ hnamed =>
          cases front with
          | nil => cases hnamed
          | cons w part =>
              cases hrow
              exact absurd (by simpa [begins] using hnamed) hword

end

/-! ### Groups -/

/-- Groups are read alike off two rows: neither has an end to one, or both have, and what is
read and what is left is replaced as the rows are. -/
inductive GroupsAlike (S : Swaps) (depth : Nat) (ts us : List Indexed) : Prop
  | unfinished (first : (Group.readPart argumentList depth (ts.map Prod.fst)).isOk = false)
      (second : (Group.readPart argumentList depth (us.map Prod.fst)).isOk = false)
  | group {inner inner' rest rest' : List Indexed} {closer closer' : Indexed}
      (first : Group.readPart argumentList depth (ts.map Prod.fst) =
        .ok ⟨inner.map Prod.fst, closer.1, rest.map Prod.fst⟩)
      (second : Group.readPart argumentList depth (us.map Prod.fst) =
        .ok ⟨inner'.map Prod.fst, closer'.1, rest'.map Prod.fst⟩)
      (row : ts = inner ++ closer :: rest) (row' : us = inner' ++ closer' :: rest')
      (within : Replaced S (inner ++ [closer]) (inner' ++ [closer']))
      (later : Replaced S rest rest')

section
variable {S : Swaps} {front front' ts us : List Indexed} {depth : Nat}

theorem cut_closer (inner inner' rest rest' : List Indexed) (closer closer' : Indexed) :
    Cut (inner ++ closer :: rest) (inner' ++ closer' :: rest') (inner ++ [closer])
      (inner' ++ [closer']) := by
  right
  cases inner <;> cases inner' <;> exact ⟨rfl, rfl⟩

/-- Balanced tokens take no part in the end of a group. -/
theorem GroupsAlike.prepend (h : GroupsAlike S depth ts us)
    (hfront : Balanced argumentList (front.map Prod.fst))
    (hfront' : Balanced argumentList (front'.map Prod.fst))
    (hstep : Step S front front' ts us) : GroupsAlike S depth (front ++ ts) (front' ++ us) := by
  cases h with
  | unfinished hfirst hsecond =>
      refine .unfinished ?_ ?_
      · rwa [List.map_append, Group.isOk_readPart_balanced hfront]
      · rwa [List.map_append, Group.isOk_readPart_balanced hfront']
  | @group inner inner' rest rest' closer closer' hfirst hsecond hrow hrow' hwithin hlater =>
      subst hrow hrow'
      refine @GroupsAlike.group S depth _ _ (front ++ inner) (front' ++ inner') rest rest' closer
        closer' ?_ ?_ (by simp) (by simp) ?_ hlater
      · rw [List.map_append, Group.readPart_balanced hfront, hfirst, List.map_append]
        rfl
      · rw [List.map_append, Group.readPart_balanced hfront', hsecond, List.map_append]
        rfl
      · rw [List.append_assoc, List.append_assoc]
        exact .step (hstep.cut (cut_closer _ _ _ _ _ _)) hwithin

/-- The same lexemes close a group alike, or the reading goes on alike. -/
theorem readPart_step_congr {t t' : Token} (h : t.toLexeme = t'.toLexeme) (depth : Nat) :
    (∀ ts us, Group.readPart argumentList depth (t :: ts) = .ok ⟨[], t, ts⟩ ∧
        Group.readPart argumentList depth (t' :: us) = .ok ⟨[], t', us⟩) ∨
      ∃ d, ∀ ts us, Group.readPart argumentList depth (t :: ts) =
          (Group.readPart argumentList d ts).map (Group.cons t) ∧
        Group.readPart argumentList depth (t' :: us) =
          (Group.readPart argumentList d us).map (Group.cons t') := by
  have hsame (c : Char) : t'.isPunct c = t.isPunct c := (Token.isPunct_congr h c).symm
  cases hopener : t.isPunct argumentList.opener with
  | true =>
      exact Or.inr ⟨depth + 1, fun ts us =>
        ⟨Group.readPart_opener hopener, Group.readPart_opener ((hsame _).trans hopener)⟩⟩
  | false =>
      cases hcloser : t.isPunct argumentList.closer with
      | false =>
          exact Or.inr ⟨depth, fun ts us => ⟨Group.readPart_token hopener hcloser,
            Group.readPart_token ((hsame _).trans hopener) ((hsame _).trans hcloser)⟩⟩
      | true =>
          have hcloser' := (hsame _).trans hcloser
          cases depth with
          | zero =>
              exact Or.inl fun ts us =>
                ⟨Group.readPart_closer_zero hcloser, Group.readPart_closer_zero hcloser'⟩
          | succ depth =>
              exact Or.inr ⟨depth, fun ts us =>
                ⟨Group.readPart_closer_succ hcloser, Group.readPart_closer_succ hcloser'⟩⟩

theorem kind_of_isConst {c : Token} (h : isConst c = true) : c.kind = .directive := by
  rw [isConst, Bool.and_eq_true, beq_iff_eq] at h
  exact h.1

theorem not_endsValue_of_isConst {c : Token} (h : isConst c = true) : ¬c.EndsValue := by
  simp [Token.EndsValue, kind_of_isConst h, Token.isPunct]

/-- What stands first takes no part in the end of a group, unless it is a token. -/
theorem Step.balanced (h : Step S front front' ts us) :
    (∃ x y : Indexed, front = [x] ∧ front' = [y] ∧ x.1.toLexeme = y.1.toLexeme) ∨
      Balanced argumentList (front.map Prod.fst) ∧ Balanced argumentList (front'.map Prod.fst) := by
  have hdirective {c c' : Token} (hconst : isConst c = true) (h : c.toLexeme = c'.toLexeme) :
      c.kind ≠ .punct ∧ c'.kind ≠ .punct := by
    rw [← congrArg Lexeme.kind h, kind_of_isConst hconst]
    exact ⟨by decide, by decide⟩
  have hname {n n' : Token} (hword : n.kind = .word) (h : n.toLexeme = n'.toLexeme) :
      n.kind ≠ .punct ∧ n'.kind ≠ .punct := by
    rw [← congrArg Lexeme.kind h, hword]
    exact ⟨by decide, by decide⟩
  cases h with
  | token hlexeme => exact Or.inl ⟨_, _, rfl, rfl, hlexeme⟩
  | declare hconst hword _ hdirective' hlexeme =>
      obtain ⟨hc, hc'⟩ := hdirective hconst hdirective'
      obtain ⟨hn, hn'⟩ := hname hword hlexeme
      exact Or.inr ⟨.plain hc (.plain hn .nil), .plain hc' (.plain hn' .nil)⟩
  | operand hconst hword _ hdirective' hlexeme hcoordinate _ _ hnumber =>
      obtain ⟨hc, hc'⟩ := hdirective hconst hdirective'
      obtain ⟨hn, hn'⟩ := hname hword hlexeme
      exact Or.inr ⟨.plain hc (.plain hn hcoordinate.balanced),
        .plain hc' (.plain hn' (.plain (by simp [hnumber]) .nil))⟩
  | other hcoordinate _ _ _ hvalue =>
      refine Or.inr ⟨hcoordinate.balanced, .plain ?_ .nil⟩
      rcases hvalue with hnumber | ⟨hword, -⟩
      · simp [hnumber]
      · simp [hword]

/-- A row with parts replaced has its groups where the row has them. -/
theorem Replaced.groupsAlike (h : Replaced S ts us) (depth : Nat) : GroupsAlike S depth ts us := by
  induction h generalizing depth with
  | nil => exact .unfinished rfl rfl
  | @step front front' ts us hhere hrest ih =>
      rcases hhere.balanced with ⟨x, y, rfl, rfl, hlexeme⟩ | ⟨hfront, hfront'⟩
      · rcases readPart_step_congr hlexeme depth with hclose | ⟨d, hgo⟩
        · obtain ⟨hfirst, hsecond⟩ := hclose (ts.map Prod.fst) (us.map Prod.fst)
          exact @GroupsAlike.group S depth _ _ [] [] ts us x y hfirst hsecond rfl rfl
            (.cons (hhere.cut (Or.inl ⟨rfl, rfl⟩)) .nil) hrest
        · obtain ⟨hfirst, hsecond⟩ := hgo (ts.map Prod.fst) (us.map Prod.fst)
          cases ih d with
          | unfinished hts hus =>
              refine .unfinished ?_ ?_
              · simpa [hfirst, Group.isOk_map] using hts
              · simpa [hsecond, Group.isOk_map] using hus
          | @group inner inner' rest rest' closer closer' hts hus hrow hrow' hwithin hlater =>
              subst hrow hrow'
              refine @GroupsAlike.group S depth _ _ (x :: inner) (y :: inner') rest rest' closer
                closer' ?_ ?_ rfl rfl (.cons (hhere.cut (cut_closer _ _ _ _ _ _)) hwithin) hlater
              · rw [List.singleton_append, List.map_cons, hfirst, hts]
                rfl
              · rw [List.singleton_append, List.map_cons, hsecond, hus]
                rfl
      · exact (ih depth).prepend hfront hfront' hhere

end

/-! ### Operands -/

/-- Operands are read alike off two rows. -/
inductive OperandsAlike (S : Swaps) (ts us : List Indexed) : Prop
  | missing (first : Operand.length? (ts.map Prod.fst) = none)
      (second : Operand.length? (us.map Prod.fst) = none)
  | operand {part part' rest rest' : List Indexed}
      (first : Operand.length? (ts.map Prod.fst) = some part.length)
      (second : Operand.length? (us.map Prod.fst) = some part'.length)
      (row : ts = part ++ rest) (row' : us = part' ++ rest') (within : Replaced S part part')
      (later : Replaced S rest rest')

/-- Parentheses are read alike off two rows. -/
inductive ParensAlike (S : Swaps) (ts us : List Indexed) : Prop
  | unfinished (first : Group.parens? (ts.map Prod.fst) = none)
      (second : Group.parens? (us.map Prod.fst) = none)
  | group {inner inner' rest rest' : List Indexed} {closer closer' : Indexed}
      (first : Group.parens? (ts.map Prod.fst) =
        some ⟨inner.map Prod.fst, closer.1, rest.map Prod.fst⟩)
      (second : Group.parens? (us.map Prod.fst) =
        some ⟨inner'.map Prod.fst, closer'.1, rest'.map Prod.fst⟩)
      (row : ts = inner ++ closer :: rest) (row' : us = inner' ++ closer' :: rest')
      (within : Replaced S (inner ++ [closer]) (inner' ++ [closer']))
      (later : Replaced S rest rest')

section
variable {S : Swaps} {front front' ts us : List Indexed} {x y : Indexed}

theorem Replaced.parensAlike (h : Replaced S ts us) : ParensAlike S ts us := by
  have hnone {row : List Token} (h : (Group.readPart argumentList 0 row).isOk = false) :
      Group.parens? row = none := by
    rw [Call.parens?_eq]
    cases hread : Group.readPart argumentList 0 row with
    | error e => rfl
    | ok g =>
        rw [hread] at h
        cases h
  cases h.groupsAlike 0 with
  | unfinished hfirst hsecond => exact .unfinished (hnone hfirst) (hnone hsecond)
  | group hfirst hsecond hrow hrow' hwithin hlater =>
      refine .group ?_ ?_ hrow hrow' hwithin hlater
      · rw [Call.parens?_eq, hfirst]
        rfl
      · rw [Call.parens?_eq, hsecond]
        rfl

/-- A token that is no name and opens nothing is an operand if it is a numeral or the sign of
one. -/
theorem length?_plain {t : Token} (hword : t.kind ≠ .word) (hopens : t.isPunct '(' = false)
    (ts : List Token) : Operand.length? (t :: ts) =
      if t.isPunct '-' && ts.head?.any (fun n => n.kind == .number) then some 2
      else if t.kind == .number then some 1 else none := by
  rw [Operand.length?.eq_def]
  simp [hword, hopens]

theorem begins_map (p : Token → Bool) (row : List Indexed) :
    (row.map Prod.fst).head?.any p = begins p row := by
  cases row <;> rfl

theorem exists_name_of_begins {row : List Indexed}
    (h : begins (fun t => t.kind == .word) row = true) :
    ∃ name rest, row = name :: rest ∧ name.1.kind = .word := by
  cases row with
  | nil => cases h
  | cons name rest => exact ⟨name, rest, rfl, by simpa [begins] using h⟩

/-- A token that stays and is an operand by itself. -/
theorem Step.operandAlone (h : Step S [x] [y] ts us) (hrest : Replaced S ts us)
    (hfirst : Operand.length? ((x :: ts).map Prod.fst) = some 1)
    (hsecond : Operand.length? ((y :: us).map Prod.fst) = some 1) :
    OperandsAlike S (x :: ts) (y :: us) :=
  @OperandsAlike.operand S _ _ [x] [y] ts us hfirst hsecond rfl rfl
    (.cons (h.cut (Or.inl ⟨rfl, rfl⟩)) .nil) hrest

/-- A name that stays is called in both rows or in none. -/
theorem Step.operandsAlike_name (h : Step S [x] [y] ts us)
    (hlexeme : x.1.toLexeme = y.1.toLexeme) (hword : x.1.kind = .word) (hrest : Replaced S ts us) :
    OperandsAlike S (x :: ts) (y :: us) := by
  have hkind : x.1.kind = y.1.kind := congrArg Lexeme.kind hlexeme
  have hlength := Operand.length?_word hword (ts.map Prod.fst)
  have hlength' := Operand.length?_word (hkind ▸ hword) (us.map Prod.fst)
  rw [begins_map] at hlength hlength'
  rw [← hrest.opens] at hlength'
  cases hcalled : begins (Token.isPunct '(') ts with
  | false =>
      rw [hcalled] at hlength hlength'
      exact h.operandAlone hrest hlength hlength'
  | true =>
      rw [hcalled, if_pos rfl] at hlength hlength'
      cases ts with
      | nil => cases hcalled
      | cons o ts =>
          replace hcalled : o.1.isPunct '(' = true := hcalled
          have hpunct := Token.kind_of_isPunct hcalled
          obtain ⟨o', us, rfl, -, hopener, hrest⟩ :=
            hrest.cons_inv (by simp [hpunct]) (by simp [hpunct])
          rw [List.map_cons, List.tail_cons] at hlength hlength'
          cases hrest.parensAlike with
          | unfinished hfirst hsecond =>
              rw [hfirst] at hlength
              rw [hsecond] at hlength'
              exact .missing hlength hlength'
          | @group inner inner' rest rest' closer closer' hfirst hsecond hrow hrow' hwithin hlater =>
              subst hrow hrow'
              rw [hfirst] at hlength
              rw [hsecond] at hlength'
              refine @OperandsAlike.operand S _ _ (x :: o :: (inner ++ [closer]))
                (y :: o' :: (inner' ++ [closer'])) rest rest' ?_ ?_ (by simp) (by simp)
                (.cons (h.cut (Or.inr ⟨rfl, rfl⟩))
                  (.cons (hopener.cut (cut_closer _ _ _ _ _ _)) hwithin)) hlater
              · simpa using hlength
              · simpa using hlength'

/-- A parenthesis that stays is closed in both rows or in none. -/
theorem Step.operandsAlike_parens (h : Step S [x] [y] ts us)
    (hlexeme : x.1.toLexeme = y.1.toLexeme) (hparen : x.1.isPunct '(' = true)
    (hrest : Replaced S ts us) : OperandsAlike S (x :: ts) (y :: us) := by
  have hlength : Operand.length? (x.1 :: ts.map Prod.fst) = _ := Operand.length?_parens hparen
  have hlength' : Operand.length? (y.1 :: us.map Prod.fst) = _ :=
    Operand.length?_parens ((Token.isPunct_congr hlexeme '(').symm.trans hparen)
  cases hrest.parensAlike with
  | unfinished hfirst hsecond =>
      rw [hfirst] at hlength
      rw [hsecond] at hlength'
      exact .missing hlength hlength'
  | @group inner inner' rest rest' closer closer' hfirst hsecond hrow hrow' hwithin hlater =>
      subst hrow hrow'
      rw [hfirst] at hlength
      rw [hsecond] at hlength'
      refine @OperandsAlike.operand S _ _ (x :: (inner ++ [closer])) (y :: (inner' ++ [closer']))
        rest rest' ?_ ?_ (by simp) (by simp) (.cons (h.cut (cut_closer _ _ _ _ _ _)) hwithin) hlater
      · simpa using hlength
      · simpa using hlength'

/-- A sign that stays has a numeral behind it in both rows or in none. -/
theorem Step.operandsAlike_sign (h : Step S [x] [y] ts us)
    (hlexeme : x.1.toLexeme = y.1.toLexeme) (hsign : x.1.isPunct '-' = true)
    (halike : BeginAlike x.1 ts us) (hrest : Replaced S ts us) :
    OperandsAlike S (x :: ts) (y :: us) := by
  have hpunct := Token.kind_of_isPunct hsign
  have hsign' : y.1.isPunct '-' = true := (Token.isPunct_congr hlexeme '-').symm.trans hsign
  have hpunct' := Token.kind_of_isPunct hsign'
  have hends : ¬x.1.EndsValue := by
    rintro (hnumber | hword | hcloser)
    · simp [hpunct] at hnumber
    · simp [hpunct] at hword
    · simp [Token.isPunct_eq_false hsign] at hcloser
  have hlength := length?_plain (by simp [hpunct]) (Token.isPunct_eq_false hsign (by decide))
    (ts.map Prod.fst)
  have hlength' := length?_plain (by simp [hpunct']) (Token.isPunct_eq_false hsign' (by decide))
    (us.map Prod.fst)
  rw [begins_map] at hlength hlength'
  rw [hsign, hpunct] at hlength
  rw [hsign', hpunct', ← hrest.numbers (halike.resolve_left hends)] at hlength'
  cases hnumber : begins (fun t => t.kind == .number) ts with
  | false =>
      rw [hnumber] at hlength hlength'
      exact .missing hlength hlength'
  | true =>
      rw [hnumber] at hlength hlength'
      cases ts with
      | nil => cases hnumber
      | cons n ts =>
          replace hnumber : n.1.kind = .number := by simpa [begins] using hnumber
          obtain ⟨n', us, rfl, -, hnumeral, hrest⟩ :=
            hrest.cons_inv (by simp [hnumber]) (by simp [hnumber])
          exact @OperandsAlike.operand S _ _ [x, n] [y, n'] ts us hlength hlength' rfl rfl
            (.cons (h.cut (Or.inr ⟨rfl, rfl⟩))
              (.cons (hnumeral.cut (Or.inl ⟨rfl, rfl⟩)) .nil)) hrest

/-- Where a token stays its operand is read alike. -/
theorem Step.operandsAlike (h : Step S [x] [y] ts us) (hlexeme : x.1.toLexeme = y.1.toLexeme)
    (halike : BeginAlike x.1 ts us) (hrest : Replaced S ts us) :
    OperandsAlike S (x :: ts) (y :: us) := by
  by_cases hword : x.1.kind = .word
  · exact h.operandsAlike_name hlexeme hword hrest
  by_cases hparen : x.1.isPunct '(' = true
  · exact h.operandsAlike_parens hlexeme hparen hrest
  by_cases hsign : x.1.isPunct '-' = true
  · exact h.operandsAlike_sign hlexeme hsign halike hrest
  -- what is left is an operand only if it is a numeral
  have hkind : x.1.kind = y.1.kind := congrArg Lexeme.kind hlexeme
  rw [Bool.not_eq_true] at hparen hsign
  have hlength := length?_plain hword hparen (ts.map Prod.fst)
  have hlength' := length?_plain (hkind ▸ hword)
    ((Token.isPunct_congr hlexeme '(').symm.trans hparen) (us.map Prod.fst)
  rw [hsign, Bool.false_and, if_neg Bool.false_ne_true] at hlength
  rw [← Token.isPunct_congr hlexeme, ← hkind, hsign, Bool.false_and,
    if_neg Bool.false_ne_true] at hlength'
  by_cases hnumber : x.1.kind = .number
  · rw [hnumber] at hlength hlength'
    exact h.operandAlone hrest hlength hlength'
  · rw [if_neg (by simpa using hnumber)] at hlength hlength'
    exact .missing hlength hlength'

/-- A row with parts replaced has its operands where the row has them. -/
theorem Replaced.operandsAlike (h : Replaced S ts us) : OperandsAlike S ts us := by
  have hdirective {c c' : Token} (hconst : isConst c = true) (hlexeme : c.toLexeme = c'.toLexeme)
      (ts us : List Token) :
      Operand.length? (c :: ts) = none ∧ Operand.length? (c' :: us) = none := by
    have hkind := kind_of_isConst hconst
    have hkind' : c'.kind = .directive := (congrArg Lexeme.kind hlexeme).symm.trans hkind
    constructor
    · rw [length?_plain (by simp [hkind]) (by simp [Token.isPunct, hkind])]
      simp [Token.isPunct, hkind]
    · rw [length?_plain (by simp [hkind']) (by simp [Token.isPunct, hkind'])]
      simp [Token.isPunct, hkind']
  cases h with
  | nil => exact .missing rfl rfl
  | @step front front' ts us hhere hrest =>
      have hstep := hhere
      cases hhere with
      | token hlexeme _ halike _ => exact hstep.operandsAlike hlexeme halike hrest
      | declare hconst _ _ hlexeme =>
          obtain ⟨hfirst, hsecond⟩ := hdirective hconst hlexeme _ _
          exact .missing hfirst hsecond
      | operand hconst _ _ hlexeme =>
          obtain ⟨hfirst, hsecond⟩ := hdirective hconst hlexeme _ _
          exact .missing hfirst hsecond
      | @other v _ _ _ hcoordinate hfree _ _ hvalue =>
          have hlength := hcoordinate.length? hfree
          have hlength' : Operand.length? (v.1 :: us.map Prod.fst) = some 1 := by
            rcases hvalue with hnumber | ⟨hword, -, hcalled⟩
            · rw [length?_plain (by simp [hnumber]) (by simp [Token.isPunct, hnumber])]
              simp [Token.isPunct, hnumber]
            · rw [Operand.length?_word hword, begins_map, hcalled]
              rfl
          have hpart : Replaced S (front ++ []) ([v] ++ []) :=
            .step (hstep.cut (Or.inl ⟨rfl, rfl⟩)) .nil
          rw [List.append_nil] at hpart
          refine @OperandsAlike.operand S _ _ front [v] ts us ?_ hlength' rfl rfl hpart hrest
          rw [List.map_append, hlength, List.length_map]

/-- The operand that stands first is replaced as the rows are. -/
theorem Replaced.exists_part (h : Replaced S ts us) :
    ∃ part part', part <+: ts ∧ operandOf (ts.map Prod.fst) = part.map Prod.fst ∧
      operandOf (us.map Prod.fst) = part'.map Prod.fst ∧ Replaced S part part' := by
  cases h.operandsAlike with
  | missing hfirst hsecond =>
      exact ⟨[], [], List.nil_prefix, by rw [operandOf, hfirst]; rfl,
        by rw [operandOf, hsecond]; rfl, .nil⟩
  | @operand part part' rest rest' hfirst hsecond hrow hrow' hwithin _ =>
      subst hrow hrow'
      refine ⟨part, part', List.prefix_append _ _, ?_, ?_, hwithin⟩
      · rw [operandOf, hfirst, List.map_append, Option.getD_some,
          List.take_left' (List.length_map _)]
      · rw [operandOf, hsecond, List.map_append, Option.getD_some,
          List.take_left' (List.length_map _)]

/-- What is left behind operands is replaced as the rows are. -/
theorem Replaced.exists_left (h : Replaced S ts us) {n : Nat} {left' : List Indexed}
    (hskip : skipOperands n us = some left') :
    ∃ left, skipOperands n ts = some left ∧ Replaced S left left' := by
  induction n generalizing ts us with
  | zero =>
      cases hskip
      exact ⟨ts, rfl, h⟩
  | succ n ih =>
      rw [Resolve.skipOperands] at hskip
      obtain ⟨length, hlength, hskip⟩ := Option.bind_eq_some_iff.1 hskip
      cases h.operandsAlike with
      | missing hfirst hsecond =>
          rw [hsecond] at hlength
          cases hlength
      | @operand part part' rest rest' hfirst hsecond hrow hrow' _ hlater =>
          subst hrow hrow'
          obtain rfl := Option.some.inj (hsecond.symm.trans hlength)
          rw [List.drop_left] at hskip
          obtain ⟨left, hleft, hreplaced⟩ := ih hlater hskip
          refine ⟨left, ?_, hreplaced⟩
          rw [Resolve.skipOperands, hfirst]
          simpa using hleft

/-! ### Places of areas -/

/-- The place is one where a token stays, or something else stood there. -/
def Kept (S : Swaps) (At : Indexed → Prop) (place' : Indexed) : Prop :=
  (∃ place, At place ∧ place.1.toLexeme = place'.1.toLexeme ∧ S.stays place) ∨
    ∃ part, S.other part place'

/-- A name that stands first stood first, or it is put there. -/
theorem Replaced.headName? (h : Replaced S ts us) {place' : Indexed}
    (hhead : headName? us = some place') : Kept S (headName? ts = some ·) place' := by
  obtain ⟨more, hus, hword⟩ := headName?_eq_some hhead
  generalize hrow : us = row at h
  cases h with
  | nil =>
      rw [hus] at hrow
      cases hrow
  | step hhere hrest =>
      cases hhere with
      | @token x y ts us hlexeme hstays =>
          obtain ⟨rfl, -⟩ := List.cons.inj (hus.symm.trans hrow)
          refine Or.inl ⟨x, ?_, hlexeme, hstays⟩
          have hkind : x.1.kind = .word := (congrArg Lexeme.kind hlexeme).trans hword
          obtain ⟨t, i⟩ := x
          rw [List.singleton_append, Resolve.headName?]
          simp [show t.kind = .word from hkind]
      | declare hconst _ _ hdirective =>
          obtain ⟨rfl, -⟩ := List.cons.inj (hus.symm.trans hrow)
          simp [← congrArg Lexeme.kind hdirective, kind_of_isConst hconst] at hword
      | operand hconst _ _ hdirective =>
          obtain ⟨rfl, -⟩ := List.cons.inj (hus.symm.trans hrow)
          simp [← congrArg Lexeme.kind hdirective, kind_of_isConst hconst] at hword
      | other _ _ _ _ _ hother =>
          obtain ⟨rfl, -⟩ := List.cons.inj (hus.symm.trans hrow)
          exact Or.inr ⟨_, hother⟩

/-- A command of areas that stands first stays. -/
theorem Step.command (h : Step S front front' ts us) (hy : y ∈ front') (hword : y.1.kind = .word)
    (hcommand : isAreaCommand y.1.raw = true) :
    ∃ x, front = [x] ∧ front' = [y] ∧ x.1.toLexeme = y.1.toLexeme := by
  have hname {c c' n n' : Indexed} (hconst : isConst c.1 = true)
      (hplain : isAreaCommand n.1.raw = false) (hdirective : c.1.toLexeme = c'.1.toLexeme)
      (hlexeme : n.1.toLexeme = n'.1.toLexeme) : y ≠ c' ∧ y ≠ n' := by
    constructor
    · rintro rfl
      simp [← congrArg Lexeme.kind hdirective, kind_of_isConst hconst] at hword
    · rintro rfl
      simp [← congrArg Lexeme.raw hlexeme, hplain] at hcommand
  cases h with
  | token hlexeme =>
      obtain rfl := List.mem_singleton.1 hy
      exact ⟨_, rfl, rfl, hlexeme⟩
  | declare hconst _ hplain hdirective hlexeme =>
      obtain ⟨hc, hn⟩ := hname hconst hplain hdirective hlexeme
      simp [hc, hn] at hy
  | operand hconst _ hplain hdirective hlexeme _ _ _ hnumber =>
      obtain ⟨hc, hn⟩ := hname hconst hplain hdirective hlexeme
      obtain rfl : y = _ := by simpa [hc, hn] using hy
      simp [hnumber] at hword
  | other _ _ _ _ hvalue =>
      obtain rfl := List.mem_singleton.1 hy
      rcases hvalue with hnumber | ⟨-, hplain, -⟩
      · simp [hnumber] at hword
      · simp [hplain] at hcommand

theorem Replaced.command {rest' : List Indexed} (h : Replaced S ts us)
    (hsuffix : y :: rest' <:+ us) (hword : y.1.kind = .word)
    (hcommand : isAreaCommand y.1.raw = true) :
    ∃ x rest, x :: rest <:+ ts ∧ x.1.toLexeme = y.1.toLexeme ∧ Replaced S rest rest' := by
  induction h with
  | nil => exact absurd (List.suffix_nil.1 hsuffix) (by simp)
  | @step front front' ts us hhere hrest ih =>
      have hlater (h : y :: rest' <:+ us) :
          ∃ x rest, x :: rest <:+ front ++ ts ∧ x.1.toLexeme = y.1.toLexeme ∧
            Replaced S rest rest' := by
        obtain ⟨x, rest, hx, hreplaced⟩ := ih h
        exact ⟨x, rest, hx.trans (List.suffix_append front ts), hreplaced⟩
      rcases List.suffix_or_suffix_of_suffix hsuffix (List.suffix_append front' us) with h | h
      · exact hlater h
      · obtain ⟨before, hbefore⟩ := h
        cases before with
        | nil =>
            rw [List.nil_append] at hbefore
            exact hlater (hbefore ▸ List.suffix_rfl)
        | cons z before =>
            obtain ⟨rfl, rfl⟩ := List.cons.inj hbefore
            have hfront : z :: before <:+ front' := by
              obtain ⟨ahead, hahead⟩ := hsuffix
              have hrow : (ahead ++ z :: before) ++ us = front' ++ us := by simpa using hahead
              exact ⟨ahead, List.append_cancel_right hrow⟩
            obtain ⟨x, rfl, rfl, hlexeme⟩ :=
              hhere.command (hfront.subset List.mem_cons_self) hword hcommand
            obtain rfl : before = [] := by simpa using hfront.length_le
            exact ⟨x, ts, List.suffix_rfl, hlexeme, hrest⟩

/-- The place of an area is one where a token stays, or something else stood there. -/
theorem Replaced.areaPlace (h : Replaced S ts us) {place' : Indexed} (hplace : AreaPlace us place') :
    Kept S (AreaPlace ts) place' := by
  obtain ⟨t', k', rest', hsuffix, hplace⟩ := hplace
  have hkept {t : Token} {k : Nat} {rest : List Indexed} {At : Indexed → Prop}
      (hrow : (t, k) :: rest <:+ ts) (hkept : Kept S At place')
      (hat : ∀ place, At place → declaredPlace? t rest = some place ∨
        usedPlace? t rest = some place) : Kept S (AreaPlace ts) place' :=
    hkept.imp_left fun ⟨place, hplace, hstays⟩ =>
      ⟨place, ⟨t, k, rest, hrow, hat place hplace⟩, hstays⟩
  rcases hplace with hdeclared | hused
  · rw [declaredPlace?] at hdeclared
    split at hdeclared
    · next hword =>
      obtain ⟨coordinates, hcommand, hplace⟩ := Option.bind_eq_some_iff.1 hdeclared
      obtain ⟨left', hskip, hhead⟩ := Option.bind_eq_some_iff.1 hplace
      obtain ⟨⟨t, k⟩, rest, hrow, hlexeme, hrest⟩ := h.command hsuffix (by simpa using hword)
        (by simp [isAreaCommand, hcommand])
      obtain ⟨left, hleft, hreplaced⟩ := hrest.exists_left hskip
      refine hkept hrow (hreplaced.headName? hhead) fun place hplace => Or.inl ?_
      dsimp only at hlexeme
      rw [declaredPlace?, hlexeme, if_pos hword, hcommand, Option.bind_some, hleft]
      exact hplace
    · cases hdeclared
  · rw [usedPlace?] at hused
    split at hused
    · next hword =>
      rw [Bool.and_eq_true] at hword
      obtain ⟨⟨t, k⟩, rest, hrow, hlexeme, hrest⟩ := h.command hsuffix (by simpa using hword.1)
        (by simp [isAreaCommand, hword.2])
      refine hkept hrow (hrest.headName? hused) fun place hplace => Or.inr ?_
      dsimp only at hlexeme
      rw [usedPlace?, hlexeme, hword.1, hword.2]
      exact hplace
    · cases hused

/-! ### Declarations -/

/-- Declarations of one name.  In the first an operand gives way to a numeral, or it is
replaced as the row behind the name. -/
inductive DeclaredAlike (S : Swaps) (row : List Indexed) (e e' : Text × Declaration) : Prop
  | numeral {part : List Indexed} {v : Indexed} (name : e.1 = e'.1)
      (first : e.2.operand = part.map Prod.fst) (second : e'.2.operand = [v.1])
      (number : v.1.kind = .number) (operand : S.operand part v)
  | part {rest part part' : List Indexed} (name : e.1 = e'.1) (place : OperandPlace row rest)
      (stays : ∀ x ∈ rest.head?, S.stays x) (here : operandOf (rest.map Prod.fst) = e.2.operand)
      (first : e.2.operand = part.map Prod.fst) (second : e'.2.operand = part'.map Prod.fst)
      (replaced : Replaced S part part')

theorem declaredBy_eq_nil {t : Token} {row : List Indexed}
    (h : isConst t = true → begins (fun t => t.kind == .word) row = false) :
    declaredBy t (row.map Prod.fst) = [] := by
  cases hconst : isConst t with
  | false => simp [declaredBy, hconst]
  | true =>
      cases row with
      | nil => simp [declaredBy, hconst]
      | cons name row =>
          have hname : name.1.kind ≠ .word := by simpa [begins] using h hconst
          simp [declaredBy, hconst, hname]

/-- A directive before a name declares it, and the name nothing. -/
theorem declarations_const {c n : Token} (hconst : isConst c = true) (hword : n.kind = .word)
    (rest : List Token) :
    declarations (c :: n :: rest) = (n.raw, ⟨operandOf rest, n.span⟩) :: declarations rest := by
  have hname : isConst n = false := by simp [isConst, hword]
  rw [declarations_cons, declarations_cons]
  simp [declaredBy, hconst, hword, hname]

/-- Rows with parts replaced declare the same names, in the same order. -/
theorem Replaced.declarations (h : Replaced S ts us) {row : List Indexed} (hrow : ts <:+ row) :
    List.Forall₂ (DeclaredAlike S row) (declarations (ts.map Prod.fst))
      (declarations (us.map Prod.fst)) := by
  induction h with
  | nil => exact .nil
  | @step front front' ts us hhere hrest ih =>
      replace ih := ih ((List.suffix_append front ts).trans hrow)
      have hconst {c c' : Indexed} (hconst : isConst c.1 = true)
          (hlexeme : c.1.toLexeme = c'.1.toLexeme) : isConst c'.1 = true :=
        (isConst_congr hlexeme).symm.trans hconst
      have hword {n n' : Indexed} (hword : n.1.kind = .word)
          (hlexeme : n.1.toLexeme = n'.1.toLexeme) : n'.1.kind = .word :=
        (congrArg Lexeme.kind hlexeme).symm.trans hword
      rw [List.map_append, List.map_append]
      cases hhere with
      | @token x y _ _ hlexeme hstays halike hsingle =>
          have hplain : isConst y.1 = true → begins (fun t => t.kind == .word) us = false := by
            intro hy
            rw [← isConst_congr hlexeme] at hy
            rw [← halike.resolve_left (not_endsValue_of_isConst hy), hsingle hy]
          rw [List.map_singleton, List.map_singleton, List.singleton_append, List.singleton_append,
            declarations_cons, declarations_cons, declaredBy_eq_nil hsingle,
            declaredBy_eq_nil hplain]
          exact ih
      | @declare c c' n n' _ _ hc hn hplain hdirective hlexeme hstays =>
          obtain ⟨part, part', -, hpart, hpart', hreplaced⟩ := hrest.exists_part
          have hfirst := declarations_const hc hn (ts.map Prod.fst)
          have hsecond := declarations_const (hconst hc hdirective) (hword hn hlexeme)
            (us.map Prod.fst)
          refine hfirst ▸ hsecond ▸ List.Forall₂.cons ?_ ih
          exact .part (congrArg Lexeme.raw hlexeme) ⟨c.1, c.2, n.1, n.2, hrow, hc, hn⟩ hstays rfl
            hpart hpart' hreplaced
      | @operand c c' n n' v part _ _ hc hn hplain hdirective hlexeme hcoordinate hfree hundirected
          hnumber hoperand =>
          have hfirst := declarations_const hc hn (part.map Prod.fst ++ ts.map Prod.fst)
          have hsecond := declarations_const (hconst hc hdirective) (hword hn hlexeme)
            (v.1 :: us.map Prod.fst)
          have hpart : operandOf (part.map Prod.fst ++ ts.map Prod.fst) = part.map Prod.fst := by
            rw [operandOf, hcoordinate.length? hfree]
            exact List.take_left
          have hnumeral : operandOf (v.1 :: us.map Prod.fst) = [v.1] := by
            rw [operandOf, length?_plain (by simp [hnumber])
              (by simp [Token.isPunct, hnumber])]
            simp [Token.isPunct, hnumber]
          rw [declarations_append_of_undirected (by simpa using hundirected)] at hfirst
          rw [declarations_cons v.1, declaredBy_eq_nil (by simp [isConst, hnumber])] at hsecond
          refine hfirst ▸ hsecond ▸ List.Forall₂.cons ?_ ih
          exact .numeral (congrArg Lexeme.raw hlexeme) hpart (by rw [hnumeral]) hnumber hoperand
      | @other v part _ _ hcoordinate _ hundirected _ hvalue =>
          have hv : isConst v.1 = true → begins (fun t => t.kind == .word) us = false := by
            intro hv
            rcases hvalue with hnumber | ⟨hname, -⟩
            · simp [isConst, hnumber] at hv
            · simp [isConst, hname] at hv
          rw [declarations_append_of_undirected (by simpa using hundirected), List.map_singleton,
            List.singleton_append, declarations_cons, declaredBy_eq_nil hv]
          exact ih

/-! ### Rows with few parts replaced -/

/-- A row without directives in which no other part gives way keeps its lexemes. -/
theorem Replaced.lexemes_eq (h : Replaced S ts us) (hundirected : ∀ x ∈ ts, x.1.kind ≠ .directive)
    (hother : ∀ part rest v, part ++ rest <:+ ts → begins (fun t => t.kind == .word) part = true →
      readsAsCall (part.map Prod.fst) (rest.map Prod.fst) = false → ¬S.other part v) :
    us.map (fun x => x.1.toLexeme) = ts.map fun x => x.1.toLexeme := by
  induction h with
  | nil => rfl
  | @step front front' ts us hhere hrest ih =>
      have hrest := ih (fun x hx => hundirected x (List.mem_append_right _ hx))
        fun part rest v hsuffix => hother part rest v (hsuffix.trans (List.suffix_append front ts))
      have hconst {c : Indexed} (hmem : c ∈ front) (hconst : isConst c.1 = true) : False :=
        hundirected c (List.mem_append_left _ hmem) (kind_of_isConst hconst)
      cases hhere with
      | token hlexeme =>
          rw [List.singleton_append, List.singleton_append, List.map_cons, List.map_cons, hrest,
            hlexeme]
      | declare hc => exact (hconst (by simp) hc).elim
      | operand hc => exact (hconst (by simp) hc).elim
      | other _ hfree _ hnamed _ hgives =>
          exact absurd hgives (hother _ _ _ List.suffix_rfl hnamed hfree)

/-- What is referred to was referred to before, or it is put there. -/
theorem Replaced.mem_references (h : Replaced S ts us)
    (hundirected : ∀ x ∈ ts, x.1.kind ≠ .directive) {r : Token}
    (hr : r ∈ Operand.references (us.map Prod.fst)) :
    (∃ ref ∈ Operand.references (ts.map Prod.fst), ref.toLexeme = r.toLexeme) ∨
      ∃ part v, S.other part v ∧ v.1 = r := by
  induction h with
  | nil => cases hr
  | @step front front' ts us hhere hrest ih =>
      have hlater (hr : r ∈ Operand.references (us.map Prod.fst)) :
          (∃ ref ∈ Operand.references ((front ++ ts).map Prod.fst), ref.toLexeme = r.toLexeme) ∨
            ∃ part v, S.other part v ∧ v.1 = r := by
        refine (ih (fun x hx => hundirected x (List.mem_append_right _ hx)) hr).imp_left ?_
        rintro ⟨ref, href, hlexeme⟩
        refine ⟨ref, ?_, hlexeme⟩
        rw [List.map_append]
        exact Operand.references_subset_append _ _ href
      have hconst {c : Indexed} (hmem : c ∈ front) (hconst : isConst c.1 = true) : False :=
        hundirected c (List.mem_append_left _ hmem) (kind_of_isConst hconst)
      cases hhere with
      | @token x y _ _ hlexeme =>
          rcases Operand.mem_references_cons.1 hr with ⟨rfl, hword, hplain⟩ | hr
          · refine Or.inl ⟨x.1, Operand.mem_references_cons.2 (Or.inl ⟨rfl, ?_, ?_⟩), hlexeme⟩
            · exact (congrArg Lexeme.kind hlexeme).trans hword
            · exact (begins_map _ ts).trans
                (hrest.opens.trans ((begins_map _ us).symm.trans hplain))
          · exact hlater hr
      | declare hc => exact (hconst (by simp) hc).elim
      | operand hc => exact (hconst (by simp) hc).elim
      | @other v _ _ _ _ _ _ _ _ hgives =>
          rcases Operand.mem_references_cons.1 hr with ⟨rfl, -⟩ | hr
          · exact Or.inr ⟨front, v, hgives, rfl⟩
          · exact hlater hr

/-- Where calls give way to names without values an expression is read up to the first. -/
theorem Replaced.matched {values values' : Text → Option Number} (h : Replaced S ts us)
    (hundirected : ∀ x ∈ ts, x.1.kind ≠ .directive)
    (hother : ∀ part v, S.other part v →
      (∃ name opening inner, part.map Prod.fst = name :: opening :: inner ∧ name.kind = .word ∧
        opening.isPunct '(' = true) ∧ v.1.kind = .word ∧ values' v.1.raw = none) :
    Expression.Matched values values' (ts.map Prod.fst) (us.map Prod.fst) := by
  induction h with
  | nil => exact .nil
  | @step front front' ts us hhere hrest ih =>
      have hrest := ih fun x hx => hundirected x (List.mem_append_right _ hx)
      have hconst {c : Indexed} (hmem : c ∈ front) (hconst : isConst c.1 = true) : False :=
        hundirected c (List.mem_append_left _ hmem) (kind_of_isConst hconst)
      cases hhere with
      | token hlexeme => exact .cons hlexeme hrest
      | declare hc => exact (hconst (by simp) hc).elim
      | operand hc => exact (hconst (by simp) hc).elim
      | other _ _ _ _ _ hgives =>
          obtain ⟨⟨name, opening, inner, hpart, hname, hopening⟩, hv, hnone⟩ := hother _ _ hgives
          rw [List.map_append, hpart]
          exact .barrier (Or.inr ⟨hname, Or.inr (by simpa using hopening)⟩)
            (Or.inr ⟨hv, Or.inl hnone⟩)

end

end Resolve

end MapScript
