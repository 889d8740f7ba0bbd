import MapScript.Proofs.RandomCall
import MapScript.Proofs.Symbol.Adjacency
import MapScript.Proofs.Symbol.Coherence
import MapScript.Proofs.Symbol.Enclosure

/-!
# Places of areas

A name that stands where an area is declared or used stands directly after a value: the
command, or the last coordinate before the name.  No operand that has a value encloses
such a name, unless it is the name and nothing else, and then its value is the number of
the area.  So whatever edits cover the name put its number there.
-/

namespace MapScript

open Evaluation (Sound HasValue Assigns)

theorem Text.ofInt_injective {m n : Int} (h : Text.ofInt m = Text.ofInt n) : m = n := by
  -- the first character of a numeral without a sign is a digit
  have hdigits (k : Nat) (cs : Text) : Text.ofNat k ≠ '-' :: cs := by
    intro heq
    have hdigit : '-'.isDigit = true :=
      Nat.isDigit_of_mem_toDigits (by decide) (by decide) (heq ▸ List.mem_cons_self)
    exact absurd hdigit (by decide)
  cases m with
  | ofNat m =>
      cases n with
      | ofNat n => rw [Text.ofNat_injective h]
      | negSucc n => exact absurd h (hdigits m _)
  | negSucc m =>
      cases n with
      | ofNat n => exact absurd h.symm (hdigits n _)
      | negSucc n =>
          have := Text.ofNat_injective (List.cons.inj h).2
          rw [Nat.succ.inj this]

/-- The numeral of an integer that is written. -/
theorem Number.ofInt_of_format {n : Int} {raw : Text} (h : (Number.int n).format = .ok raw) :
    raw = Text.ofInt n := by
  rw [format, writeInt] at h
  split at h
  · cases h
  · exact (Except.ok.inj h).symm

/-- What is no constant has the number of an area or no value. -/
theorem Evaluation.HasValue.eq_areaId? {table : SymbolTable} {name : Text} {value : Option Number}
    (h : HasValue table name value) (hfree : table.isConstant name = false) :
    value = (table.areaId? name).map .int := by
  cases h with
  | outside => rfl
  | constant hknown => simp [SymbolTable.isConstant, hknown] at hfree

/-! ### Places -/

namespace Resolve

/-- The name that stands first in a row. -/
def headName? : List Indexed → Option Indexed
  | [] => none
  | (name, i) :: _ => if name.kind == .word then some (name, i) else none

/-- The name in the place where a command declares an area. -/
def declaredPlace? (t : Token) (rest : List Indexed) : Option Indexed :=
  if t.kind == .word then
    (areaDeclaration? t.raw).bind fun coordinates =>
      (skipOperands coordinates rest).bind headName?
  else none

/-- The name in the place where a command uses an area. -/
def usedPlace? (t : Token) (rest : List Indexed) : Option Indexed :=
  if t.kind == .word && isAreaReference t.raw then headName? rest else none

/-! ### Operands before a name -/

/-- An operand ends as a value does. -/
theorem exists_endsValue_of_length? {ts : List Token} {n : Nat} (h : Operand.length? ts = some n) :
    ∃ m t, n = m + 1 ∧ ts[m]? = some t ∧ t.EndsValue := by
  have hgroup {us : List Token} {g : Group} (hg : Group.parens? us = some g) :
      us[g.inner.length]? = some g.closer ∧ g.closer.EndsValue := by
    obtain ⟨-, hcloser, hus⟩ :=
      Group.readPart_eq_ok_iff.1 (Call.readPart_of_parens? hg)
    refine ⟨?_, Or.inr (Or.inr hcloser)⟩
    rw [hus, List.getElem?_append_right (Nat.le_refl _), Nat.sub_self]
    rfl
  cases ts with
  | nil => cases h
  | cons t ts =>
      rw [Operand.length?.eq_def] at h
      dsimp only at h
      split at h
      · next hsigned =>
        cases h
        cases ts with
        | nil => simp at hsigned
        | cons u us =>
            refine ⟨1, u, rfl, rfl, Or.inl ?_⟩
            simp only [List.head?_cons, Option.any_some, Bool.and_eq_true, beq_iff_eq] at hsigned
            exact hsigned.2
      split at h
      · next hnumber =>
        cases h
        exact ⟨0, t, rfl, rfl, Or.inl (by simpa using hnumber)⟩
      split at h
      · next hword =>
        have ht : t.EndsValue := Or.inr (Or.inl (by simpa using hword))
        split at h
        · cases h
          exact ⟨0, t, rfl, rfl, ht⟩
        · next u us =>
          split at h
          · obtain ⟨g, hg, rfl⟩ := Option.map_eq_some_iff.1 h
            exact ⟨_, _, rfl, (hgroup hg).1, (hgroup hg).2⟩
          · cases h
            exact ⟨0, t, rfl, rfl, ht⟩
      split at h
      · obtain ⟨g, hg, rfl⟩ := Option.map_eq_some_iff.1 h
        exact ⟨_, _, rfl, (hgroup hg).1, (hgroup hg).2⟩
      · cases h

/-- After operands that follow a value something stands directly after a value. -/
theorem skipOperands_endsValue {n : Nat} {rest left : List Indexed}
    (h : skipOperands n rest = some left) {x : Indexed} (hx : x.1.EndsValue) :
    ∃ y : Indexed, y.1.EndsValue ∧ y :: left <:+ x :: rest := by
  induction n generalizing rest x with
  | zero =>
      cases h
      exact ⟨x, hx, List.suffix_rfl⟩
  | succ n ih =>
      rw [skipOperands] at h
      obtain ⟨length, hlength, hskip⟩ := Option.bind_eq_some_iff.1 h
      obtain ⟨m, t, rfl, ht, hends⟩ := exists_endsValue_of_length? hlength
      rw [List.getElem?_map, Option.map_eq_some_iff] at ht
      obtain ⟨y, hy, rfl⟩ := ht
      obtain ⟨z, hz, hsuffix⟩ := ih hskip hends
      obtain ⟨hm, rfl⟩ := List.getElem?_eq_some_iff.1 hy
      refine ⟨z, hz, hsuffix.trans ?_⟩
      rw [← List.drop_eq_getElem_cons hm]
      exact (List.drop_suffix m rest).trans (List.suffix_cons x rest)

/-- The name stands directly after a value in a row. -/
def Trails (row : List Indexed) (place : Indexed) : Prop :=
  place.1.kind = .word ∧ ∃ p j more, p.EndsValue ∧ (p, j) :: place :: more <:+ row

section
variable {row rest : List Indexed} {t : Token} {k : Nat} {place : Indexed}

theorem headName?_eq_some (h : headName? rest = some place) :
    ∃ more, rest = place :: more ∧ place.1.kind = .word := by
  match rest with
  | [] => cases h
  | (name, i) :: more =>
      rw [headName?] at h
      split at h
      · next hword =>
        cases h
        exact ⟨more, rfl, by simpa using hword⟩
      · cases h

theorem trails_of_declaredPlace? (h : declaredPlace? t rest = some place)
    (hrow : (t, k) :: rest <:+ row) : Trails row place := by
  rw [declaredPlace?] at h
  split at h
  · next hword =>
    obtain ⟨coordinates, -, hplace⟩ := Option.bind_eq_some_iff.1 h
    obtain ⟨left, hskip, hhead⟩ := Option.bind_eq_some_iff.1 hplace
    obtain ⟨more, rfl, hname⟩ := headName?_eq_some hhead
    have ht : (t, k).1.EndsValue := Or.inr (Or.inl (by simpa using hword))
    obtain ⟨⟨p, j⟩, hp, hsuffix⟩ := skipOperands_endsValue hskip ht
    exact ⟨hname, p, j, more, hp, hsuffix.trans hrow⟩
  · cases h

theorem trails_of_usedPlace? (h : usedPlace? t rest = some place)
    (hrow : (t, k) :: rest <:+ row) : Trails row place := by
  rw [usedPlace?] at h
  split at h
  · next hcommand =>
    obtain ⟨more, rfl, hname⟩ := headName?_eq_some h
    rw [Bool.and_eq_true, beq_iff_eq] at hcommand
    exact ⟨hname, t, k, more, Or.inr (Or.inl hcommand.1), hrow⟩
  · cases h

end

/-- The place of an area in a row, where it is declared or used. -/
def AreaPlace (row : List Indexed) (place : Indexed) : Prop :=
  ∃ t k rest, (t, k) :: rest <:+ row ∧
    (declaredPlace? t rest = some place ∨ usedPlace? t rest = some place)

theorem AreaPlace.trails {row : List Indexed} {place : Indexed} (h : AreaPlace row place) :
    Trails row place := by
  obtain ⟨t, k, rest, hrow, hdeclared | hused⟩ := h
  · exact trails_of_declaredPlace? hdeclared hrow
  · exact trails_of_usedPlace? hused hrow

theorem AreaPlace.mem {row : List Indexed} {place : Indexed} (h : AreaPlace row place) :
    place ∈ row := by
  obtain ⟨-, p, j, more, -, hsuffix⟩ := h.trails
  exact hsuffix.subset (by simp)

/-- The row behind the name of a constant that is declared: it begins with the operand. -/
def OperandPlace (row rest : List Indexed) : Prop :=
  ∃ c j name k, (c, j) :: (name, k) :: rest <:+ row ∧ isConst c = true ∧ name.kind = .word

theorem OperandPlace.suffix {row rest : List Indexed} (h : OperandPlace row rest) :
    rest <:+ row := by
  obtain ⟨c, j, name, k, hrow, -, -⟩ := h
  exact (List.suffix_cons _ _).trans ((List.suffix_cons _ _).trans hrow)

/-! ### Operands that stay -/

/-- An operand that is a numeral refers to no names. -/
theorem references_of_isLiteral {ts : List Token} {n : Nat} (hn : Operand.length? ts = some n)
    (h : isLiteral (ts.take n) = true) : Operand.references (ts.take n) = [] := by
  cases ts with
  | nil => cases hn
  | cons t ts =>
      cases n with
      | zero => rfl
      | succ n =>
          rw [List.take_succ_cons] at h ⊢
          cases hpart : ts.take n with
          | nil =>
              have ht : t.kind = .number := by simpa [isLiteral, hpart] using h
              simp [Operand.references, ht]
          | cons u more =>
              rw [hpart, isLiteral, Bool.and_eq_true, decide_eq_true_eq] at h
              obtain rfl : more = [] := List.eq_nil_of_length_eq_zero (by simpa using h.1)
              have hu : u.kind = .number := by simpa using h.2
              by_cases ht : t.kind = .word
              · -- a name before a numeral is an operand by itself
                obtain ⟨others, rfl⟩ : ∃ others, ts = u :: others := by
                  cases ts with
                  | nil => simp at hpart
                  | cons v others =>
                      cases n with
                      | zero => simp at hpart
                      | succ n => exact ⟨others, by rw [(List.cons.inj hpart).1]⟩
                rw [Operand.length?_word ht] at hn
                simp only [List.head?_cons, Option.any_some, Token.isPunct, hu] at hn
                cases hn
                simp at hpart
              · simp [Operand.references, ht, hu]

/-- An operand that stays as it is: it is missing or a literal and refers to no names, or it
has no value. -/
def Stays (table : SymbolTable) (operand : List Token) : Prop :=
  (Operand.references operand = [] ∧ (operand = [] ∨ isLiteral operand = true)) ∨
    ∃ values, Assigns table values (Operand.references operand) ∧
      Expression.fold values (Token.significant operand) = .ok none

theorem Stays.grow {table table' : SymbolTable} {operand : List Token} (h : Stays table operand)
    (hgrows : table.Grows table') : Stays table' operand :=
  h.imp_right fun ⟨values, hassigns, hfold⟩ => ⟨values, hassigns.grow hgrows, hfold⟩

/-! ### Where edits come from -/

/-- The edit puts the number of an area in the place of its name. -/
def Edit.Numbers (table : SymbolTable) (place : Indexed) (e : Edit) : Prop :=
  ∃ area, table.areaId? place.1.raw = some area ∧
    e = ⟨place.2, place.2, .made .number (Text.ofInt area) place.1.span⟩

/-- Where an edit of a row comes from: the name of an area, or an operand with a value
that is a name or stands in parentheses. -/
inductive Edit.Arises (table : SymbolTable) (row : List Indexed) : Edit → Prop
  | area {name : Token} {i : Nat} {e : Edit} (place : AreaPlace row (name, i))
      (numbers : e.Numbers table (name, i))
      (written : ∃ area, (Number.int area).format = .ok e.replacement.raw) : Arises table row e
  | operand {first : Token} {i m : Nat} {others : List Indexed} {values : Text → Option Number}
      {value : Number} {raw : Text} (place : OperandPlace row ((first, i) :: others))
      (length : Operand.length? (first :: others.map Prod.fst) = some (m + 1))
      (assigns : Assigns table values
        (Operand.references (first :: (others.take m).map Prod.fst)))
      (folds : Expression.fold values (first :: (others.take m).map Prod.fst) = .ok (some value))
      (form : first.kind = .word ∧ others.take m = [] ∨ first.isPunct '(' = true)
      (format : value.format = .ok raw) :
      Arises table row
        ⟨i, (((first, i) :: others.take m).getLast (List.cons_ne_nil _ _)).2,
          .made .number raw
            ⟨first.span.start,
              (((first, i) :: others.take m).getLast (List.cons_ne_nil _ _)).1.span.stop⟩⟩

section
variable {table table' : SymbolTable} {row : List Indexed} {e : Edit}

theorem Edit.Numbers.grow {place : Indexed} (h : e.Numbers table place)
    (hgrows : table.Grows table') : e.Numbers table' place := by
  obtain ⟨area, harea, rfl⟩ := h
  exact ⟨area, SymbolTable.areaId?_later hgrows.numberedAreas harea, rfl⟩

theorem Edit.Arises.grow (h : e.Arises table row) (hgrows : table.Grows table') :
    e.Arises table' row := by
  cases h with
  | area hplace hnumbers hwritten => exact .area hplace (hnumbers.grow hgrows) hwritten
  | operand hplace hlength hassigns hfolds hform hformat =>
      exact .operand hplace hlength (hassigns.grow hgrows) hfolds hform hformat

/-- The significant tokens of a row stand at different indices, in order. -/
theorem pairwise_indexed (tokens : List Token) :
    (indexed tokens).Pairwise fun x y => x.2 < y.2 := by
  refine List.Pairwise.filter _ ?_
  rw [List.pairwise_iff_getElem]
  intro i j hi hj hlt
  simpa using hlt

theorem not_isTrivia_of_mem_indexed {tokens : List Token} {x : Indexed}
    (h : x ∈ indexed tokens) : x.1.isTrivia = false := by
  simpa using (List.mem_filter.1 h).2

theorem significant_map_of_subset {tokens : List Token} {part : List Indexed}
    (h : part ⊆ indexed tokens) : Token.significant (part.map Prod.fst) = part.map Prod.fst := by
  refine List.filter_eq_self.2 ?_
  intro t ht
  obtain ⟨x, hx, rfl⟩ := List.mem_map.1 ht
  simp [not_isTrivia_of_mem_indexed (h hx)]

theorem getElem?_of_mem_indexed {tokens : List Token} {t : Token} {i : Nat}
    (h : (t, i) ∈ indexed tokens) : tokens[i]? = some t :=
  List.mem_zipIdx_iff_getElem?.1 (List.mem_filter.1 h).1

/-- An operand that covers a name after its own first token holds the token before that
name, too. -/
theorem exists_of_covered {first p name : Token} {i j k m : Nat} {others before more : List Indexed}
    (hrow : ((first, i) :: others).Pairwise fun x y => x.2 < y.2)
    (hwhole : (first, i) :: others = before ++ (p, j) :: (name, k) :: more)
    (hcovers : k ≤ (((first, i) :: others.take m).getLast (List.cons_ne_nil _ _)).2) :
    ∃ after, (first, i) :: others.take m = before ++ (p, j) :: (name, k) :: after := by
  have htake : (first, i) :: others.take m = ((first, i) :: others).take (m + 1) := rfl
  rcases Nat.lt_or_ge (before.length + 1) (m + 1) with hlong | hshort
  · obtain ⟨n, hn⟩ := Nat.exists_eq_add_of_lt hlong
    refine ⟨more.take n, ?_⟩
    rw [htake, hwhole, hn, show before.length + 1 + n + 1 = before.length + (n + 2) by omega,
      List.take_length_add_append]
    rfl
  · -- all that the operand holds stands before the name
    have hmem : ((first, i) :: others.take m).getLast (List.cons_ne_nil _ _) ∈
        before ++ [(p, j)] := by
      have hprefix : (first, i) :: others.take m <+: before ++ [(p, j)] := by
        rw [htake, hwhole, List.append_cons]
        have hlength : m + 1 ≤ (before ++ [(p, j)]).length := by simpa using hshort
        rw [List.take_append_of_le_length hlength]
        exact List.take_prefix _ _
      exact hprefix.subset (List.getLast_mem _)
    rw [hwhole, List.append_cons] at hrow
    have hbefore := (List.pairwise_append.1 hrow).2.2 _ hmem (name, k) (by simp)
    dsimp only at hbefore
    omega

/-- Whatever covers a name that stands directly after a value puts its number there. -/
theorem Edit.Arises.numbers_of_covers {tokens : List Token} (h : e.Arises table (indexed tokens))
    {p name : Token} {j i : Nat} {more : List Indexed}
    (hplace : (p, j) :: (name, i) :: more <:+ indexed tokens) (hp : p.EndsValue)
    (hname : name.kind = .word) (hfree : table.isConstant name.raw = false)
    (hcovers : e.covers i = true) : e.Numbers table (name, i) := by
  rw [covers, Bool.and_eq_true, decide_eq_true_eq, decide_eq_true_eq] at hcovers
  obtain ⟨hfirst, hlast⟩ := hcovers
  cases h with
  | @area name' i' _ hthere hnumbers _ =>
      obtain ⟨area, harea, rfl⟩ := hnumbers
      have hmem := hthere.mem
      obtain rfl : i' = i := Nat.le_antisymm hfirst hlast
      have hthere := getElem?_of_mem_indexed (hplace.subset (by simp : (name, i') ∈ _))
      rw [getElem?_of_mem_indexed hmem, Option.some.injEq] at hthere
      exact ⟨area, hthere ▸ harea, by rw [hthere]⟩
  | @operand first k m others values value raw hoperand _ hassigns hfolds hform hformat =>
      have hpart := hoperand.suffix
      dsimp only at hfirst hlast
      have hwhere : (p, j) :: (name, i) :: more <:+ (first, k) :: others ∨
          (first, k) :: others = (name, i) :: more ∨ (first, k) :: others <:+ more := by
        rcases List.suffix_or_suffix_of_suffix hplace hpart with hwithin | hbehind
        · exact Or.inl hwithin
        rcases List.suffix_cons_iff.1 hbehind with heq | hbehind
        · exact Or.inl (heq ▸ List.suffix_rfl)
        · exact Or.inr (List.suffix_cons_iff.1 hbehind)
      rcases hwhere with hwithin | heq | hlater
      · -- the operand holds the name after a value, and has none itself
        obtain ⟨before, hwhole⟩ := hwithin
        have hordered := (pairwise_indexed tokens).sublist hpart.sublist
        obtain ⟨after, hafter⟩ := exists_of_covered hordered hwhole.symm hlast
        have hchain := Expression.isChain_of_fold hfolds
        have hmap : first :: (others.take m).map Prod.fst =
            (before.map Prod.fst ++ [p]) ++ name :: after.map Prod.fst := by
          simpa using congrArg (List.map Prod.fst) hafter
        rw [hmap] at hchain
        have hapart := (List.isChain_append.1 hchain).2.2 p (by simp) name (by simp)
        exact absurd hname (hapart hp)
      · -- the operand is the name
        obtain ⟨hhead, rfl⟩ := List.cons.inj heq
        obtain ⟨rfl, rfl⟩ := Prod.mk.inj hhead
        obtain ⟨-, halone⟩ := hform.resolve_right (by simp [Token.isPunct, hname])
        rw [halone] at hassigns hfolds
        have hvalue : values first.raw = some value := by
          rw [List.map_nil, Expression.fold_word _ hname] at hfolds
          exact Except.ok.inj hfolds
        have hmeans := hassigns first (by simp [Operand.references, hname])
        rw [hmeans.eq_areaId? hfree] at hvalue
        obtain ⟨area, harea, rfl⟩ := Option.map_eq_some_iff.1 hvalue
        refine ⟨area, harea, ?_⟩
        simp only [halone, List.getLast_singleton, Number.ofInt_of_format hformat]
      · have hbefore := (pairwise_indexed tokens).sublist hplace.sublist
        have hlt := List.rel_of_pairwise_cons (List.pairwise_cons.1 hbefore).2
          (hlater.subset List.mem_cons_self)
        dsimp only at hlt
        omega

end

end Resolve

end MapScript
