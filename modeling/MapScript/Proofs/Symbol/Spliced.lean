import MapScript.Proofs.Symbol.Replaced
import MapScript.Proofs.Symbol.Substitution

/-!
# Resolved rows as rows with parts replaced

The edits of a row lie apart, so the row behind them is the row with parts replaced: an
operand that has a value gives way to its numeral, and the name of an area to its number.
-/

namespace MapScript

open Evaluation (Assigns)

namespace Resolve

/-! ### Edits of significant tokens -/

namespace Edit

/-- A row of significant tokens with the edits made, each from its first token to its last. -/
inductive Spliced (edits : List Edit) : List Indexed → List Indexed → Prop
  | nil : Spliced edits [] []
  | keep {x y : Indexed} {ts us : List Indexed} (token : x.1 = y.1)
      (uncovered : ∀ e ∈ edits, e.covers x.2 = false) (rest : Spliced edits ts us) :
      Spliced edits (x :: ts) (y :: us)
  | replace {e : Edit} {first v : Indexed} {more ts us : List Indexed} (mem : e ∈ edits)
      (begins : first.2 = e.first)
      (stops : ((first :: more).getLast (List.cons_ne_nil _ _)).2 = e.last)
      (put : v.1 = e.replacement) (rest : Spliced edits ts us) :
      Spliced edits (first :: (more ++ ts)) (v :: us)

theorem Substitutes.spliced {edits : List Edit} {whole ts us : List Token} {i : Nat}
    (h : Substitutes edits i ts us) (hwhole : whole.drop i = ts)
    (hencloses : ∀ e ∈ edits, e.Encloses whole) (j : Nat) :
    Spliced edits (indexedFrom i ts) (indexedFrom j us) := by
  induction h generalizing j with
  | nil => exact .nil
  | @keep i ts us t huncovered hrest ih =>
      have hnext := ih (drop_succ_of_drop hwhole)
      rw [indexedFrom_cons, indexedFrom_cons]
      split
      · exact hnext (j + 1)
      · exact .keep rfl huncovered (hnext (j + 1))
  | @replace i part ts us e hmem hfirst hlast hrest ih =>
      obtain ⟨t, u, ht, hstart, hu, hstop⟩ := (hencloses e hmem).exists_ends
      have hnumeral : e.replacement.isTrivia = false := by
        simp [Token.isTrivia, (hencloses e hmem).isNumber, TokenKind.isTrivia]
      have hlater : whole.drop (i + part.length) = ts := by
        rw [← List.drop_drop, hwhole, List.drop_left]
      have hwithin := (hencloses e hmem).within.1
      have hget {k : Nat} (hk : k < part.length) : part[k]? = whole[i + k]? := by
        rw [← List.getElem?_drop, hwhole, List.getElem?_append_left hk]
      obtain ⟨part, rfl⟩ : ∃ more, part = t :: more := by
        have hhead := hget (k := 0) (by omega)
        rw [Nat.add_zero, ← hfirst, ht] at hhead
        cases part with
        | nil => cases hhead
        | cons t' more => exact ⟨more, by rw [Option.some.inj hhead]⟩
      have hnext := ih hlater (j + 1)
      rw [List.length_cons] at hlast hnext
      rw [indexedFrom_cons, hnumeral, if_neg Bool.false_ne_true, List.cons_append, indexedFrom_cons,
        hstart, if_neg Bool.false_ne_true, indexedFrom_append, Nat.add_assoc, Nat.add_comm 1]
      refine .replace hmem hfirst.symm ?_ rfl hnext
      rcases List.eq_nil_or_concat' part with rfl | ⟨front, u', rfl⟩
      · simpa [indexedFrom] using hlast.symm
      · obtain rfl : u' = u := by
          have hend := hget (k := front.length + 1) (by simp)
          rw [show i + (front.length + 1) = e.last by simp at hlast; omega, hu] at hend
          simpa using hend
        simp only [indexedFrom_append, indexedFrom_cons, hstop]
        simp only [Bool.false_eq_true, if_false]
        rw [List.getLast_cons (by simp), List.getLast_append_of_ne_nil _ (by simp)]
        simp only [List.length_append, List.length_singleton] at hlast
        simp only [indexedFrom, List.zipIdx_nil, List.filter_nil, List.getLast_singleton]
        omega

end Edit

/-! ### Where edits begin -/

section
variable {tokens : List Token} {table : SymbolTable} {e : Edit} {first : Indexed}
  {more ts : List Indexed}

/-- The part that an edit replaces: the name of an area, or an operand that has a value. -/
theorem Edit.Arises.part (h : e.Arises table (indexed tokens))
    (hrow : first :: (more ++ ts) <:+ indexed tokens) (hfirst : first.2 = e.first)
    (hlast : ((first :: more).getLast (List.cons_ne_nil _ _)).2 = e.last) :
    (AreaPlace (indexed tokens) first ∧ more = [] ∧ e.Numbers table first ∧
        ∃ area, (Number.int area).format = .ok e.replacement.raw) ∨
      OperandPlace (indexed tokens) (first :: (more ++ ts)) ∧
        Operand.length? ((first :: (more ++ ts)).map Prod.fst) = some (more.length + 1) ∧
        (first.1.kind = .word ∧ more = [] ∨ first.1.isPunct '(' = true) ∧
        ∃ values value, Assigns table values (Operand.references ((first :: more).map Prod.fst)) ∧
          Expression.fold values ((first :: more).map Prod.fst) = .ok (some value) ∧
          e.replacement.kind = .number ∧ value.format = .ok e.replacement.raw := by
  obtain ⟨t, i⟩ := first
  dsimp only at hfirst
  subst hfirst
  have hordered := pairwise_indexed tokens
  have hprefix : (t, e.first) :: more <+: (t, e.first) :: (more ++ ts) := ⟨ts, rfl⟩
  cases h with
  | @area name i _ hplace hnumbers hwritten =>
      left
      obtain ⟨area, harea, rfl⟩ := hnumbers
      have heq := getElem?_of_mem_indexed hplace.mem
      rw [getElem?_of_mem_indexed (hrow.subset List.mem_cons_self)] at heq
      obtain rfl := Option.some.inj heq
      refine ⟨hplace, ?_, ⟨area, harea, rfl⟩, hwritten⟩
      have halone : [(t, i)] <+: (t, i) :: (more ++ ts) := ⟨more ++ ts, rfl⟩
      have hsame := eq_of_getLast_eq (hordered.sublist hrow.sublist) hprefix halone
        (List.cons_ne_nil _ _) (List.cons_ne_nil _ _) hlast
      exact (List.cons.inj hsame).2
  | @operand first i m others values value raw hplace hlength hassigns hfolds hform hformat =>
      right
      obtain ⟨hhead, rfl⟩ := List.cons.inj (eq_of_index_eq hrow hplace.suffix)
      obtain rfl : t = first := congrArg Prod.fst hhead
      have htaken : (t, i) :: (more ++ ts).take m <+: (t, i) :: (more ++ ts) :=
        List.take_prefix (m + 1) ((t, i) :: (more ++ ts))
      have hsame := eq_of_getLast_eq (hordered.sublist hrow.sublist) hprefix htaken
        (List.cons_ne_nil _ _) (List.cons_ne_nil _ _) hlast
      obtain hmore : more = (more ++ ts).take m := (List.cons.inj hsame).2
      have hm : more.length = m := by
        obtain ⟨m', _, heq, hget, -⟩ := exists_endsValue_of_length? hlength
        obtain rfl := Nat.succ.inj heq
        obtain ⟨hlt, -⟩ := List.getElem?_eq_some_iff.1 hget
        rw [List.length_cons, List.length_map] at hlt
        rw [hmore, List.length_take, Nat.min_eq_left (by omega)]
      rw [← hmore] at hassigns hfolds hform
      rw [hm]
      exact ⟨hplace, hlength, hform, values, value, hassigns, hfolds, rfl, hformat⟩

/-- A name where an area stands that is no constant has the number put there as its value. -/
theorem Edit.Numbers.folds (h : e.Numbers table first) (hword : first.1.kind = .word)
    (hfree : ∀ name ∈ table.areas, table.isConstant name = false)
    (hwritten : ∃ area, (Number.int area).format = .ok e.replacement.raw) :
    first.1.raw ∈ table.areas ∧ e.replacement.kind = .number ∧ ∃ values value,
      Assigns table values (Operand.references [first.1]) ∧
        Expression.fold values [first.1] = .ok (some value) ∧
        value.format = .ok e.replacement.raw := by
  obtain ⟨area, harea, rfl⟩ := h
  obtain ⟨area', hformat⟩ := hwritten
  obtain rfl : area = area' := Text.ofInt_injective (Number.ofInt_of_format hformat)
  have hmem := SymbolTable.mem_areas_of_areaId? harea
  have hconstant := hfree _ hmem
  have hunknown : table.constants.lookup first.1.raw = none := by
    simpa [SymbolTable.isConstant] using (Bool.or_eq_false_iff.1 hconstant).1
  refine ⟨hmem, rfl, fun _ => some (.int area), .int area, fun ref href => ?_, ?_, hformat⟩
  · obtain rfl : ref = first.1 := by simpa [Operand.references, hword] using href
    have hvalue := Evaluation.HasValue.outside (Or.inr hmem) hunknown
    rwa [harea] at hvalue
  · rw [Expression.fold_word _ hword]

/-- Parentheses that are an operand are a coordinate and no literal. -/
theorem coordinate_of_parens (hopens : first.1.isPunct '(' = true)
    (hlength : Operand.length? ((first :: (more ++ ts)).map Prod.fst) = some (more.length + 1)) :
    Coordinate ((first :: more).map Prod.fst) ∧
      isLiteral ((first :: more).map Prod.fst) = false := by
  rw [List.map_cons, Operand.length?_parens hopens] at hlength
  obtain ⟨g, hg, hlength⟩ := Option.map_eq_some_iff.1 hlength
  obtain ⟨hinner, hcloser, hrow⟩ := Group.readPart_eq_ok_iff.1 (Call.readPart_of_parens? hg)
  rw [List.map_append, List.append_cons] at hrow
  obtain ⟨hmore, -⟩ := List.append_inj hrow (by simp; omega)
  rw [List.map_cons, hmore]
  refine ⟨.parens hopens hinner hcloser, ?_⟩
  rw [isLiteral, ← List.cons_append, List.getLast?_concat]
  simp [Token.kind_of_isPunct hcloser]

end

/-! ### Rows behind edits -/

/-- What is known where the edits of a row are made: what they do not cover stays, an operand
with a value, if it is no literal, gives way to its numeral, and elsewhere the name of an area
to a number. -/
def Edit.swaps (edits : List Edit) (table : SymbolTable) : Swaps where
  stays x := ∀ e ∈ edits, e.covers x.2 = false
  operand part v := isLiteral (part.map Prod.fst) = false ∧ ∃ values value,
    Assigns table values (Operand.references (part.map Prod.fst)) ∧
      Expression.fold values (part.map Prod.fst) = .ok (some value) ∧ value.format = .ok v.1.raw
  other part v := v.1.kind = .number ∧ ∃ name, part = [name] ∧ name.1.raw ∈ table.areas

/-- No edit begins at the front of the row as at an operand, and no directive is before it
that would declare it. -/
structure Free (tokens : List Token) (edits : List Edit) (row : List Indexed) : Prop where
  operand : OperandPlace (indexed tokens) row → ∀ x ∈ row.head?, ∀ e ∈ edits, x.2 ≠ e.first
  name : ∀ c, c :: row <:+ indexed tokens → isConst c.1 = true →
    begins (fun t => t.kind == .word) row = false

section
variable {tokens : List Token} {edits : List Edit} {table : SymbolTable}

/-- What stands directly before a row in which it stands is one. -/
theorem eq_of_suffix {x y : Indexed} {row whole : List Indexed} (h : x :: row <:+ whole)
    (h' : y :: row <:+ whole) : x = y :=
  (List.cons.inj ((List.suffix_of_suffix_length_le h h' (by simp)).eq_of_length (by simp))).1

theorem Free.whole (tokens : List Token) (edits : List Edit) :
    Free tokens edits (indexed tokens) := by
  constructor
  · rintro ⟨c, j, name, k, h, -⟩
    exact absurd h.length_le (by simp)
  · intro c h
    exact absurd h.length_le (by simp)

/-- A row is free behind a token that declares nothing in one. -/
theorem Free.tail {x : Indexed} {row : List Indexed} (h : Free tokens edits (x :: row))
    (hrow : x :: row <:+ indexed tokens)
    (hx : isConst x.1 = true → begins (fun t => t.kind == .word) row = false) :
    Free tokens edits row := by
  constructor
  · rintro ⟨c, j, name, k, hplace, hconst, hname⟩
    obtain rfl := eq_of_suffix ((List.suffix_cons _ _).trans hplace) hrow
    have hplain := h.name (c, j) hplace hconst
    simp [begins, hname] at hplain
  · intro c hc hconst
    rw [eq_of_suffix hc hrow] at hconst
    exact hx hconst

/-- A row is free behind two tokens that declare nothing. -/
theorem Free.behind {front row : List Indexed} (hrow : front ++ row <:+ indexed tokens)
    (hlength : 2 ≤ front.length) (hfront : ∀ x ∈ front, isConst x.1 = false) :
    Free tokens edits row := by
  obtain ⟨before, y, z, rfl⟩ : ∃ before y z, front = before ++ [y, z] := by
    obtain ⟨front, z, rfl⟩ := (List.eq_nil_or_concat' front).resolve_left (by rintro rfl; simp at hlength)
    obtain ⟨before, y, rfl⟩ := (List.eq_nil_or_concat' front).resolve_left
      (by rintro rfl; simp at hlength)
    exact ⟨before, y, z, by simp⟩
  have hsuffix : y :: z :: row <:+ indexed tokens := by
    refine List.IsSuffix.trans ⟨before, ?_⟩ hrow
    simp
  constructor
  · rintro ⟨c, j, name, k, hplace, hconst, hname⟩
    obtain rfl := eq_of_suffix ((List.suffix_cons _ _).trans hplace)
      ((List.suffix_cons _ _).trans hsuffix)
    obtain rfl := eq_of_suffix hplace hsuffix
    exact absurd hconst (by simp [hfront (c, j) (by simp)])
  · intro c hc hconst
    rw [eq_of_suffix hc ((List.suffix_cons _ _).trans hsuffix), hfront z (by simp)] at hconst
    cases hconst

/-- What is asked of a row and its names, so that it reads alike with its edits made: no
constant is named like a command of areas, and no area is called. -/
structure Orderly (tokens : List Token) (table : SymbolTable) : Prop where
  apart : ∀ name ∈ table.areas, table.isConstant name = false
  plain : ∀ c n rest, c :: n :: rest <:+ indexed tokens → isConst c.1 = true →
    n.1.kind = .word → isAreaCommand n.1.raw = false
  uncalled : ∀ x rest, x :: rest <:+ indexed tokens → x.1.kind = .word →
    x.1.raw ∈ table.areas → begins (Token.isPunct '(') rest = false

theorem readsAsCall_name {x : Indexed} {rest : List Indexed} (hword : x.1.kind = .word) :
    readsAsCall [x.1] (rest.map Prod.fst) = begins (Token.isPunct '(') rest := by
  rw [readsAsCall, begins_map]
  simp [hword]

/-- What an edit replaces is a coordinate that is read as a whole and has a value. -/
theorem Edit.Arises.valued {e : Edit} {first v : Indexed} {more ts : List Indexed}
    (h : e.Arises table (indexed tokens)) (horderly : Orderly tokens table)
    (hrow : first :: (more ++ ts) <:+ indexed tokens) (hfirst : first.2 = e.first)
    (hlast : ((first :: more).getLast (List.cons_ne_nil _ _)).2 = e.last)
    (hput : v.1 = e.replacement) :
    Coordinate ((first :: more).map Prod.fst) ∧
      readsAsCall ((first :: more).map Prod.fst) (ts.map Prod.fst) = false ∧
      (∀ x ∈ first :: more, x.1.kind ≠ .directive) ∧ v.1.kind = .number ∧
      (Edit.swaps edits table).operand (first :: more) v := by
  rw [hput]
  rcases h.part hrow hfirst hlast with ⟨hplace, rfl, hnumbers, hwritten⟩ |
    ⟨-, hlength, hform, values, value, hassigns, hfolds, hnumber, hformat⟩
  · have hword := hplace.trails.1
    obtain ⟨hmem, hnumber, values, value, hassigns, hfolds, hformat⟩ :=
      hnumbers.folds hword horderly.apart hwritten
    refine ⟨.name hword, ?_, by simp [hword], hnumber, ?_, values, value, hassigns, hfolds, ?_⟩
    · exact (readsAsCall_name hword).trans (horderly.uncalled first ts hrow hword hmem)
    · simp [isLiteral, hword]
    · rwa [hput]
  · have hundirected : ∀ x ∈ first :: more, x.1.kind ≠ .directive := by
      intro x hx
      exact Expression.kind_ne_directive_of_fold hfolds (List.mem_map_of_mem hx)
    have hoperand (hliteral : isLiteral ((first :: more).map Prod.fst) = false) :
        (Edit.swaps edits table).operand (first :: more) v :=
      ⟨hliteral, values, value, hassigns, hfolds, by rwa [hput]⟩
    rcases hform with ⟨hword, rfl⟩ | hopens
    · refine ⟨.name hword, ?_, hundirected, hnumber, hoperand (by simp [isLiteral, hword])⟩
      refine (readsAsCall_name hword).trans ?_
      -- a name that is called is no operand by itself
      cases hcalled : begins (Token.isPunct '(') ts with
      | false => rfl
      | true =>
          rw [List.map_cons, Operand.length?_word hword, List.nil_append, begins_map, hcalled,
            if_pos rfl] at hlength
          obtain ⟨g, -, hg⟩ := Option.map_eq_some_iff.1 hlength
          simp at hg
    · obtain ⟨hcoordinate, hliteral⟩ := coordinate_of_parens hopens hlength
      refine ⟨hcoordinate, ?_, hundirected, hnumber, hoperand hliteral⟩
      simp [readsAsCall, Token.kind_of_isPunct hopens]

section
variable (horderly : Orderly tokens table)
  (harises : ∀ e ∈ edits, e.Arises table (indexed tokens))

include harises

/-- Where a row is free, an edit begins only behind a value, so the rows begin alike. -/
theorem Edit.Spliced.beginAlike {x : Indexed} {ts us : List Indexed} (h : Spliced edits ts us)
    (hrow : x :: ts <:+ indexed tokens) (hfree : Free tokens edits ts) : BeginAlike x.1 ts us := by
  cases h with
  | nil => exact Or.inr rfl
  | keep htoken => exact Or.inr (by simp [begins, htoken])
  | @replace e first v more ts us hmem hbegins hstops =>
      left
      have hfirst := (List.suffix_cons _ _).trans hrow
      rcases (harises e hmem).part hfirst hbegins hstops with ⟨hplace, -⟩ | ⟨hplace, -⟩
      · obtain ⟨-, p, j, others, hends, hsuffix⟩ := hplace.trails
        have heq := eq_of_index_eq ((List.suffix_cons _ _).trans hsuffix) hfirst
        rw [heq] at hsuffix
        rwa [← eq_of_suffix hsuffix hrow]
      · exact absurd hbegins (hfree.operand hplace first rfl e hmem)

/-- No edit begins at the name behind the directive of a declaration. -/
theorem Edit.Spliced.keeps_name {c n : Indexed} {ts us : List Indexed}
    (h : Spliced edits (n :: ts) us) (hrow : c :: n :: ts <:+ indexed tokens)
    (hconst : isConst c.1 = true) :
    ∃ n' us', us = n' :: us' ∧ n.1 = n'.1 ∧ Spliced edits ts us' := by
  cases h with
  | @keep _ n' _ us' htoken _ hrest => exact ⟨n', us', rfl, htoken, hrest⟩
  | @replace e first v more ts us hmem hbegins hstops =>
      have hfirst := (List.suffix_cons _ _).trans hrow
      rcases (harises e hmem).part hfirst hbegins hstops with ⟨hplace, -⟩ | ⟨hplace, -⟩
      · obtain ⟨-, p, j, others, hends, hsuffix⟩ := hplace.trails
        have heq := eq_of_index_eq ((List.suffix_cons _ _).trans hsuffix) hfirst
        rw [heq] at hsuffix
        rw [← eq_of_suffix hsuffix hrow] at hconst
        exact absurd hends (not_endsValue_of_isConst hconst)
      · obtain ⟨c', j, name, k, hsuffix, -, hname⟩ := hplace
        rw [← eq_of_suffix ((List.suffix_cons _ _).trans hsuffix) hrow] at hconst
        exact absurd (Or.inr (Or.inl hname)) (not_endsValue_of_isConst hconst)

variable (hordered : ∀ e ∈ edits, e.first ≤ e.last)

include horderly hordered

/-- A declared constant reads alike with the edits made, if every row no longer than what stands
behind its name does. -/
theorem Edit.Spliced.replaced_declaration {x y name name' : Indexed} {ts us : List Indexed}
    (h : Spliced edits ts us) (hrow : x :: name :: ts <:+ indexed tokens)
    (hconst : isConst x.1 = true) (hnamed : name.1.kind = .word)
    (hdirective : x.1.toLexeme = y.1.toLexeme) (hname : name.1.toLexeme = name'.1.toLexeme)
    (ih : ∀ {ts' us' : List Indexed}, ts'.length ≤ ts.length → Spliced edits ts' us' →
      ts' <:+ indexed tokens → Free tokens edits ts' →
        Replaced (Edit.swaps edits table) ts' us') :
    Replaced (Edit.swaps edits table) (x :: name :: ts) (y :: name' :: us) := by
  have hplain := horderly.plain x name ts hrow hconst hnamed
  have hlater := (List.suffix_cons x (name :: ts)).trans hrow
  have hbehind := (List.suffix_cons name ts).trans hlater
  have hkept (hstays : ∀ z ∈ ts.head?, ∀ e ∈ edits, e.covers z.2 = false) :
      Replaced (Edit.swaps edits table) (x :: name :: ts) (y :: name' :: us) := by
    have hfree : Free tokens edits ts := by
      refine ⟨fun _ z hz e he hfirst => ?_, fun c hc hconst => ?_⟩
      · have huncovered := Edit.covers_eq_false_iff.1 (hstays z hz e he)
        have hle := hordered e he
        omega
      · rw [eq_of_suffix hc hlater] at hconst
        simp [isConst, hnamed] at hconst
    exact .step (.declare hconst hnamed hplain hdirective hname hstays)
      (ih le_rfl h hbehind hfree)
  cases h with
  | nil => exact hkept (by simp)
  | keep _ huncovered _ => exact hkept (by simpa using huncovered)
  | @replace e first v more ts us hmem hbegins hstops hput hrest =>
      obtain ⟨hcoordinate, hreads, hundirected, hnumber, hoperand⟩ :=
        (harises e hmem).valued horderly hbehind hbegins hstops hput
      have hfree : Free tokens edits ts := by
        refine @Free.behind tokens edits (name :: first :: more) ts (by simpa using hlater)
          (by simp) ?_
        intro z hz
        rw [isConst, Bool.and_eq_false_iff]
        rcases List.mem_cons.1 hz with rfl | hz
        · simp [hnamed]
        · simp [hundirected z hz]
      have hshorter : ts.length ≤ (first :: (more ++ ts)).length := by
        rw [List.length_cons, List.length_append]
        omega
      exact Replaced.step (.operand hconst hnamed hplain hdirective hname hcoordinate hreads
        hundirected hnumber hoperand)
        (ih hshorter hrest ((List.suffix_append (first :: more) ts).trans hbehind) hfree)

/-- A row with its edits made is the row with parts replaced. -/
theorem Edit.Spliced.replaced {ts us : List Indexed} (h : Spliced edits ts us)
    (hrow : ts <:+ indexed tokens) (hfree : Free tokens edits ts) :
    Replaced (Edit.swaps edits table) ts us := by
  induction hn : ts.length using Nat.strongRecOn generalizing ts us with
  | _ n ih =>
      cases h with
      | nil => exact .nil
      | @keep x y ts us htoken huncovered hrest =>
          have hlexeme : x.1.toLexeme = y.1.toLexeme := by rw [htoken]
          have hlater := (List.suffix_cons x ts).trans hrow
          rw [List.length_cons] at hn
          by_cases hdeclares : isConst x.1 = true ∧ begins (fun t => t.kind == .word) ts = true
          · obtain ⟨hconst, hbegins⟩ := hdeclares
            obtain ⟨name, ts, rfl, hnamed⟩ := exists_name_of_begins hbegins
            obtain ⟨name', us, rfl, hname, hbeyond⟩ := hrest.keeps_name harises hrow hconst
            rw [List.length_cons] at hn
            refine hbeyond.replaced_declaration horderly harises hordered hrow hconst hnamed hlexeme
              (by rw [hname]) fun hshorter h hrow hfree => ?_
            exact ih _ (by omega) h hrow hfree rfl
          · have hx : isConst x.1 = true → begins (fun t => t.kind == .word) ts = false := by
              intro hconst
              simpa [hconst] using hdeclares
            have hfree' := hfree.tail hrow hx
            exact .cons (.token hlexeme huncovered (hrest.beginAlike harises hrow hfree') hx)
              (ih ts.length (by omega) hrest hlater hfree' rfl)
      | @replace e first v more ts us hmem hbegins hstops hput hrest =>
          have hvalued : _ ∧ _ ∧ _ ∧ _ ∧ (Edit.swaps edits table).operand (first :: more) v :=
            (harises e hmem).valued horderly hrow hbegins hstops hput
          obtain ⟨hcoordinate, hreads, hundirected, hnumber, -⟩ := hvalued
          rcases (harises e hmem).part hrow hbegins hstops with ⟨hplace, rfl, hnumbers, hwritten⟩ |
            ⟨hplace, -⟩
          · have hword := hplace.trails.1
            obtain ⟨hmem, -⟩ := hnumbers.folds hword horderly.apart hwritten
            have hlater := (List.suffix_cons first ts).trans hrow
            have hfree' := hfree.tail hrow (by simp [isConst, hword])
            exact Replaced.step (.other hcoordinate hreads hundirected (by simp [begins, hword])
              (Or.inl hnumber) (show (Edit.swaps edits table).other [first] v from
                ⟨hnumber, first, rfl, hmem⟩))
              (ih ts.length (by simp at hn; omega) hrest hlater hfree' rfl)
          · exact absurd hbegins (hfree.operand hplace first rfl e hmem)

end

end

end Resolve

end MapScript
