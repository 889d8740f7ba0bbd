import MapScript.Proofs.Symbol.Evaluation

/-!
# What resolving keeps and enters

Resolving a row of tokens makes edits of one form: a numeral takes the place of a
name, or of an expression in parentheses.  The table only takes up areas and
values, and after a script is resolved every name in its declarations and
arguments is known, so that nothing is left to be refused by a later search.
-/

namespace MapScript

namespace SymbolTable

/-! ### Numbers of areas -/

section
variable {table table' : SymbolTable} {name name' : Text} {area : Int}

theorem areaId?_eq_none_iff : table.areaId? name = none ↔ name ∉ table.areas := by
  rw [areaId?, areas, List.lookup_eq_none_iff, List.mem_map]
  simp only [bne_iff_ne, ne_eq, not_exists, not_and]
  exact forall₂_congr fun _ _ => ⟨fun h heq => h heq.symm, fun h heq => h heq.symm⟩

theorem mem_areas_of_areaId? (h : table.areaId? name = some area) : name ∈ table.areas := by
  by_contra hnot
  simp [areaId?_eq_none_iff.2 hnot] at h

theorem exists_areaId? (h : name ∈ table.areas) : ∃ area, table.areaId? name = some area :=
  Option.ne_none_iff_exists'.1 fun hnone => areaId?_eq_none_iff.1 hnone h

theorem areas_declareArea (table : SymbolTable) (name : Text) :
    (table.declareArea name).areas =
      if table.areas.contains name then table.areas else table.areas ++ [name] := by
  rw [declareArea]
  split
  · rfl
  · simp [areas]

theorem mem_areas_declareArea {other : Text} :
    other ∈ (table.declareArea name).areas ↔ other ∈ table.areas ∨ other = name := by
  rw [areas_declareArea]
  split
  · next hknown =>
    constructor
    · exact Or.inl
    · rintro (h | rfl)
      · exact h
      · exact List.contains_iff_mem.1 hknown
  · simp

/-- A number that is given stays. -/
theorem areaId?_later (h : table.numberedAreas <+: table'.numberedAreas)
    (hname : table.areaId? name = some area) : table'.areaId? name = some area := by
  obtain ⟨more, hmore⟩ := h
  rw [areaId?] at hname
  rw [areaId?, ← hmore, List.lookup_append, hname, Option.some_or]

/-- The areas have the numbers from the base on, without gaps, in the order in which they
are declared. -/
def Numbered (table : SymbolTable) : Prop :=
  ∀ (i : Nat) entry, table.numberedAreas[i]? = some entry → entry.2 = table.areaBase + i

theorem Numbered.of_areas (h : table.areas = []) : table.Numbered := by
  have hnone : table.numberedAreas = [] := List.map_eq_nil_iff.1 h
  simp [Numbered, hnone]

theorem Numbered.declareArea (h : table.Numbered) (name : Text) :
    (table.declareArea name).Numbered := by
  rw [SymbolTable.declareArea]
  split
  · exact h
  intro i entry hentry
  rcases Nat.lt_trichotomy i table.numberedAreas.length with hlt | rfl | hgt
  · rw [List.getElem?_append_left hlt] at hentry
    exact h i entry hentry
  · rw [List.getElem?_concat_length] at hentry
    rw [← Option.some.inj hentry]
  · rw [List.getElem?_eq_none (by simpa using hgt)] at hentry
    cases hentry

/-- The number of an area tells its place. -/
theorem Numbered.exists_index (h : table.Numbered) (hname : table.areaId? name = some area) :
    ∃ i : Nat, table.areas[i]? = some name ∧ area = table.areaBase + i := by
  obtain ⟨before, after, hareas, -⟩ := List.lookup_eq_some_iff.1 hname
  have hentry : table.numberedAreas[before.length]? = some (name, area) := by simp [hareas]
  exact ⟨before.length, by simp [areas, hentry], h _ _ hentry⟩

/-- Different areas have different numbers. -/
theorem Numbered.areaId?_injective (h : table.Numbered) (hname : table.areaId? name = some area)
    (hname' : table.areaId? name' = some area) : name = name' := by
  obtain ⟨i, hi, rfl⟩ := h.exists_index hname
  obtain ⟨j, hj, hij⟩ := h.exists_index hname'
  obtain rfl : i = j := by omega
  exact Option.some.inj (hi.symm.trans hj)

/-- Where no area is entered twice, the number of each is its place from the base on. -/
theorem Numbered.areaId?_getElem (h : table.Numbered) (hnodup : table.areas.Nodup) {i : Nat}
    (hi : i < table.areas.length) :
    table.areaId? table.areas[i] = some (table.areaBase + i) := by
  obtain ⟨area, harea⟩ := exists_areaId? (List.getElem_mem hi)
  obtain ⟨j, hj, rfl⟩ := h.exists_index harea
  rw [harea]
  obtain ⟨hlt, hsame⟩ := List.getElem?_eq_some_iff.1 hj
  obtain rfl : j = i := (hnodup.getElem_inj_iff).1 hsame
  rfl

end

/-! ### Tables that go on -/

/-- The second table is the first with areas and values added. -/
structure Extends (table table' : SymbolTable) : Prop where
  areaBase : table'.areaBase = table.areaBase
  external : table'.external = table.external
  constants : table'.constants = table.constants
  numberedAreas : table.numberedAreas <+: table'.numberedAreas
  numbered : table.Numbered → table'.Numbered
  values : table.values <+: table'.values

theorem Extends.areas {table table' : SymbolTable} (h : table.Extends table') :
    table.areas <+: table'.areas := h.numberedAreas.map Prod.fst

theorem Extends.refl (table : SymbolTable) : table.Extends table :=
  ⟨rfl, rfl, rfl, List.prefix_rfl, id, List.prefix_rfl⟩

theorem Extends.trans {a b c : SymbolTable} (hab : a.Extends b) (hbc : b.Extends c) :
    a.Extends c where
  areaBase := hbc.areaBase.trans hab.areaBase
  external := hbc.external.trans hab.external
  constants := hbc.constants.trans hab.constants
  numberedAreas := hab.numberedAreas.trans hbc.numberedAreas
  numbered := hbc.numbered ∘ hab.numbered
  values := hab.values.trans hbc.values

theorem Extends.of_values {table : SymbolTable} {memo : Memo} (h : table.values <+: memo) :
    table.Extends { table with values := memo } :=
  ⟨rfl, rfl, rfl, List.prefix_rfl, id, h⟩

theorem Extends.declareArea (table : SymbolTable) (name : Text) :
    table.Extends (table.declareArea name) := by
  by_cases hknown : table.areas.contains name = true
  · rw [SymbolTable.declareArea, if_pos hknown]
    exact .refl table
  · have hnumbered (h : table.Numbered) := h.declareArea name
    rw [SymbolTable.declareArea, if_neg hknown] at hnumbered ⊢
    exact ⟨rfl, rfl, rfl, List.prefix_append _ _, hnumbered, List.prefix_rfl⟩

/-- A declared name stays declared. -/
theorem Extends.require {table table' : SymbolTable} (h : table.Extends table') {ref : Token}
    (href : Evaluation.require table ref = .ok ()) : Evaluation.require table' ref = .ok () := by
  rw [Evaluation.require_ok_iff] at href ⊢
  rcases href with hconstant | harea
  · left
    simpa only [isConstant, h.constants, h.external] using hconstant
  · exact Or.inr (h.areas.subset harea)

theorem Extends.known {table table' : SymbolTable} (h : table.Extends table') {ref : Token}
    (href : Evaluation.Known table table.values ref) :
    Evaluation.Known table' table'.values ref := by
  refine ⟨h.require href.1, ?_⟩
  intro hconstant
  rw [h.constants] at hconstant
  exact Memo.isSome_lookup_later h.values (href.2 hconstant)

theorem Extends.check {table table' : SymbolTable} (h : table.Extends table')
    {operand : List Token} (hcheck : Evaluation.check table operand = .ok ()) :
    Evaluation.check table' operand = .ok () := by
  rw [Evaluation.check_ok_iff] at hcheck ⊢
  intro ref href
  exact h.require (hcheck ref href)

end SymbolTable

/-- A number that is written has few enough digits. -/
theorem Number.format_divides (value : Number) : Divides value.format := by
  cases value with
  | float x => exact .ok _
  | int n =>
      show Divides (writeInt n)
      unfold writeInt
      split <;> simp [Divides]

theorem Token.significant_cons (t : Token) (ts : List Token) :
    significant (t :: ts) = if t.isTrivia then significant ts else t :: significant ts := by
  cases h : t.isTrivia <;> simp [significant, h]

/-- A name before a parenthesis is called and has no value. -/
theorem Expression.fold_call (values : Text → Option Number) {t u : Token} (ts : List Token)
    (ht : t.kind = .word) (hu : u.isPunct '(' = true) :
    Expression.fold values (t :: u :: ts) = .ok none := by
  have hsign : t.isPunct '-' = false := by simp [Token.isPunct, ht]
  have hprimary : primary values t (u :: ts) = .error .unfoldable := by
    rw [primary]
    simp only [ht, hu, List.head?_cons, Option.any_some]
    cases values t.raw <;> simp
  simp [fold, evaluate, sum, product, signed, hsign, hprimary]

namespace Resolving

@[simp] theorem evaluate_ends_iff {α : Type} {f : SymbolTable → Evaluation α} {table : SymbolTable}
    {Q : α → SymbolTable → Prop} {E : Failure → SymbolTable → Prop} :
    Ends (evaluate f) table Q E ↔
      Ends (f table) table.values (fun a memo => Q a { table with values := memo })
        (fun e memo => E e { table with values := memo }) := by
  unfold evaluate
  simp only [Ends.bind_iff, Ends.get_iff]
  conv_rhs => unfold Ends
  rcases (f table).run.run table.values with ⟨_ | a, memo⟩ <;> rfl

@[simp] theorem ofFault_ends_iff {α : Type} {result : Except Fault α} {table : SymbolTable}
    {Q : α → SymbolTable → Prop} {E : Failure → SymbolTable → Prop} :
    Ends (ofFault result) table Q E ↔
      (∀ a, result = .ok a → Q a table) ∧ ∀ f, result = .error f → E (.fault f) table := by
  cases result <;> simp [ofFault]

end Resolving

namespace Resolve

open Evaluation (searchErrors Known)

/-- A numeral for a name or for an expression in parentheses that stands in a row. -/
structure Edit.Fits (row : List Indexed) (e : Edit) : Prop where
  place : ∃ t, (t, e.first) ∈ row ∧
    (t.kind = .word ∧ e.last = e.first ∨ t.isPunct '(' = true)
  numeral : ∃ value raw span, Number.format value = .ok raw ∧
    e.replacement = .made .number raw span

theorem Edit.Fits.mono {row row' : List Indexed} {e : Edit} (h : e.Fits row)
    (hsub : ∀ x ∈ row, x ∈ row') : e.Fits row' := by
  obtain ⟨⟨t, hmem, hform⟩, hnumeral⟩ := h
  exact ⟨⟨t, hsub _ hmem, hform⟩, hnumeral⟩

/-- Every name in a declaration is known. -/
def Checked (table : SymbolTable) (d : Declaration) : Prop :=
  ∀ ref ∈ Operand.references d.operand, Known table table.values ref

theorem Checked.extend {table table' : SymbolTable} {d : Declaration} (hd : Checked table d)
    (h : table.Extends table') : Checked table' d := fun ref href => h.known (hd ref href)

theorem numeral_eq_ok {value : Number} {span : Span} {t : Token}
    (h : numeral value span = .ok t) :
    ∃ raw, value.format = .ok raw ∧ t = .made .number raw span := by
  unfold numeral at h
  cases hformat : value.format with
  | error f => simp [hformat, Except.map] at h
  | ok raw =>
      rw [hformat] at h
      exact ⟨raw, rfl, (Except.ok.inj h).symm⟩

theorem numeral_divides (value : Number) (span : Span) : Divides (numeral value span) := by
  have hdivides := Number.format_divides value
  unfold numeral
  cases hformat : value.format with
  | ok raw => exact .ok _
  | error f =>
      rw [hformat] at hdivides
      simpa [Divides, Except.map] using hdivides

theorem replaceBy_ends (value : Number) (first last : Nat) (span : Span) (table : SymbolTable) :
    Ends (replaceBy value first last span) table
      (fun e table' => table' = table ∧ e.first = first ∧ e.last = last ∧
        ∃ raw, value.format = .ok raw ∧ e.replacement = .made .number raw span)
      (fun e _ => e.Only []) := by
  unfold replaceBy
  rw [Ends.bind_iff, Resolving.ofFault_ends_iff]
  constructor
  · intro t ht
    exact ⟨rfl, rfl, rfl, numeral_eq_ok ht⟩
  · intro f hf hzero
    exact numeral_divides value span (by rw [hf, hzero])

/-- An operand with a value that is no literal is a name or stands in parentheses. -/
theorem operand_form {t : Token} {ts : List Token} {n : Nat} {lookup : Text → Option Number}
    {value : Number} (hn : Operand.length? (t :: ts) = some n)
    (hvalue : Expression.fold lookup (Token.significant ((t :: ts).take n)) = .ok (some value))
    (hliteral : isLiteral ((t :: ts).take n) = false) :
    t.kind = .word ∧ n = 1 ∨ t.isPunct '(' = true := by
  rw [Operand.length?.eq_def] at hn
  dsimp only at hn
  split at hn
  · -- a sign and a numeral
    next hsigned =>
    cases hn
    cases ts with
    | nil => simp at hsigned
    | cons u us =>
        have hu : u.kind = .number := by simpa using (Bool.and_eq_true_iff.1 hsigned).2
        simp [isLiteral, hu] at hliteral
  split at hn
  · next hnumber =>
    cases hn
    have ht : t.kind = .number := by simpa using hnumber
    simp [isLiteral, ht] at hliteral
  split at hn
  · next hword =>
    have ht : t.kind = .word := by simpa using hword
    cases ts with
    | nil =>
        cases hn
        exact Or.inl ⟨ht, rfl⟩
    | cons u us =>
        dsimp only at hn
        split at hn
        · -- a call has no value
          next hu =>
          obtain ⟨g, -, rfl⟩ := Option.map_eq_some_iff.1 hn
          have hpunct : u.kind = .punct := by
            simp only [Token.isPunct, Bool.and_eq_true, beq_iff_eq] at hu
            exact hu.1
          rw [show g.inner.length + 3 = g.inner.length + 1 + 1 + 1 from rfl, List.take_succ_cons,
            List.take_succ_cons, Token.significant_cons, Token.significant_cons,
            if_neg (by simp [Token.isTrivia, ht, TokenKind.isTrivia]),
            if_neg (by simp [Token.isTrivia, hpunct, TokenKind.isTrivia]),
            Expression.fold_call lookup _ ht hu] at hvalue
          cases hvalue
        · cases hn
          exact Or.inl ⟨ht, rfl⟩
  split at hn
  · next hparen => exact Or.inr hparen
  · simp at hn

/-- The operand that a declaration before a row has. -/
def operandOf (row : List Token) : List Token := row.take ((Operand.length? row).getD 0)

/-- The same of the indexed tokens of an operand. -/
theorem operand_form_of_take {rest more : List Indexed} {n i : Nat} {first : Token}
    {lookup : Text → Option Number} {value : Number}
    (hn : Operand.length? (rest.map Prod.fst) = some n) (hpart : rest.take n = (first, i) :: more)
    (hvalue : Expression.fold lookup (Token.significant ((rest.take n).map Prod.fst)) =
      .ok (some value))
    (hliteral : isLiteral ((rest.take n).map Prod.fst) = false) :
    first.kind = .word ∧ more = [] ∨ first.isPunct '(' = true := by
  cases rest with
  | nil => simp at hpart
  | cons x others =>
      cases n with
      | zero => simp at hpart
      | succ n =>
          rw [List.map_take] at hvalue hliteral
          rw [List.take_succ_cons, List.cons.injEq] at hpart
          obtain ⟨rfl, rfl⟩ := hpart
          rcases operand_form hn hvalue hliteral with ⟨hword, hone⟩ | hparen
          · obtain rfl : n = 0 := by omega
            exact Or.inl ⟨hword, rfl⟩
          · exact Or.inr hparen

/-- Folding a declaration leaves its names known. -/
theorem foldDeclaration_ends (name : Token) (rest : List Indexed) (table : SymbolTable) :
    Ends (foldDeclaration name rest) table
      (fun edit table' => table.Extends table' ∧ (∀ e ∈ edit, e.Fits rest) ∧
        ∀ ref ∈ Operand.references (operandOf (rest.map Prod.fst)),
          Known table' table'.values ref)
      (fun e _ => e.Only searchErrors) := by
  unfold foldDeclaration
  split
  · next hnone =>
    simp only [Ends.pure_iff, operandOf, hnone]
    exact ⟨.refl table, by simp, by simp [Operand.references]⟩
  next n hn =>
    have hoperand : operandOf (rest.map Prod.fst) = (rest.take n).map Prod.fst := by
      simp [operandOf, hn]
    simp only [Ends.bind_iff, Ends.get_iff, Ends.lift_iff, Resolving.evaluate_ends_iff]
    refine ⟨?_, fun e he => Evaluation.check_only he⟩
    rintro ⟨⟩ -
    unfold Evaluation.foldDeclaration
    apply (Evaluation.fold_ends table _ _ table.values).mono
    · rintro value memo ⟨hgrow, hknown, lookup, hvalue⟩
      have hextends := SymbolTable.Extends.of_values hgrow
      rw [hoperand]
      split
      · next value first i more hpart =>
        split
        · exact ⟨hextends, by simp, hknown⟩
        next hliteral =>
          have hform := operand_form_of_take hn hpart hvalue (by simpa using hliteral)
          have hmem : (first, i) ∈ rest := List.mem_of_mem_take (by rw [hpart]; simp)
          rw [Ends.map_iff]
          apply (replaceBy_ends value i _ _ _).mono
          · rintro e table' ⟨rfl, hfirst, hlast, raw, hraw, hnumeral⟩
            refine ⟨hextends, ?_, hknown⟩
            rintro e' ⟨⟩
            refine ⟨⟨first, by rw [hfirst]; exact hmem, ?_⟩, value, raw, _, hraw, hnumeral⟩
            rcases hform with ⟨hword, rfl⟩ | hparen
            · exact Or.inl ⟨hword, by rw [hlast, hfirst]; rfl⟩
            · exact Or.inr hparen
          · intro e table' he
            exact he.mono (by simp)
      · exact ⟨hextends, by simp, hknown⟩
    · rintro e memo ⟨-, he⟩
      exact he

/-- A numeral for one name. -/
theorem replaceName_ends (value : Number) {name : Token} {i : Nat} {row : List Indexed}
    (hname : name.kind = .word) (hmem : (name, i) ∈ row) (table : SymbolTable) :
    Ends (some <$> replaceBy value i i name.span) table
      (fun edit table' => table' = table ∧ ∀ e ∈ edit, e.Fits row)
      (fun e _ => e.Only searchErrors) := by
  rw [Ends.map_iff]
  apply (replaceBy_ends value i i name.span table).mono
  · rintro e table' ⟨rfl, hfirst, hlast, raw, hraw, hnumeral⟩
    refine ⟨rfl, ?_⟩
    rintro e' ⟨⟩
    refine ⟨⟨name, by rw [hfirst]; exact hmem, Or.inl ⟨hname, ?_⟩⟩, value, raw, _, hraw, hnumeral⟩
    rw [hlast, hfirst]
  · intro e table' he
    exact he.mono (by simp)

/-- What is left after operands belongs to the row. -/
theorem mem_of_skipOperands {n : Nat} {row left : List Indexed} (h : skipOperands n row = some left)
    {x : Indexed} (hx : x ∈ left) : x ∈ row := by
  induction n generalizing row with
  | zero =>
      cases h
      exact hx
  | succ n ih =>
      rw [skipOperands] at h
      obtain ⟨length, -, hskip⟩ := Option.bind_eq_some_iff.1 h
      exact List.mem_of_mem_drop (ih hskip)

theorem declareArea_ends (coordinates : Nat) (rest : List Indexed) (table : SymbolTable) :
    Ends (declareArea coordinates rest) table
      (fun edit table' => table.Extends table' ∧ ∀ e ∈ edit, e.Fits rest)
      (fun e _ => e.Only searchErrors) := by
  unfold declareArea
  split
  · next name i others hskip =>
    have hmem : (name, i) ∈ rest := mem_of_skipOperands hskip (by simp)
    simp only [Ends.bind_iff, Ends.get_iff]
    split
    · exact ⟨.refl table, by simp⟩
    next hname =>
      have hword : name.kind = .word := by
        simp only [Bool.or_eq_true, bne_iff_ne, ne_eq, not_or, not_not] at hname
        exact hname.1
      simp only [Ends.bind_iff, Ends.modify_iff, Ends.get_iff]
      split
      · apply (replaceName_ends _ hword hmem _).weaken
        rintro edit table' ⟨rfl, hfits⟩
        exact ⟨.declareArea table name.raw, hfits⟩
      · exact ⟨.declareArea table name.raw, by simp⟩
  · exact ⟨.refl table, by simp⟩

theorem referArea_ends (rest : List Indexed) (table : SymbolTable) :
    Ends (referArea rest) table
      (fun edit table' => table.Extends table' ∧ ∀ e ∈ edit, e.Fits rest)
      (fun e _ => e.Only searchErrors) := by
  unfold referArea
  split
  · next name i others =>
    split
    · exact ⟨.refl table, by simp⟩
    next hname =>
      have hword : name.kind = .word := by simpa using hname
      have hmem : (name, i) ∈ (name, i) :: others := by simp
      simp only [Ends.bind_iff, Ends.get_iff]
      split
      · apply (replaceName_ends _ hword hmem table).weaken
        rintro edit table' ⟨rfl, hfits⟩
        exact ⟨.refl table', hfits⟩
      · split
        · exact ⟨.refl table, by simp⟩
        · simp [Failure.Only, Failure.refuse, Cause.kind, searchErrors]
  · exact ⟨.refl table, by simp⟩

/-- The declaration that a token begins before a row, if it does. -/
def declaredBy (t : Token) (row : List Token) : List (Text × Declaration) :=
  match isConst t, row with
  | true, name :: rest => if name.kind == .word then [(name.raw, ⟨operandOf rest, name.span⟩)] else []
  | _, _ => []

theorem declarations_cons (t : Token) (ts : List Token) :
    declarations (t :: ts) = declaredBy t ts ++ declarations ts := by
  cases ts with
  | nil => cases h : isConst t <;> simp [declarations, declaredBy]
  | cons name rest =>
      by_cases hconst : isConst t = true
      · by_cases hname : (name.kind == .word) = true <;>
          simp [declarations, declaredBy, operandOf, hconst, hname]
      · simp [declarations, declaredBy, hconst]

/-- One token calls for edits that fit the row after it, and the declaration it
begins is checked. -/
theorem editAt_ends (t : Token) (rest : List Indexed) (table : SymbolTable) :
    Ends (editAt t rest) table
      (fun edit table' => table.Extends table' ∧ (∀ e ∈ edit, e.Fits rest) ∧
        ∀ entry ∈ declaredBy t (rest.map Prod.fst), Checked table' entry.2)
      (fun e _ => e.Only searchErrors) := by
  unfold editAt
  split
  · next hconst =>
    split
    · next name i rest =>
      split
      · next hname =>
        apply (foldDeclaration_ends name rest table).weaken
        rintro edit table' ⟨hextends, hfits, hknown⟩
        refine ⟨hextends, fun e he => (hfits e he).mono (by simp +contextual), ?_⟩
        simpa [declaredBy, hconst, hname, Checked] using hknown
      · next hname => exact ⟨.refl table, by simp, by simp [declaredBy, hconst, hname]⟩
    · exact ⟨.refl table, by simp, by simp [declaredBy]⟩
  next hconst =>
    have hnone : declaredBy t (rest.map Prod.fst) = [] := by simp [declaredBy, hconst]
    rw [hnone]
    split
    · exact ⟨.refl table, by simp, by simp⟩
    split
    · apply (declareArea_ends _ rest table).weaken
      rintro edit table' ⟨hextends, hfits⟩
      exact ⟨hextends, hfits, by simp⟩
    split
    · apply (referArea_ends rest table).weaken
      rintro edit table' ⟨hextends, hfits⟩
      exact ⟨hextends, hfits, by simp⟩
    · exact ⟨.refl table, by simp, by simp⟩

/-- A row calls for edits that fit it, and its declarations are checked. -/
theorem edits_ends (row : List Indexed) (table : SymbolTable) :
    Ends (edits row) table
      (fun edits table' => table.Extends table' ∧ (∀ e ∈ edits, e.Fits row) ∧
        ∀ entry ∈ declarations (row.map Prod.fst), Checked table' entry.2)
      (fun e _ => e.Only searchErrors) := by
  induction row generalizing table with
  | nil => exact ⟨.refl table, by simp, by simp [declarations]⟩
  | cons x rest ih =>
      obtain ⟨t, i⟩ := x
      rw [edits]
      simp only [Ends.bind_iff, Ends.pure_iff]
      apply (editAt_ends t rest table).weaken
      rintro here table₁ ⟨hextends₁, hfits₁, hchecked₁⟩
      apply (ih table₁).weaken
      rintro later table₂ ⟨hextends₂, hfits₂, hchecked₂⟩
      have htail : ∀ y ∈ rest, y ∈ (t, i) :: rest := by simp +contextual
      refine ⟨hextends₁.trans hextends₂, ?_, ?_⟩
      · intro e he
        rcases List.mem_append.1 he with he | he
        · exact (hfits₁ e (by simpa using he)).mono htail
        · exact (hfits₂ e he).mono htail
      · intro entry hentry
        rw [List.map_cons, declarations_cons] at hentry
        rcases List.mem_append.1 hentry with hentry | hentry
        · exact (hchecked₁ entry hentry).extend hextends₂
        · exact hchecked₂ entry hentry

theorem map_indexed (tokens : List Token) :
    (indexed tokens).map Prod.fst = Token.significant tokens := by
  have h : ∀ n, ((tokens.zipIdx n).filter fun x => !x.1.isTrivia).map Prod.fst =
      Token.significant tokens := by
    induction tokens with
    | nil => simp [Token.significant]
    | cons t ts ih =>
        intro n
        by_cases ht : t.isTrivia <;> simpa [Token.significant, List.zipIdx_cons, ht] using ih (n + 1)
  exact h 0

/-- A row of tokens is edited where its names are resolved. -/
theorem resolveTokens_ends (tokens : List Token) (table : SymbolTable) :
    Ends (resolveTokens tokens) table
      (fun out table' => table.Extends table' ∧
        (∃ edits, out = Edit.applyAll edits tokens ∧ ∀ e ∈ edits, e.Fits (indexed tokens)) ∧
        ∀ entry ∈ declarations (Token.significant tokens), Checked table' entry.2)
      (fun e _ => e.Only searchErrors) := by
  unfold resolveTokens
  simp only [Ends.bind_iff, Ends.pure_iff]
  apply (edits_ends (indexed tokens) table).weaken
  rintro edits table' ⟨hextends, hfits, hchecked⟩
  rw [map_indexed] at hchecked
  exact ⟨hextends, ⟨edits, rfl, hfits⟩, hchecked⟩

theorem checkArguments_ends (args : List (List Token)) (table : SymbolTable) :
    Ends (checkArguments args) table
      (fun _ table' => table' = table ∧ ∀ arg ∈ args, Evaluation.check table arg = .ok ())
      (fun e _ => e.Only searchErrors) := by
  unfold checkArguments
  simp only [Ends.bind_iff, Ends.get_iff]
  induction args with
  | nil => exact ⟨rfl, by simp⟩
  | cons arg args ih =>
      rw [List.forM_eq_forM, List.forM_cons, Ends.bind_iff, Ends.lift_iff]
      refine ⟨?_, fun e he => Evaluation.check_only he⟩
      intro u hu
      apply ih.weaken
      rintro u' table' ⟨rfl, hargs⟩
      exact ⟨rfl, by simpa using ⟨hu, hargs⟩⟩

/-! ### Blocks -/

mutual

/-- The arguments in a block. -/
def nodeArguments : Node → List (List Token)
  | .run _ | .marker _ _ | .header _ => []
  | .call c => c.args
  | .repeated args children _ _ => args ++ argumentsIn children

/-- The arguments in blocks, in the order of the script. -/
def argumentsIn : List Node → List (List Token)
  | [] => []
  | n :: ns => nodeArguments n ++ argumentsIn ns

end

/-- A property of every token in rows. -/
def AllTokens (P : Token → Prop) (rows : List (List Token)) : Prop := ∀ row ∈ rows, ∀ t ∈ row, P t

theorem AllTokens.append_iff {P : Token → Prop} {rows rows' : List (List Token)} :
    AllTokens P (rows ++ rows') ↔ AllTokens P rows ∧ AllTokens P rows' := List.forall_mem_append

/-- A property that numerals have. -/
def HoldsOfNumerals (P : Token → Prop) : Prop :=
  ∀ value raw span, Number.format value = .ok raw → P (.made .number raw span)

theorem Edit.mem_applyAll {edits : List Edit} {tokens : List Token} {t : Token}
    (h : t ∈ Edit.applyAll edits tokens) : t ∈ tokens ∨ ∃ e ∈ edits, t = e.replacement := by
  obtain ⟨⟨u, i⟩, hmem, ht⟩ := List.mem_flatMap.1 h
  have hu : u ∈ tokens := List.fst_mem_of_mem_zipIdx hmem
  simp only [Edit.resultAt] at ht
  split at ht
  · rw [List.mem_singleton.1 ht]
    exact Or.inl hu
  next e he =>
    split at ht
    · exact Or.inr ⟨e, List.mem_reverse.1 (List.mem_of_find?_eq_some he), List.mem_singleton.1 ht⟩
    · simp at ht

/-- What a resolved script inherits: its declarations and arguments are checked, and
its tokens are those of the script and numerals. -/
structure Inherits (table : SymbolTable) (rows out : List (List Token))
    (args : List (List Token)) : Prop where
  checked : ∀ row ∈ rows, ∀ entry ∈ declarations (Token.significant row), Checked table entry.2
  arguments : ∀ arg ∈ args, Evaluation.check table arg = .ok ()
  tokens : ∀ P, HoldsOfNumerals P → AllTokens P rows → AllTokens P out

theorem Inherits.nil (table : SymbolTable) : Inherits table [] [] [] :=
  ⟨by simp, by simp, fun P _ h => h⟩

theorem Inherits.extend {table table' : SymbolTable} {rows out args : List (List Token)}
    (h : Inherits table rows out args) (htable : table.Extends table') :
    Inherits table' rows out args where
  checked := fun row hrow entry hentry => (h.checked row hrow entry hentry).extend htable
  arguments := fun arg harg => htable.check (h.arguments arg harg)
  tokens := h.tokens

theorem Inherits.append {table : SymbolTable} {rows out args rows' out' args' : List (List Token)}
    (h : Inherits table rows out args) (h' : Inherits table rows' out' args') :
    Inherits table (rows ++ rows') (out ++ out') (args ++ args') where
  checked := List.forall_mem_append.2 ⟨h.checked, h'.checked⟩
  arguments := List.forall_mem_append.2 ⟨h.arguments, h'.arguments⟩
  tokens := by
    intro P hP hrows
    rw [AllTokens.append_iff] at hrows ⊢
    exact ⟨h.tokens P hP hrows.1, h'.tokens P hP hrows.2⟩

theorem Inherits.with_arguments {table : SymbolTable} {rows out args : List (List Token)}
    (h : Inherits table rows out args) {more : List (List Token)}
    (hmore : ∀ arg ∈ more, Evaluation.check table arg = .ok ()) :
    Inherits table rows out (more ++ args) where
  checked := h.checked
  arguments := List.forall_mem_append.2 ⟨hmore, h.arguments⟩
  tokens := h.tokens

/-- Resolving a row of tokens. -/
theorem resolveTokens_inherits (tokens : List Token) (table : SymbolTable) :
    Ends (resolveTokens tokens) table
      (fun out table' => table.Extends table' ∧ Inherits table' [tokens] [out] [])
      (fun e _ => e.Only searchErrors) := by
  apply (resolveTokens_ends tokens table).weaken
  rintro out table' ⟨hextends, ⟨edits, rfl, hfits⟩, hchecked⟩
  refine ⟨hextends, by simpa using hchecked, by simp, ?_⟩
  intro P hP hrows row hrow t ht
  rw [List.mem_singleton.1 hrow] at ht
  rcases Edit.mem_applyAll ht with ht | ⟨e, he, rfl⟩
  · exact hrows tokens (by simp) t ht
  · obtain ⟨value, raw, span, hraw, hmade⟩ := (hfits e he).numeral
    rw [hmade]
    exact hP value raw span hraw

mutual

theorem resolveNode_inherits (n : Node) (table : SymbolTable) :
    Ends (resolveNode n) table
      (fun out table' => table.Extends table' ∧
        Inherits table' (nodeGroups n) (nodeGroups out) (nodeArguments out))
      (fun e _ => e.Only searchErrors) := by
  match n with
  | .run r =>
      rw [resolveNode]
      simp only [Ends.bind_iff, Ends.pure_iff]
      apply (resolveTokens_inherits r.tokens table).weaken
      intro out table' h
      simpa [nodeGroups, nodeArguments] using h
  | .marker m span =>
      rw [resolveNode]
      exact ⟨.refl table, by simpa [nodeGroups, nodeArguments] using Inherits.nil table⟩
  | .header h =>
      rw [resolveNode]
      exact ⟨.refl table, by simpa [nodeGroups, nodeArguments] using Inherits.nil table⟩
  | .repeated args children openSpan span =>
      rw [resolveNode]
      simp only [Ends.bind_iff, Ends.pure_iff]
      apply (checkArguments_ends args table).weaken
      rintro u table₁ ⟨rfl, hargs⟩
      apply (resolveNodes_inherits children table₁).weaken
      rintro out table₂ ⟨hextends, hinherits⟩
      refine ⟨hextends, ?_⟩
      simp only [nodeGroups, nodeArguments]
      exact hinherits.with_arguments fun arg harg => hextends.check (hargs arg harg)
  | .call c =>
      rw [resolveNode.eq_def]
      simp only [Ends.bind_iff]
      apply (checkArguments_ends c.args table).weaken
      rintro u table₁ ⟨rfl, hargs⟩
      split
      · next hbody =>
        refine ⟨.refl table₁, ?_⟩
        simpa [nodeGroups, nodeArguments, hbody] using (Inherits.nil table₁).with_arguments hargs
      next body hbody =>
        simp only [Ends.bind_iff, Ends.pure_iff]
        apply (resolveTokens_inherits body table₁).weaken
        rintro out table₂ ⟨hextends, hinherits⟩
        refine ⟨hextends, ?_⟩
        have hchecked := fun arg harg => hextends.check (hargs arg harg)
        simpa [nodeGroups, nodeArguments, hbody] using hinherits.with_arguments hchecked

/-- Resolving blocks, one after the other. -/
theorem resolveNodes_inherits (ns : List Node) (table : SymbolTable) :
    Ends (resolveNodes ns) table
      (fun out table' => table.Extends table' ∧
        Inherits table' (groups ns) (groups out) (argumentsIn out))
      (fun e _ => e.Only searchErrors) := by
  match ns with
  | [] =>
      rw [resolveNodes]
      exact ⟨.refl table, by simpa [groups, argumentsIn] using Inherits.nil table⟩
  | n :: ns =>
      rw [resolveNodes]
      simp only [Ends.bind_iff, Ends.pure_iff]
      apply (resolveNode_inherits n table).weaken
      rintro out table₁ ⟨hextends₁, hinherits₁⟩
      apply (resolveNodes_inherits ns table₁).weaken
      rintro outs table₂ ⟨hextends₂, hinherits₂⟩
      refine ⟨hextends₁.trans hextends₂, ?_⟩
      simp only [groups, argumentsIn]
      exact (hinherits₁.extend hextends₂).append hinherits₂

end

/-! ### Scripts -/

theorem mem_addDeclaration {name : Text} {d d' : Declaration}
    {constants : List (Text × List Declaration)} {entry : Text × List Declaration}
    (h : entry ∈ SymbolTable.addDeclaration name d constants) (hd : d' ∈ entry.2) :
    d' = d ∨ ∃ old ∈ constants, d' ∈ old.2 := by
  induction constants with
  | nil =>
      rw [SymbolTable.addDeclaration, List.mem_singleton] at h
      subst h
      exact Or.inl (List.mem_singleton.1 hd)
  | cons first rest ih =>
      obtain ⟨other, ds⟩ := first
      rw [SymbolTable.addDeclaration] at h
      split at h
      · rcases List.mem_cons.1 h with rfl | hrest
        · rcases List.mem_append.1 hd with hold | hnew
          · exact Or.inr ⟨(other, ds), by simp, hold⟩
          · exact Or.inl (List.mem_singleton.1 hnew)
        · exact Or.inr ⟨entry, by simp [hrest], hd⟩
      · rcases List.mem_cons.1 h with rfl | hrest
        · exact Or.inr ⟨(other, ds), by simp, hd⟩
        · rcases ih hrest with hnew | ⟨old, hold, hmem⟩
          · exact Or.inl hnew
          · exact Or.inr ⟨old, by simp [hold], hmem⟩

/-- A table declares what was entered in it and nothing else. -/
theorem mem_constants_of_foldl {entries : List (Text × Declaration)} {table : SymbolTable}
    {entry : Text × List Declaration} {d : Declaration}
    (h : entry ∈ (entries.foldl (fun table (name, d) => table.declareConstant name d)
      table).constants) (hd : d ∈ entry.2) :
    (∃ e ∈ entries, e.2 = d) ∨ ∃ old ∈ table.constants, d ∈ old.2 := by
  induction entries generalizing table with
  | nil => exact Or.inr ⟨entry, h, hd⟩
  | cons first rest ih =>
      rcases ih h with ⟨e, he, rfl⟩ | ⟨old, hold, hmem⟩
      · exact Or.inl ⟨e, by simp [he], rfl⟩
      · rcases mem_addDeclaration hold hmem with rfl | hbefore
        · exact Or.inl ⟨first, by simp, rfl⟩
        · exact Or.inr hbefore

end Resolve

/-- A script that is resolved from an empty table leaves one in which all is settled. -/
theorem Script.resolve_ends (s : Script Node) {table : SymbolTable}
    (htable : table.constants = []) :
    Ends s.resolve table
      (fun out table' => Evaluation.Settled table' table'.values ∧
        (∀ arg ∈ Resolve.argumentsIn out.parts, Evaluation.check table' arg = .ok ()) ∧
        ∀ P, Resolve.HoldsOfNumerals P → Resolve.AllTokens P (Resolve.groups s.parts) →
          Resolve.AllTokens P (Resolve.groups out.parts))
      (fun e _ => e.Only Evaluation.searchErrors) := by
  unfold Script.resolve
  simp only [Ends.bind_iff, Ends.modify_iff, Ends.pure_iff]
  apply (Resolve.resolveNodes_inherits s.parts _).weaken
  rintro out table' ⟨hextends, hinherits⟩
  refine ⟨?_, hinherits.arguments, hinherits.tokens⟩
  intro entry hentry d hd
  rw [hextends.constants] at hentry
  rcases Resolve.mem_constants_of_foldl hentry hd with ⟨e, he, rfl⟩ | ⟨old, hold, -⟩
  · obtain ⟨row, hrow, he⟩ := List.mem_flatMap.1 he
    exact hinherits.checked row hrow e he
  · simp [htable] at hold

end MapScript
