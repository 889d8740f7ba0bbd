import MapScript.Proofs.Grammar.Items
import MapScript.Proofs.Symbol.Coherence
import MapScript.Proofs.Together

/-!
# Resolving elsewhere

What becomes of a row of tokens depends on their lexemes, not on their places.  Two
rows of the same lexemes that are resolved from tables which differ in the places of
declarations only go along together: they find the same values or are refused for the
same cause, and what they edit is where the one index corresponds to the other.
-/

namespace MapScript

variable {k : Likeness}

/-! ### Rows of the same lexemes -/

namespace Group

open Grammar (argumentList)

/-- How long a group is that is read, if one is. -/
def extent? (x : Except GroupFault Group) : Option Nat :=
  x.toOption.map fun g => g.inner.length

theorem extent?_cons (t : Token) (x : Except GroupFault Group) :
    extent? (x.map (cons t)) = (extent? x).map (· + 1) := by
  cases x <;> rfl

/-- Where a group ends is seen in the lexemes. -/
theorem extent?_congr {ts ts' : List Token} (h : ts.map Token.toLexeme = ts'.map Token.toLexeme)
    (depth : Nat) :
    extent? (readPart argumentList depth ts) = extent? (readPart argumentList depth ts') := by
  induction ts generalizing ts' depth with
  | nil =>
      rw [List.map_nil, eq_comm, List.map_eq_nil_iff] at h
      rw [h]
  | cons t ts ih =>
      obtain ⟨t', ts', rfl, ht, hts⟩ := List.map_eq_cons_iff.1 h.symm
      have hpunct (c : Char) : t'.isPunct c = t.isPunct c := Token.isPunct_congr ht c
      cases hopener : t.isPunct argumentList.opener with
      | true =>
          rw [readPart_opener hopener, readPart_opener ((hpunct _).trans hopener), extent?_cons,
            extent?_cons, ih hts.symm]
      | false =>
          have hopener' := (hpunct _).trans hopener
          cases hcloser : t.isPunct argumentList.closer with
          | false =>
              have hcloser' := (hpunct _).trans hcloser
              rw [readPart_token hopener hcloser, readPart_token hopener' hcloser']
              show extent? ((readPart argumentList depth ts).map (cons t)) =
                extent? ((readPart argumentList depth ts').map (cons t'))
              rw [extent?_cons, extent?_cons, ih hts.symm]
          | true =>
              have hcloser' := (hpunct _).trans hcloser
              cases depth with
              | zero =>
                  rw [readPart_closer_zero hcloser, readPart_closer_zero hcloser']
                  rfl
              | succ depth =>
                  rw [readPart_closer_succ hcloser, readPart_closer_succ hcloser', extent?_cons,
                    extent?_cons, ih hts.symm]

theorem length_parens?_congr {ts ts' : List Token}
    (h : ts.map Token.toLexeme = ts'.map Token.toLexeme) (n : Nat) :
    (parens? ts).map (fun g => g.inner.length + n) =
      (parens? ts').map fun g => g.inner.length + n := by
  have hlength := congrArg (Option.map (· + n)) (extent?_congr h 0)
  rw [extent?, extent?, Option.map_map, Option.map_map, ← Call.parens?_eq, ← Call.parens?_eq]
    at hlength
  exact hlength

end Group

theorem Operand.length?_congr {ts ts' : List Token}
    (h : ts.map Token.toLexeme = ts'.map Token.toLexeme) : length? ts = length? ts' := by
  cases ts with
  | nil =>
      rw [List.map_nil, eq_comm, List.map_eq_nil_iff] at h
      rw [h]
  | cons t ts =>
      obtain ⟨t', ts', rfl, ht, hts⟩ := List.map_eq_cons_iff.1 h.symm
      cases ts with
      | nil =>
          rw [List.map_nil, List.map_eq_nil_iff] at hts
          rw [hts, length?.eq_def, length?.eq_def]
          dsimp only
          rw [ht, Token.isPunct_congr ht, Token.isPunct_congr ht]
      | cons u us =>
          obtain ⟨u', us', rfl, hu, hus⟩ := List.map_eq_cons_iff.1 hts
          rw [length?.eq_def, length?.eq_def]
          simp only [List.head?_cons, Option.any_some, ht, hu, Token.isPunct_congr ht,
            Token.isPunct_congr hu, Group.length_parens?_congr hus, Group.length_parens?_congr hts]

theorem Operand.references_alike {ts ts' : List Token} (h : List.Forall₂ (Token.Alike k) ts ts') :
    List.Forall₂ (Token.Alike k) (references ts) (references ts') := by
  induction h with
  | nil => exact .nil
  | @cons t t' ts ts' ht hts ih =>
      rw [references, references, ht.kind_eq, Token.head?_any_isPunct_congr (lexemes_of_alike hts)]
      split
      · exact .cons ht ih
      · exact ih

/-! ### Tables -/

/-- Declarations of one operand, their names at places that correspond. -/
structure Declaration.Alike (k : Likeness) (d d' : Declaration) : Prop where
  operand : List.Forall₂ (Token.Alike k) d.operand d'.operand
  place : k.place d.span.start d'.span.start

/-- A name with declarations that are alike. -/
def Declaration.AlikeAll (k : Likeness) (entry entry' : Text × List Declaration) : Prop :=
  entry.1 = entry'.1 ∧ List.Forall₂ (Declaration.Alike k) entry.2 entry'.2

namespace SymbolTable

/-- Tables that differ in the places of declarations only. -/
structure Alike (k : Likeness) (table table' : SymbolTable) : Prop where
  areaBase : table.areaBase = table'.areaBase
  external : table.external = table'.external
  numberedAreas : table.numberedAreas = table'.numberedAreas
  constants : List.Forall₂ (Declaration.AlikeAll k) table.constants table'.constants
  values : table.values = table'.values

namespace Alike

variable {table table' : SymbolTable}

theorem lookup (h : table.Alike k table') (name : Text) :
    Option.Rel (List.Forall₂ (Declaration.Alike k)) (table.constants.lookup name)
      (table'.constants.lookup name) := by
  have hconstants := h.constants
  generalize table.constants = entries at hconstants
  generalize table'.constants = entries' at hconstants
  induction hconstants with
  | nil => exact .none
  | @cons entry entry' rest rest' hentry _ ih =>
      obtain ⟨other, ds⟩ := entry
      obtain ⟨other', ds'⟩ := entry'
      obtain ⟨hname, hds⟩ := hentry
      obtain rfl : other = other' := hname
      rw [List.lookup_cons, List.lookup_cons]
      split
      · exact .some hds
      · exact ih

theorem isConstant (h : table.Alike k table') (name : Text) :
    table.isConstant name = table'.isConstant name := by
  rw [SymbolTable.isConstant, SymbolTable.isConstant, h.external]
  have hlookup := h.lookup name
  generalize table.constants.lookup name = found at hlookup
  generalize table'.constants.lookup name = found' at hlookup
  cases hlookup <;> rfl

theorem areaId? (h : table.Alike k table') (name : Text) :
    table.areaId? name = table'.areaId? name := by
  rw [SymbolTable.areaId?, SymbolTable.areaId?, h.numberedAreas]

theorem areas (h : table.Alike k table') : table.areas = table'.areas := by
  rw [SymbolTable.areas, SymbolTable.areas, h.numberedAreas]

/-- A table without constants is alike itself. -/
theorem refl_of_constants (h : table.constants = []) : table.Alike k table :=
  ⟨rfl, rfl, rfl, h ▸ .nil, rfl⟩

theorem names (h : table.Alike k table') : table.names = table'.names := by
  have hconstants : table.constants.map Prod.fst = table'.constants.map Prod.fst := by
    have hentries := h.constants
    generalize table.constants = entries at hentries
    generalize table'.constants = entries' at hentries
    induction hentries with
    | nil => rfl
    | cons hentry _ ih => rw [List.map_cons, List.map_cons, hentry.1, ih]
  rw [SymbolTable.names, SymbolTable.names, h.areas, h.external, hconstants]

theorem require (h : table.Alike k table') {ref ref' : Token} (href : Token.Alike k ref ref') :
    Both (Failure.Alike k) (fun _ _ => True) (Evaluation.require table ref)
      (Evaluation.require table' ref') := by
  rw [Evaluation.require, Evaluation.require, h.isConstant, h.areas, href.raw_eq]
  split
  · exact .ok trivial
  · exact .error (.refuse _ _ _ href.place)

theorem check (h : table.Alike k table') {operand operand' : List Token}
    (hrefs : List.Forall₂ (Token.Alike k) (Operand.references operand)
      (Operand.references operand')) :
    Both (Failure.Alike k) (fun _ _ => True) (Evaluation.check table operand)
      (Evaluation.check table' operand') := by
  rw [Evaluation.check, Evaluation.check]
  generalize Operand.references operand = refs at hrefs
  generalize Operand.references operand' = refs' at hrefs
  induction hrefs with
  | nil => exact .ok trivial
  | @cons ref ref' rest rest' href hrest ih =>
      have hfirst := h.require href
      simp only [List.forM_eq_forM, List.forM_cons] at ih ⊢
      generalize Evaluation.require table ref = x at hfirst
      generalize Evaluation.require table' ref' = y at hfirst
      cases hfirst with
      | ok _ => exact ih
      | error he => exact .error he

theorem declareArea (h : table.Alike k table') (name : Text) :
    (table.declareArea name).Alike k (table'.declareArea name) := by
  rw [SymbolTable.declareArea, SymbolTable.declareArea, ← h.areas, ← h.numberedAreas,
    ← h.areaBase]
  split
  · exact h
  · exact ⟨rfl, h.external, rfl, h.constants, h.values⟩

theorem addDeclaration {entries entries' : List (Text × List Declaration)}
    (h : List.Forall₂ (Declaration.AlikeAll k) entries entries') (name : Text) {d d' : Declaration}
    (hd : d.Alike k d') :
    List.Forall₂ (Declaration.AlikeAll k) (SymbolTable.addDeclaration name d entries)
      (SymbolTable.addDeclaration name d' entries') := by
  induction h with
  | nil => exact .cons ⟨rfl, .cons hd .nil⟩ .nil
  | @cons entry entry' rest rest' hentry hrest ih =>
      obtain ⟨other, ds⟩ := entry
      obtain ⟨other', ds'⟩ := entry'
      obtain ⟨hname, hds⟩ := hentry
      obtain rfl : other = other' := hname
      rw [SymbolTable.addDeclaration, SymbolTable.addDeclaration]
      split
      · exact .cons ⟨rfl, List.rel_append hds (.cons hd .nil)⟩ hrest
      · exact .cons ⟨rfl, hds⟩ ih

theorem declareConstant (h : table.Alike k table') (name : Text) {d d' : Declaration}
    (hd : d.Alike k d') :
    (table.declareConstant name d).Alike k (table'.declareConstant name d') :=
  ⟨h.areaBase, h.external, h.numberedAreas, addDeclaration h.constants name hd, h.values⟩

theorem declareAll (h : table.Alike k table') {entries entries' : List (Text × Declaration)}
    (hentries : List.Forall₂ (fun e e' => e.1 = e'.1 ∧ e.2.Alike k e'.2) entries entries') :
    (entries.foldl (fun table (name, d) => table.declareConstant name d) table).Alike k
      (entries'.foldl (fun table (name, d) => table.declareConstant name d) table') := by
  induction hentries generalizing table table' with
  | nil => exact h
  | @cons entry entry' rest rest' hentry _ ih =>
      obtain ⟨name, d⟩ := entry
      obtain ⟨name', d'⟩ := entry'
      obtain ⟨hname, hd⟩ := hentry
      obtain rfl : name = name' := hname
      exact ih (h.declareConstant name hd)

theorem with_values (h : table.Alike k table') (memo : Memo) :
    ({ table with values := memo } : SymbolTable).Alike k { table' with values := memo } :=
  ⟨h.areaBase, h.external, h.numberedAreas, h.constants, rfl⟩

end Alike

end SymbolTable

/-! ### Values -/

namespace Evaluation

variable {table table' : SymbolTable}

/-- Frames of one name at places that correspond. -/
structure Frame.Alike (k : Likeness) (f f' : Frame) : Prop where
  name : f.name = f'.name
  place : k.place f.span.start f'.span.start

theorem names_of_alike {stack stack' : List Frame} (h : List.Forall₂ (Frame.Alike k) stack stack') :
    stack.map Frame.name = stack'.map Frame.name := by
  induction h with
  | nil => rfl
  | cons hf _ ih => rw [List.map_cons, List.map_cons, hf.name, ih]

theorem cycle_alike {stack stack' : List Frame} (h : List.Forall₂ (Frame.Alike k) stack stack')
    {name : Text} (hname : name ∈ stack.map Frame.name) :
    Failure.Alike k (cycle stack name) (cycle stack' name) := by
  have hframes : List.Forall₂ (Frame.Alike k) (stack.dropWhile fun f => f.name != name)
      (stack'.dropWhile fun f => f.name != name) := by
    clear hname
    induction h with
    | nil => exact .nil
    | @cons f f' rest rest' hf hrest ih =>
        rw [List.dropWhile_cons, List.dropWhile_cons, hf.name]
        split
        · exact ih
        · exact .cons hf hrest
  have hne : (stack.dropWhile fun f => f.name != name) ≠ [] := by
    obtain ⟨f, hf, rfl⟩ := List.mem_map.1 hname
    intro hnil
    simpa using List.dropWhile_eq_nil_iff.1 hnil f hf
  unfold cycle
  generalize stack.dropWhile _ = frames at hframes hne
  generalize stack'.dropWhile _ = frames' at hframes
  cases hframes with
  | nil => exact absurd rfl hne
  | @cons f f' rest rest' hf hrest =>
      dsimp only
      rw [names_of_alike (.cons hf hrest)]
      exact .refuse _ _ _ hf.place

/-- Computations on values that are kept, which the places of tokens leave as they are. -/
abbrev Parallel {α : Type} (k : Likeness) (x y : Evaluation α) : Prop :=
  Together (Failure.Alike k) Eq Eq x y

theorem foldExpression_alike (values : Memo) {operand operand' : List Token}
    (h : Expression.fold (fun name => (values.lookup name).join) (Token.significant operand) =
      Expression.fold (fun name => (values.lookup name).join) (Token.significant operand')) :
    Parallel k (foldExpression values operand) (foldExpression values operand') := by
  rw [foldExpression, foldExpression, h]
  cases Expression.fold (fun name => (values.lookup name).join) (Token.significant operand') with
  | ok value => exact .pure rfl
  | error f => exact .throw (.fault f)

theorem fold_of_alike (values : Text → Option Number) {operand operand' : List Token}
    (h : List.Forall₂ (Token.Alike k) operand operand') :
    Expression.fold values (Token.significant operand) =
      Expression.fold values (Token.significant operand') :=
  Expression.fold_congr ⟨.of_lexemes (Token.significant_congr (lexemes_of_alike h)), fun _ _ => rfl⟩

/-- Searches for the same names from the same values go along together. -/
theorem search_alike (h : table.Alike k table') :
    (∀ stack refs stack' refs', List.Forall₂ (Frame.Alike k) stack stack' →
      List.Forall₂ (Token.Alike k) refs refs' →
      Parallel k (valuesOf table stack refs) (valuesOf table' stack' refs')) ∧
    (∀ stack ref stack' ref', List.Forall₂ (Frame.Alike k) stack stack' →
      Token.Alike k ref ref' → Parallel k (valueOf table stack ref) (valueOf table' stack' ref')) ∧
    (∀ stack name ds stack' ds', List.Forall₂ (Frame.Alike k) stack stack' →
      List.Forall₂ (Declaration.Alike k) ds ds' →
      Parallel k (foldAll table stack name ds) (foldAll table' stack' name ds')) := by
  apply valuesOf.mutual_induct table
  case case1 =>
    intro stack stack' refs' hstack hrefs
    cases hrefs
    rw [valuesOf, valuesOf]
    exact .pure rfl
  case case2 =>
    rintro stack ref rest href hrest stack' refs' hstack (_ | ⟨ht, hts⟩)
    rw [valuesOf, valuesOf]
    apply (href stack' _ hstack ht).bind
    rintro value _ rfl
    apply (hrest stack' _ hstack hts).bind
    rintro values _ rfl
    rw [ht.raw_eq]
    exact .pure rfl
  case case3 =>
    intro stack ref ih stack' ref' hstack href
    rw [valueOf, valueOf]
    apply (Together.lift (h.require href)).bind
    rintro _ _ -
    apply Together.get
    rintro memo _ rfl
    rw [← href.raw_eq, ← names_of_alike hstack]
    cases List.lookup ref.raw memo with
    | some value => exact .pure rfl
    | none =>
        dsimp only
        have hlookup := h.lookup ref.raw
        split
        · next hnone =>
          rw [hnone] at hlookup
          split
          · exact .pure (by rw [h.areaId?])
          · next ds' hds' =>
            rw [hds'] at hlookup
            cases hlookup
        · next ds hds =>
          rw [hds] at hlookup
          split
          · next hfresh =>
            split
            · next hnone' =>
              rw [hnone'] at hlookup
              cases hlookup
            · next ds' hds' =>
              rw [hds'] at hlookup
              obtain ⟨hds''⟩ := hlookup
              apply (ih ds hds hfresh stack' ds' hstack hds'').bind
              rintro results _ rfl
              apply Together.modified
              · rintro memo _ rfl
                rfl
              · exact .pure rfl
          · next hclosed =>
            split
            · next hnone' =>
              rw [hnone'] at hlookup
              cases hlookup
            · exact .throw (cycle_alike hstack (by simpa using hclosed))
  case case4 =>
    intro stack name stack' ds' hstack hds
    cases hds
    rw [foldAll, foldAll]
    exact .pure rfl
  case case5 =>
    rintro stack name d rest hvalues hrest stack' _ hstack (_ | @⟨_, d', _, rest', hd, hds⟩)
    have hframe : Frame.Alike k ⟨name, d.span⟩ ⟨name, d'.span⟩ := ⟨rfl, hd.place⟩
    rw [foldAll, foldAll]
    apply (hvalues (stack' ++ [⟨name, d'.span⟩]) _ (List.rel_append hstack (.cons hframe .nil))
      (Operand.references_alike hd.operand)).bind
    rintro values _ rfl
    apply (foldExpression_alike values (fold_of_alike _ hd.operand)).bind
    rintro value _ rfl
    apply (hrest stack' _ hstack hds).bind
    rintro results _ rfl
    exact .pure rfl

/-- An operand has one value, wherever it stands. -/
theorem fold_alike (h : table.Alike k table') {stack stack' : List Frame}
    {operand operand' : List Token} (hstack : List.Forall₂ (Frame.Alike k) stack stack')
    (hrefs : List.Forall₂ (Token.Alike k) (Operand.references operand)
      (Operand.references operand'))
    (hfold : ∀ values, Expression.fold values (Token.significant operand) =
      Expression.fold values (Token.significant operand')) :
    Parallel k (fold table stack operand) (fold table' stack' operand') := by
  rw [fold, fold]
  apply ((search_alike h).1 stack _ stack' _ hstack hrefs).bind
  rintro values _ rfl
  exact foldExpression_alike values (hfold _)

end Evaluation

/-! ### Edits -/

/-- Computations on tables that differ in the places of declarations only. -/
abbrev Resolving.Parallel {α β : Type} (k : Likeness) (R : α → β → Prop) (x : Resolving α)
    (y : Resolving β) : Prop :=
  Together (Failure.Alike k) (SymbolTable.Alike k) R x y

theorem Resolving.run_evaluate {α : Type} (f : SymbolTable → Evaluation α) (table : SymbolTable) :
    (evaluate f).run.run table = (((f table).run.run table.values).1,
      { table with values := ((f table).run.run table.values).2 }) := by
  have hends : Ends (evaluate f) table
      (fun a t => (f table).run.run table.values = (.ok a, t.values) ∧
        t = { table with values := t.values })
      (fun e t => (f table).run.run table.values = (.error e, t.values) ∧
        t = { table with values := t.values }) := by
    rw [evaluate_ends_iff]
    exact Ends.of_run (fun _ _ hrun => ⟨hrun, rfl⟩) fun _ _ hrun => ⟨hrun, rfl⟩
  cases hrun : (evaluate f).run.run table with
  | mk result last =>
      cases result with
      | ok a =>
          obtain ⟨heq, hlast⟩ := hends.of_run_ok hrun
          rw [heq, ← hlast]
      | error e =>
          obtain ⟨heq, hlast⟩ := hends.of_run_error hrun
          rw [heq, ← hlast]

theorem Resolving.evaluate_alike {α : Type} {f g : SymbolTable → Evaluation α}
    (hfg : ∀ table table', table.Alike k table' → Evaluation.Parallel k (f table) (g table')) :
    Parallel k Eq (evaluate f) (evaluate g) := by
  intro table table' h
  obtain ⟨hboth, hmemo⟩ := hfg table table' h table.values table'.values h.values
  rw [run_evaluate, run_evaluate]
  refine ⟨hboth, ?_⟩
  rw [hmemo]
  exact h.with_values _

namespace Resolve

/-- A token and another that is alike, at indices that correspond. -/
def Corresponds (k : Likeness) (M : Nat → Nat → Prop) (x y : Indexed) : Prop :=
  Token.Alike k x.1 y.1 ∧ M x.2 y.2

/-- Two edits that put tokens that are alike in the place of rows that correspond. -/
structure Edit.Alike (k : Likeness) (M : Nat → Nat → Prop) (e e' : Edit) : Prop where
  first : M e.first e'.first
  last : M e.last e'.last
  replacement : Token.Alike k e.replacement e'.replacement

variable {M : Nat → Nat → Prop}

theorem alike_of_corresponds {row row' : List Indexed}
    (h : List.Forall₂ (Corresponds k M) row row') :
    List.Forall₂ (Token.Alike k) (row.map Prod.fst) (row'.map Prod.fst) := by
  induction h with
  | nil => exact .nil
  | cons hx _ ih => exact .cons hx.1 ih

theorem Corresponds.getLast {row row' : List Indexed}
    (h : List.Forall₂ (Corresponds k M) row row') (hrow : row ≠ []) (hrow' : row' ≠ []) :
    Corresponds k M (row.getLast hrow) (row'.getLast hrow') := by
  induction h with
  | nil => exact absurd rfl hrow
  | @cons x y xs ys hx hxs ih =>
      cases hxs with
      | nil => exact hx
      | cons _ _ => exact ih (by simp) (by simp)

theorem isLiteral_congr {operand operand' : List Token}
    (h : operand.map Token.toLexeme = operand'.map Token.toLexeme) :
    isLiteral operand = isLiteral operand' := by
  have hlexemes (ts : List Token) : isLiteral ts = (decide ((ts.map Token.toLexeme).length ≤ 2) &&
      (ts.map Token.toLexeme).getLast?.any fun l => l.kind == .number) := by
    rw [isLiteral, List.length_map, List.getLast?_map, Option.any_map]
  rw [hlexemes, hlexemes, h]

theorem isConst_congr {t t' : Token} (h : t.toLexeme = t'.toLexeme) : isConst t = isConst t' := by
  rw [isConst, isConst, Token.value, Token.value, h]

theorem numeral_alike (value : Number) {span span' : Span} (h : k.place span.start span'.start) :
    Both Eq (Token.Alike k) (numeral value span) (numeral value span') := by
  rw [numeral, numeral]
  cases value.format with
  | error f => exact .error rfl
  | ok raw => exact .ok ⟨rfl, h⟩

section
variable {row row' : List Indexed}

/-- Edits of rows that correspond, or none in either. -/
abbrev EditAlike (k : Likeness) (M : Nat → Nat → Prop) : Option Edit → Option Edit → Prop :=
  Option.Rel (Edit.Alike k M)

theorem replaceBy_alike (value : Number) {first last first' last' : Nat} {span span' : Span}
    (hfirst : M first first') (hlast : M last last') (hspan : k.place span.start span'.start) :
    Resolving.Parallel k (EditAlike k M) (some <$> replaceBy value first last span)
      (some <$> replaceBy value first' last' span') := by
  unfold replaceBy
  have hnumeral := numeral_alike value hspan
  generalize numeral value span = x at hnumeral
  generalize numeral value span' = y at hnumeral
  cases hnumeral with
  | ok h => exact .pure (.some ⟨hfirst, hlast, h⟩)
  | error he =>
      rw [he]
      exact .throw (.fault _)

theorem foldDeclaration_alike {name name' : Token} (hname : Token.Alike k name name')
    (hrow : List.Forall₂ (Corresponds k M) row row') :
    Resolving.Parallel k (EditAlike k M) (foldDeclaration name row)
      (foldDeclaration name' row') := by
  unfold foldDeclaration
  rw [← Operand.length?_congr (lexemes_of_alike (alike_of_corresponds hrow))]
  cases Operand.length? (row.map Prod.fst) with
  | none => exact .pure .none
  | some n =>
      have hpart := List.forall₂_take n hrow
      have hoperand := alike_of_corresponds hpart
      dsimp only
      apply Together.get
      intro table table' h
      apply (Together.lift (h.check (Operand.references_alike hoperand))).bind
      rintro _ _ -
      have hframe : Evaluation.Frame.Alike k ⟨name.raw, name.span⟩ ⟨name'.raw, name'.span⟩ :=
        ⟨hname.raw_eq, hname.place⟩
      apply (Resolving.evaluate_alike fun table table' h =>
        Evaluation.fold_alike h (.cons hframe .nil) (Operand.references_alike hoperand)
          fun values => Evaluation.fold_of_alike values hoperand).bind
      rintro value _ rfl
      cases value with
      | none => exact .pure .none
      | some value =>
          generalize row.take n = part at hpart hoperand
          generalize row'.take n = part' at hpart hoperand
          cases hpart with
          | nil => exact .pure .none
          | @cons x y more more' hx hmore =>
              have hlast := Corresponds.getLast (.cons hx hmore) (by simp) (by simp)
              dsimp only
              rw [← isLiteral_congr (lexemes_of_alike hoperand)]
              split
              · exact .pure .none
              · exact replaceBy_alike value hx.2 hlast.2 hx.1.place

theorem skipOperands_alike (n : Nat) (hrow : List.Forall₂ (Corresponds k M) row row') :
    Option.Rel (List.Forall₂ (Corresponds k M)) (skipOperands n row) (skipOperands n row') := by
  induction n generalizing row row' with
  | zero => exact .some hrow
  | succ n ih =>
      rw [skipOperands, skipOperands,
        ← Operand.length?_congr (lexemes_of_alike (alike_of_corresponds hrow))]
      cases Operand.length? (row.map Prod.fst) with
      | none => exact .none
      | some length => exact ih (List.forall₂_drop length hrow)

theorem declareArea_alike (coordinates : Nat) (hrow : List.Forall₂ (Corresponds k M) row row') :
    Resolving.Parallel k (EditAlike k M) (declareArea coordinates row)
      (declareArea coordinates row') := by
  have hskip := skipOperands_alike coordinates hrow
  unfold declareArea
  generalize skipOperands coordinates row = left at hskip
  generalize skipOperands coordinates row' = left' at hskip
  cases hskip with
  | none => exact .pure .none
  | some hleft =>
      cases hleft with
      | nil => exact .pure .none
      | @cons x y more more' hx hmore =>
          obtain ⟨name, i⟩ := x
          obtain ⟨name', i'⟩ := y
          obtain ⟨hname, hi⟩ := hx
          dsimp only at hname hi ⊢
          apply Together.get
          intro table table' h
          rw [← hname.lexeme, ← h.isConstant]
          split
          · exact .pure .none
          apply Together.modified fun _ _ h => h.declareArea name.raw
          apply Together.get
          intro table table' h
          rw [← h.areaId?]
          cases table.areaId? name.raw with
          | some area => exact replaceBy_alike _ hi hi hname.place
          | none => exact .pure .none

theorem referArea_alike (hrow : List.Forall₂ (Corresponds k M) row row') :
    Resolving.Parallel k (EditAlike k M) (referArea row) (referArea row') := by
  unfold referArea
  cases hrow with
  | nil => exact .pure .none
  | @cons x y more more' hx hmore =>
      obtain ⟨name, i⟩ := x
      obtain ⟨name', i'⟩ := y
      obtain ⟨hname, hi⟩ := hx
      dsimp only at hname hi ⊢
      rw [← hname.lexeme]
      split
      · exact .pure .none
      apply Together.get
      intro table table' h
      rw [← h.areaId?, ← h.isConstant]
      cases table.areaId? name.raw with
      | some area => exact replaceBy_alike _ hi hi hname.place
      | none =>
          dsimp only
          split
          · exact .pure .none
          · exact .throw (.refuse _ _ _ hname.place)

theorem editAt_alike {t t' : Token} (ht : Token.Alike k t t')
    (hrow : List.Forall₂ (Corresponds k M) row row') :
    Resolving.Parallel k (EditAlike k M) (editAt t row) (editAt t' row') := by
  unfold editAt
  rw [← isConst_congr ht.lexeme, ← ht.lexeme]
  split
  · cases hrow with
    | nil => exact .pure .none
    | @cons x y more more' hx hmore =>
        dsimp only
        rw [← hx.1.lexeme]
        split
        · exact foldDeclaration_alike hx.1 hmore
        · exact .pure .none
  split
  · exact .pure .none
  cases areaDeclaration? t.raw with
  | some coordinates => exact declareArea_alike coordinates hrow
  | none =>
      dsimp only
      split
      · exact referArea_alike hrow
      · exact .pure .none

theorem declaredBy_alike {t t' : Token} {ts ts' : List Token} (ht : Token.Alike k t t')
    (hts : List.Forall₂ (Token.Alike k) ts ts') :
    List.Forall₂ (fun e e' => e.1 = e'.1 ∧ e.2.Alike k e'.2) (declaredBy t ts)
      (declaredBy t' ts') := by
  unfold declaredBy
  rw [isConst_congr ht.lexeme]
  cases isConst t' with
  | false => exact .nil
  | true =>
      cases hts with
      | nil => exact .nil
      | @cons name name' rest rest' hname hrest =>
          have hoperand : List.Forall₂ (Token.Alike k) (operandOf rest) (operandOf rest') := by
            rw [operandOf, operandOf, Operand.length?_congr (lexemes_of_alike hrest)]
            exact List.forall₂_take _ hrest
          dsimp only
          rw [hname.kind_eq, hname.raw_eq]
          split
          · exact .cons ⟨rfl, hoperand, hname.place⟩ .nil
          · exact .nil

/-- What a row declares is seen in its lexemes. -/
theorem declarations_alike {ts ts' : List Token} (h : List.Forall₂ (Token.Alike k) ts ts') :
    List.Forall₂ (fun e e' => e.1 = e'.1 ∧ e.2.Alike k e'.2) (declarations ts)
      (declarations ts') := by
  induction h with
  | nil => exact .nil
  | cons ht hts ih =>
      rw [declarations_cons, declarations_cons]
      exact List.rel_append (declaredBy_alike ht hts) ih

/-- Rows that correspond are edited where they do. -/
theorem edits_alike (hrow : List.Forall₂ (Corresponds k M) row row') :
    Resolving.Parallel k (List.Forall₂ (Edit.Alike k M)) (edits row) (edits row') := by
  induction hrow with
  | nil => exact .pure .nil
  | @cons x y more more' hx hmore ih =>
      rw [edits, edits]
      apply (editAt_alike hx.1 hmore).bind
      intro here here' hhere
      apply ih.bind
      intro later later' hlater
      refine .pure ?_
      cases hhere with
      | none => exact hlater
      | some he => exact .cons he hlater

end

end Resolve

end MapScript
