import MapScript.Proofs.HoistedParts
import MapScript.Proofs.Symbol.Quiet
import MapScript.Proofs.Symbol.Spliced

/-!
# Values that endure

An operand that has a value gives way to its numeral, and one that has none is left; calls
in it give way to names that have none either.  So every constant has the value that it had.
-/

namespace MapScript

open Evaluation (HasValue Assigns Yields Sound)

theorem Expression.fold_nil (values : Text → Option Number) : fold values [] = .ok none := by
  simp [fold, evaluate, sum, product, signed]

namespace Resolve

open Operand (references)

/-! ### Operands of a resolved row -/

/-- An operand that can be resolved for good: a literal, one with a value that is read back,
or one without a value that does not refer to an area. -/
inductive OperandLasts (table : SymbolTable) (operand : List Token) : Prop
  | literal (literal : isLiteral operand = true)
  | valued (back : Number.FoundBack (table.operandValue operand))
  | unvalued (value : table.operandValue operand = .ok none)
      (undirected : ∀ t ∈ operand, t.kind ≠ .directive)
      (free : ∀ ref ∈ references operand, ref.raw ∉ table.areas)

instance (table : SymbolTable) (operand : List Token) : Decidable (OperandLasts table operand) :=
  decidable_of_iff (isLiteral operand = true ∨ Number.FoundBack (table.operandValue operand) ∨
      table.operandValue operand = .ok none ∧ (∀ t ∈ operand, t.kind ≠ .directive) ∧
        ∀ ref ∈ references operand, table.areas.contains ref.raw = false)
    ⟨fun h => h.elim .literal fun h => h.elim .valued fun h => .unvalued h.1 h.2.1
        fun ref href => by simpa using h.2.2 ref href,
      fun h => match h with
        | .literal h => .inl h
        | .valued h => .inr (.inl h)
        | .unvalued value undirected free =>
            .inr (.inr ⟨value, undirected, fun ref href => by simpa using free ref href⟩)⟩

/-- The numeral of an operand that lasts stands by itself and is read back, unless the operand
is a literal. -/
theorem OperandLasts.readsBack {table : SymbolTable} {operand : List Token} {value : Number}
    {raw : Text} (h : OperandLasts table operand) (hliteral : isLiteral operand = false)
    (hvalue : table.operandValue operand = .ok (some value)) (hformat : value.format = .ok raw) :
    Compact.merges [⟨.number, raw⟩] = false ∧ Number.parse raw = .ok value := by
  cases h with
  | literal h => simp [h] at hliteral
  | valued hback =>
      obtain ⟨v, hsome, raw', hraw, hback⟩ := hback
      rw [hvalue] at hsome
      obtain rfl := Option.some.inj (Except.ok.inj hsome)
      obtain rfl := Except.ok.inj (hformat.symm.trans hraw)
      exact hback
  | unvalued hnone =>
      rw [hvalue] at hnone
      cases hnone

/-- An operand that is kept as it is: it has no value or is a literal, and it does not refer
to an area. -/
structure Keeps (table : SymbolTable) (operand : List Token) : Prop where
  undirected : ∀ t ∈ operand, t.kind ≠ .directive
  rests : ∃ result, Yields table operand (.ok result) ∧
    (result = none ∨ isLiteral operand = true ∧ ∀ t ∈ operand, t.kind ≠ .word)
  free : ∀ ref ∈ references operand, ref.raw ∉ table.areas

/-- What an operand is resolved to: the numeral of its value, or the same lexemes. -/
inductive Lands (table : SymbolTable) (operand operand' : List Token) : Prop
  | numeral {value : Number} {v : Token} (yields : Yields table operand (.ok (some value)))
      (row : operand' = [v]) (number : v.kind = .number) (parse : Number.parse v.raw = .ok value)
  | kept (keeps : Keeps table operand)
      (lexemes : operand'.map Token.toLexeme = operand.map Token.toLexeme)

/-- The operand of a significant row is significant. -/
theorem significant_operand {ts : List Token} {entry : Text × Declaration}
    (h : entry ∈ declarations (Token.significant ts)) :
    Token.significant entry.2.operand = entry.2.operand := by
  obtain ⟨rest, hoperand, hrest⟩ := exists_operandOf h
  rw [hoperand]
  refine List.filter_eq_self.2 fun t ht => ?_
  exact (List.mem_filter.1 (hrest (List.mem_of_mem_take ht))).2

section
variable {table : SymbolTable} {tokens : List Token} {edits : List Edit}

/-- What is left of an operand that lasts is kept. -/
theorem Stays.keeps {row : List Token} (h : Stays table (operandOf row))
    (hlasts : OperandLasts table (operandOf row)) (hsound : Sound table table.values)
    (hyields : ∃ result, Yields table (operandOf row) (.ok result)) :
    Keeps table (operandOf row) := by
  obtain ⟨result, hyields⟩ := hyields
  have hliteral (hliteral : isLiteral (operandOf row) = true) : Keeps table (operandOf row) := by
    rcases literal_form hliteral with ⟨t, hrow, ht⟩ | ⟨t, u, hrow, ht, hu⟩
    · refine ⟨by simp [hrow, ht], ⟨result, hyields, Or.inr ⟨hliteral, by simp [hrow, ht]⟩⟩, ?_⟩
      simp [hrow, references, ht]
    · have ht := Token.kind_of_isPunct ht
      refine ⟨by simp [hrow, ht, hu],
        ⟨result, hyields, Or.inr ⟨hliteral, by simp [hrow, ht, hu]⟩⟩, ?_⟩
      simp [hrow, references, ht, hu]
  rcases h with ⟨hnone, hempty | hnumeral⟩ | ⟨values, hassigns, hfold⟩
  · refine ⟨by simp [hempty], ⟨result, hyields, Or.inl ?_⟩, by simp [hnone]⟩
    obtain ⟨values, -, hfold⟩ := hyields
    rw [hempty] at hfold
    exact Except.ok.inj (hfold.symm.trans (Expression.fold_nil values))
  · exact hliteral hnumeral
  · have hvalue := SymbolTable.operandValue_eq hsound hassigns hfold
    cases hlasts with
    | literal h => exact hliteral h
    | valued hback =>
        obtain ⟨v, hsome, -⟩ := hback
        rw [hvalue] at hsome
        cases hsome
    | unvalued _ hundirected hfree =>
        exact ⟨hundirected, ⟨none, ⟨values, hassigns, hfold⟩, Or.inl rfl⟩, hfree⟩

/-- A name that is kept free of areas is not replaced by the number of one. -/
theorem not_other_of_free {ts part rest : List Indexed} {v : Indexed}
    (hfree : ∀ ref ∈ references (ts.map Prod.fst), ref.raw ∉ table.areas)
    (hsuffix : part ++ rest <:+ ts) (hnamed : begins (fun t => t.kind == .word) part = true)
    (hcall : readsAsCall (part.map Prod.fst) (rest.map Prod.fst) = false) :
    ¬(Edit.swaps edits table).other part v := by
  rintro ⟨-, name, rfl, hmem⟩
  have hword : name.1.kind = .word := by simpa [begins] using hnamed
  refine hfree name.1 ?_ hmem
  obtain ⟨before, hts⟩ := hsuffix
  rw [← hts, List.map_append]
  apply Operand.references_subset_append
  refine Operand.mem_references_cons.2 (Or.inl ⟨rfl, hword, ?_⟩)
  rw [List.map_singleton, readsAsCall_name hword] at hcall
  exact (begins_map _ rest).trans hcall

/-- An operand that lasts lands on its numeral or is kept. -/
theorem DeclaredAlike.lands {e e' : Text × Declaration}
    (h : DeclaredAlike (Edit.swaps edits table) (indexed tokens) e e')
    (hlasts : OperandLasts table e.2.operand) (hsound : Sound table table.values)
    (hyields : ∃ result, Yields table e.2.operand (.ok result))
    (hsignificant : Token.significant e.2.operand = e.2.operand)
    (hordered : ∀ e ∈ edits, e.first ≤ e.last)
    (hedits : EditsOf (indexed tokens) (indexed tokens) edits table) :
    e.1 = e'.1 ∧ Lands table e.2.operand e'.2.operand := by
  cases h with
  | @numeral part v hname hfirst hsecond hnumber hoperand =>
      refine ⟨hname, ?_⟩
      obtain ⟨hliteral, values, value, hassigns, hfold, hformat⟩ := hoperand
      rw [← hfirst] at hliteral hassigns hfold
      rw [← hsignificant] at hfold
      have hvalue := SymbolTable.operandValue_eq hsound hassigns hfold
      obtain ⟨-, hparse⟩ := hlasts.readsBack hliteral hvalue hformat
      exact .numeral ⟨values, hassigns, hfold⟩ hsecond hnumber hparse
  | @part rest part part' hname hplace hstays hhere hfirst hsecond hreplaced =>
      refine ⟨hname, ?_⟩
      rw [← hhere] at hlasts hyields
      have hkeeps : Keeps table e.2.operand := by
        rw [← hhere]
        rcases hedits.settles rest hplace with ⟨edit, hedit, first, others, rfl⟩ | hstay
        · have huncovered := hstays _ rfl edit hedit
          have hle := hordered edit hedit
          simp [Edit.covers, hle] at huncovered
        · exact hstay.keeps hlasts hsound hyields
      refine .kept hkeeps ?_
      have hlexemes := hreplaced.lexemes_eq
        (fun x hx => hkeeps.undirected x.1 (by rw [hfirst]; exact List.mem_map_of_mem hx))
        fun ahead behind v hsuffix hnamed hcall =>
          not_other_of_free (by rw [← hfirst]; exact hkeeps.free) hsuffix hnamed hcall
      rw [hsecond, hfirst, List.map_map, List.map_map]
      exact hlexemes

end

/-! ### Operands of a row without its calls -/

/-- An operand that is read as another was, if the new names have no values. -/
inductive Endures (table : SymbolTable) (fresh : List Text) (operand operand' : List Token) : Prop
  | numeral {value : Number} {v : Token} (yields : Yields table operand (.ok (some value)))
      (row : operand' = [v]) (number : v.kind = .number) (parse : Number.parse v.raw = .ok value)
  | alike {result : Option Number} (yields : Yields table operand (.ok result))
      (rests : result = none ∨ isLiteral operand' = true)
      (free : ∀ ref ∈ references operand, ref.raw ∉ table.areas)
      (reads : ∀ values values', (∀ ref ∈ references operand, values ref.raw = values' ref.raw) →
        (∀ name ∈ fresh, values' name = none) →
        Expression.fold values operand = Expression.fold values' operand')
      (refers : ∀ r ∈ references operand',
        (∃ ref ∈ references operand, ref.raw = r.raw) ∨ r.raw ∈ fresh)

theorem Endures.yields {table : SymbolTable} {fresh : List Text} {operand operand' : List Token}
    (h : Endures table fresh operand operand') :
    ∃ result, Yields table operand (.ok result) ∧ (result = none ∨ isLiteral operand' = true) := by
  cases h with
  | numeral yields row number _ => exact ⟨_, yields, Or.inr (by simp [row, isLiteral, number])⟩
  | alike yields rests _ _ _ => exact ⟨_, yields, rests⟩

section
variable {table : SymbolTable} {fresh : List Text} {part part' : List Indexed}

theorem kind_of_lexemes {ts ts' : List Token} (h : ts.map Token.toLexeme = ts'.map Token.toLexeme)
    {k : TokenKind} (hts : ∀ t ∈ ts, t.kind ≠ k) : ∀ t ∈ ts', t.kind ≠ k := by
  intro t ht
  have hmem : t.toLexeme ∈ ts.map Token.toLexeme := h ▸ List.mem_map_of_mem ht
  obtain ⟨u, hu, hlexeme⟩ := List.mem_map.1 hmem
  rw [← congrArg Lexeme.kind hlexeme]
  exact hts u hu

/-- A part without names is no call, and nothing in it is replaced. -/
theorem lexemes_eq_of_unnamed (h : Replaced (Hoist.swaps fresh) part part')
    (hundirected : ∀ x ∈ part, x.1.kind ≠ .directive) (hword : ∀ x ∈ part, x.1.kind ≠ .word) :
    (part'.map Prod.fst).map Token.toLexeme = (part.map Prod.fst).map Token.toLexeme := by
  rw [List.map_map, List.map_map]
  refine h.lexemes_eq hundirected fun ahead behind v hsuffix hnamed _ _ => ?_
  cases ahead with
  | nil => cases hnamed
  | cons x ahead => exact hword x (hsuffix.subset List.mem_cons_self) (by simpa [begins] using hnamed)

/-- What an operand landed on endures where calls are taken out. -/
theorem Lands.endures {operand : List Token} (h : Lands table operand (part.map Prod.fst))
    (hreplaced : Replaced (Hoist.swaps fresh) part part') :
    Endures table fresh operand (part'.map Prod.fst) := by
  cases h with
  | @numeral value v hyields hrow hnumber hparse =>
      have hkind : ∀ x ∈ part, x.1.kind = .number := by
        intro x hx
        obtain rfl : x.1 = v := by simpa [hrow] using List.mem_map_of_mem (f := Prod.fst) hx
        exact hnumber
      have hlexemes := lexemes_eq_of_unnamed hreplaced (fun x hx => by simp [hkind x hx])
        fun x hx => by simp [hkind x hx]
      rw [hrow] at hlexemes
      obtain ⟨v', rest, hrow', hv, hrest⟩ := List.map_eq_cons_iff.1 hlexemes
      obtain rfl := List.map_eq_nil_iff.1 hrest
      refine .numeral hyields hrow' ((congrArg Lexeme.kind hv).trans hnumber) ?_
      rw [show v'.raw = v.raw from congrArg Lexeme.raw hv]
      exact hparse
  | kept hkeeps hlexemes =>
      obtain ⟨result, hyields, hrests⟩ := hkeeps.rests
      have hundirected : ∀ x ∈ part, x.1.kind ≠ .directive := fun x hx =>
        kind_of_lexemes hlexemes.symm hkeeps.undirected x.1 (List.mem_map_of_mem hx)
      have hrefers {ref : Token} (href : ref ∈ references (part.map Prod.fst)) :
          ∃ ref' ∈ references operand, ref'.toLexeme = ref.toLexeme := by
        have hmem := List.mem_map_of_mem (f := Token.toLexeme) href
        rw [Operand.references_congr hlexemes] at hmem
        exact List.mem_map.1 hmem
      refine .alike hyields (hrests.imp_right ?_) hkeeps.free ?_ ?_
      · rintro ⟨hliteral, hword⟩
        have hword : ∀ x ∈ part, x.1.kind ≠ .word := fun x hx =>
          kind_of_lexemes hlexemes.symm hword x.1 (List.mem_map_of_mem hx)
        rw [isLiteral_congr (lexemes_eq_of_unnamed hreplaced hundirected hword),
          isLiteral_congr hlexemes, hliteral]
      · intro values values' hvalues hnone
        have hsame : Expression.fold values operand = Expression.fold values (part.map Prod.fst) :=
          Expression.fold_congr ⟨.of_lexemes hlexemes.symm, fun _ _ => rfl⟩
        rw [hsame]
        refine Expression.fold_congr ⟨hreplaced.matched hundirected ?_, fun ref href => ?_⟩
        · rintro p v ⟨hcall, hword, hmem⟩
          exact ⟨hcall, hword, hnone _ hmem⟩
        · obtain ⟨ref', href', hlexeme⟩ := hrefers href
          rw [← show ref'.raw = ref.raw from congrArg Lexeme.raw hlexeme]
          exact hvalues ref' href'
      · intro r hr
        rcases hreplaced.mem_references hundirected hr with ⟨ref, href, hlexeme⟩ | ⟨p, v, hgives, rfl⟩
        · obtain ⟨ref', href', hlexeme'⟩ := hrefers href
          exact Or.inl ⟨ref', href', congrArg Lexeme.raw (hlexeme'.trans hlexeme)⟩
        · exact Or.inr hgives.2.2

/-- Operands of a resolved row endure where its calls are taken out. -/
theorem DeclaredAlike.endures {row : List Indexed} {operand : List Token}
    {e e' : Text × Declaration} (h : DeclaredAlike (Hoist.swaps fresh) row e e')
    (hlands : Lands table operand e.2.operand) :
    e.1 = e'.1 ∧ Endures table fresh operand e'.2.operand := by
  cases h with
  | numeral _ _ _ _ hoperand => exact hoperand.elim
  | part hname _ _ _ hfirst hsecond hreplaced =>
      rw [hfirst] at hlands
      rw [hsecond]
      exact ⟨hname, hlands.endures hreplaced⟩

end

end Resolve

/-! ### Values -/

namespace Evaluation

open Operand (references)
open Resolve (Endures isLiteral Rests)

/-- An operand that calls, and refers to nothing but constants from outside. -/
structure Calls (table : SymbolTable) (operand : List Token) : Prop where
  folds : ∀ values, Expression.fold values operand = .ok none
  refers : ∀ ref ∈ references operand,
    table.constants.lookup ref.raw = none ∧ table.isConstant ref.raw = true

/-- A table in which another one endures: each constant is declared with operands that
endure, what is from outside still is, and the new names are declared with calls. -/
structure Outlives (table table' : SymbolTable) (fresh : List Text) : Prop where
  significant : ∀ name ds, table.constants.lookup name = some ds →
    ∀ d ∈ ds, Token.significant d.operand = d.operand
  significant' : ∀ name ds, table'.constants.lookup name = some ds →
    ∀ d ∈ ds, Token.significant d.operand = d.operand
  areas : table'.areas = []
  external : ∀ name, table.constants.lookup name = none → table.isConstant name = true →
    table'.constants.lookup name = none ∧ table'.isConstant name = true
  declared : ∀ name ds, table.constants.lookup name = some ds →
    ∃ ds', table'.constants.lookup name = some ds' ∧
      List.Forall₂ (fun d d' => Endures table fresh d.operand d'.operand) ds ds'
  unused : ∀ name ∈ fresh, table.isConstant name = false
  fresh : ∀ name ∈ fresh, ∃ ds, table'.constants.lookup name = some ds ∧
    ∀ d ∈ ds, Calls table' d.operand

section
variable {table table' : SymbolTable} {fresh : List Text}

theorem single_none {results : List (Option Number)} (h : ∀ result ∈ results, result = none) :
    single results = none := by
  unfold single
  split
  · exact h _ (by simp)
  · rfl

/-- A name from outside has no value. -/
theorem HasValue.of_external {name : Text} (hareas : table.areas = [])
    (hunknown : table.constants.lookup name = none) (hconstant : table.isConstant name = true) :
    HasValue table name none := by
  have hvalue := HasValue.outside (Or.inl hconstant) hunknown
  rwa [SymbolTable.areaId?_eq_none_iff.2 (by simp [hareas])] at hvalue

/-- An operand that calls has no value. -/
theorem Calls.yields {operand : List Token} (h : Calls table operand) (hareas : table.areas = [])
    (hsignificant : Token.significant operand = operand) : Yields table operand (.ok none) := by
  refine ⟨fun _ => none, fun ref href => ?_, by rw [hsignificant]; exact h.folds _⟩
  obtain ⟨hunknown, hconstant⟩ := h.refers ref href
  exact .of_external hareas hunknown hconstant

/-- The values, but none for the new names. -/
def besides (fresh : List Text) (values : Text → Option Number) (name : Text) : Option Number :=
  if fresh.contains name then none else values name

theorem besides_of_mem {values : Text → Option Number} {name : Text} (h : name ∈ fresh) :
    besides fresh values name = none :=
  if_pos (List.contains_iff_mem.2 h)

theorem besides_of_not_mem {values : Text → Option Number} {name : Text} (h : name ∉ fresh) :
    besides fresh values name = values name :=
  if_neg (mt List.contains_iff_mem.1 h)

variable (h : Outlives table table' fresh)

include h

/-- The new names have no values. -/
theorem Outlives.hasValue_fresh {name : Text} (hname : name ∈ fresh) :
    HasValue table' name none := by
  obtain ⟨ds, hds, hcalls⟩ := h.fresh name hname
  have hnone : single (ds.map fun _ => none) = none := single_none (by simp)
  rw [← hnone]
  have hassigns : ∀ d ∈ ds, Assigns table' (fun _ => none) (references d.operand) := by
    intro d hd ref href
    obtain ⟨hunknown, hconstant⟩ := (hcalls d hd).refers ref href
    exact .of_external h.areas hunknown hconstant
  refine @HasValue.constant _ _ _ (fun _ => none) _ hds hassigns ?_
  rw [List.map_map]
  refine List.map_congr_left fun d hd => ?_
  rw [h.significant' name ds hds d hd]
  exact (hcalls d hd).folds _

/-- An operand that endures has the value that it had. -/
theorem Outlives.follows {operand operand' : List Token} (hendures : Endures table fresh operand operand')
    (hsignificant : Token.significant operand = operand) {values : Text → Option Number}
    (hassigns : Assigns table values (references operand))
    (hlater : ∀ ref ∈ references operand, ref.raw ∉ table.areas →
      HasValue table' ref.raw (values ref.raw)) :
    Assigns table' (besides fresh values) (references operand') ∧
      Expression.fold (besides fresh values) operand' = Expression.fold values operand := by
  cases hendures with
  | @numeral value v hyields hrow hnumber hparse =>
      have hnone : references [v] = [] := by simp [references, hnumber]
      rw [hrow, hnone]
      refine ⟨by simp [Assigns], ?_⟩
      obtain ⟨values', hassigns', hfold⟩ := hyields
      have hsame := fold_congr_of_references fun ref href =>
        (hassigns ref href).unique (hassigns' ref href)
      rw [hsignificant] at hfold hsame
      rw [hsame, hfold, Operand.fold_number _ hnumber, hparse]
      rfl
  | alike _ _ hfree hreads hrefers =>
      have hnew {ref : Token} (href : ref ∈ references operand) : ref.raw ∉ fresh := by
        intro hmem
        rcases (hassigns ref href).declared with hconstant | harea
        · rw [h.unused _ hmem] at hconstant
          cases hconstant
        · exact hfree ref href harea
      constructor
      · intro r hr
        by_cases hmem : r.raw ∈ fresh
        · rw [besides_of_mem hmem]
          exact h.hasValue_fresh hmem
        · obtain ⟨ref, href, hraw⟩ := (hrefers r hr).resolve_right hmem
          rw [besides_of_not_mem hmem, ← hraw]
          exact hlater ref href (hfree ref href)
      · exact (hreads values _ (fun ref href => (besides_of_not_mem (hnew href)).symm)
          fun name hname => besides_of_mem hname).symm

/-- Every constant has the value that it had. -/
theorem Outlives.hasValue {name : Text} {value : Option Number} (hvalue : HasValue table name value)
    (hname : name ∉ table.areas) : HasValue table' name value := by
  induction hvalue with
  | @outside name hdeclared hunknown =>
      obtain ⟨hunknown', hconstant'⟩ :=
        h.external name hunknown (hdeclared.resolve_right hname)
      rw [SymbolTable.areaId?_eq_none_iff.2 hname]
      exact .of_external h.areas hunknown' hconstant'
  | @constant name ds values results hknown hneeds hfolds ih =>
      obtain ⟨ds', hknown', hall⟩ := h.declared name ds hknown
      have hfollows {d d' : Declaration} (hd : d ∈ ds)
          (hendures : Endures table fresh d.operand d'.operand) :=
        h.follows hendures (h.significant name ds hknown d hd) (hneeds d hd) (ih d hd)
      have hassigns : ∀ d' ∈ ds', Assigns table' (besides fresh values) (references d'.operand) := by
        intro d' hd'
        obtain ⟨d, hd, hendures⟩ := exists_of_forall₂_mem hall hd'
        exact (hfollows hd hendures).1
      refine @HasValue.constant _ _ _ (besides fresh values) _ hknown' hassigns ?_
      rw [← hfolds, ← List.forall₂_eq_eq_eq, List.forall₂_map_left_iff,
        List.forall₂_map_right_iff, List.forall₂_iff_get]
      refine ⟨hall.length_eq.symm, fun i hi' hi => ?_⟩
      have hendures := (List.forall₂_iff_get.1 hall).2 i hi hi'
      rw [h.significant' name ds' hknown' _ (List.get_mem ds' _),
        h.significant name ds hknown _ (List.get_mem ds _)]
      exact (hfollows (List.get_mem ds _) hendures).2

end

end Evaluation

end MapScript
