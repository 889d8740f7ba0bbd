import MapScript.Proofs.Symbol.Congruence
import MapScript.Proofs.Symbol.Resolve

/-!
# What constants mean

The value of a constant, told without a search: a name from outside and an area
have theirs, and a constant of the script has what its declarations give once the
names in them have values.  A name has one value at most, and none if it needs
itself.  A search finds these values and no others, whatever it has found before,
and it finds every one there is.
-/

namespace MapScript

open Evaluation

/-- A word that is referred to among the significant tokens is referred to among all. -/
theorem Operand.references_significant_subset (ts : List Token) :
    references (Token.significant ts) ⊆ references ts := by
  induction ts with
  | nil => exact fun _ h => h
  | cons t ts ih =>
      rw [Token.significant_cons]
      split
      · next htrivia =>
        have hword : (t.kind == .word) = false := by
          rw [beq_eq_false_iff_ne]
          intro hkind
          simp [Token.isTrivia, hkind, TokenKind.isTrivia] at htrivia
        rw [references, hword]
        exact ih
      · rw [references, references]
        -- a parenthesis that stands next stands next without trivia, too
        have hcalled : ts.head?.any (Token.isPunct '(') = true →
            (Token.significant ts).head?.any (Token.isPunct '(') = true := by
          cases ts with
          | nil => simp
          | cons u us =>
              intro hu
              replace hu : u.isPunct '(' = true := hu
              have hkind : u.kind = .punct := by
                simp only [Token.isPunct, Bool.and_eq_true, beq_iff_eq] at hu
                exact hu.1
              rw [Token.significant_cons,
                if_neg (by simp [Token.isTrivia, hkind, TokenKind.isTrivia])]
              exact hu
        intro ref href
        cases hword : t.kind == .word with
        | false =>
            rw [hword] at href
            exact ih href
        | true =>
            cases hsig : (Token.significant ts).head?.any (Token.isPunct '(') with
            | true =>
                rw [hword, hsig] at href
                split
                · exact List.mem_cons_of_mem t (ih href)
                · exact ih href
            | false =>
                have hplain : ts.head?.any (Token.isPunct '(') = false := by
                  rw [Bool.eq_false_iff]
                  intro h
                  rw [hcalled h] at hsig
                  cases hsig
                rw [hword, hsig] at href
                rw [hplain]
                exact List.cons_subset_cons t ih href

namespace Evaluation

/-- The value of a name. -/
inductive HasValue (table : SymbolTable) : Text → Option Number → Prop
  /-- Areas have their numbers, and what is declared outside has no value here. -/
  | outside {name : Text} (declared : table.isConstant name = true ∨ name ∈ table.areas)
      (unknown : table.constants.lookup name = none) :
      HasValue table name ((table.areaId? name).map Number.int)
  /-- A constant has what its only declaration gives. -/
  | constant {name : Text} {ds : List Declaration} {values : Text → Option Number}
      {results : List (Option Number)} (known : table.constants.lookup name = some ds)
      (needs : ∀ d ∈ ds, ∀ ref ∈ Operand.references d.operand,
        HasValue table ref.raw (values ref.raw))
      (folds : ds.map (fun d => Expression.fold values (Token.significant d.operand)) =
        results.map .ok) :
      HasValue table name (single results)

variable {table table' : SymbolTable}

/-- Expressions have the same value where their names have. -/
theorem fold_congr_of_references {values values' : Text → Option Number} {operand : List Token}
    (h : ∀ ref ∈ Operand.references operand, values ref.raw = values' ref.raw) :
    Expression.fold values (Token.significant operand) =
      Expression.fold values' (Token.significant operand) :=
  Expression.fold_congr
    ⟨.of_lexemes rfl, fun ref href => h ref (Operand.references_significant_subset operand href)⟩

theorem HasValue.unique {name : Text} {value value' : Option Number}
    (h : HasValue table name value) (h' : HasValue table name value') : value = value' := by
  induction h generalizing value' with
  | outside hdeclared hunknown =>
      cases h' with
      | outside => rfl
      | constant hknown => simp [hunknown] at hknown
  | @constant name ds values results hknown hneeds hfolds ih =>
      cases h' with
      | outside hdeclared hunknown => simp [hunknown] at hknown
      | @constant _ ds' values' results' hknown' hneeds' hfolds' =>
          obtain rfl : ds = ds' := Option.some.inj (hknown.symm.trans hknown')
          have hsame : results.map (Except.ok (ε := Fault)) = results'.map .ok := by
            rw [← hfolds, ← hfolds']
            apply List.map_congr_left
            intro d hd
            apply fold_congr_of_references
            intro ref href
            exact ih d hd ref href (hneeds' d hd ref href)
          have hinjective : Function.Injective (Except.ok (ε := Fault) (α := Option Number)) :=
            fun _ _ h => Except.ok.inj h
          rw [List.map_injective_iff.2 hinjective hsame]

/-- A constant refers to the names in its declarations. -/
def Refers (table : SymbolTable) (c d : Text) : Prop :=
  ∃ ds, table.constants.lookup c = some ds ∧
    ∃ declaration ∈ ds, ∃ ref ∈ Operand.references declaration.operand, ref.raw = d

/-- A name with a value needs no names without end. -/
theorem HasValue.acc {name : Text} {value : Option Number} (h : HasValue table name value) :
    Acc (fun d c => Refers table c d) name := by
  induction h with
  | outside hdeclared hunknown =>
      constructor
      rintro d ⟨ds, hknown, -⟩
      simp [hunknown] at hknown
  | constant hknown hneeds hfolds ih =>
      constructor
      rintro d ⟨ds, hknown', declaration, hmem, ref, href, rfl⟩
      obtain rfl := Option.some.inj (hknown.symm.trans hknown')
      exact ih declaration hmem ref href

/-- A name with a value does not need itself. -/
theorem HasValue.not_refers_self {name : Text} {value : Option Number}
    (h : HasValue table name value) : ¬ Relation.TransGen (Refers table) name name := by
  have hacc := h.acc.transGen
  rw [← Relation.transGen_swap]
  clear h
  induction hacc with
  | intro a _ ih =>
      intro hself
      exact ih a hself hself

/-! ### Searches find what constants mean -/

/-- The values in a memo are those of their names. -/
def Sound (table : SymbolTable) (memo : Memo) : Prop :=
  ∀ name value, memo.lookup name = some value → HasValue table name value

theorem Sound.nil (table : SymbolTable) : Sound table [] := by
  intro name value h
  cases h

theorem Sound.append {memo : Memo} (h : Sound table memo) {name : Text} {value : Option Number}
    (hvalue : HasValue table name value) : Sound table (memo ++ [(name, value)]) := by
  intro other found hfound
  rw [List.lookup_append] at hfound
  cases hmemo : memo.lookup other with
  | some old =>
      rw [hmemo, Option.some_or, Option.some.injEq] at hfound
      exact h other found (by rw [hmemo, hfound])
  | none =>
      rw [hmemo, Option.none_or, List.lookup_cons] at hfound
      cases hname : other == name with
      | false => simp [hname] at hfound
      | true =>
          rw [hname] at hfound
          cases hfound
          rw [eq_of_beq hname]
          exact hvalue

/-- A valuation in which the given references have their values. -/
def Assigns (table : SymbolTable) (values : Text → Option Number) (refs : List Token) : Prop :=
  ∀ ref ∈ refs, HasValue table ref.raw (values ref.raw)

/-- The valuation that a search for references hands to an expression. -/
def valuation (values : Memo) (name : Text) : Option Number := (values.lookup name).join

theorem valuation_cons {values : Memo} {refs : List Token} {ref : Token} {value : Option Number}
    (hvalue : HasValue table ref.raw value) (h : Assigns table (valuation values) refs) :
    Assigns table (valuation ((ref.raw, value) :: values)) (ref :: refs) := by
  intro r hr
  rw [valuation, List.lookup_cons]
  cases hname : r.raw == ref.raw with
  | true =>
      rw [eq_of_beq hname]
      exact hvalue
  | false =>
      rcases List.mem_cons.1 hr with rfl | hr
      · simp at hname
      · exact h r hr

theorem foldExpression_ends_iff {values : Memo} {operand : List Token} {memo : Memo}
    {Q : Option Number → Memo → Prop} {E : Failure → Memo → Prop} :
    Ends (foldExpression values operand) memo Q E ↔
      (∀ value, Expression.fold (valuation values) (Token.significant operand) = .ok value →
        Q value memo) ∧
      ∀ f, Expression.fold (valuation values) (Token.significant operand) = .error f →
        E (.fault f) memo := by
  have hvaluation : (fun name => (values.lookup name).join) = valuation values := rfl
  rw [foldExpression, hvaluation]
  cases Expression.fold (valuation values) (Token.significant operand) <;> simp

/-- The declarations have the results, in a valuation that is right for their names. -/
def FoldsTo (table : SymbolTable) (ds : List Declaration) (results : List (Option Number)) : Prop :=
  ∃ values, (∀ d ∈ ds, Assigns table values (Operand.references d.operand)) ∧
    ds.map (fun d => Expression.fold values (Token.significant d.operand)) = results.map .ok

theorem FoldsTo.nil (table : SymbolTable) : FoldsTo table [] [] := ⟨fun _ => none, by simp, rfl⟩

/-- One more declaration; its valuation and that of the others are right for all. -/
theorem FoldsTo.cons {d : Declaration} {ds : List Declaration} {value : Option Number}
    {results : List (Option Number)} {values : Text → Option Number}
    (hassigns : Assigns table values (Operand.references d.operand))
    (hfold : Expression.fold values (Token.significant d.operand) = .ok value)
    (h : FoldsTo table ds results) : FoldsTo table (d :: ds) (value :: results) := by
  obtain ⟨others, hothers, hfolds⟩ := h
  classical
  let joint (name : Text) : Option Number :=
    if name ∈ (Operand.references d.operand).map (fun ref => ref.raw) then values name
    else others name
  have hjoint {name : Text} (hvalue : HasValue table name (others name)) :
      HasValue table name (joint name) := by
    by_cases hmem : name ∈ (Operand.references d.operand).map fun ref => ref.raw
    · obtain ⟨ref, href, rfl⟩ := List.mem_map.1 hmem
      simp only [joint, hmem, if_true]
      exact hassigns ref href
    · simp only [joint, hmem, if_false]
      exact hvalue
  have hfirst : ∀ ref ∈ Operand.references d.operand, values ref.raw = joint ref.raw := by
    intro ref href
    have hmem := List.mem_map_of_mem (f := fun r : Token => r.raw) href
    simp only [joint, hmem, if_true]
  refine ⟨joint, List.forall_mem_cons.2 ⟨?_, ?_⟩, ?_⟩
  · intro ref href
    rw [← hfirst ref href]
    exact hassigns ref href
  · intro d' hd' ref href
    exact hjoint (hothers d' hd' ref href)
  · rw [List.map_cons, List.map_cons, ← fold_congr_of_references hfirst, hfold, ← hfolds]
    congr 1
    apply List.map_congr_left
    intro d' hd'
    apply fold_congr_of_references
    intro ref href
    have hvalue := hothers d' hd' ref href
    exact (hjoint hvalue).unique hvalue

/-- From a sound memo a search finds values and leaves the memo sound, also if it fails. -/
theorem search_sound (table : SymbolTable) :
    (∀ stack refs memo, Sound table memo → Ends (valuesOf table stack refs) memo
      (fun values memo' => Sound table memo' ∧ Assigns table (valuation values) refs)
      (fun _ memo' => Sound table memo')) ∧
    (∀ stack ref memo, Sound table memo → Ends (valueOf table stack ref) memo
      (fun value memo' => Sound table memo' ∧ HasValue table ref.raw value)
      (fun _ memo' => Sound table memo')) ∧
    (∀ stack name declarations memo, Sound table memo →
      Ends (foldAll table stack name declarations) memo
        (fun results memo' => Sound table memo' ∧ FoldsTo table declarations results)
        (fun _ memo' => Sound table memo')) := by
  apply valuesOf.mutual_induct table
  case case1 =>
    intro stack memo hmemo
    rw [valuesOf]
    exact ⟨hmemo, by simp [Assigns]⟩
  case case2 =>
    intro stack ref rest href hrest memo hmemo
    rw [valuesOf]
    simp only [Ends.bind_iff, Ends.pure_iff]
    apply (href memo hmemo).weaken
    rintro value memo₁ ⟨hmemo₁, hvalue⟩
    apply (hrest memo₁ hmemo₁).weaken
    rintro values memo₂ ⟨hmemo₂, hassigns⟩
    exact ⟨hmemo₂, valuation_cons hvalue hassigns⟩
  case case3 =>
    intro stack ref ih memo hmemo
    rw [valueOf]
    simp only [Ends.bind_iff, Ends.lift_iff, Ends.get_iff]
    refine ⟨?_, fun e _ => hmemo⟩
    rintro ⟨⟩ hrequire
    split
    · next value hvalue => exact ⟨hmemo, hmemo _ _ hvalue⟩
    split
    · next hnone => exact ⟨hmemo, .outside (require_ok_iff.1 hrequire) hnone⟩
    next declarations hknown =>
      split
      · next hfresh =>
        simp only [Ends.bind_iff, Ends.modify_iff, Ends.pure_iff]
        apply (ih declarations hknown hfresh memo hmemo).weaken
        rintro results memo₁ ⟨hmemo₁, values, hassigns, hfolds⟩
        have hvalue : HasValue table ref.raw (single results) := .constant hknown hassigns hfolds
        exact ⟨hmemo₁.append hvalue, hvalue⟩
      · exact hmemo
  case case4 =>
    intro stack name memo hmemo
    rw [foldAll]
    exact ⟨hmemo, .nil table⟩
  case case5 =>
    intro stack name d rest hvalues hrest memo hmemo
    rw [foldAll]
    simp only [Ends.bind_iff, Ends.pure_iff]
    apply (hvalues memo hmemo).weaken
    rintro values memo₁ ⟨hmemo₁, hassigns⟩
    rw [foldExpression_ends_iff]
    refine ⟨fun value hvalue => ?_, fun f _ => hmemo₁⟩
    apply (hrest memo₁ hmemo₁).weaken
    rintro results memo₂ ⟨hmemo₂, hresults⟩
    exact ⟨hmemo₂, hresults.cons hassigns hvalue⟩

/-- The value of an operand is that of its expression where names mean what they do. -/
theorem fold_sound {memo : Memo} (hmemo : Sound table memo) (stack : List Frame)
    (operand : List Token) :
    Ends (fold table stack operand) memo
      (fun value memo' => Sound table memo' ∧ ∃ values,
        Assigns table values (Operand.references operand) ∧
        Expression.fold values (Token.significant operand) = .ok value)
      (fun _ memo' => Sound table memo') := by
  rw [fold, Ends.bind_iff]
  apply ((search_sound table).1 stack _ memo hmemo).weaken
  rintro values memo₁ ⟨hmemo₁, hassigns⟩
  rw [foldExpression_ends_iff]
  exact ⟨fun value hvalue => ⟨hmemo₁, _, hassigns, hvalue⟩, fun f _ => hmemo₁⟩

/-- From a sound memo the computation has a result. -/
def Succeeds {α : Type} (table : SymbolTable) (x : Evaluation α) : Prop :=
  ∀ memo, Sound table memo → Ends x memo (fun _ _ => True) (fun _ _ => False)

theorem valuesOf_succeeds {stack : List Frame} {refs : List Token}
    (h : ∀ ref ∈ refs, Succeeds table (valueOf table stack ref)) :
    Succeeds table (valuesOf table stack refs) := by
  induction refs with
  | nil =>
      intro memo _
      rw [valuesOf]
      trivial
  | cons ref refs ih =>
      intro memo hmemo
      rw [List.forall_mem_cons] at h
      rw [valuesOf]
      simp only [Ends.bind_iff, Ends.pure_iff]
      apply ((h.1 memo hmemo).and ((search_sound table).2.1 stack ref memo hmemo)).mono
      · rintro value memo₁ ⟨-, hmemo₁, -⟩
        exact ih h.2 memo₁ hmemo₁
      · rintro e memo₁ ⟨hfalse, -⟩
        exact hfalse

/-- An operand is folded if its names are found and its expression has no fault. -/
theorem fold_succeeds {stack : List Frame} {operand : List Token} {values : Text → Option Number}
    {value : Option Number} (hassigns : Assigns table values (Operand.references operand))
    (hfold : Expression.fold values (Token.significant operand) = .ok value)
    (h : ∀ ref ∈ Operand.references operand, Succeeds table (valueOf table stack ref))
    {memo : Memo} (hmemo : Sound table memo) :
    Ends (fold table stack operand) memo
      (fun found memo' => found = value ∧ Sound table memo') (fun _ _ => False) := by
  rw [fold, Ends.bind_iff]
  apply ((valuesOf_succeeds h memo hmemo).and ((search_sound table).1 stack _ memo hmemo)).mono
  · rintro found memo₁ ⟨-, hmemo₁, hfound⟩
    have hsame : Expression.fold (valuation found) (Token.significant operand) = .ok value := by
      rw [← hfold]
      apply fold_congr_of_references
      intro ref href
      exact (hfound ref href).unique (hassigns ref href)
    rw [foldExpression_ends_iff, hsame]
    simp [hmemo₁]
  · rintro e memo₁ ⟨hfalse, -⟩
    exact hfalse

theorem foldAll_eq_fold (table : SymbolTable) (stack : List Frame) (name : Text) (d : Declaration)
    (rest : List Declaration) :
    foldAll table stack name (d :: rest) = (do
      let value ← fold table (stack ++ [⟨name, d.span⟩]) d.operand
      let results ← foldAll table stack name rest
      return value :: results) := by
  rw [foldAll, fold]
  simp only [bind_assoc]

theorem foldAll_succeeds {stack : List Frame} {name : Text} {ds : List Declaration}
    {results : List (Option Number)} {values : Text → Option Number}
    (hassigns : ∀ d ∈ ds, Assigns table values (Operand.references d.operand))
    (hfolds : ds.map (fun d => Expression.fold values (Token.significant d.operand)) =
      results.map .ok)
    (h : ∀ d ∈ ds, ∀ ref ∈ Operand.references d.operand,
      Succeeds table (valueOf table (stack ++ [⟨name, d.span⟩]) ref)) :
    Succeeds table (foldAll table stack name ds) := by
  induction ds generalizing results with
  | nil =>
      intro memo _
      rw [foldAll]
      trivial
  | cons d ds ih =>
      intro memo hmemo
      rw [List.map_cons] at hfolds
      obtain ⟨value, results, rfl, hvalue, hrest⟩ := List.map_eq_cons_iff.1 hfolds.symm
      rw [List.forall_mem_cons] at hassigns h
      rw [foldAll_eq_fold]
      simp only [Ends.bind_iff, Ends.pure_iff]
      apply (fold_succeeds hassigns.1 hvalue.symm h.1 hmemo).weaken
      rintro found memo₁ ⟨-, hmemo₁⟩
      exact ih hassigns.2 hrest.symm h.2 memo₁ hmemo₁

/-- A value is found if it does not need what is on the stack. -/
theorem HasValue.succeeds {name : Text} {value : Option Number} (h : HasValue table name value)
    {ref : Token} (href : ref.raw = name) {stack : List Frame}
    (hstack : ∀ f ∈ stack, ¬ Relation.ReflTransGen (Refers table) name f.name) :
    Succeeds table (valueOf table stack ref) := by
  intro memo hmemo
  induction h generalizing ref stack memo with
  | outside hdeclared hunknown =>
      subst href
      rw [valueOf]
      simp only [Ends.bind_iff, Ends.lift_iff, Ends.get_iff, require_ok_iff.2 hdeclared]
      refine ⟨fun _ _ => ?_, by simp⟩
      split
      · trivial
      split
      · trivial
      · next hknown => simp [hunknown] at hknown
  | @constant name ds values results hknown hneeds hfolds ih =>
      subst href
      have hconstant : table.isConstant ref.raw = true := by
        simp [SymbolTable.isConstant, hknown]
      rw [valueOf]
      simp only [Ends.bind_iff, Ends.lift_iff, Ends.get_iff, require_ok_iff.2 (Or.inl hconstant)]
      refine ⟨fun _ _ => ?_, by simp⟩
      split
      · trivial
      split
      · trivial
      next ds' hknown' =>
      obtain rfl := Option.some.inj (hknown.symm.trans hknown')
      have hself := (HasValue.constant hknown hneeds hfolds).not_refers_self
      split
      · simp only [Ends.bind_iff, Ends.modify_iff, Ends.pure_iff]
        refine foldAll_succeeds hneeds hfolds ?_ memo hmemo
        intro d hd r hr
        have hrefers : Refers table ref.raw r.raw := ⟨ds, hknown, d, hd, r, hr, rfl⟩
        -- what the reference needs the constant needs, and the constant does not need itself
        apply ih d hd r hr rfl
        intro f hf hreach
        rcases List.mem_append.1 hf with hf | hf
        · exact hstack f hf (.head hrefers hreach)
        · rw [List.mem_singleton.1 hf] at hreach
          exact hself (Relation.TransGen.head' hrefers hreach)
      · next hentered =>
        rw [Bool.not_eq_false, List.contains_iff_mem] at hentered
        obtain ⟨f, hf, hname⟩ := List.mem_map.1 hentered
        exact hstack f hf (hname ▸ .refl)

end Evaluation

/-! ### Tables that grow -/

namespace SymbolTable

/-- The second table is the first with values and areas added, and no new area is a
constant. -/
structure Grows (table table' : SymbolTable) : Prop extends table.Extends table' where
  free : ∀ name ∈ table'.areas, name ∈ table.areas ∨ table.isConstant name = false

variable {table table' : SymbolTable}

theorem Grows.refl (table : SymbolTable) : table.Grows table :=
  ⟨.refl table, fun _ h => Or.inl h⟩

theorem Extends.isConstant (h : table.Extends table') (name : Text) :
    table'.isConstant name = table.isConstant name := by
  rw [SymbolTable.isConstant, SymbolTable.isConstant, h.constants, h.external]

theorem Grows.trans {table'' : SymbolTable} (h : table.Grows table') (h' : table'.Grows table'') :
    table.Grows table'' := by
  refine ⟨h.toExtends.trans h'.toExtends, ?_⟩
  intro name hname
  rcases h'.free name hname with hold | hfree
  · exact h.free name hold
  · right
    rw [← h.toExtends.isConstant, hfree]

theorem Grows.of_values {memo : Memo} (h : table.values <+: memo) :
    table.Grows { table with values := memo } :=
  ⟨.of_values h, fun _ hname => Or.inl hname⟩

theorem Grows.declareArea {name : Text} (h : table.isConstant name = false) :
    table.Grows (table.declareArea name) := by
  refine ⟨.declareArea table name, ?_⟩
  intro other hother
  rcases mem_areas_declareArea.1 hother with hold | rfl
  · exact Or.inl hold
  · exact Or.inr h

/-- What has a number or is a constant keeps its number. -/
theorem Grows.areaId? (h : table.Grows table') {name : Text}
    (hname : table.isConstant name = true ∨ name ∈ table.areas) :
    table'.areaId? name = table.areaId? name := by
  cases harea : table.areaId? name with
  | some area => exact areaId?_later h.numberedAreas harea
  | none =>
      have hold : name ∉ table.areas := areaId?_eq_none_iff.1 harea
      refine areaId?_eq_none_iff.2 fun hnew => hold ?_
      refine (h.free name hnew).resolve_right fun hfree => ?_
      rcases hname with hconstant | hin
      · simp [hconstant] at hfree
      · exact hold hin

end SymbolTable

namespace Evaluation

variable {table table' : SymbolTable}

theorem HasValue.grow {name : Text} {value : Option Number} (h : HasValue table name value)
    (hgrows : table.Grows table') : HasValue table' name value := by
  induction h with
  | outside hdeclared hunknown =>
      rw [← hgrows.areaId? hdeclared]
      refine .outside ?_ (by rw [hgrows.constants, hunknown])
      exact hdeclared.imp (fun h => by rw [hgrows.isConstant, h]) fun h => hgrows.areas.subset h
  | constant hknown _ hfolds ih => exact .constant (by rw [hgrows.constants, hknown]) ih hfolds

theorem Assigns.grow {values : Text → Option Number} {refs : List Token}
    (h : Assigns table values refs) (hgrows : table.Grows table') : Assigns table' values refs :=
  fun ref href => (h ref href).grow hgrows

theorem Sound.grow {memo : Memo} (h : Sound table memo) (hgrows : table.Grows table') :
    Sound table' memo :=
  fun name value hvalue => (h name value hvalue).grow hgrows

end Evaluation

end MapScript
