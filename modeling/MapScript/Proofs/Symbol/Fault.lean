import MapScript.Expansion
import MapScript.Proofs.Symbol.Coherence

/-!
# Where arithmetic has no result

A fault has a place in the script: an expression without a result, a number that is
too long to be written, or a layout that cannot be computed, each in a table in which
names have their values.  A search has no faults of its own, and a script that halts
on a fault while it is resolved halts in one of these places.
-/

namespace MapScript

namespace Evaluation

variable {table : SymbolTable}

/-- What comes of an operand in which names have their values. -/
def Yields (table : SymbolTable) (operand : List Token) (outcome : Except Fault (Option Number)) :
    Prop :=
  ∃ values, Assigns table values (Operand.references operand) ∧
    Expression.fold values (Token.significant operand) = outcome

/-- The operand is that of a constant. -/
def Declares (table : SymbolTable) (operand : List Token) : Prop :=
  ∃ name ds d, table.constants.lookup name = some ds ∧ d ∈ ds ∧ d.operand = operand

/-- A fault is that of one of the operands, or of a constant. -/
def Blames (table : SymbolTable) (operands : List (List Token)) (e : Failure) : Prop :=
  ∀ f, e = .fault f → ∃ operand, (operand ∈ operands ∨ Declares table operand) ∧
    Yields table operand (.error f)

theorem Blames.report (table : SymbolTable) (operands : List (List Token)) (r : Report) :
    Blames table operands (.report r) := by
  intro f hf
  cases hf

theorem Blames.mono {operands operands' : List (List Token)} {e : Failure}
    (h : Blames table operands e)
    (hsub : ∀ operand ∈ operands, operand ∈ operands' ∨ Declares table operand) :
    Blames table operands' e := by
  intro f hf
  obtain ⟨operand, hmem, hyields⟩ := h f hf
  exact ⟨operand, hmem.elim (hsub operand) Or.inr, hyields⟩

theorem foldExpression_blames {values : Memo} {operand : List Token}
    (hassigns : Assigns table (valuation values) (Operand.references operand)) (memo : Memo) :
    Ends (foldExpression values operand) memo (fun _ memo' => memo' = memo)
      (fun e _ => Blames table [operand] e) := by
  rw [foldExpression_ends_iff]
  refine ⟨fun value _ => rfl, ?_⟩
  rintro f hfold f' ⟨⟩
  exact ⟨operand, Or.inl (List.mem_singleton.2 rfl), _, hassigns, hfold⟩

/-- A search fails by a fault only in an operand all of whose names have values. -/
theorem search_blames (table : SymbolTable) :
    (∀ stack refs memo, Sound table memo → Ends (valuesOf table stack refs) memo
      (fun _ _ => True) (fun e _ => Blames table [] e)) ∧
    (∀ stack ref memo, Sound table memo → Ends (valueOf table stack ref) memo
      (fun _ _ => True) (fun e _ => Blames table [] e)) ∧
    (∀ stack name declarations memo, Sound table memo →
      Ends (foldAll table stack name declarations) memo
        (fun _ _ => True) (fun e _ => Blames table (declarations.map Declaration.operand) e)) := by
  have hsound := search_sound table
  apply valuesOf.mutual_induct table
  case case1 =>
    intro stack memo _
    rw [valuesOf]
    trivial
  case case2 =>
    intro stack ref rest href hrest memo hmemo
    rw [valuesOf]
    simp only [Ends.bind_iff, Ends.pure_iff]
    apply ((href memo hmemo).and (hsound.2.1 stack ref memo hmemo)).mono
    · rintro value memo₁ ⟨-, hmemo₁, -⟩
      exact hrest memo₁ hmemo₁
    · rintro e memo₁ ⟨hblames, -⟩
      exact hblames
  case case3 =>
    intro stack ref ih memo hmemo
    rw [valueOf]
    simp only [Ends.bind_iff, Ends.lift_iff, Ends.get_iff]
    constructor
    · rintro ⟨⟩ -
      split
      · trivial
      split
      · trivial
      next declarations hknown =>
        split
        · next hfresh =>
          simp only [Ends.bind_iff, Ends.modify_iff, Ends.pure_iff]
          apply (ih declarations hknown hfresh memo hmemo).mono
          · intro results memo₁ _
            trivial
          · intro e memo₁ hblames
            -- the declarations that are folded are those of the name
            apply hblames.mono
            intro operand hoperand
            obtain ⟨d, hd, rfl⟩ := List.mem_map.1 hoperand
            exact Or.inr ⟨ref.raw, declarations, d, hknown, hd, rfl⟩
        · rw [Ends.throw_iff, cycle]
          split <;> exact .report table [] _
    · intro e he
      obtain ⟨r, rfl, -⟩ := Resolve.require_error he
      exact .report table [] r
  case case4 =>
    intro stack name memo _
    rw [foldAll]
    trivial
  case case5 =>
    intro stack name d rest hvalues hrest memo hmemo
    rw [foldAll]
    simp only [Ends.bind_iff, Ends.pure_iff]
    apply ((hvalues memo hmemo).and (hsound.1 _ _ memo hmemo)).mono
    · rintro values memo₁ ⟨-, hmemo₁, hassigns⟩
      apply (foldExpression_blames hassigns memo₁).mono
      · rintro value memo₂ rfl
        apply (hrest memo₂ hmemo₁).mono
        · intro results memo₃ _
          trivial
        · intro e memo₃ hblames
          exact hblames.mono fun operand hoperand => Or.inl (List.mem_cons_of_mem _ hoperand)
      · intro e memo₂ hblames
        exact hblames.mono fun operand hoperand => Or.inl (by simp_all)
    · rintro e memo₁ ⟨hblames, -⟩
      exact hblames.mono (by simp)

theorem fold_blames {memo : Memo} (hmemo : Sound table memo) (stack : List Frame)
    (operand : List Token) :
    Ends (fold table stack operand) memo (fun _ _ => True)
      (fun e _ => Blames table [operand] e) := by
  rw [fold, Ends.bind_iff]
  apply (((search_blames table).1 stack _ memo hmemo).and
    ((search_sound table).1 stack _ memo hmemo)).mono
  · rintro values memo₁ ⟨-, -, hassigns⟩
    apply (foldExpression_blames hassigns memo₁).weaken
    intro value memo₂ _
    trivial
  · rintro e memo₁ ⟨hblames, -⟩
    exact hblames.mono (by simp)

theorem single_eq_some {results : List (Option Number)} {v : Number}
    (h : single results = some v) : results = [some v] := by
  match results with
  | [value] => exact congrArg (fun value => [value]) h

/-- A value of a constant is that of a declaration. -/
theorem HasValue.yields {name : Text} {v : Number} (h : HasValue table name (some v))
    {ds : List Declaration} (hknown : table.constants.lookup name = some ds) :
    ∃ d ∈ ds, Yields table d.operand (.ok (some v)) := by
  obtain ⟨value, hvalue⟩ : ∃ value, value = some v := ⟨_, rfl⟩
  rw [← hvalue] at h
  cases h with
  | outside _ hunknown => simp [hunknown] at hknown
  | @constant _ _ values results hknown' hneeds hfolds =>
      obtain rfl := Option.some.inj (hknown.symm.trans hknown')
      rw [single_eq_some hvalue] at hfolds
      obtain ⟨d, rest, rfl, hfold, -⟩ := List.map_eq_cons_iff.1 hfolds
      exact ⟨d, List.mem_cons_self, values, hneeds d List.mem_cons_self, hfold⟩

/-- The values found so far do not count for those of names. -/
theorem HasValue.with_values {name : Text} {value : Option Number} (h : HasValue table name value)
    (memo : Memo) : HasValue { table with values := memo } name value := by
  induction h with
  | outside hdeclared hunknown =>
      exact @HasValue.outside { table with values := memo } _ hdeclared hunknown
  | constant hknown _ hfolds ih =>
      exact @HasValue.constant { table with values := memo } _ _ _ _ hknown ih hfolds

theorem Yields.of_values {operand : List Token} {outcome : Except Fault (Option Number)}
    {memo : Memo} (h : Yields { table with values := memo } operand outcome) :
    Yields table operand outcome := by
  obtain ⟨values, hassigns, hfold⟩ := h
  exact ⟨values, fun ref href => (hassigns ref href).with_values table.values, hfold⟩

end Evaluation

open Evaluation (Yields Declares Sound)

/-- The places of a fault, among operands and calls whose names a table has. -/
inductive Fault.Arises (table : SymbolTable) (operands : List (List Token))
    (calls : List (Text × List (List Token))) (f : Fault) : Prop
  /-- An expression has no result. -/
  | expression {operand : List Token} (mem : operand ∈ operands)
      (fails : Yields table operand (.error f))
  /-- The number of an area is too long. -/
  | area {name : Text} {number : Int} (numbered : table.areaId? name = some number)
      (long : Number.writeInt number = .error f)
  /-- A value is too long. -/
  | value {operand : List Token} {v : Number} (mem : operand ∈ operands)
      (yields : Yields table operand (.ok (some v))) (long : v.format = .error f)
  /-- A count is too long. -/
  | count {operand : List Token} {v : Number} {n : Int} (mem : operand ∈ operands)
      (yields : Yields table operand (.ok (some v))) (integral : v.asInt? = some n)
      (long : Number.writeInt n = .error f)
  /-- The points of a pattern cannot be computed. -/
  | layout {name : Text} {arg : List Token} {args : List (List Token)} {pattern : Pattern}
      {v : Number} {count : Int} {values : List Number} (call : (name, arg :: args) ∈ calls)
      (named : Pattern.ofName? name = some pattern) (first : Yields table arg (.ok (some v)))
      (positive : Expansion.positive? v = some count)
      (others : List.Forall₂ (fun arg value => Yields table arg (.ok (some value))) args values)
      (fails : pattern.points count values = .error f)

namespace Resolve

variable {scope : Scope} {table table' : SymbolTable} {operands : List (List Token)}
  {calls : List (Text × List (List Token))}

/-- Resolving stops on a fault only where one arises. -/
theorem Stops.arises {f : Fault} (h : Stops scope table (.fault f))
    (hsound : Sound table table.values)
    (hentries : ∀ entry ∈ scope.entries, entry.2.operand ∈ operands)
    (hdeclared : ∀ operand, Declares table operand → operand ∈ operands) :
    f.Arises table operands calls := by
  cases h with
  | @search entry _ memo hmem hfailed =>
      obtain ⟨operand, hoperand, hyields⟩ := (Evaluation.fold_blames hsound
        [⟨entry.1, entry.2.span⟩] entry.2.operand).of_run_error hfailed f rfl
      refine .expression ?_ hyields
      rcases hoperand with hself | hother
      · rw [List.mem_singleton.1 hself]
        exact hentries entry hmem
      · exact hdeclared operand hother
  | longArea hnumber hlong => exact .area hnumber hlong
  | @longValue entry value memo _ hmem hfound hlong =>
      obtain ⟨-, hyields⟩ := (Evaluation.fold_sound hsound
        [⟨entry.1, entry.2.span⟩] entry.2.operand).of_run_ok hfound
      exact .value (hentries entry hmem) hyields hlong

end Resolve

end MapScript
