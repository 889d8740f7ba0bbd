import MapScript.Proofs.Symbol.Meaning

/-!
# Searching again

The order in which values are asked for does not matter, whatever was kept before and be it
wrong.  What a search finds is a value that follows from what was kept, there is one such
value of a name at most, and it is found again with fewer or more values found in between.
So a computation that only searches gives the same each time.
-/

namespace MapScript

/-! ### Computations that give the same again -/

section
variable {ε σ α β : Type} {I : σ → Prop} {x : ExceptT ε (StateM σ) α} {a : α}

/-- From every state with the invariant the computation has this result, and the invariant
holds again. -/
def Gives (I : σ → Prop) (x : ExceptT ε (StateM σ) α) (a : α) : Prop :=
  ∀ s, I s → Ends x s (fun b s' => b = a ∧ I s') (fun _ _ => False)

/-- What the computation has as a result once it gives. -/
def Repeatable (I : σ → Prop) (x : ExceptT ε (StateM σ) α) : Prop :=
  ∀ s, I s → Ends x s (fun a _ => Gives I x a) (fun _ _ => True)

theorem Gives.exists_run (h : Gives I x a) {s : σ} (hs : I s) :
    ∃ s', x.run.run s = (.ok a, s') ∧ I s' := by
  cases hrun : x.run.run s with
  | mk outcome s' =>
      cases outcome with
      | error e => exact ((h s hs).of_run_error hrun).elim
      | ok b =>
          obtain ⟨rfl, hs'⟩ := (h s hs).of_run_ok hrun
          exact ⟨s', rfl, hs'⟩

theorem Gives.unique (h : Gives I x a) {a' : α} (h' : Gives I x a') {s : σ} (hs : I s) :
    a = a' := by
  obtain ⟨s₁, hrun, -⟩ := h.exists_run hs
  exact ((h' s hs).of_run_ok hrun).1

theorem Gives.not_throw {e : ε} (h : Gives I (throw e : ExceptT ε (StateM σ) α) a) {s : σ}
    (hs : I s) : False := h s hs

theorem Gives.pure (a : α) : Gives (ε := ε) I (pure a) a := fun _ hs => ⟨rfl, hs⟩

theorem Gives.bind {f : α → ExceptT ε (StateM σ) β} {b : β} (h : Gives I x a)
    (hf : Gives I (f a) b) : Gives I (x >>= f) b := by
  intro s hs
  rw [Ends.bind_iff]
  apply (h s hs).mono
  · rintro _ s₁ ⟨rfl, hs₁⟩
    exact hf s₁ hs₁
  · exact fun _ _ hfalse => hfalse

theorem Repeatable.gives (h : Repeatable I x) {s s' : σ} (hs : I s)
    (hrun : x.run.run s = (.ok a, s')) : Gives I x a := (h s hs).of_run_ok hrun

theorem Repeatable.pure (a : α) : Repeatable (ε := ε) I (pure a) := fun _ _ => .pure a

theorem Repeatable.throw (e : ε) : Repeatable I (throw e : ExceptT ε (StateM σ) α) :=
  fun _ _ => trivial

theorem Repeatable.bind {f : α → ExceptT ε (StateM σ) β} (h : Repeatable I x)
    (hf : ∀ a, Repeatable I (f a)) : Repeatable I (x >>= f) := by
  intro s hs
  rw [Ends.bind_iff]
  refine Ends.of_run ?_ fun _ _ _ => trivial
  intro a s₁ hrun
  have hgives := h.gives hs hrun
  obtain ⟨-, hs₁⟩ := (hgives s hs).of_run_ok hrun
  exact (hf a s₁ hs₁).weaken fun b _ hb => hgives.bind hb

/-- What two computations in a row give, each of them gives its part of. -/
theorem Gives.of_bind {f : α → ExceptT ε (StateM σ) β} {b : β} (h : Gives I (x >>= f) b)
    (hx : Repeatable I x) (hf : ∀ a, Repeatable I (f a)) {s : σ} (hs : I s) :
    ∃ a, Gives I x a ∧ Gives I (f a) b := by
  obtain ⟨s₂, hrun, -⟩ := h.exists_run hs
  rw [Ends.run_bind] at hrun
  cases hfirst : x.run.run s with
  | mk outcome s₁ =>
      rw [hfirst] at hrun
      cases outcome with
      | error e => cases hrun
      | ok a =>
          have ha := hx.gives hs hfirst
          exact ⟨a, ha, (hf a).gives ((ha s hs).of_run_ok hfirst).2 hrun⟩

end

namespace Evaluation

/-- The value of a name that follows from values kept before: one that was kept stands, and
the others are what areas and declarations give. -/
inductive Found (table : SymbolTable) (kept : Memo) : Text → Option Number → Prop
  | kept {name : Text} {value : Option Number}
      (declared : table.isConstant name = true ∨ name ∈ table.areas)
      (known : kept.lookup name = some value) : Found table kept name value
  | outside {name : Text} (declared : table.isConstant name = true ∨ name ∈ table.areas)
      (new : kept.lookup name = none) (unknown : table.constants.lookup name = none) :
      Found table kept name ((table.areaId? name).map Number.int)
  | constant {name : Text} {ds : List Declaration} {values : Text → Option Number}
      {results : List (Option Number)} (new : kept.lookup name = none)
      (known : table.constants.lookup name = some ds)
      (needs : ∀ d ∈ ds, ∀ ref ∈ Operand.references d.operand,
        Found table kept ref.raw (values ref.raw))
      (folds : ds.map (fun d => Expression.fold values (Token.significant d.operand)) =
        results.map .ok) :
      Found table kept name (single results)

variable {table : SymbolTable} {kept : Memo}

theorem Found.declared {name : Text} {value : Option Number} (h : Found table kept name value) :
    table.isConstant name = true ∨ name ∈ table.areas := by
  cases h with
  | kept hdeclared => exact hdeclared
  | outside hdeclared => exact hdeclared
  | constant _ hknown => exact Or.inl (by simp [SymbolTable.isConstant, hknown])

theorem Found.unique {name : Text} {value value' : Option Number}
    (h : Found table kept name value) (h' : Found table kept name value') : value = value' := by
  induction h generalizing value' with
  | kept _ hkept =>
      cases h' with
      | kept _ hkept' => exact Option.some.inj (hkept.symm.trans hkept')
      | outside _ hnew | constant hnew => simp [hnew] at hkept
  | outside _ hnew hunknown =>
      cases h' with
      | kept _ hkept => simp [hnew] at hkept
      | outside => rfl
      | constant _ hknown => simp [hunknown] at hknown
  | @constant name ds values results hnew hknown _ hfolds ih =>
      cases h' with
      | kept _ hkept => simp [hnew] at hkept
      | outside _ _ hunknown => simp [hunknown] at hknown
      | @constant _ ds' values' results' _ hknown' hneeds' hfolds' =>
          obtain rfl : ds = ds' := Option.some.inj (hknown.symm.trans hknown')
          have hsame : results.map (Except.ok (ε := Fault)) = results'.map .ok := by
            rw [← hfolds, ← hfolds']
            apply List.map_congr_left
            intro d hd
            apply fold_congr_of_references
            intro ref href
            exact ih d hd ref href (hneeds' d hd ref href)
          have hinjective : Function.Injective (Except.ok (ε := Fault) (α := Option Number)) :=
            fun _ _ h => Except.ok.inj h
          rw [List.map_injective_iff.2 hinjective hsame]

/-- The memo holds what was kept, and besides only what is found. -/
structure Recalls (table : SymbolTable) (kept memo : Memo) : Prop where
  keeps : ∀ name value, kept.lookup name = some value → memo.lookup name = some value
  finds : ∀ name value, kept.lookup name = none → memo.lookup name = some value →
    Found table kept name value

theorem Recalls.refl (table : SymbolTable) (kept : Memo) : Recalls table kept kept where
  keeps := fun _ _ h => h
  finds := fun _ _ hnone hsome => by simp [hnone] at hsome

theorem Recalls.found {memo : Memo} (h : Recalls table kept memo) {name : Text}
    {value : Option Number} (hdeclared : table.isConstant name = true ∨ name ∈ table.areas)
    (hvalue : memo.lookup name = some value) : Found table kept name value := by
  cases hkept : kept.lookup name with
  | none => exact h.finds name value hkept hvalue
  | some old =>
      obtain rfl : value = old := Option.some.inj (hvalue.symm.trans (h.keeps name old hkept))
      exact .kept hdeclared hkept

theorem Recalls.new {memo : Memo} (h : Recalls table kept memo) {name : Text}
    (hnone : memo.lookup name = none) : kept.lookup name = none := by
  cases hkept : kept.lookup name with
  | none => rfl
  | some old => simp [h.keeps name old hkept] at hnone

theorem Recalls.append {memo : Memo} (h : Recalls table kept memo) {name : Text}
    {value : Option Number} (hvalue : Found table kept name value) :
    Recalls table kept (memo ++ [(name, value)]) where
  keeps := by
    intro other found hfound
    rw [List.lookup_append, h.keeps other found hfound, Option.some_or]
  finds := by
    intro other found hnew hfound
    rw [List.lookup_append] at hfound
    cases hmemo : memo.lookup other with
    | some old =>
        rw [hmemo, Option.some_or, Option.some.injEq] at hfound
        exact h.finds other found hnew (by rw [hmemo, hfound])
    | none =>
        rw [hmemo, Option.none_or, List.lookup_cons] at hfound
        cases hname : other == name with
        | false => simp [hname] at hfound
        | true =>
            rw [hname] at hfound
            cases hfound
            rw [eq_of_beq hname]
            exact hvalue

open Classical in
/-- The value that is found of a name, if there is one. -/
noncomputable def foundValue (table : SymbolTable) (kept : Memo) (name : Text) : Option Number :=
  if h : ∃ value, Found table kept name value then h.choose else none

theorem Found.foundValue_eq {name : Text} {value : Option Number}
    (h : Found table kept name value) : foundValue table kept name = value := by
  have hexists : ∃ value, Found table kept name value := ⟨value, h⟩
  rw [foundValue, dif_pos hexists]
  exact hexists.choose_spec.unique h

/-- Every one of the names has a value that is found. -/
def Finds (table : SymbolTable) (kept : Memo) (refs : List Token) : Prop :=
  ∀ ref ∈ refs, Found table kept ref.raw (foundValue table kept ref.raw)

theorem Finds.fold_eq {values : Text → Option Number} {operand : List Token}
    (h : ∀ ref ∈ Operand.references operand, Found table kept ref.raw (values ref.raw)) :
    Expression.fold values (Token.significant operand) =
      Expression.fold (foundValue table kept) (Token.significant operand) :=
  fold_congr_of_references fun ref href => (h ref href).foundValue_eq.symm

/-- A search finds the values of its names and keeps them. -/
theorem search_recalls (table : SymbolTable) (kept : Memo) :
    (∀ stack refs memo, Recalls table kept memo → Ends (valuesOf table stack refs) memo
      (fun values memo' => Recalls table kept memo' ∧
        ∀ ref ∈ refs, Found table kept ref.raw (valuation values ref.raw))
      (fun _ _ => True)) ∧
    (∀ stack ref memo, Recalls table kept memo → Ends (valueOf table stack ref) memo
      (fun value memo' => Recalls table kept memo' ∧ Found table kept ref.raw value)
      (fun _ _ => True)) ∧
    (∀ stack name declarations memo, Recalls table kept memo →
      Ends (foldAll table stack name declarations) memo
        (fun results memo' => Recalls table kept memo' ∧
          (∀ d ∈ declarations, Finds table kept (Operand.references d.operand)) ∧
          declarations.map (fun d => Expression.fold (foundValue table kept)
            (Token.significant d.operand)) = results.map .ok)
        (fun _ _ => True)) := by
  apply valuesOf.mutual_induct table
  case case1 =>
    intro stack memo hmemo
    rw [valuesOf]
    exact ⟨hmemo, by simp⟩
  case case2 =>
    intro stack ref rest href hrest memo hmemo
    rw [valuesOf]
    simp only [Ends.bind_iff, Ends.pure_iff]
    apply (href memo hmemo).weaken
    rintro value memo₁ ⟨hmemo₁, hvalue⟩
    apply (hrest memo₁ hmemo₁).weaken
    rintro values memo₂ ⟨hmemo₂, hvalues⟩
    refine ⟨hmemo₂, fun r hr => ?_⟩
    rw [valuation, List.lookup_cons]
    cases hname : r.raw == ref.raw with
    | true =>
        rw [eq_of_beq hname]
        exact hvalue
    | false =>
        rcases List.mem_cons.1 hr with rfl | hr
        · simp at hname
        · exact hvalues r hr
  case case3 =>
    intro stack ref ih memo hmemo
    rw [valueOf]
    simp only [Ends.bind_iff, Ends.lift_iff, Ends.get_iff]
    refine ⟨?_, fun _ _ => trivial⟩
    rintro ⟨⟩ hrequire
    have hdeclared := require_ok_iff.1 hrequire
    split
    · next value hvalue => exact ⟨hmemo, hmemo.found hdeclared hvalue⟩
    next hnone =>
    split
    · next hunknown => exact ⟨hmemo, .outside hdeclared (hmemo.new hnone) hunknown⟩
    next declarations hknown =>
      split
      · next hfresh =>
        simp only [Ends.bind_iff, Ends.modify_iff, Ends.pure_iff]
        apply (ih declarations hknown hfresh memo hmemo).weaken
        rintro results memo₁ ⟨hmemo₁, hneeds, hfolds⟩
        have hvalue : Found table kept ref.raw (single results) :=
          .constant (hmemo.new hnone) hknown hneeds hfolds
        exact ⟨hmemo₁.append hvalue, hvalue⟩
      · trivial
  case case4 =>
    intro stack name memo hmemo
    rw [foldAll]
    exact ⟨hmemo, by simp, rfl⟩
  case case5 =>
    intro stack name d rest hvalues hrest memo hmemo
    rw [foldAll]
    simp only [Ends.bind_iff, Ends.pure_iff]
    apply (hvalues memo hmemo).weaken
    rintro values memo₁ ⟨hmemo₁, hfound⟩
    rw [foldExpression_ends_iff]
    refine ⟨fun value hvalue => ?_, fun _ _ => trivial⟩
    apply (hrest memo₁ hmemo₁).weaken
    rintro results memo₂ ⟨hmemo₂, hfinds, hfolds⟩
    refine ⟨hmemo₂, List.forall_mem_cons.2 ⟨?_, hfinds⟩, ?_⟩
    · intro ref href
      rw [(hfound ref href).foundValue_eq]
      exact hfound ref href
    · rw [List.map_cons, ← Finds.fold_eq hfound, hvalue, hfolds, List.map_cons]

/-! ### Searches that succeed again -/

/-- A constant whose value was not kept refers to the names in its declarations. -/
def RefersAnew (table : SymbolTable) (kept : Memo) (c d : Text) : Prop :=
  kept.lookup c = none ∧ Refers table c d

/-- A name whose value is found does not need itself. -/
theorem Found.not_refers_self {name : Text} {value : Option Number}
    (h : Found table kept name value) :
    ¬ Relation.TransGen (RefersAnew table kept) name name := by
  have hacc : Acc (fun d c => RefersAnew table kept c d) name := by
    induction h with
    | kept _ hkept =>
        constructor
        rintro d ⟨hnew, -⟩
        simp [hnew] at hkept
    | outside _ _ hunknown =>
        constructor
        rintro d ⟨-, ds, hknown, -⟩
        simp [hunknown] at hknown
    | constant _ hknown _ _ ih =>
        constructor
        rintro d ⟨-, ds, hknown', declaration, hmem, ref, href, rfl⟩
        obtain rfl := Option.some.inj (hknown.symm.trans hknown')
        exact ih declaration hmem ref href
  replace hacc := hacc.transGen
  rw [← Relation.transGen_swap]
  clear h
  induction hacc with
  | intro a _ ih =>
      intro hself
      exact ih a hself hself

/-- From a memo that recalls what was kept the computation has a result. -/
def SucceedsAgain {α : Type} (table : SymbolTable) (kept : Memo) (x : Evaluation α) : Prop :=
  ∀ memo, Recalls table kept memo → Ends x memo (fun _ _ => True) (fun _ _ => False)

theorem valuesOf_succeedsAgain {stack : List Frame} {refs : List Token}
    (h : ∀ ref ∈ refs, SucceedsAgain table kept (valueOf table stack ref)) :
    SucceedsAgain table kept (valuesOf table stack refs) := by
  induction refs with
  | nil =>
      intro memo _
      rw [valuesOf]
      trivial
  | cons ref refs ih =>
      intro memo hmemo
      rw [List.forall_mem_cons] at h
      rw [valuesOf]
      simp only [Ends.bind_iff, Ends.pure_iff]
      apply ((h.1 memo hmemo).and ((search_recalls table kept).2.1 stack ref memo hmemo)).mono
      · rintro value memo₁ ⟨-, hmemo₁, -⟩
        exact ih h.2 memo₁ hmemo₁
      · rintro e memo₁ ⟨hfalse, -⟩
        exact hfalse

/-- An operand is folded again to what its expression gives. -/
theorem fold_gives {stack : List Frame} {operand : List Token} {value : Option Number}
    (hfold : Expression.fold (foundValue table kept) (Token.significant operand) = .ok value)
    (h : ∀ ref ∈ Operand.references operand,
      SucceedsAgain table kept (valueOf table stack ref)) :
    Gives (Recalls table kept) (fold table stack operand) value := by
  intro memo hmemo
  rw [fold, Ends.bind_iff]
  apply ((valuesOf_succeedsAgain h memo hmemo).and
    ((search_recalls table kept).1 stack _ memo hmemo)).mono
  · rintro values memo₁ ⟨-, hmemo₁, hfound⟩
    rw [foldExpression_ends_iff, Finds.fold_eq hfound, hfold]
    simp [hmemo₁]
  · rintro e memo₁ ⟨hfalse, -⟩
    exact hfalse

theorem foldAll_succeedsAgain {stack : List Frame} {name : Text} {ds : List Declaration}
    {results : List (Option Number)}
    (hfolds : ds.map (fun d => Expression.fold (foundValue table kept)
      (Token.significant d.operand)) = results.map .ok)
    (h : ∀ d ∈ ds, ∀ ref ∈ Operand.references d.operand,
      SucceedsAgain table kept (valueOf table (stack ++ [⟨name, d.span⟩]) ref)) :
    SucceedsAgain table kept (foldAll table stack name ds) := by
  induction ds generalizing results with
  | nil =>
      intro memo _
      rw [foldAll]
      trivial
  | cons d ds ih =>
      intro memo hmemo
      rw [List.map_cons] at hfolds
      obtain ⟨value, results, rfl, hvalue, hrest⟩ := List.map_eq_cons_iff.1 hfolds.symm
      rw [List.forall_mem_cons] at h
      rw [foldAll_eq_fold]
      simp only [Ends.bind_iff, Ends.pure_iff]
      apply (fold_gives hvalue.symm h.1 memo hmemo).weaken
      rintro found memo₁ ⟨-, hmemo₁⟩
      exact ih hrest.symm h.2 memo₁ hmemo₁

/-- A value is found again if it does not need what is on the stack. -/
theorem Found.succeedsAgain {name : Text} {value : Option Number} (h : Found table kept name value)
    {ref : Token} (href : ref.raw = name) {stack : List Frame}
    (hstack : ∀ f ∈ stack, ¬ Relation.ReflTransGen (RefersAnew table kept) name f.name) :
    SucceedsAgain table kept (valueOf table stack ref) := by
  intro memo hmemo
  induction h generalizing ref stack memo with
  | @kept name value hdeclared hkept =>
      subst href
      rw [valueOf]
      simp only [Ends.bind_iff, Ends.lift_iff, Ends.get_iff, require_ok_iff.2 hdeclared,
        hmemo.keeps _ _ hkept]
      simp
  | outside hdeclared _ hunknown =>
      subst href
      rw [valueOf]
      simp only [Ends.bind_iff, Ends.lift_iff, Ends.get_iff, require_ok_iff.2 hdeclared]
      refine ⟨fun _ _ => ?_, by simp⟩
      split
      · trivial
      split
      · trivial
      · next hknown => simp [hunknown] at hknown
  | @constant name ds values results hnew hknown hneeds hfolds ih =>
      subst href
      have hself := (Found.constant hnew hknown hneeds hfolds).not_refers_self
      have hdeclared := (Found.constant hnew hknown hneeds hfolds).declared
      have hresults : ds.map (fun d => Expression.fold (foundValue table kept)
          (Token.significant d.operand)) = results.map .ok := by
        rw [← hfolds]
        exact List.map_congr_left fun d hd => (Finds.fold_eq (hneeds d hd)).symm
      rw [valueOf]
      simp only [Ends.bind_iff, Ends.lift_iff, Ends.get_iff, require_ok_iff.2 hdeclared]
      refine ⟨fun _ _ => ?_, by simp⟩
      split
      · trivial
      split
      · trivial
      next ds' hknown' =>
      obtain rfl := Option.some.inj (hknown.symm.trans hknown')
      split
      · simp only [Ends.bind_iff, Ends.modify_iff, Ends.pure_iff]
        refine foldAll_succeedsAgain hresults ?_ memo hmemo
        intro d hd r hr memo' hmemo'
        have hrefers : RefersAnew table kept ref.raw r.raw :=
          ⟨hnew, ds, hknown, d, hd, r, hr, rfl⟩
        refine ih d hd r hr rfl ?_ memo' hmemo'
        -- what the reference needs the constant needs, and the constant does not need itself
        intro f hf hreach
        rcases List.mem_append.1 hf with hf | hf
        · exact hstack f hf (.head hrefers hreach)
        · rw [List.mem_singleton.1 hf] at hreach
          exact hself (Relation.TransGen.head' hrefers hreach)
      · next hentered =>
        rw [Bool.not_eq_false, List.contains_iff_mem] at hentered
        obtain ⟨f, hf, hname⟩ := List.mem_map.1 hentered
        exact hstack f hf (hname ▸ .refl)

/-- The names in an operand have values that are found, and its expression this one. -/
structure OperandFound (table : SymbolTable) (kept : Memo) (operand : List Token)
    (value : Option Number) : Prop where
  finds : Finds table kept (Operand.references operand)
  folds : Expression.fold (foundValue table kept) (Token.significant operand) = .ok value

theorem fold_found {memo : Memo} (hmemo : Recalls table kept memo) (operand : List Token) :
    Ends (fold table [] operand) memo (fun value _ => OperandFound table kept operand value)
      (fun _ _ => True) := by
  rw [fold, Ends.bind_iff]
  apply ((search_recalls table kept).1 [] _ memo hmemo).weaken
  rintro values memo₁ ⟨-, hfound⟩
  rw [foldExpression_ends_iff, Finds.fold_eq hfound]
  refine ⟨fun value hvalue => ⟨fun ref href => ?_, hvalue⟩, fun _ _ => trivial⟩
  rw [(hfound ref href).foundValue_eq]
  exact hfound ref href

/-- An operand that is folded once is folded to the same each time. -/
theorem OperandFound.gives {operand : List Token} {value : Option Number}
    (h : OperandFound table kept operand value) :
    Gives (Recalls table kept) (fold table [] operand) value :=
  fold_gives h.folds fun ref href => (h.finds ref href).succeedsAgain rfl (by simp)

/-! ### Other values in the table -/

theorem Found.of_values {name : Text} {value : Option Number} (h : Found table kept name value)
    (memo : Memo) : Found { table with values := memo } kept name value := by
  induction h with
  | kept hdeclared hkept => exact .kept hdeclared hkept
  | outside hdeclared hnew hunknown =>
      exact @Found.outside { table with values := memo } _ _ hdeclared hnew hunknown
  | constant hnew hknown _ hfolds ih =>
      exact @Found.constant { table with values := memo } _ _ _ _ _ hnew hknown ih hfolds

/-- What is found follows from what was kept, not from what the table holds now. -/
theorem found_values (table : SymbolTable) (kept memo : Memo) :
    Found { table with values := memo } kept = Found table kept := by
  funext name value
  exact propext ⟨fun h => h.of_values table.values, fun h => h.of_values memo⟩

theorem Recalls.of_values {memo : Memo} (h : Recalls table kept memo) (memo' : Memo) :
    Recalls { table with values := memo' } kept memo := by
  refine ⟨h.keeps, ?_⟩
  rw [found_values]
  exact h.finds

theorem OperandFound.of_values {operand : List Token} {value : Option Number}
    (h : OperandFound table kept operand value) (memo : Memo) :
    OperandFound { table with values := memo } kept operand value := by
  have hvalues : foundValue { table with values := memo } kept = foundValue table kept := by
    funext name
    rw [foundValue, foundValue, found_values]
  refine ⟨?_, ?_⟩
  · rw [Finds, found_values, hvalues]
    exact h.finds
  · rw [hvalues]
    exact h.folds

end Evaluation

end MapScript
