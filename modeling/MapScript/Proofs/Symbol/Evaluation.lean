import MapScript.Proofs.Division
import MapScript.Proofs.Outcome

/-!
# What the search for values keeps and finds

A search only adds values.  If it succeeds, every name it was asked for is
declared, and each one that is a constant of the script has its value among
those found.  If it fails, a name is declared nowhere, constants need each other
in a circle, or a value is beyond its format.  Once the names in all declarations
have been found, a further search meets none of the first two.
-/

namespace MapScript

namespace Memo

variable {memo memo' : Memo} {name : Text}

/-- A value that was found stays. -/
theorem lookup_later {value : Option Number} (h : memo <+: memo')
    (hname : memo.lookup name = some value) : memo'.lookup name = some value := by
  obtain ⟨added, rfl⟩ := h
  rw [List.lookup_append, hname]
  rfl

theorem isSome_lookup_later (h : memo <+: memo') (hname : (memo.lookup name).isSome) :
    (memo'.lookup name).isSome := by
  obtain ⟨value, hvalue⟩ := Option.isSome_iff_exists.1 hname
  rw [lookup_later h hvalue]
  rfl

end Memo

namespace Evaluation

/-- A name passes if it is a constant or an area. -/
theorem require_ok_iff {table : SymbolTable} {ref : Token} :
    require table ref = .ok () ↔ table.isConstant ref.raw = true ∨ ref.raw ∈ table.areas := by
  unfold require
  by_cases h : (table.isConstant ref.raw || table.areas.contains ref.raw) = true
  · simp only [h, if_true, true_iff]
    simpa using h
  · simp only [h]
    simpa using h

/-- The name is declared, and its value is found if it is a constant of the script. -/
def Known (table : SymbolTable) (memo : Memo) (ref : Token) : Prop :=
  require table ref = .ok () ∧
    ((table.constants.lookup ref.raw).isSome → (memo.lookup ref.raw).isSome)

theorem Known.mono {table : SymbolTable} {memo memo' : Memo} {ref : Token}
    (h : Known table memo ref) (hmemo : memo <+: memo') : Known table memo' ref :=
  ⟨h.1, fun hconstant => Memo.isSome_lookup_later hmemo (h.2 hconstant)⟩

/-- The kinds of failure of a search for values. -/
def searchErrors : List ErrorKind := [.unresolved, .cyclic]

theorem require_only {table : SymbolTable} {ref : Token} {e : Failure}
    (h : require table ref = .error e) : e.Only searchErrors := by
  unfold require at h
  split at h
  · simp at h
  · cases h
    exact .refuse (by simp [Cause.kind, searchErrors])

theorem cycle_only (stack : List Frame) (name : Text) : (cycle stack name).Only searchErrors := by
  unfold cycle
  split <;> simp [Failure.Only, Failure.refuse, Cause.kind, searchErrors]

theorem foldExpression_ends (values : Memo) (operand : List Token) (memo : Memo)
    (kinds : List ErrorKind) :
    Ends (foldExpression values operand) memo
      (fun value memo' => memo' = memo ∧
        ∃ lookup, Expression.fold lookup (Token.significant operand) = .ok value)
      (fun e memo' => memo' = memo ∧ e.Only kinds) := by
  have hdivides := Expression.fold_divides (fun name => (values.lookup name).join)
    (Token.significant operand)
  unfold foldExpression
  split
  · next value hvalue => exact ⟨rfl, _, hvalue⟩
  · next fault hfault =>
    refine ⟨rfl, ?_⟩
    intro hzero
    exact hdivides (by rw [hfault, hzero])

/-- A search adds values only and knows the names it was asked for. -/
theorem search_ends (table : SymbolTable) :
    (∀ stack refs memo, Ends (valuesOf table stack refs) memo
      (fun _ memo' => memo <+: memo' ∧ ∀ ref ∈ refs, Known table memo' ref)
      (fun e memo' => memo <+: memo' ∧ e.Only searchErrors)) ∧
    (∀ stack ref memo, Ends (valueOf table stack ref) memo
      (fun _ memo' => memo <+: memo' ∧ Known table memo' ref)
      (fun e memo' => memo <+: memo' ∧ e.Only searchErrors)) ∧
    (∀ stack name declarations memo, Ends (foldAll table stack name declarations) memo
      (fun _ memo' => memo <+: memo')
      (fun e memo' => memo <+: memo' ∧ e.Only searchErrors)) := by
  apply valuesOf.mutual_induct table
  case case1 =>
    intro stack memo
    rw [valuesOf]
    exact ⟨List.prefix_rfl, by simp⟩
  case case2 =>
    intro stack ref rest href hrest memo
    rw [valuesOf]
    simp only [Ends.bind_iff, Ends.pure_iff]
    apply (href memo).weaken
    rintro value memo₁ ⟨hgrow₁, hknown₁⟩
    apply (hrest memo₁).mono
    · rintro values memo₂ ⟨hgrow₂, hknown₂⟩
      refine ⟨hgrow₁.trans hgrow₂, ?_⟩
      intro r hr
      rcases List.mem_cons.1 hr with rfl | hr
      · exact hknown₁.mono hgrow₂
      · exact hknown₂ r hr
    · rintro e memo₂ ⟨hgrow₂, he⟩
      exact ⟨hgrow₁.trans hgrow₂, he⟩
  case case3 =>
    intro stack ref ih memo
    rw [valueOf]
    simp only [Ends.bind_iff, Ends.lift_iff, Ends.get_iff]
    refine ⟨?_, fun e he => ⟨List.prefix_rfl, require_only he⟩⟩
    rintro ⟨⟩ hrequire
    split
    · next value hvalue => exact ⟨List.prefix_rfl, hrequire, fun _ => by simp [hvalue]⟩
    split
    · next hnone => exact ⟨List.prefix_rfl, hrequire, fun h => by simp [hnone] at h⟩
    next declarations hknown =>
      split
      · next hfresh =>
        simp only [Ends.bind_iff, Ends.modify_iff, Ends.pure_iff]
        apply (ih declarations hknown hfresh memo).weaken
        intro results memo₁ hgrow
        refine ⟨hgrow.trans (List.prefix_append _ _), hrequire, fun _ => ?_⟩
        rw [List.lookup_append]
        cases memo₁.lookup ref.raw <;> simp
      · exact ⟨List.prefix_rfl, cycle_only stack ref.raw⟩
  case case4 =>
    intro stack name memo
    rw [foldAll]
    exact List.prefix_rfl
  case case5 =>
    intro stack name d rest hvalues hrest memo
    rw [foldAll]
    simp only [Ends.bind_iff, Ends.pure_iff]
    apply (hvalues memo).weaken
    rintro values memo₁ ⟨hgrow₁, -⟩
    apply (foldExpression_ends values d.operand memo₁ searchErrors).mono
    · rintro value memo₂ ⟨rfl, -⟩
      apply (hrest memo₂).mono
      · intro results memo₃ hgrow₂
        exact hgrow₁.trans hgrow₂
      · rintro e memo₃ ⟨hgrow₂, he⟩
        exact ⟨hgrow₁.trans hgrow₂, he⟩
    · rintro e memo₂ ⟨rfl, he⟩
      exact ⟨hgrow₁, he⟩

/-- The value of an operand is that of an expression, and its names are known then. -/
theorem fold_ends (table : SymbolTable) (stack : List Frame) (operand : List Token) (memo : Memo) :
    Ends (fold table stack operand) memo
      (fun value memo' => memo <+: memo' ∧
        (∀ ref ∈ Operand.references operand, Known table memo' ref) ∧
        ∃ lookup, Expression.fold lookup (Token.significant operand) = .ok value)
      (fun e memo' => memo <+: memo' ∧ e.Only searchErrors) := by
  unfold fold
  rw [Ends.bind_iff]
  apply ((search_ends table).1 stack (Operand.references operand) memo).weaken
  rintro values memo₁ ⟨hgrow, hknown⟩
  apply (foldExpression_ends values operand memo₁ searchErrors).mono
  · rintro value memo₂ ⟨rfl, hvalue⟩
    exact ⟨hgrow, hknown, hvalue⟩
  · rintro e memo₂ ⟨rfl, he⟩
    exact ⟨hgrow, he⟩

theorem check_only {table : SymbolTable} {operand : List Token} {e : Failure}
    (h : check table operand = .error e) : e.Only searchErrors := by
  obtain ⟨ref, -, href⟩ := forM_eq_error h
  exact require_only href

/-- An operand passes if its names are declared. -/
theorem check_ok_iff {table : SymbolTable} {operand : List Token} :
    check table operand = .ok () ↔
      ∀ ref ∈ Operand.references operand, require table ref = .ok () := forM_eq_ok_iff

/-! ### Searches after all declarations -/

/-- Every name in a declaration is known. -/
def Settled (table : SymbolTable) (memo : Memo) : Prop :=
  ∀ entry ∈ table.constants, ∀ d ∈ entry.2, ∀ ref ∈ Operand.references d.operand,
    Known table memo ref

theorem Settled.mono {table : SymbolTable} {memo memo' : Memo} (h : Settled table memo)
    (hmemo : memo <+: memo') : Settled table memo' :=
  fun entry hentry d hd ref href => (h entry hentry d hd ref href).mono hmemo

/-- Known names are looked up, not searched for. -/
theorem valuesOf_known {table : SymbolTable} {memo : Memo} (stack : List Frame)
    {refs : List Token} (h : ∀ ref ∈ refs, Known table memo ref) :
    Ends (valuesOf table stack refs) memo (fun _ memo' => memo' = memo) (fun _ _ => False) := by
  induction refs with
  | nil =>
      rw [valuesOf]
      rfl
  | cons ref refs ih =>
      obtain ⟨hrequire, hvalue⟩ := h ref (by simp)
      have href : Ends (valueOf table stack ref) memo (fun _ memo' => memo' = memo)
          (fun _ _ => False) := by
        rw [valueOf]
        simp only [Ends.bind_iff, Ends.lift_iff, Ends.get_iff]
        refine ⟨?_, fun e he => by simp [hrequire] at he⟩
        rintro ⟨⟩ -
        split
        · rfl
        next hnone =>
          split
          · rfl
          next declarations hconstant =>
            have hsome := hvalue (by simp [hconstant])
            simp [hnone] at hsome
      rw [valuesOf]
      simp only [Ends.bind_iff, Ends.pure_iff]
      apply href.weaken
      rintro value memo₁ rfl
      exact ih fun r hr => h r (by simp [hr])

theorem foldAll_known {table : SymbolTable} {memo : Memo} (stack : List Frame) (name : Text)
    {declarations : List Declaration}
    (h : ∀ d ∈ declarations, ∀ ref ∈ Operand.references d.operand, Known table memo ref) :
    Ends (foldAll table stack name declarations) memo (fun _ memo' => memo' = memo)
      (fun e memo' => memo' = memo ∧ e.Only []) := by
  induction declarations with
  | nil =>
      rw [foldAll]
      rfl
  | cons d rest ih =>
      rw [foldAll]
      simp only [Ends.bind_iff, Ends.pure_iff]
      apply (valuesOf_known _ (h d (by simp))).mono
      · rintro values memo₁ rfl
        apply (foldExpression_ends values d.operand memo₁ []).weaken
        rintro value memo₂ ⟨rfl, -⟩
        exact ih fun d' hd' => h d' (by simp [hd'])
      · intro e memo₁ hfalse
        exact hfalse.elim

/-- A declared name has a value or none, whatever it needs. -/
theorem valueOf_settled {table : SymbolTable} {memo : Memo} (hs : Settled table memo) {ref : Token}
    (h : require table ref = .ok ()) :
    Ends (valueOf table [] ref) memo (fun _ memo' => memo <+: memo')
      (fun e memo' => memo <+: memo' ∧ e.Only []) := by
  rw [valueOf]
  simp only [Ends.bind_iff, Ends.lift_iff, Ends.get_iff]
  refine ⟨?_, fun e he => by simp [h] at he⟩
  rintro ⟨⟩ -
  split
  · exact List.prefix_rfl
  split
  · exact List.prefix_rfl
  next declarations hconstant =>
    have hmem : (ref.raw, declarations) ∈ table.constants := by
      obtain ⟨before, after, heq, -⟩ := List.lookup_eq_some_iff.1 hconstant
      simp [heq]
    rw [dif_pos (by simp)]
    simp only [Ends.bind_iff, Ends.modify_iff, Ends.pure_iff]
    apply (foldAll_known [] ref.raw (hs _ hmem)).mono
    · rintro results memo₁ rfl
      exact List.prefix_append _ _
    · rintro e memo₁ ⟨rfl, he⟩
      exact ⟨List.prefix_rfl, he⟩

theorem valuesOf_settled {table : SymbolTable} {memo : Memo} (hs : Settled table memo)
    {refs : List Token} (h : ∀ ref ∈ refs, require table ref = .ok ()) :
    Ends (valuesOf table [] refs) memo (fun _ memo' => memo <+: memo')
      (fun e memo' => memo <+: memo' ∧ e.Only []) := by
  induction refs generalizing memo with
  | nil =>
      rw [valuesOf]
      exact List.prefix_rfl
  | cons ref refs ih =>
      rw [valuesOf]
      simp only [Ends.bind_iff, Ends.pure_iff]
      apply (valueOf_settled hs (h ref (by simp))).weaken
      intro value memo₁ hgrow₁
      apply (ih (hs.mono hgrow₁) fun r hr => h r (by simp [hr])).mono
      · intro values memo₂ hgrow₂
        exact hgrow₁.trans hgrow₂
      · rintro e memo₂ ⟨hgrow₂, he⟩
        exact ⟨hgrow₁.trans hgrow₂, he⟩

/-- Once all declarations are settled, an operand of declared names can only fail by
its arithmetic. -/
theorem fold_settled {table : SymbolTable} {memo : Memo} (hs : Settled table memo)
    {operand : List Token} (h : check table operand = .ok ()) :
    Ends (fold table [] operand) memo (fun _ memo' => memo <+: memo')
      (fun e memo' => memo <+: memo' ∧ e.Only []) := by
  unfold fold
  rw [Ends.bind_iff]
  apply (valuesOf_settled hs (check_ok_iff.1 h)).weaken
  intro values memo₁ hgrow
  apply (foldExpression_ends values operand memo₁ []).mono
  · rintro value memo₂ ⟨rfl, -⟩
    exact hgrow
  · rintro e memo₂ ⟨rfl, he⟩
    exact ⟨hgrow, he⟩

end Evaluation

end MapScript
