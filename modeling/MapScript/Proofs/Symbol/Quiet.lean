import MapScript.Proofs.Symbol.Fault
import MapScript.Proofs.Symbol.Remaining

/-!
# Rows in which nothing is left to resolve

A row calls for no edits if every operand in it is a numeral or has no value, and every
name that stands where an area does is a constant.
-/

namespace MapScript

open Evaluation (Sound HasValue Refers Yields)

namespace Resolve

/-- The operand needs no numeral: it is one, or it has no value. -/
def Rests (table : SymbolTable) (operand : List Token) : Prop :=
  ∃ result, Yields table operand (.ok result) ∧ (result = none ∨ isLiteral operand = true)

/-- Nothing is left to resolve in the row. -/
structure Quiet (table : SymbolTable) (row : List Indexed) : Prop where
  known : ∀ entry ∈ declarations (row.map Prod.fst), ∃ ds,
    table.constants.lookup entry.1 = some ds ∧ entry.2 ∈ ds
  valued : ∀ entry ∈ declarations (row.map Prod.fst), ∃ value, HasValue table entry.1 value
  rests : ∀ entry ∈ declarations (row.map Prod.fst), Rests table entry.2.operand
  places : ∀ place, AreaPlace row place → table.isConstant place.1.raw = true
  areas : table.areas = []

section
variable {table : SymbolTable} {row rest : List Indexed} {t : Token} {k : Nat}

theorem Quiet.with_values (h : Quiet table row) (memo : Memo) :
    Quiet { table with values := memo } row where
  known := h.known
  valued entry hentry := (h.valued entry hentry).imp fun _ hvalue => hvalue.with_values memo
  rests entry hentry := by
    obtain ⟨result, ⟨values, hassigns, hfold⟩, hrests⟩ := h.rests entry hentry
    exact ⟨result, ⟨values, fun ref href => (hassigns ref href).with_values memo, hfold⟩, hrests⟩
  places := h.places
  areas := h.areas

theorem Quiet.tail {x : Indexed} (h : Quiet table (x :: row)) : Quiet table row := by
  have hdeclared : declarations (row.map Prod.fst) ⊆ declarations ((x :: row).map Prod.fst) :=
    declarations_suffix (List.suffix_cons x.1 _)
  exact ⟨fun entry hentry => h.known entry (hdeclared hentry),
    fun entry hentry => h.valued entry (hdeclared hentry),
    fun entry hentry => h.rests entry (hdeclared hentry),
    fun place ⟨t, k, rest, hrow, hplace⟩ =>
      h.places place ⟨t, k, rest, hrow.trans (List.suffix_cons x row), hplace⟩, h.areas⟩

/-- The computation has a result and changes nothing but the values that are kept. -/
def Idle {α : Type} (x : Resolving α) (table : SymbolTable) (result : α) : Prop :=
  Ends x table
    (fun a table' => a = result ∧ ∃ memo, table' = { table with values := memo } ∧
      Sound table' memo)
    (fun _ _ => False)

theorem Idle.pure {α : Type} (hsound : Sound table table.values) (a : α) :
    Idle (pure a) table a := ⟨rfl, table.values, rfl, hsound⟩

theorem Idle.bind {α β : Type} {x : Resolving α} {f : α → Resolving β} {a : α} {b : β}
    (h : Idle x table a)
    (hf : ∀ memo, Sound { table with values := memo } memo →
      Idle (f a) { table with values := memo } b) : Idle (x >>= f) table b := by
  rw [Idle, Ends.bind_iff]
  apply Ends.weaken h
  rintro _ _ ⟨rfl, memo, rfl, hsound⟩
  exact hf memo hsound

theorem foldDeclaration_idle {name : Token} (hsound : Sound table table.values)
    (hknown : ∃ ds, table.constants.lookup name.raw = some ds ∧
      (⟨operandOf (rest.map Prod.fst), name.span⟩ : Declaration) ∈ ds)
    (hvalued : ∃ value, HasValue table name.raw value)
    (hrests : Rests table (operandOf (rest.map Prod.fst))) :
    Idle (foldDeclaration name rest) table none := by
  obtain ⟨ds, hds, hmem⟩ := hknown
  obtain ⟨_, hvalue⟩ := hvalued
  obtain ⟨result, ⟨values, hassigns, hfold⟩, hrests⟩ := hrests
  have hrefers : ∀ ref ∈ Operand.references (operandOf (rest.map Prod.fst)),
      Refers table name.raw ref.raw := fun ref href => ⟨ds, hds, _, hmem, ref, href, rfl⟩
  have hsearch : ∀ ref ∈ Operand.references (operandOf (rest.map Prod.fst)),
      Evaluation.Succeeds table (Evaluation.valueOf table [⟨name.raw, name.span⟩] ref) := by
    intro ref href
    refine (hassigns ref href).succeeds rfl fun f hf hneeds => ?_
    obtain rfl := List.mem_singleton.1 hf
    exact hvalue.not_refers_self (.head' (hrefers ref href) hneeds)
  have hcheck : Evaluation.check table (operandOf (rest.map Prod.fst)) = .ok () := by
    rw [Evaluation.check_ok_iff]
    exact fun ref href => Evaluation.require_ok_iff.2 (hassigns ref href).declared
  have hends := Evaluation.fold_succeeds hassigns hfold hsearch hsound
  unfold foldDeclaration
  split
  · exact .pure hsound none
  next n hn =>
    have hoperand : operandOf (rest.map Prod.fst) = (rest.take n).map Prod.fst := by
      simp [operandOf, hn]
    rw [hoperand] at hcheck hends hrests
    simp only [Idle, Ends.bind_iff, Ends.get_iff, Ends.lift_iff, Resolving.evaluate_ends_iff, hcheck]
    refine ⟨fun _ _ => ?_, by simp⟩
    unfold Evaluation.foldDeclaration
    apply hends.weaken
    rintro _ memo ⟨rfl, hmemo⟩
    have hsound' : Sound { table with values := memo } memo :=
      fun name value h => (hmemo name value h).with_values memo
    split
    · next value first i more hpart =>
      rw [if_pos (by simpa using hrests)]
      exact Idle.pure hsound' none
    · exact Idle.pure hsound' none

theorem declareArea_idle {coordinates : Nat} (hsound : Sound table table.values)
    (h : ∀ place ∈ (skipOperands coordinates rest).bind headName?,
      table.isConstant place.1.raw = true) : Idle (declareArea coordinates rest) table none := by
  rw [declareArea]
  split
  · next name i more hskip =>
    simp only [Idle, Ends.bind_iff, Ends.get_iff]
    have hskipped : (name.kind != .word || table.isConstant name.raw) = true := by
      by_cases hword : name.kind = .word
      · rw [h (name, i) (by simp [hskip, headName?, hword]), Bool.or_true]
      · simp [hword]
    rw [if_pos hskipped]
    exact Idle.pure hsound none
  · exact Idle.pure hsound none

theorem referArea_idle (hsound : Sound table table.values) (hareas : table.areas = [])
    (h : ∀ place ∈ headName? rest, table.isConstant place.1.raw = true) :
    Idle (referArea rest) table none := by
  rw [referArea.eq_def]
  split
  · next name i more =>
    split
    · exact Idle.pure hsound none
    · next hword =>
      have hnumber : table.areaId? name.raw = none := by
        simp [SymbolTable.areaId?_eq_none_iff, hareas]
      have hconstant : table.isConstant name.raw = true :=
        h (name, i) (by simpa [headName?] using hword)
      simp only [Idle, Ends.bind_iff, Ends.get_iff, hnumber, hconstant]
      exact Idle.pure hsound none
  · exact Idle.pure hsound none

theorem editAt_idle (h : Quiet table ((t, k) :: rest)) (hsound : Sound table table.values) :
    Idle (editAt t rest) table none := by
  have hplace {place : Indexed}
      (hplace : declaredPlace? t rest = some place ∨ usedPlace? t rest = some place) :
      table.isConstant place.1.raw = true := h.places place ⟨t, k, rest, List.suffix_rfl, hplace⟩
  unfold editAt
  split
  · next hconst =>
    split
    · next name i more =>
      split
      · next hword =>
        have hentry : (name.raw, ⟨operandOf (more.map Prod.fst), name.span⟩) ∈
            declarations (((t, k) :: (name, i) :: more).map Prod.fst) := by
          rw [List.map_cons, declarations_cons]
          exact List.mem_append_left _
            (mem_declaredBy.2 ⟨hconst, name, _, rfl, by simpa using hword, rfl⟩)
        exact foldDeclaration_idle hsound (h.known _ hentry) (h.valued _ hentry)
          (h.rests _ hentry)
      · exact .pure hsound none
    · exact .pure hsound none
  split
  · exact .pure hsound none
  next hword =>
    replace hword : (t.kind == .word) = true := by simpa using hword
    split
    · next coordinates hcommand =>
      refine declareArea_idle hsound fun place hmem => hplace (Or.inl ?_)
      rw [declaredPlace?, if_pos hword, hcommand]
      exact hmem
    · split
      · next hcommand =>
        refine referArea_idle hsound h.areas fun place hmem => hplace (Or.inr ?_)
        rw [usedPlace?, hword, hcommand]
        exact hmem
      · exact .pure hsound none

/-- A row in which nothing is left to resolve calls for no edits. -/
theorem edits_idle (h : Quiet table row) (hsound : Sound table table.values) :
    Idle (edits row) table [] := by
  induction row generalizing table with
  | nil => exact .pure hsound []
  | cons x row ih =>
      rw [edits]
      refine (editAt_idle h hsound).bind fun memo hmemo => ?_
      refine (ih (h.tail.with_values memo) hmemo).bind fun memo' hmemo' => ?_
      exact .pure hmemo' []

end

theorem Edit.applyAll_nil (tokens : List Token) : Edit.applyAll [] tokens = tokens := by
  simp [Edit.applyAll, Edit.resultAt, ← List.map_eq_flatMap]

/-- Tokens in which nothing is left to resolve stay what they are. -/
theorem resolveTokens_idle {tokens : List Token} {table : SymbolTable}
    (h : Quiet table (indexed tokens)) (hsound : Sound table table.values) :
    Idle (resolveTokens tokens) table tokens := by
  rw [resolveTokens]
  refine (edits_idle h hsound).bind fun memo hmemo => ?_
  rw [Edit.applyAll_nil]
  exact .pure hmemo tokens

end Resolve

open Resolve in
/-- A script of a run in which nothing is left to resolve stays what it is. -/
theorem Script.resolve_quiet {tokens : List Token} (span : Span) {table : SymbolTable}
    (hfresh : table.Fresh)
    (h : Quiet (declare table ((Run.ofTokens? tokens).toList.map Node.run)) (indexed tokens)) :
    Ends (Script.resolve ⟨(Run.ofTokens? tokens).toList.map Node.run, span⟩) table
      (fun out _ => out = ⟨(Run.ofTokens? tokens).toList.map Node.run, span⟩)
      (fun _ _ => False) := by
  have hsound := Script.sound_declare ⟨(Run.ofTokens? tokens).toList.map Node.run, span⟩
    hfresh.values
  unfold Script.resolve
  simp only [Ends.bind_iff, Ends.modify_iff, Ends.pure_iff]
  cases tokens with
  | nil =>
      simp only [Run.ofTokens?, Option.toList_none, List.map_nil, resolveNodes, Ends.pure_iff]
  | cons t ts =>
      simp only [Run.ofTokens?, Option.toList_some, List.map_cons, List.map_nil, resolveNodes,
        resolveNode, Ends.bind_iff, Ends.pure_iff] at hsound h ⊢
      apply (resolveTokens_idle h hsound).mono
      · rintro out table' ⟨rfl, -⟩
        rfl
      · exact fun _ _ h => h.elim

end MapScript
