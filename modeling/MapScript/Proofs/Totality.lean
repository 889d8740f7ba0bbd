import MapScript.Proofs.Fault

/-!
# Every script has a result

A run over any source ends in a text, or in the one error for which the script is
refused, unless arithmetic has no result on the way, and it is known where that can
be.  A script that does not compute has a result: its operands are numerals that can
be written, names and calls, and it places no pattern.
-/

namespace MapScript

open Evaluation (HasValue Yields)

namespace Number

/-- The part of a number before the point. -/
def whole : Number → Int
  | int n => n
  | float x => x.truncate

/-- A number whose whole part can be written. -/
def Short (v : Number) : Prop := (Text.ofNat v.whole.natAbs).length ≤ maxDigits

instance (v : Number) : Decidable v.Short := inferInstanceAs (Decidable (_ ≤ _))

theorem Short.writeInt_ne {n : Int} (h : (int n).Short) (f : Fault) : writeInt n ≠ .error f := by
  have hlength : (Text.ofNat n.natAbs).length ≤ maxDigits := h
  rw [writeInt, if_neg (by omega)]
  simp

theorem Short.format_ne {v : Number} (h : v.Short) (f : Fault) : v.format ≠ .error f := by
  cases v with
  | int n => exact h.writeInt_ne f
  | float x => simp [format]

/-- The integer that a short number is can be written. -/
theorem Short.asInt {v : Number} (h : v.Short) {n : Int} (hn : v.asInt? = some n) :
    (int n).Short := by
  cases v with
  | int m =>
      cases hn
      exact h
  | float x =>
      rw [asInt?] at hn
      split at hn
      · cases hn
        exact h
      · cases hn

theorem natAbs_whole_neg (v : Number) : v.neg.whole.natAbs = v.whole.natAbs := by
  cases v with
  | int n => exact Int.natAbs_neg n
  | float x =>
      cases x with
      | nan s => rfl
      | infinity s => rfl
      | finite s units =>
          show (Binary64.signed (!s) (units / Binary64.one)).natAbs =
            (Binary64.signed s (units / Binary64.one)).natAbs
          generalize units / Binary64.one = n
          cases s <;> simp [Binary64.signed]

theorem Short.neg {v : Number} (h : v.Short) : v.neg.Short := by
  rw [Short, natAbs_whole_neg]
  exact h

end Number

namespace Operand

/-- Whether a token is a numeral of a short number. -/
def isShortNumeral (t : Token) : Bool :=
  t.kind == .number && (Number.parse t.raw).toOption.any fun v => decide v.Short

/-- Whether significant tokens stand for one value without computing it: a numeral,
signed or not, a name or a call. -/
def isAtom : List Token → Bool
  | [] => true
  | [t] => t.kind == .word || isShortNumeral t
  | t :: u :: ts =>
    (t.kind == .word && u.isPunct '(') || (t.isPunct '-' && isShortNumeral u && ts.isEmpty)

theorem exists_parse {t : Token} (h : isShortNumeral t = true) :
    t.kind = .number ∧ ∃ v, Number.parse t.raw = .ok v ∧ v.Short := by
  simpa only [isShortNumeral, Bool.and_eq_true, beq_iff_eq, toOption_any_iff, decide_eq_true_eq]
    using h

theorem fold_numeral (values : Text → Option Number) {t : Token} {v : Number}
    (ht : t.kind = .number) (hv : Number.parse t.raw = .ok v) :
    Expression.fold values [t] = .ok (some v) := by
  have hsign : t.isPunct '-' = false := by simp [Token.isPunct, ht]
  simp [Expression.fold, Expression.evaluate, Expression.sum, Expression.product,
    Expression.signed, Expression.primary, Expression.productTail, Expression.sumTail, hsign, ht,
    hv]

theorem fold_negative (values : Text → Option Number) {t u : Token} {v : Number}
    (ht : t.isPunct '-' = true) (hu : u.kind = .number) (hv : Number.parse u.raw = .ok v) :
    Expression.fold values [t, u] = .ok (some v.neg) := by
  have hsign : u.isPunct '-' = false := by simp [Token.isPunct, hu]
  simp [Expression.fold, Expression.evaluate, Expression.sum, Expression.product,
    Expression.signed, Expression.primary, Expression.productTail, Expression.sumTail, ht, hsign,
    hu, hv]

/-- What is not computed has no fault, and its value is a short number or that of a
name. -/
theorem fold_atom {ts : List Token} (h : isAtom ts = true) (values : Text → Option Number) :
    ∃ value, Expression.fold values ts = .ok value ∧
      ∀ v, value = some v → v.Short ∨ ∃ t ∈ references ts, values t.raw = some v := by
  match ts with
  | [] =>
      refine ⟨none, ?_, by simp⟩
      simp [Expression.fold, Expression.evaluate, Expression.sum, Expression.product,
        Expression.signed]
  | [t] =>
      rw [isAtom, Bool.or_eq_true, beq_iff_eq] at h
      rcases h with hword | hnumeral
      · refine ⟨_, Expression.fold_word values hword, fun v hv => Or.inr ⟨t, ?_, hv⟩⟩
        simp [references, hword]
      · obtain ⟨hnumber, n, hn, hshort⟩ := exists_parse hnumeral
        refine ⟨_, fold_numeral values hnumber hn, ?_⟩
        rintro v ⟨⟩
        exact Or.inl hshort
  | t :: u :: ts =>
      simp only [isAtom, Bool.or_eq_true, Bool.and_eq_true, beq_iff_eq, List.isEmpty_iff] at h
      rcases h with ⟨hword, hopen⟩ | ⟨⟨hsign, hnumeral⟩, rfl⟩
      · exact ⟨none, Expression.fold_call values ts hword hopen, by simp⟩
      · obtain ⟨hnumber, n, hn, hshort⟩ := exists_parse hnumeral
        refine ⟨_, fold_negative values hsign hnumber hn, ?_⟩
        rintro v ⟨⟩
        exact Or.inl hshort.neg

/-- An atom has no fault, and a short value where the names in it have. -/
theorem short_of_fold {operand : List Token} (h : isAtom (Token.significant operand) = true)
    {values : Text → Option Number}
    (hvalues : ∀ ref ∈ references operand, ∀ v, values ref.raw = some v → v.Short)
    {outcome : Except Fault (Option Number)}
    (hfold : Expression.fold values (Token.significant operand) = outcome) :
    ∃ value, outcome = .ok value ∧ ∀ v, value = some v → v.Short := by
  obtain ⟨value, hatom, hshort⟩ := fold_atom h values
  refine ⟨value, hfold.symm.trans hatom, fun v hv => ?_⟩
  rcases hshort v hv with hnumeral | ⟨t, ht, hname⟩
  · exact hnumeral
  · exact hvalues t (references_significant_subset operand ht) v hname

end Operand

/-! ### Scripts that do not compute -/

namespace Resolve

variable {scope : Scope} {table table' : SymbolTable}

theorem Enters.areas (h : Enters scope table table')
    (hareas : table.areas.Nodup ∧ table.areas ⊆ scope.words) :
    table'.areas.Nodup ∧ table'.areas ⊆ scope.words := by
  cases h with
  | @area name hword _ =>
      rw [SymbolTable.areas_declareArea]
      split
      · exact hareas
      · next hnew =>
        rw [List.contains_iff_mem] at hnew
        constructor
        · rw [← List.concat_eq_append]
          exact hareas.1.concat hnew
        · exact List.append_subset.2 ⟨hareas.2, by simpa using hword⟩
  | values => exact hareas

/-- The areas of a script are different words of it. -/
theorem Reaches.areas (h : Reaches scope table table') (hareas : table.areas = []) :
    table'.areas.Nodup ∧ table'.areas ⊆ scope.words := by
  induction h with
  | refl => simp [hareas]
  | tail _ hstep ih => exact hstep.areas ih

theorem Reaches.length_areas_le (h : Reaches scope table table') (hareas : table.areas = []) :
    table'.areas.length ≤ scope.words.length := by
  obtain ⟨hnodup, hwords⟩ := h.areas hareas
  exact (hnodup.subperm hwords).length_le

end Resolve

namespace Script

open Resolve

/-- Nothing in a script is computed, and there are not so many areas that a number of
one would be too long. -/
structure Inert (options : Options) (s : Script Node) : Prop where
  operands : ∀ operand ∈ s.operands, Operand.isAtom (Token.significant operand) = true
  calls : s.calls = []
  areas : ∀ i < s.words.length, (Number.int (options.areaBase + i)).Short

instance (options : Options) (s : Script Node) : Decidable (s.Inert options) :=
  decidable_of_iff
    ((∀ operand ∈ s.operands, Operand.isAtom (Token.significant operand) = true) ∧ s.calls = [] ∧
      ∀ i < s.words.length, (Number.int (options.areaBase + i)).Short)
    ⟨fun ⟨operands, calls, areas⟩ => ⟨operands, calls, areas⟩,
      fun h => ⟨h.operands, h.calls, h.areas⟩⟩

section
variable {options : Options} {s : Script Node} {table : SymbolTable}

theorem Inert.short_area (h : s.Inert options) (hreached : s.Reached options table)
    {name : Text} {number : Int} (hnumber : table.areaId? name = some number) :
    (Number.int number).Short := by
  obtain ⟨constants, hdeclare⟩ := declare_eq (Session.start options).table s.parts
  have hnone : (declare (Session.start options).table s.parts).areas = [] := by
    rw [hdeclare]
    rfl
  obtain ⟨hgrows, -⟩ := hreached.sound
  obtain ⟨i, hi, rfl⟩ := (hgrows.numbered (.of_areas hnone)).exists_index hnumber
  obtain ⟨hi, -⟩ := List.getElem?_eq_some_iff.1 hi
  have hbase : table.areaBase = options.areaBase := by
    rw [hgrows.areaBase, hdeclare]
    rfl
  rw [hbase]
  exact h.areas i (Nat.lt_of_lt_of_le hi (Reaches.length_areas_le hreached hnone))

/-- The values of names are short. -/
theorem Inert.short_value (h : s.Inert options) (hreached : s.Reached options table)
    {name : Text} {value : Option Number} (hvalue : HasValue table name value) :
    ∀ v, value = some v → v.Short := by
  induction hvalue with
  | @outside name _ _ =>
      intro v hv
      obtain ⟨number, hnumber, rfl⟩ := Option.map_eq_some_iff.1 hv
      exact h.short_area hreached hnumber
  | @constant name ds values results hknown hneeds hfolds ih =>
      intro v hv
      rw [Evaluation.single_eq_some hv] at hfolds
      obtain ⟨d, rest, rfl, hfold, -⟩ := List.map_eq_cons_iff.1 hfolds
      have hmem : d ∈ d :: rest := List.mem_cons_self
      have hoperand := hreached.mem_operands ⟨name, _, d, hknown, hmem, rfl⟩
      obtain ⟨value, hvalue, hshort⟩ :=
        Operand.short_of_fold (h.operands _ hoperand) (ih d hmem) hfold
      cases hvalue
      exact hshort v rfl

theorem Inert.yields (h : s.Inert options) (hreached : s.Reached options table)
    {operand : List Token} (hmem : operand ∈ s.operands)
    {outcome : Except Fault (Option Number)} (hyields : Yields table operand outcome) :
    ∃ value, outcome = .ok value ∧ ∀ v, value = some v → v.Short := by
  obtain ⟨values, hassigns, hfold⟩ := hyields
  have hvalues : ∀ ref ∈ Operand.references operand, ∀ v, values ref.raw = some v → v.Short :=
    fun ref href => h.short_value hreached (hassigns ref href)
  exact Operand.short_of_fold (h.operands operand hmem) hvalues hfold

theorem Inert.not_atFault (h : s.Inert options) (f : Fault) : ¬ s.AtFault options f := by
  rintro ⟨table, hreached, harises⟩
  have hshort {operand : List Token} {v : Number} (hmem : operand ∈ s.operands)
      (hyields : Yields table operand (.ok (some v))) : v.Short := by
    obtain ⟨value, hvalue, hshort⟩ := h.yields hreached hmem hyields
    cases hvalue
    exact hshort v rfl
  cases harises with
  | expression hmem hfails =>
      obtain ⟨value, hvalue, -⟩ := h.yields hreached hmem hfails
      cases hvalue
  | area hnumber hlong => exact (h.short_area hreached hnumber).writeInt_ne f hlong
  | value hmem hyields hlong => exact (hshort hmem hyields).format_ne f hlong
  | count hmem hyields hintegral hlong =>
      exact ((hshort hmem hyields).asInt hintegral).writeInt_ne f hlong
  | layout hcall => simp [h.calls] at hcall

example :
    (ofSource "#const A -5\n#REPEAT(2)\nactor_area A\nx rnd(1,A)\n#END_REPEAT".toList).toOption.any
      (fun s => decide (s.Inert {})) = true := by
  decide +kernel

end

end Script

/-! ### Results -/

/-- No place of a fault divides by zero. -/
theorem Fault.Arises.ne_zeroDivision {table : SymbolTable} {operands : List (List Token)}
    {calls : List (Text × List (List Token))} {f : Fault} (h : f.Arises table operands calls) :
    f ≠ .zeroDivision := by
  rintro rfl
  cases h with
  | expression _ hfails =>
      obtain ⟨values, -, hfold⟩ := hfails
      exact Expression.fold_divides values _ hfold
  | area _ hlong => exact Number.format_divides (.int _) hlong
  | value _ _ hlong => exact Number.format_divides _ hlong
  | count _ _ _ hlong => exact Number.format_divides (.int _) hlong
  | layout _ _ _ hpositive _ hfails =>
      exact Pattern.points_divides _ (Expansion.positive?_pos hpositive) _ hfails

/-- A result has a text and no error, or no text and one error. -/
def Result.Complete (r : Result) : Prop :=
  (r.ok = true ∧ r.errors = []) ∨ (r.ok = false ∧ ∃ d, r.errors = [d])

/-- Every source has a complete result, but for a fault of arithmetic.  That is never a
division by zero; it has its place in the script, and the script is one that computes. -/
theorem process_complete_or_atFault (options : Options) (filename source : Text) :
    (∃ result, process options filename source = .ok result ∧ result.Complete) ∨
    ∃ f script, process options filename source = .error f ∧
      Script.ofSource source = .ok script ∧ f ≠ .zeroDivision ∧ script.AtFault options f ∧
      ¬ script.Inert options := by
  cases hrun : Preprocess.runPass options (Preprocess.text options source) with
  | mk outcome s =>
  cases outcome with
  | ok text =>
      have hprocess : process options filename source =
          .ok ⟨some text, s.warnings.map (Diagnostic.ofWarning filename)⟩ := by
        simp [process, hrun]
      have herrors := Diagnostic.filter_isError_ofWarning filename s.warnings
      exact Or.inl ⟨_, hprocess, Or.inl ⟨rfl, herrors⟩⟩
  | error e =>
      cases e with
      | report r =>
          have hprocess : process options filename source =
              .ok ⟨none, s.warnings.map (Diagnostic.ofWarning filename) ++
                [Diagnostic.ofReport filename r]⟩ := by
            simp [process, hrun]
          have hrefused := Result.refused_of_report filename s.warnings r
          exact Or.inl ⟨_, hprocess, Or.inr ⟨rfl, _, hrefused.errors⟩⟩
      | fault f =>
          have hprocess : process options filename source = .error f := by simp [process, hrun]
          obtain ⟨script, hscript, hfault⟩ :=
            (Preprocess.text_atFault options source).of_run_error hrun f rfl
          have hzero : f ≠ .zeroDivision := by
            obtain ⟨table, -, harises⟩ := hfault
            exact harises.ne_zeroDivision
          exact Or.inr ⟨f, script, hprocess, hscript, hzero, hfault,
            fun hinert => hinert.not_atFault f hfault⟩

/-- A product beyond the range of doubles, times a half. -/
theorem process_overflow :
    process {} "a.rms".toList
      "#const A 99999999999999999999\n#const B (A*A*A*A)\n#const C (B*B*B*B*0.5)".toList =
        .error .overflow := by
  decide +kernel

end MapScript
