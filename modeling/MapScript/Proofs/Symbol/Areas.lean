import MapScript.Proofs.Symbol.AreaPlaces

/-!
# Areas of a script

Resolving enters the areas that a script declares, in order, and calls for an edit in every
place where an area is declared or used: the edit puts the number there.
-/

namespace MapScript

open Evaluation (Sound)

/-! ### The course of the table -/

namespace SymbolTable

variable {table table' table'' : SymbolTable} {name : Text}

theorem nodup_eraseDups (names : List Text) : names.eraseDups.Nodup := by
  induction hn : names.length using Nat.strongRecOn generalizing names with
  | _ n ih =>
      cases names with
      | nil => simp
      | cons name names =>
          rw [List.eraseDups_cons, List.nodup_cons]
          constructor
          · simp
          · apply ih _ _ _ rfl
            rw [← hn, List.length_cons]
            exact Nat.lt_succ_of_le (List.length_filter_le _ _)

theorem areas_declareArea_of_log {log : List Text} (h : table.areas = log.eraseDups)
    (name : Text) : (table.declareArea name).areas = (log ++ [name]).eraseDups := by
  have hknown : table.areas.contains name = decide (name ∈ log) := by simp [h]
  rw [areas_declareArea, List.eraseDups_append, ← h, hknown]
  by_cases hname : name ∈ log <;> simp [List.removeAll, hname, List.eraseDups_cons]

/-- The way of a table on which the names are declared as areas, in this order. -/
structure Course (table : SymbolTable) (names : List Text) (table' : SymbolTable) : Prop where
  areas : ∀ {log}, table.areas = log.eraseDups → table'.areas = (log ++ names).eraseDups
  grows : table.Grows table'
  sound : Sound table table.values → Sound table' table'.values

theorem Course.refl (table : SymbolTable) : table.Course [] table :=
  ⟨fun h => by rwa [List.append_nil], .refl table, id⟩

theorem Course.trans {names names' : List Text} (h : table.Course names table')
    (h' : table'.Course names' table'') : table.Course (names ++ names') table'' :=
  ⟨fun hlog => by rw [← List.append_assoc]; exact h'.areas (h.areas hlog),
    h.grows.trans h'.grows, h'.sound ∘ h.sound⟩

theorem Course.declareArea (h : table.isConstant name = false) :
    table.Course [name] (table.declareArea name) := by
  refine ⟨fun hlog => areas_declareArea_of_log hlog name, .declareArea h, fun hsound => ?_⟩
  rw [Resolve.values_declareArea]
  exact hsound.grow (.declareArea h)

theorem Course.of_values {memo : Memo} (hmemo : table.values <+: memo)
    (h : Sound table table.values → Sound table memo) :
    table.Course [] { table with values := memo } := by
  refine ⟨fun hlog => by rwa [List.append_nil], .of_values hmemo, fun hsound => ?_⟩
  exact (h hsound).grow (.of_values hmemo)

end SymbolTable

namespace Resolve

/-- The names in a row in the places where areas are declared. -/
def declaredPlaces : List Indexed → List Indexed
  | [] => []
  | (t, _) :: rest => (declaredPlace? t rest).toList ++ declaredPlaces rest

/-- The names in places, but for constants. -/
def freeNames (table : SymbolTable) (places : List Indexed) : List Text :=
  (places.map fun (name, _) => name.raw).filter fun name => !table.isConstant name

/-- The names that rows declare as areas, in order. -/
def areasIn (table : SymbolTable) (rows : List (List Token)) : List Text :=
  rows.flatMap fun row => freeNames table (declaredPlaces (indexed row))

/-- The computation declares the names as areas, or fails on the way; `Out` holds of
its result if the values kept so far are right. -/
def Courses {α : Type} (x : Resolving α) (table : SymbolTable) (names : List Text)
    (Out : α → SymbolTable → Prop) : Prop :=
  Ends x table
    (fun a table' => table.Course names table' ∧ (Sound table table.values → Out a table'))
    (fun _ table' => ∃ entered, entered <+: names ∧ table.Course entered table')

section
variable {α β : Type} {table : SymbolTable} {x : Resolving α} {names names' : List Text}
  {Out : α → SymbolTable → Prop} {Out' : β → SymbolTable → Prop}

theorem Courses.pure {a : α} (h : Out a table) : Courses (pure a) table [] Out :=
  ⟨.refl table, fun _ => h⟩

/-- A computation goes on from where the table has got to. -/
theorem Courses.after {table' : SymbolTable} (h : Courses x table' names' Out)
    (hcourse : table.Course names table') :
    Ends x table'
      (fun a last => table.Course (names ++ names') last ∧ (Sound table table.values → Out a last))
      (fun _ last => ∃ entered, entered <+: names ++ names' ∧ table.Course entered last) := by
  apply h.mono
  · rintro a last ⟨hcourse', hout⟩
    exact ⟨hcourse.trans hcourse', fun hsound => hout (hcourse.sound hsound)⟩
  · rintro e last ⟨entered, hentered, hcourse'⟩
    exact ⟨names ++ entered, (List.prefix_append_right_inj names).2 hentered,
      hcourse.trans hcourse'⟩

theorem Courses.bind {f : α → Resolving β} (h : Courses x table names Out)
    (hf : ∀ a table', table.Course names table' →
      Courses (f a) table' names' fun b last => Out a table' → Out' b last) :
    Courses (x >>= f) table (names ++ names') Out' := by
  rw [Courses, Ends.bind_iff]
  apply h.mono
  · rintro a table' ⟨hcourse, hout⟩
    apply ((hf a table' hcourse).after hcourse).weaken
    exact fun b last hlast => ⟨hlast.1, fun hsound => hlast.2 hsound (hout hsound)⟩
  · rintro e table' ⟨entered, hentered, hcourse⟩
    exact ⟨entered, hentered.trans (List.prefix_append names names'), hcourse⟩

theorem Courses.weaken {Out' : α → SymbolTable → Prop} (h : Courses x table names Out)
    (hout : ∀ a table', table.Course names table' → Out a table' → Out' a table') :
    Courses x table names Out' := by
  apply Ends.weaken h
  rintro a table' ⟨hcourse, ha⟩
  exact ⟨hcourse, fun hsound => hout a table' hcourse (ha hsound)⟩

end

section
variable {table : SymbolTable} {row rest : List Indexed}

theorem replaceBy_courses (value : Number) (first last : Nat) (span : Span)
    (table : SymbolTable) :
    Courses (some <$> replaceBy value first last span) table [] fun edit _ =>
      ∃ raw, value.format = .ok raw ∧ edit = some ⟨first, last, .made .number raw span⟩ := by
  rw [Courses, Ends.map_iff, replaceBy, Ends.bind_iff, Resolving.ofFault_ends_iff]
  constructor
  · intro t ht
    obtain ⟨raw, hraw, rfl⟩ := numeral_eq_ok ht
    exact ⟨.refl table, fun _ => ⟨raw, hraw, rfl⟩⟩
  · exact fun _ _ => ⟨[], List.prefix_rfl, .refl table⟩

/-- An edit that a token calls for. -/
def Arising (row : List Indexed) (edit : Option Edit) (table : SymbolTable) : Prop :=
  ∀ e ∈ edit, e.Arises table row

/-- An edit begins with the row, or the operand there stays as it is. -/
def Settles (table : SymbolTable) (edits : List Edit) (rest : List Indexed) : Prop :=
  (∃ e ∈ edits, ∃ first others, rest = (first, e.first) :: others) ∨
    Stays table (operandOf (rest.map Prod.fst))

theorem Settles.grow {table' : SymbolTable} {edits edits' : List Edit}
    (h : Settles table edits rest) (hgrows : table.Grows table') (hedits : edits ⊆ edits') :
    Settles table' edits' rest :=
  h.imp (fun ⟨e, he, hfirst⟩ => ⟨e, hedits he, hfirst⟩) fun hstays => hstays.grow hgrows

theorem foldDeclaration_courses {tokens : List Token} (name : Token)
    (hplace : OperandPlace (indexed tokens) rest) :
    Courses (foldDeclaration name rest) table [] fun edit table' =>
      Arising (indexed tokens) edit table' ∧ Settles table' edit.toList rest := by
  have hrest := hplace.suffix
  unfold foldDeclaration
  split
  · next hnone =>
    have hempty : operandOf (rest.map Prod.fst) = [] := by
      rw [operandOf, hnone]
      rfl
    exact .pure ⟨by simp [Arising], Or.inr (Or.inl ⟨by rw [hempty]; rfl, Or.inl hempty⟩)⟩
  next n hn =>
    have hoperand : operandOf (rest.map Prod.fst) = (rest.take n).map Prod.fst := by
      simp [operandOf, hn]
    simp only [Settles, hoperand, Courses, Ends.bind_iff, Ends.get_iff, Ends.lift_iff,
      Resolving.evaluate_ends_iff]
    refine ⟨?_, fun _ _ => ⟨[], List.prefix_rfl, .refl table⟩⟩
    rintro ⟨⟩ -
    unfold Evaluation.foldDeclaration
    refine Ends.of_run ?_ ?_
    · intro value memo hrun
      have hmemo := ((Evaluation.fold_ends table _ _ table.values).of_run_ok hrun).1
      have hfound := fun hsound => (Evaluation.fold_sound hsound _ _).of_run_ok hrun
      have hcourse := SymbolTable.Course.of_values hmemo fun hsound => (hfound hsound).1
      split
      · next value first i more hpart =>
        split
        · next hliteral =>
          refine ⟨hcourse, fun _ => ⟨by simp [Arising], Or.inr (Or.inl ⟨?_, Or.inr hliteral⟩)⟩⟩
          rw [List.map_take] at hliteral ⊢
          exact references_of_isLiteral hn hliteral
        next hliteral =>
          apply ((replaceBy_courses value i _ _ _).after hcourse).weaken
          rintro edit table' ⟨hcourse', hedit⟩
          refine ⟨hcourse', ?_⟩
          intro hsound
          obtain ⟨raw, hraw, rfl⟩ := hedit hsound
          obtain ⟨-, values, hassigns, hfold⟩ := hfound hsound
          have hform := operand_form_of_take hn hpart hfold (by simpa using hliteral)
          obtain ⟨others, m, rfl, rfl, rfl⟩ := Edit.exists_of_take hpart
          rw [significant_map_of_subset fun x hx =>
            hrest.subset (List.mem_of_mem_take hx)] at hfold
          constructor
          · rintro e ⟨⟩
            exact (Edit.Arises.operand hplace hn hassigns hfold hform hraw).grow hcourse'.grows
          · exact Or.inl ⟨_, List.mem_singleton_self _, first, others, rfl⟩
      · next found _ _ hother =>
        refine ⟨hcourse, fun hsound => ⟨by simp [Arising], Or.inr ?_⟩⟩
        cases found with
        | none =>
            obtain ⟨-, values, hassigns, hfold⟩ := hfound hsound
            exact Or.inr ⟨values, hassigns.grow hcourse.grows, hfold⟩
        | some value =>
            cases hpart : rest.take n with
            | nil => exact Or.inl ⟨rfl, Or.inl rfl⟩
            | cons x more => exact absurd hpart (hother value x.1 x.2 more rfl)
    · intro e memo hrun
      have hmemo := ((Evaluation.fold_ends table _ _ table.values).of_run_error hrun).1
      refine ⟨[], List.prefix_rfl, .of_values hmemo fun hsound => ?_⟩
      exact (Evaluation.fold_sound hsound _ _).of_run_error hrun

/-- The place is one of an area, so a name there that is no constant is numbered. -/
def Numbering (place? : Option Indexed) (edit : Option Edit) (table : SymbolTable) : Prop :=
  ∀ place ∈ place?, table.isConstant place.1.raw = false → ∃ e ∈ edit, e.Numbers table place

theorem numberArea_courses {name : Token} {i : Nat} {area : Int}
    (hplace : AreaPlace row (name, i)) (harea : table.areaId? name.raw = some area) :
    Courses (some <$> replaceBy (.int area) i i name.span) table [] fun edit table' =>
      Arising row edit table' ∧ Numbering (some (name, i)) edit table' := by
  apply (replaceBy_courses (.int area) i i name.span table).weaken
  rintro edit table' hcourse ⟨raw, hraw, rfl⟩
  have hnumbers : Edit.Numbers table' (name, i) ⟨i, i, .made .number raw name.span⟩ := by
    rw [Number.ofInt_of_format hraw]
    exact Edit.Numbers.grow ⟨area, harea, rfl⟩ hcourse.grows
  constructor
  · rintro e ⟨⟩
    exact .area hplace hnumbers ⟨area, hraw⟩
  · rintro place ⟨⟩ -
    exact ⟨_, rfl, hnumbers⟩

theorem freeNames_grow {table' : SymbolTable} (h : table.Grows table') (places : List Indexed) :
    freeNames table' places = freeNames table places := by
  simp only [freeNames, h.isConstant]

theorem declareArea_courses {coordinates : Nat}
    (hplace : ∀ place ∈ (skipOperands coordinates rest).bind headName?, AreaPlace row place) :
    Courses (declareArea coordinates rest) table
      (freeNames table ((skipOperands coordinates rest).bind headName?).toList)
      fun edit table' => Arising row edit table' ∧
        Numbering ((skipOperands coordinates rest).bind headName?) edit table' := by
  rw [declareArea]
  split
  · next name i more hskip =>
    rw [hskip, Option.bind_some, headName?] at hplace ⊢
    simp only [Courses, Ends.bind_iff, Ends.get_iff]
    by_cases hword : (name.kind == .word) = true
    · rw [if_pos hword] at hplace ⊢
      cases hconstant : table.isConstant name.raw with
      | true =>
          have hnames : freeNames table (some (name, i)).toList = [] := by
            simp [freeNames, hconstant]
          rw [hnames, if_pos (by simp)]
          exact Courses.pure ⟨by simp [Arising], by simp [Numbering, hconstant]⟩
      | false =>
          have hnames : freeNames table (some (name, i)).toList = [name.raw] := by
            simp [freeNames, hconstant]
          have hdeclared : name.raw ∈ (table.declareArea name.raw).areas :=
            SymbolTable.mem_areas_declareArea.2 (Or.inr rfl)
          obtain ⟨area, harea⟩ := SymbolTable.exists_areaId? hdeclared
          rw [hnames, if_neg (by simpa using hword)]
          simp only [Ends.bind_iff, Ends.modify_iff, Ends.get_iff, harea]
          exact (numberArea_courses (hplace _ rfl) harea).after (.declareArea hconstant)
    · have hskipped : (name.kind != .word || table.isConstant name.raw) = true := by
        simp_all [bne]
      rw [if_neg hword, if_pos hskipped]
      exact Courses.pure ⟨by simp [Arising], by simp [Numbering]⟩
  · next hnone =>
    have hnowhere : (skipOperands coordinates rest).bind headName? = none := by
      cases hskip : skipOperands coordinates rest with
      | none => rfl
      | some left =>
          cases left with
          | nil => rfl
          | cons here more => exact (hnone here.1 here.2 more hskip).elim
    rw [hnowhere]
    exact .pure ⟨by simp [Arising], by simp [Numbering]⟩

theorem referArea_courses (hplace : ∀ place ∈ headName? rest, AreaPlace row place) :
    Courses (referArea rest) table [] fun edit table' => Arising row edit table' ∧
      Numbering (headName? rest) edit table' := by
  rw [referArea.eq_def]
  split
  · next name i more =>
    rw [headName?] at hplace ⊢
    by_cases hword : (name.kind == .word) = true
    · rw [if_pos hword] at hplace ⊢
      rw [if_neg (by simpa using hword)]
      simp only [Courses, Ends.bind_iff, Ends.get_iff]
      split
      · next area harea => exact numberArea_courses (hplace _ rfl) harea
      split
      · next hconstant => exact Courses.pure ⟨by simp [Arising], by simp [Numbering, hconstant]⟩
      · exact ⟨[], List.prefix_rfl, .refl table⟩
    · rw [if_neg hword, if_pos (by simpa using hword)]
      exact .pure (by simp [Arising, Numbering])
  · exact .pure (by simp [Arising, Numbering, headName?])

/-- No command both declares an area and uses one. -/
theorem isAreaReference_of_declaration {command : Text} {coordinates : Nat}
    (h : areaDeclaration? command = some coordinates) : isAreaReference command = false := by
  rw [areaDeclaration?] at h
  split at h
  · next hcommand =>
    rw [beq_iff_eq.1 hcommand]
    decide
  split at h
  · next hcommand =>
    rw [beq_iff_eq.1 hcommand]
    decide
  · cases h

theorem Numbering.none (edit : Option Edit) (table : SymbolTable) :
    Numbering none edit table := by simp [Numbering]

/-- What the edit does that a token calls for. -/
structure CalledFor (row : List Indexed) (t : Token) (rest : List Indexed) (edit : Option Edit)
    (table : SymbolTable) : Prop where
  arises : Arising row edit table
  declares : Numbering (declaredPlace? t rest) edit table
  uses : Numbering (usedPlace? t rest) edit table
  settles : isConst t = true → ∀ name k more, rest = (name, k) :: more → name.kind = .word →
    Settles table edit.toList more

theorem editAt_courses {tokens : List Token} {t : Token} {k : Nat}
    (hrow : (t, k) :: rest <:+ indexed tokens) :
    Courses (editAt t rest) table (freeNames table (declaredPlace? t rest).toList)
      (CalledFor (indexed tokens) t rest) := by
  rw [editAt.eq_def]
  split
  · next hconst =>
    have hkind : t.kind = .directive := by
      rw [isConst, Bool.and_eq_true, beq_iff_eq] at hconst
      exact hconst.1
    have hdeclared : declaredPlace? t rest = none := by simp [declaredPlace?, hkind]
    have hused : usedPlace? t rest = none := by simp [usedPlace?, hkind]
    rw [hdeclared]
    have hnothing {edit : Option Edit} {table' : SymbolTable}
        (h : Arising (indexed tokens) edit table')
        (hsettles : ∀ name k more, rest = (name, k) :: more → name.kind = .word →
          Settles table' edit.toList more) :
        CalledFor (indexed tokens) t rest edit table' :=
      ⟨h, hdeclared ▸ .none _ _, hused ▸ .none _ _, fun _ => hsettles⟩
    split
    · next name i more =>
      split
      · next hname =>
        have hplace : OperandPlace (indexed tokens) more :=
          ⟨t, k, name, i, hrow, hconst, beq_iff_eq.1 hname⟩
        apply (foldDeclaration_courses name hplace).weaken
        rintro edit table' - ⟨harising, hsettles⟩
        refine hnothing harising ?_
        rintro _ _ _ ⟨⟩ -
        exact hsettles
      · next hname =>
        refine .pure (hnothing (by simp [Arising]) ?_)
        rintro _ _ _ ⟨⟩ hword
        exact absurd (beq_iff_eq.2 hword) hname
    · exact .pure (hnothing (by simp [Arising]) (by simp))
  next hconst =>
  have hsettles (edit : Option Edit) (table' : SymbolTable) : isConst t = true →
      ∀ name k more, rest = (name, k) :: more → name.kind = .word →
        Settles table' edit.toList more := fun h => absurd h hconst
  split
  · next hword =>
    have hkind : (t.kind == .word) = false := by simpa [bne] using hword
    have hdeclared : declaredPlace? t rest = none := by simp [declaredPlace?, hkind]
    have hused : usedPlace? t rest = none := by simp [usedPlace?, hkind]
    rw [hdeclared]
    exact .pure ⟨by simp [Arising], hdeclared ▸ .none _ _, hused ▸ .none _ _, hsettles _ _⟩
  next hword =>
  have hkind : (t.kind == .word) = true := by simpa [bne] using hword
  split
  · next coordinates hcommand =>
    have hdeclared : declaredPlace? t rest = (skipOperands coordinates rest).bind headName? := by
      rw [declaredPlace?, if_pos hkind, hcommand]
      rfl
    have hused : usedPlace? t rest = none := by
      rw [usedPlace?, isAreaReference_of_declaration hcommand, Bool.and_false]
      rfl
    rw [hdeclared]
    have hplace : ∀ place ∈ (skipOperands coordinates rest).bind headName?,
        AreaPlace (indexed tokens) place := by
      intro place h
      exact ⟨t, k, rest, hrow, Or.inl (hdeclared.trans h)⟩
    apply (declareArea_courses hplace).weaken
    exact fun edit table' _ h => ⟨h.1, hdeclared ▸ h.2, hused ▸ .none _ _, hsettles _ _⟩
  · next hcommand =>
    have hdeclared : declaredPlace? t rest = none := by
      rw [declaredPlace?, if_pos hkind, hcommand]
      rfl
    rw [hdeclared]
    split
    · next hreference =>
      have hused : usedPlace? t rest = headName? rest := by
        rw [usedPlace?, hkind, hreference]
        rfl
      have hplace : ∀ place ∈ headName? rest, AreaPlace (indexed tokens) place := by
        intro place h
        exact ⟨t, k, rest, hrow, Or.inr (hused.trans h)⟩
      apply (referArea_courses hplace).weaken
      exact fun edit table' _ h => ⟨h.1, hdeclared ▸ .none _ _, hused ▸ h.2, hsettles _ _⟩
    · next hreference =>
      have hused : usedPlace? t rest = none := by
        rw [usedPlace?, if_neg (by simp [hreference])]
      exact .pure ⟨by simp [Arising], hdeclared ▸ .none _ _, hused ▸ .none _ _, hsettles _ _⟩

end

/-- The edits of a row number the places of areas in it, but for constants. -/
def NumbersAll (row : List Indexed) (edits : List Edit) (table : SymbolTable) : Prop :=
  ∀ place, AreaPlace row place → table.isConstant place.1.raw = false →
    ∃ e ∈ edits, e.Numbers table place

theorem Arising.grow {row : List Indexed} {edit : Option Edit} {table table' : SymbolTable}
    (h : Arising row edit table) (hgrows : table.Grows table') : Arising row edit table' :=
  fun e he => (h e he).grow hgrows

theorem Numbering.grow {place? : Option Indexed} {edit : Option Edit} {table table' : SymbolTable}
    (h : Numbering place? edit table) (hgrows : table.Grows table') :
    Numbering place? edit table' := by
  intro place hplace hfree
  rw [hgrows.isConstant] at hfree
  obtain ⟨e, he, hnumbers⟩ := h place hplace hfree
  exact ⟨e, he, hnumbers.grow hgrows⟩

theorem CalledFor.grow {row rest : List Indexed} {t : Token} {edit : Option Edit}
    {table table' : SymbolTable} (h : CalledFor row t rest edit table)
    (hgrows : table.Grows table') : CalledFor row t rest edit table' where
  arises := h.arises.grow hgrows
  declares := h.declares.grow hgrows
  uses := h.uses.grow hgrows
  settles hconst name k more hrest hname :=
    (h.settles hconst name k more hrest hname).grow hgrows (List.Subset.refl _)

/-- What the edits do that the end of a row calls for. -/
structure EditsOf (row rest : List Indexed) (edits : List Edit) (table : SymbolTable) : Prop where
  arises : ∀ e ∈ edits, e.Arises table row
  numbers : NumbersAll rest edits table
  settles : ∀ more, OperandPlace rest more → Settles table edits more

section
variable {row rest : List Indexed} {table table' : SymbolTable}

theorem EditsOf.nil (row : List Indexed) (table : SymbolTable) : EditsOf row [] [] table where
  arises := by simp
  numbers := by
    rintro place ⟨t, k, rest, hsuffix, -⟩
    exact absurd (List.suffix_nil.1 hsuffix) (by simp)
  settles := by
    rintro more ⟨c, j, name, k, hsuffix, -⟩
    exact absurd (List.suffix_nil.1 hsuffix) (by simp)

/-- One token more, and the edit that it calls for. -/
theorem EditsOf.cons {t : Token} {here : Option Edit} {later : List Edit}
    (h : EditsOf row rest later table) (hhere : CalledFor row t rest here table) (k : Nat) :
    EditsOf row ((t, k) :: rest) (here.toList ++ later) table where
  arises := by
    intro e he
    rcases List.mem_append.1 he with he | he
    · exact hhere.arises e (Option.mem_toList.1 he)
    · exact h.arises e he
  numbers := by
    rintro place ⟨u, j, others, hsuffix, hplace⟩ hfree
    rcases List.suffix_cons_iff.1 hsuffix with heq | hsuffix
    · obtain ⟨hhead, rfl⟩ := List.cons.inj heq
      obtain ⟨rfl, rfl⟩ := Prod.mk.inj hhead
      obtain ⟨e, he, hnumbers⟩ : ∃ e ∈ here, e.Numbers table place := by
        rcases hplace with hdeclared | hused
        · exact hhere.declares place hdeclared hfree
        · exact hhere.uses place hused hfree
      exact ⟨e, List.mem_append_left _ (Option.mem_toList.2 he), hnumbers⟩
    · obtain ⟨e, he, hnumbers⟩ := h.numbers place ⟨u, j, others, hsuffix, hplace⟩ hfree
      exact ⟨e, List.mem_append_right _ he, hnumbers⟩
  settles := by
    rintro more ⟨c, j, name, i, hsuffix, hconst, hname⟩
    rcases List.suffix_cons_iff.1 hsuffix with heq | hsuffix
    · obtain ⟨hhead, hrest⟩ := List.cons.inj heq
      obtain ⟨rfl, rfl⟩ := Prod.mk.inj hhead
      exact (hhere.settles hconst name i more hrest.symm hname).grow (.refl table)
        (List.subset_append_left _ _)
    · exact (h.settles more ⟨c, j, name, i, hsuffix, hconst, hname⟩).grow (.refl table)
        (List.subset_append_right _ _)

theorem EditsOf.grow {edits : List Edit} (h : EditsOf row rest edits table)
    (hgrows : table.Grows table') : EditsOf row rest edits table' where
  arises e he := (h.arises e he).grow hgrows
  numbers := by
    intro place hplace hfree
    rw [hgrows.isConstant] at hfree
    obtain ⟨e, he, hnumber⟩ := h.numbers place hplace hfree
    exact ⟨e, he, hnumber.grow hgrows⟩
  settles more hplace := (h.settles more hplace).grow hgrows (List.Subset.refl _)

end

theorem edits_courses {tokens : List Token} {row : List Indexed} (hrow : row <:+ indexed tokens)
    (table : SymbolTable) :
    Courses (edits row) table (freeNames table (declaredPlaces row))
      (EditsOf (indexed tokens) row) := by
  induction row generalizing table with
  | nil => exact .pure (.nil _ _)
  | cons x rest ih =>
      obtain ⟨t, k⟩ := x
      have hrest : rest <:+ indexed tokens := (List.suffix_cons _ _).trans hrow
      have hnames : freeNames table (declaredPlaces ((t, k) :: rest)) =
          freeNames table (declaredPlace? t rest).toList ++
            (freeNames table (declaredPlaces rest) ++ []) := by
        simp [freeNames, declaredPlaces]
      rw [hnames, edits]
      refine (editAt_courses hrow).bind fun here table₁ hcourse₁ => ?_
      rw [← freeNames_grow hcourse₁.grows]
      refine (ih hrest table₁).bind fun later table₂ hcourse₂ => .pure ?_
      exact fun hlater hhere => hlater.cons (hhere.grow hcourse₂.grows) k

/-! ### Rows and scripts -/

/-- An edit stands in a place alone if all others that cover it are the same. -/
theorem Edit.resultAt_of_forall_eq {edits : List Edit} {e : Edit} (he : e ∈ edits) {i : Nat}
    (hfirst : e.first = i) (hcovers : e.covers i = true)
    (h : ∀ e' ∈ edits, e'.covers i = true → e' = e) (t : Token) :
    resultAt edits t i = [e.replacement] := by
  rw [resultAt]
  split
  · next hnone =>
    exact absurd hcovers (List.find?_eq_none.1 hnone e (List.mem_reverse.2 he))
  · next e' hentered =>
    obtain rfl := h e' (List.mem_reverse.1 (List.mem_of_find?_eq_some hentered))
      (by simpa using List.find?_some hentered)
    rw [if_pos hfirst]

/-- A row after the edits that it calls for, each of which encloses what it replaces. -/
def RowEdited (table : SymbolTable) (tokens out : List Token) : Prop :=
  ∃ edits, out = Edit.applyAll edits tokens ∧ (∀ e ∈ edits, e.Encloses tokens) ∧
    EditsOf (indexed tokens) (indexed tokens) edits table

theorem RowEdited.grow {table table' : SymbolTable} {tokens out : List Token}
    (h : RowEdited table tokens out) (hgrows : table.Grows table') :
    RowEdited table' tokens out := by
  obtain ⟨edits, hout, hencloses, hedits⟩ := h
  exact ⟨edits, hout, hencloses, hedits.grow hgrows⟩

theorem resolveTokens_edited (tokens : List Token) (table : SymbolTable) :
    Courses (resolveTokens tokens) table (areasIn table [tokens]) fun out table' =>
      RowEdited table' tokens out := by
  have hnames : areasIn table [tokens] = freeNames table (declaredPlaces (indexed tokens)) := by
    simp [areasIn]
  rw [hnames, resolveTokens, Courses, Ends.bind_iff]
  have hcourses := edits_courses (List.suffix_refl (indexed tokens)) table
  have hencloses := Edit.edits_encloses (List.suffix_refl (indexed tokens)) table
  apply (Ends.and hcourses hencloses).mono
  · rintro edits table' ⟨⟨hcourse, hedits⟩, hencloses⟩
    exact ⟨hcourse, fun hsound => ⟨edits, rfl, hencloses, hedits hsound⟩⟩
  · exact fun _ _ h => h.1

theorem checkArguments_courses (args : List (List Token)) (table : SymbolTable) :
    Courses (checkArguments args) table [] fun _ _ => True := by
  rw [checkArguments]
  simp only [Courses, Ends.bind_iff, Ends.get_iff]
  induction args with
  | nil => exact ⟨.refl table, fun _ => trivial⟩
  | cons arg args ih =>
      rw [List.forM_eq_forM, List.forM_cons, Ends.bind_iff, Ends.lift_iff]
      exact ⟨fun _ _ => ih, fun _ _ => ⟨[], List.prefix_rfl, .refl table⟩⟩

theorem areasIn_append (table : SymbolTable) (rows rows' : List (List Token)) :
    areasIn table (rows ++ rows') = areasIn table rows ++ areasIn table rows' :=
  List.flatMap_append

theorem areasIn_grow {table table' : SymbolTable} (h : table.Grows table')
    (rows : List (List Token)) : areasIn table' rows = areasIn table rows := by
  simp only [areasIn, freeNames_grow h]

/-- Resolving a row brings the relation about, which goes on to hold. -/
structure Establishes (R : SymbolTable → List Token → List Token → Prop) : Prop where
  row : ∀ tokens table, Courses (resolveTokens tokens) table (areasIn table [tokens])
    fun out table' => R table' tokens out
  grow : ∀ table table' tokens out, R table tokens out → table.Grows table' → R table' tokens out

theorem establishes_edited : Establishes RowEdited := ⟨resolveTokens_edited, fun _ _ _ _ => .grow⟩

section
variable {R : SymbolTable → List Token → List Token → Prop} (h : Establishes R)
include h

mutual

theorem resolveNode_courses (n : Node) (table : SymbolTable) :
    Courses (resolveNode n) table (areasIn table (nodeGroups n)) fun out table' =>
      List.Forall₂ (R table') (nodeGroups n) (nodeGroups out) := by
  match n with
  | .run r =>
      rw [resolveNode, nodeGroups, ← List.append_nil (areasIn _ _)]
      refine (h.row r.tokens table).bind fun out table' _ => .pure ?_
      exact fun hout => .cons hout .nil
  | .marker m span =>
      rw [resolveNode]
      exact .pure .nil
  | .header h =>
      rw [resolveNode]
      exact .pure .nil
  | .repeated args children openSpan span =>
      rw [resolveNode, nodeGroups, ← List.nil_append (areasIn _ _)]
      refine (checkArguments_courses args table).bind fun _ table₁ hcourse₁ => ?_
      rw [← areasIn_grow hcourse₁.grows, ← List.append_nil (areasIn _ _)]
      refine (resolveNodes_courses children table₁).bind fun out table₂ _ => .pure ?_
      exact fun hout _ => hout
  | .call c =>
      rw [resolveNode.eq_def, nodeGroups, ← List.nil_append (areasIn _ _)]
      refine (checkArguments_courses c.args table).bind fun _ table₁ hcourse₁ => ?_
      rw [← areasIn_grow hcourse₁.grows]
      cases hbody : c.body with
      | none =>
          refine .pure fun _ => ?_
          rw [nodeGroups, hbody]
          exact .nil
      | some body =>
          rw [← List.append_nil (areasIn _ _)]
          refine (h.row body table₁).bind fun out table₂ _ => .pure ?_
          exact fun hout _ => .cons hout .nil

/-- What is brought about in every row that is resolved holds of all of them. -/
theorem resolveNodes_courses (ns : List Node) (table : SymbolTable) :
    Courses (resolveNodes ns) table (areasIn table (groups ns)) fun out table' =>
      List.Forall₂ (R table') (groups ns) (groups out) := by
  match ns with
  | [] =>
      rw [resolveNodes]
      exact .pure .nil
  | n :: ns =>
      rw [resolveNodes, groups, areasIn_append, ← List.append_nil (areasIn table (groups ns))]
      refine (resolveNode_courses n table).bind fun out table₁ hcourse₁ => ?_
      rw [← areasIn_grow hcourse₁.grows]
      refine (resolveNodes_courses ns table₁).bind fun outs table₂ hcourse₂ => .pure ?_
      intro houts hout
      rw [groups]
      exact List.rel_append (hout.imp fun _ _ hrow => h.grow _ _ _ _ hrow hcourse₂.grows) houts

end

end

end Resolve

/-- The areas that a script declares, in order: the names that are no constants once all
its constants are. -/
def Script.areasIn (s : Script Node) (table : SymbolTable) : List Text :=
  Resolve.areasIn (Resolve.declare table s.parts) (Resolve.groups s.parts)

/-- Constants are declared beside the areas. -/
theorem Resolve.declare_numberedAreas (table : SymbolTable) (nodes : List Node) :
    (declare table nodes).numberedAreas = table.numberedAreas ∧
      (declare table nodes).areaBase = table.areaBase := by
  obtain ⟨constants, hdeclare⟩ := declare_eq table nodes
  rw [hdeclare]
  exact ⟨rfl, rfl⟩

theorem Resolve.declare_areas (table : SymbolTable) (nodes : List Node) :
    (declare table nodes).areas = table.areas := by
  rw [SymbolTable.areas, SymbolTable.areas, (declare_numberedAreas table nodes).1]

/-- What is brought about in every row that is resolved holds of the rows of a script. -/
theorem Script.resolve_rows {R : SymbolTable → List Token → List Token → Prop}
    (h : Resolve.Establishes R) (s : Script Node) (table : SymbolTable) :
    Ends s.resolve table
      (fun out last =>
        (Resolve.declare table s.parts).Course (s.areasIn table) last ∧
          (Sound (Resolve.declare table s.parts) (Resolve.declare table s.parts).values →
            List.Forall₂ (R last) (Resolve.groups s.parts) (Resolve.groups out.parts)))
      (fun _ last => ∃ entered, entered <+: s.areasIn table ∧
        (Resolve.declare table s.parts).Course entered last) := by
  rw [resolve]
  simp only [Ends.bind_iff, Ends.modify_iff, Ends.pure_iff]
  exact Resolve.resolveNodes_courses h s.parts _

end MapScript
