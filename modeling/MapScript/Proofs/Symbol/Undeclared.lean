import MapScript.Proofs.Symbol.Cycle
import MapScript.Proofs.Symbol.Remaining

/-!
# Names that are declared nowhere

A script mentions names in four ways: it declares an area, it uses one, it gives a
constant an operand, and it gives a block or a call an argument.  Constants are known
everywhere, an area from its declaration on.  A script is refused for want of a
declaration exactly if a mention needs a name that is not known by then, and the operand
of a constant needs, besides the names in it, whatever the constants among them need.
-/

namespace MapScript

open Evaluation (Sound HasValue Assigns Refers require check)

/-- The failure is the refusal of a name that is not declared. -/
def Failure.Undeclared (e : Failure) : Prop := ∃ r, e = .report r ∧ r.cause.kind = .unresolved

theorem Failure.not_undeclared_fault (f : Fault) : ¬ (Failure.fault f).Undeclared := by
  rintro ⟨r, hr, -⟩
  cases hr

/-! ### What a search needs -/

namespace Evaluation

variable {table : SymbolTable}

/-- What a name with a value needs has a value. -/
theorem HasValue.exists_of_refers {name other : Text} {value : Option Number}
    (h : HasValue table name value) (hneeds : Relation.ReflTransGen (Refers table) name other) :
    ∃ value', HasValue table other value' := by
  induction hneeds with
  | refl => exact ⟨value, h⟩
  | tail _ hrefers ih =>
      obtain ⟨value', hmid⟩ := ih
      obtain ⟨ds, hknown, declaration, hd, ref, href, rfl⟩ := hrefers
      cases hmid with
      | outside _ hunknown => simp [hunknown] at hknown
      | constant hknown' hneeds' =>
          obtain rfl := Option.some.inj (hknown.symm.trans hknown')
          exact ⟨_, hneeds' declaration hd ref href⟩

/-- A name that is neither a constant nor an area. -/
def Unknown (table : SymbolTable) (name : Text) : Prop :=
  table.isConstant name = false ∧ name ∉ table.areas

theorem unknown_of_require {ref : Token} {e : Failure} (h : require table ref = .error e) :
    Unknown table ref.raw := by
  have hnot : ¬ (table.isConstant ref.raw = true ∨ ref.raw ∈ table.areas) := by
    rw [← require_ok_iff, h]
    simp
  rw [not_or, Bool.not_eq_true] at hnot
  exact hnot

/-- A name from which an unknown one is needed. -/
def LeadsOut (table : SymbolTable) (name : Text) : Prop :=
  ∃ other, Relation.ReflTransGen (Refers table) name other ∧ Unknown table other

theorem LeadsOut.of_refers {c d : Text} (hrefers : Refers table c d) (h : LeadsOut table d) :
    LeadsOut table c := by
  obtain ⟨other, hneeds, hunknown⟩ := h
  exact ⟨other, .head hrefers hneeds, hunknown⟩

/-- A search that refuses a name was asked for one from which an unknown one is needed. -/
theorem search_leadsOut (table : SymbolTable) :
    (∀ stack refs memo, Ends (valuesOf table stack refs) memo (fun _ _ => True)
      (fun e _ => e.Undeclared → ∃ ref ∈ refs, LeadsOut table ref.raw)) ∧
    (∀ stack ref memo, Ends (valueOf table stack ref) memo (fun _ _ => True)
      (fun e _ => e.Undeclared → LeadsOut table ref.raw)) ∧
    (∀ stack name declarations memo, Ends (foldAll table stack name declarations) memo
      (fun _ _ => True)
      (fun e _ => e.Undeclared → ∃ d ∈ declarations, ∃ ref ∈ Operand.references d.operand,
        LeadsOut table ref.raw)) := by
  apply valuesOf.mutual_induct table
  case case1 =>
    intro stack memo
    rw [valuesOf]
    trivial
  case case2 =>
    intro stack ref rest href hrest memo
    rw [valuesOf]
    simp only [Ends.bind_iff, Ends.pure_iff]
    apply (href memo).mono
    · intro value memo₁ _
      apply (hrest memo₁).mono
      · exact fun _ _ _ => trivial
      · intro e memo₂ he hundeclared
        obtain ⟨r, hr, hleads⟩ := he hundeclared
        exact ⟨r, List.mem_cons_of_mem ref hr, hleads⟩
    · intro e memo₁ he hundeclared
      exact ⟨ref, List.mem_cons_self, he hundeclared⟩
  case case3 =>
    intro stack ref ih memo
    rw [valueOf]
    simp only [Ends.bind_iff, Ends.lift_iff, Ends.get_iff]
    refine ⟨?_, fun e he _ => ⟨ref.raw, .refl, unknown_of_require he⟩⟩
    rintro ⟨⟩ -
    split
    · trivial
    split
    · trivial
    next declarations hknown =>
      split
      · next hfresh =>
        simp only [Ends.bind_iff, Ends.modify_iff, Ends.pure_iff]
        apply (ih declarations hknown hfresh memo).mono
        · exact fun _ _ _ => trivial
        · intro e memo₁ he hundeclared
          obtain ⟨d, hd, r, hr, hleads⟩ := he hundeclared
          exact hleads.of_refers ⟨declarations, hknown, d, hd, r, hr, rfl⟩
      · rintro ⟨r, hr, hkind⟩
        unfold cycle at hr
        split at hr <;> cases hr <;> cases hkind
  case case4 =>
    intro stack name memo
    rw [foldAll]
    trivial
  case case5 =>
    intro stack name d rest hvalues hrest memo
    rw [foldAll]
    simp only [Ends.bind_iff, Ends.pure_iff]
    apply (hvalues memo).mono
    · intro values memo₁ _
      rw [foldExpression_ends_iff]
      refine ⟨fun value _ => ?_, fun f _ hf => (Failure.not_undeclared_fault f hf).elim⟩
      apply (hrest memo₁).mono
      · exact fun _ _ _ => trivial
      · intro e memo₂ he hundeclared
        obtain ⟨d', hd', hleads⟩ := he hundeclared
        exact ⟨d', List.mem_cons_of_mem d hd', hleads⟩
    · intro e memo₁ he hundeclared
      exact ⟨d, List.mem_cons_self, he hundeclared⟩

theorem fold_leadsOut (table : SymbolTable) (stack : List Frame) (operand : List Token)
    (memo : Memo) :
    Ends (fold table stack operand) memo (fun _ _ => True)
      (fun e _ => e.Undeclared → ∃ ref ∈ Operand.references operand, LeadsOut table ref.raw) := by
  rw [fold, Ends.bind_iff]
  apply ((search_leadsOut table).1 stack _ memo).weaken
  intro values memo₁ _
  rw [foldExpression_ends_iff]
  exact ⟨fun _ _ => trivial, fun f _ hf => (Failure.not_undeclared_fault f hf).elim⟩

end Evaluation

/-! ### Mentions -/

namespace Resolve

open Evaluation (Unknown LeadsOut)

/-- What a place of a script has to do with names. -/
inductive Mention where
  /-- An area is declared. -/
  | declares (area : Text)
  /-- A constant is declared with an operand. -/
  | operand (tokens : List Token)
  /-- A repeated block or a call has an argument. -/
  | argument (tokens : List Token)
  /-- An area is used. -/
  | uses (area : Text)

namespace Mention

/-- The area that is declared, if one is. -/
def area? : Mention → Option Text
  | declares area => some area
  | _ => none

/-- The names that are used as values or areas. -/
def names : Mention → List Text
  | declares _ => []
  | operand tokens | argument tokens => (Operand.references tokens).map fun ref => ref.raw
  | uses area => [area]

/-- The names that must be known: those that are used, and in an operand also those that
constants refer to from there. -/
def Needs (refers : Text → Text → Prop) (m : Mention) (name : Text) : Prop :=
  match m with
  | operand _ => ∃ used ∈ m.names, Relation.ReflTransGen refers used name
  | _ => name ∈ m.names

theorem Needs.of_mem {refers : Text → Text → Prop} {m : Mention} {name : Text}
    (h : name ∈ m.names) : m.Needs refers name := by
  cases m with
  | operand tokens => exact ⟨name, h, .refl⟩
  | declares _ | argument _ | uses _ => exact h

end Mention

/-- The areas that mentions declare. -/
def areasOf (ms : List Mention) : List Text := ms.filterMap Mention.area?

/-- One of the mentions needs a name that is neither a constant nor an area by then, some
areas being known before. -/
def Lacks (table : SymbolTable) (areas : List Text) (ms : List Mention) : Prop :=
  ∃ before m after, ms = before ++ m :: after ∧ ∃ name, m.Needs (Refers table) name ∧
    table.isConstant name = false ∧ name ∉ areas ++ areasOf before

section
variable {table table' : SymbolTable} {areas areas' : List Text} {ms ms' : List Mention}

theorem not_lacks_nil : ¬ Lacks table areas [] := by
  rintro ⟨before, m, after, hsplit, -⟩
  simp at hsplit

theorem lacks_singleton {m : Mention} : Lacks table areas [m] ↔
    ∃ name, m.Needs (Refers table) name ∧ table.isConstant name = false ∧ name ∉ areas := by
  constructor
  · rintro ⟨before, m', after, hsplit, name, hneeds, hconstant, harea⟩
    obtain ⟨rfl, hm⟩ | ⟨-, hnil⟩ := List.append_eq_singleton_iff.1 hsplit.symm
    · obtain ⟨rfl, -⟩ := List.cons.inj hm
      exact ⟨name, hneeds, hconstant, by simpa [areasOf] using harea⟩
    · cases hnil
  · rintro ⟨name, hneeds, hconstant, harea⟩
    exact ⟨[], m, [], rfl, name, hneeds, hconstant, by simpa [areasOf] using harea⟩

theorem lacks_append : Lacks table areas (ms ++ ms') ↔
    Lacks table areas ms ∨ Lacks table (areas ++ areasOf ms) ms' := by
  constructor
  · rintro ⟨before, m, after, hsplit, name, hneeds, hconstant, harea⟩
    rcases List.append_eq_append_iff.1 hsplit with ⟨more, rfl, hrest⟩ | ⟨more, rfl, hrest⟩
    · refine Or.inr ⟨more, m, after, hrest, name, hneeds, hconstant, ?_⟩
      simpa [areasOf] using harea
    · cases more with
      | nil =>
          refine Or.inr ⟨[], m, after, hrest.symm, name, hneeds, hconstant, ?_⟩
          simpa [areasOf] using harea
      | cons m' more =>
          obtain ⟨rfl, -⟩ := List.cons.inj hrest
          exact Or.inl ⟨before, m, more, rfl, name, hneeds, hconstant, harea⟩
  · rintro (⟨before, m, after, rfl, hname⟩ | ⟨before, m, after, rfl, hname⟩)
    · exact ⟨before, m, after ++ ms', by simp, hname⟩
    · refine ⟨ms ++ before, m, after, by simp, ?_⟩
      simpa [areasOf] using hname

/-- Only constants, what they refer to and other areas count. -/
theorem lacks_congr (hextends : table.Extends table')
    (hareas : ∀ name, table.isConstant name = false → (name ∈ areas' ↔ name ∈ areas)) :
    Lacks table' areas' ms ↔ Lacks table areas ms := by
  have hrefers : Refers table' = Refers table := by
    funext c d
    rw [Refers, Refers, hextends.constants]
  unfold Lacks
  simp only [hrefers, hextends.isConstant, List.mem_append]
  constructor
  · rintro ⟨before, m, after, hsplit, name, hneeds, hconstant, harea⟩
    rw [hareas name hconstant] at harea
    exact ⟨before, m, after, hsplit, name, hneeds, hconstant, harea⟩
  · rintro ⟨before, m, after, hsplit, name, hneeds, hconstant, harea⟩
    rw [← hareas name hconstant] at harea
    exact ⟨before, m, after, hsplit, name, hneeds, hconstant, harea⟩

end

/-- The way of a table on which areas are declared by mentions that lack nothing. -/
structure Meets (table : SymbolTable) (ms : List Mention) (table' : SymbolTable) : Prop where
  grows : table.Grows table'
  sound : Sound table' table'.values
  areas : ∀ name, table.isConstant name = false →
    (name ∈ table'.areas ↔ name ∈ table.areas ++ areasOf ms)
  complete : ¬ Lacks table table.areas ms

/-- The computation makes the mentions: if it succeeds they lack nothing, and if it
refuses a name they lack one. -/
def Makes {α : Type} (x : Resolving α) (ms : List Mention) : Prop :=
  ∀ table, Sound table table.values → Ends x table (fun _ table' => Meets table ms table')
    (fun e _ => e.Undeclared → Lacks table table.areas ms)

section
variable {α β : Type} {table table' table'' : SymbolTable} {ms ms' : List Mention}

theorem Meets.refl (h : Sound table table.values) : Meets table [] table :=
  ⟨.refl table, h, by simp [areasOf], not_lacks_nil⟩

theorem Meets.lacks_iff (h : Meets table ms table') :
    Lacks table' table'.areas ms' ↔ Lacks table (table.areas ++ areasOf ms) ms' :=
  lacks_congr h.grows.toExtends h.areas

theorem Meets.append (h : Meets table ms table') (h' : Meets table' ms' table'') :
    Meets table (ms ++ ms') table'' where
  grows := h.grows.trans h'.grows
  sound := h'.sound
  areas := by
    intro name hname
    rw [h'.areas name (by rw [h.grows.isConstant, hname]), List.mem_append, h.areas name hname,
      areasOf, areasOf, areasOf, List.filterMap_append, List.mem_append, List.mem_append,
      List.mem_append, or_assoc]
  complete := by
    rw [lacks_append, not_or, ← h.lacks_iff]
    exact ⟨h.complete, h'.complete⟩

theorem Makes.pure (a : α) : Makes (pure a : Resolving α) [] := fun _ hsound => .refl hsound

theorem Makes.bind {x : Resolving α} {f : α → Resolving β} (h : Makes x ms)
    (hf : ∀ a, Makes (f a) ms') : Makes (x >>= f) (ms ++ ms') := by
  intro table hsound
  rw [Ends.bind_iff]
  apply (h table hsound).mono
  · intro a table₁ hmeets
    apply (hf a table₁ hmeets.sound).mono
    · intro b table₂ hmeets'
      exact hmeets.append hmeets'
    · intro e table₂ he hundeclared
      exact lacks_append.2 (Or.inr (hmeets.lacks_iff.1 (he hundeclared)))
  · intro e table₁ he hundeclared
    exact lacks_append.2 (Or.inl (he hundeclared))

end

/-! ### Rows -/

/-- A mention that declares no area and needs only what is known. -/
theorem Meets.single {m : Mention} {table table' : SymbolTable} (hgrows : table.Grows table')
    (hsound : Sound table' table'.values) (hareas : table'.areas = table.areas)
    (hm : m.area? = none) (hknown : ∀ name, m.Needs (Refers table) name →
      table.isConstant name = true ∨ name ∈ table.areas) : Meets table [m] table' where
  grows := hgrows
  sound := hsound
  areas := by
    intro name _
    rw [hareas, areasOf, List.filterMap_cons_none hm, List.filterMap_nil, List.append_nil]
  complete := by
    rw [lacks_singleton]
    rintro ⟨name, hneeds, hconstant, harea⟩
    rcases hknown name hneeds with h | h
    · simp [hconstant] at h
    · exact harea h

theorem check_lacks {table : SymbolTable} {tokens : List Token} {e : Failure} {m : Mention}
    (hm : m.names = (Operand.references tokens).map fun ref => ref.raw)
    (h : check table tokens = .error e) : Lacks table table.areas [m] := by
  obtain ⟨ref, href, hrequire⟩ := forM_eq_error h
  rw [lacks_singleton]
  refine ⟨ref.raw, .of_mem ?_, Evaluation.unknown_of_require hrequire⟩
  rw [hm]
  exact List.mem_map_of_mem href

theorem foldDeclaration_makes (name : Token) (rest : List Indexed) :
    Makes (foldDeclaration name rest) [.operand (operandOf (rest.map Prod.fst))] := by
  intro table hsound
  rw [foldDeclaration]
  split
  · next hnone =>
    refine .single (.refl table) hsound rfl rfl ?_
    rintro other ⟨used, hused, -⟩
    simp [Mention.names, operandOf, hnone, Operand.references] at hused
  next n hn =>
    have hoperand : operandOf (rest.map Prod.fst) = (rest.take n).map Prod.fst := by
      simp [operandOf, hn]
    rw [hoperand]
    simp only [Ends.bind_iff, Ends.get_iff, Ends.lift_iff, Resolving.evaluate_ends_iff]
    refine ⟨?_, fun e he _ => check_lacks rfl he⟩
    rintro ⟨⟩ -
    rw [Evaluation.foldDeclaration]
    refine Ends.of_run ?_ ?_
    · intro value memo hrun
      have hmemo := ((Evaluation.fold_ends table _ _ table.values).of_run_ok hrun).1
      obtain ⟨hfound, values, hassigns, -⟩ := (Evaluation.fold_sound hsound _ _).of_run_ok hrun
      have hgrows := SymbolTable.Grows.of_values hmemo
      have hmeets : Meets table [.operand ((rest.take n).map Prod.fst)]
          { table with values := memo } := by
        refine .single hgrows (hfound.grow hgrows) rfl rfl ?_
        rintro other ⟨used, hused, hneeds⟩
        obtain ⟨ref, href, rfl⟩ := List.mem_map.1 hused
        obtain ⟨value', hvalue'⟩ := (hassigns ref href).exists_of_refers hneeds
        exact hvalue'.declared
      split
      · split
        · exact hmeets
        · rw [Ends.map_iff]
          apply (replaceBy_traces _ _ _ _ _).mono
          · rintro edit table' ⟨rfl, -⟩
            exact hmeets
          · rintro e table' ⟨f, -, rfl⟩ hundeclared
            exact (Failure.not_undeclared_fault f hundeclared).elim
      · exact hmeets
    · intro e memo hrun hundeclared
      obtain ⟨ref, href, other, hneeds, hunknown⟩ :=
        (Evaluation.fold_leadsOut table _ _ table.values).of_run_error hrun hundeclared
      rw [lacks_singleton]
      exact ⟨other, ⟨ref.raw, List.mem_map_of_mem href, hneeds⟩, hunknown⟩

/-- A number for an area is written, or it is too long. -/
theorem Meets.replaceArea {start table : SymbolTable} {ms : List Mention}
    (h : Meets start ms table) (area : Int) (i : Nat) (span : Span) :
    Ends (some <$> replaceBy (.int area) i i span) table
      (fun _ table' => Meets start ms table')
      (fun e _ => e.Undeclared → Lacks start start.areas ms) := by
  rw [Ends.map_iff]
  apply (replaceBy_traces _ _ _ _ _).mono
  · rintro edit table' ⟨rfl, -⟩
    exact h
  · rintro e table' ⟨f, -, rfl⟩ hundeclared
    exact (Failure.not_undeclared_fault f hundeclared).elim

theorem not_lacks_declares {table : SymbolTable} {areas : List Text} (name : Text) :
    ¬ Lacks table areas [.declares name] := by
  rw [lacks_singleton]
  rintro ⟨other, hneeds, -⟩
  cases hneeds

/-- An area is entered, unless its name is that of a constant. -/
theorem Meets.declares {table : SymbolTable} (hsound : Sound table table.values) {name : Text}
    (h : table.isConstant name = false) :
    Meets table [.declares name] (table.declareArea name) where
  grows := .declareArea h
  sound := by
    rw [values_declareArea]
    exact hsound.grow (.declareArea h)
  areas := by
    intro other _
    rw [SymbolTable.mem_areas_declareArea, List.mem_append]
    simp [areasOf, Mention.area?]
  complete := not_lacks_declares name

theorem Meets.declares_constant {table : SymbolTable} (hsound : Sound table table.values)
    {name : Text} (h : table.isConstant name = true) : Meets table [.declares name] table where
  grows := .refl table
  sound := hsound
  areas := by
    intro other hother
    have hne : other ≠ name := by
      rintro rfl
      simp [h] at hother
    simp [areasOf, Mention.area?, hne]
  complete := not_lacks_declares name

/-- What the name in a place, if there is one, is mentioned for. -/
def mentioned (mention : Text → Mention) (place? : Option Indexed) : List Mention :=
  (place?.map fun place => mention place.1.raw).toList

theorem declareArea_makes (coordinates : Nat) (rest : List Indexed) :
    Makes (declareArea coordinates rest)
      (mentioned .declares ((skipOperands coordinates rest).bind headName?)) := by
  intro table hsound
  rw [declareArea]
  split
  · next name i more hskip =>
    rw [hskip, Option.bind_some, headName?]
    simp only [Ends.bind_iff, Ends.get_iff]
    by_cases hword : (name.kind == .word) = true
    · rw [if_pos hword]
      cases hconstant : table.isConstant name.raw with
      | true =>
          rw [if_pos (by simp)]
          exact Meets.declares_constant hsound hconstant
      | false =>
          have hdeclared : name.raw ∈ (table.declareArea name.raw).areas :=
            SymbolTable.mem_areas_declareArea.2 (Or.inr rfl)
          obtain ⟨area, harea⟩ := SymbolTable.exists_areaId? hdeclared
          rw [if_neg (by simpa using hword)]
          simp only [Ends.bind_iff, Ends.modify_iff, Ends.get_iff, harea]
          exact (Meets.declares hsound hconstant).replaceArea area i name.span
    · have hskipped : (name.kind != .word || table.isConstant name.raw) = true := by
        simp_all [bne]
      rw [if_neg hword, if_pos hskipped]
      exact Meets.refl hsound
  · next hnone =>
    have hnowhere : (skipOperands coordinates rest).bind headName? = none := by
      cases hskip : skipOperands coordinates rest with
      | none => rfl
      | some left =>
          cases left with
          | nil => rfl
          | cons here more => exact (hnone here.1 here.2 more hskip).elim
    rw [hnowhere]
    exact Meets.refl hsound

theorem referArea_makes (rest : List Indexed) :
    Makes (referArea rest) (mentioned .uses (headName? rest)) := by
  intro table hsound
  rw [referArea.eq_def]
  split
  · next name i more =>
    rw [headName?]
    by_cases hword : (name.kind == .word) = true
    · have hmeets (hknown : table.isConstant name.raw = true ∨ name.raw ∈ table.areas) :
          Meets table [.uses name.raw] table := by
        refine .single (.refl table) hsound rfl rfl ?_
        intro other hneeds
        rwa [List.mem_singleton.1 hneeds]
      rw [if_pos hword, if_neg (by simpa using hword)]
      simp only [Ends.bind_iff, Ends.get_iff]
      split
      · next area harea =>
        have hin : name.raw ∈ table.areas := by
          by_contra hnot
          simp [SymbolTable.areaId?_eq_none_iff.2 hnot] at harea
        exact (hmeets (Or.inr hin)).replaceArea area i name.span
      next hnone =>
        split
        · next hconstant => exact hmeets (Or.inl hconstant)
        · next hconstant =>
          intro _
          refine lacks_singleton.2 ⟨name.raw, .of_mem (by simp [Mention.names]), ?_, ?_⟩
          · simpa using hconstant
          · intro hin
            obtain ⟨area, harea⟩ := SymbolTable.exists_areaId? hin
            simp [hnone] at harea
    · rw [if_neg hword, if_pos (by simpa using hword)]
      exact Meets.refl hsound
  · exact Meets.refl hsound

theorem Meets.argument {table : SymbolTable} (hsound : Sound table table.values)
    {arg : List Token} (h : check table arg = .ok ()) : Meets table [.argument arg] table := by
  refine .single (.refl table) hsound rfl rfl ?_
  intro name hneeds
  obtain ⟨ref, href, rfl⟩ := List.mem_map.1 hneeds
  exact Evaluation.require_ok_iff.1 (Evaluation.check_ok_iff.1 h ref href)

theorem checkArguments_makes (args : List (List Token)) :
    Makes (checkArguments args) (args.map .argument) := by
  intro table hsound
  rw [checkArguments]
  simp only [Ends.bind_iff, Ends.get_iff]
  -- the table stays, so each argument is checked in the one it was checked in before
  induction args with
  | nil => exact Meets.refl hsound
  | cons arg args ih =>
      rw [List.forM_eq_forM, List.forM_cons, Ends.bind_iff, Ends.lift_iff, List.map_cons,
        ← List.singleton_append]
      constructor
      · rintro ⟨⟩ hcheck
        have hmeets := Meets.argument hsound hcheck
        apply ih.mono
        · intro _ table' hmeets'
          exact hmeets.append hmeets'
        · intro e _ he hundeclared
          exact lacks_append.2 (Or.inr (hmeets.lacks_iff.1 (he hundeclared)))
      · intro e he _
        exact lacks_append.2 (Or.inl (check_lacks rfl he))

/-- What a token mentions, given the significant tokens after it. -/
def mentionsAt (t : Token) (rest : List Indexed) : List Mention :=
  ((declaredBy t (rest.map Prod.fst)).map fun entry => .operand entry.2.operand) ++
    mentioned .declares (declaredPlace? t rest) ++ mentioned .uses (usedPlace? t rest)

/-- A token that is no word declares at most a constant. -/
theorem mentionsAt_of_kind {t : Token} (h : (t.kind == .word) = false) (rest : List Indexed) :
    mentionsAt t rest =
      (declaredBy t (rest.map Prod.fst)).map fun entry => .operand entry.2.operand := by
  simp [mentionsAt, declaredPlace?, usedPlace?, h, mentioned]

theorem mentionsAt_of_word {t : Token} (h : (t.kind == .word) = true) (rest : List Indexed) :
    mentionsAt t rest = match areaDeclaration? t.raw with
      | some coordinates =>
        mentioned .declares ((skipOperands coordinates rest).bind headName?)
      | none => if isAreaReference t.raw then mentioned .uses (headName? rest) else [] := by
  have hconst : isConst t = false := by
    rw [isConst, eq_of_beq h]
    rfl
  have hdeclared : declaredBy t (rest.map Prod.fst) = [] := by simp [declaredBy, hconst]
  rw [mentionsAt, hdeclared, declaredPlace?, usedPlace?, if_pos h, h, Bool.true_and]
  cases hcommand : areaDeclaration? t.raw with
  | some coordinates =>
      rw [isAreaReference_of_declaration hcommand]
      exact List.append_nil _
  | none => cases isAreaReference t.raw <;> rfl

theorem editAt_makes (t : Token) (rest : List Indexed) :
    Makes (editAt t rest) (mentionsAt t rest) := by
  rw [editAt.eq_def]
  split
  · next hconst =>
    have hkind : (t.kind == .word) = false := by
      rw [isConst, Bool.and_eq_true, beq_iff_eq] at hconst
      rw [hconst.1]
      rfl
    rw [mentionsAt_of_kind hkind]
    cases rest with
    | nil =>
        rw [List.map_nil, declaredBy]
        · exact .pure none
        · simp
    | cons x rest =>
        obtain ⟨name, i⟩ := x
        cases hname : name.kind == .word with
        | true =>
            simp only [declaredBy, hconst, hname, List.map_cons, if_true]
            exact foldDeclaration_makes name rest
        | false =>
            simp only [declaredBy, hconst, hname, List.map_cons]
            exact .pure none
  next hconst =>
  split
  · next hword =>
    rw [mentionsAt_of_kind (by simpa [bne] using hword)]
    simp only [declaredBy, hconst, List.map_nil]
    exact .pure none
  next hword =>
  rw [mentionsAt_of_word (by simpa [bne] using hword)]
  cases areaDeclaration? t.raw with
  | some coordinates => exact declareArea_makes coordinates rest
  | none =>
      cases isAreaReference t.raw with
      | true => exact referArea_makes rest
      | false => exact .pure none

/-- What a row of significant tokens mentions, in its order. -/
def mentionsIn : List Indexed → List Mention
  | [] => []
  | (t, _) :: rest => mentionsAt t rest ++ mentionsIn rest

theorem edits_makes (row : List Indexed) : Makes (edits row) (mentionsIn row) := by
  induction row with
  | nil => exact .pure []
  | cons x rest ih =>
      rw [edits, mentionsIn, ← List.append_nil (mentionsIn rest)]
      exact (editAt_makes x.1 rest).bind fun here => ih.bind fun later => .pure _

theorem resolveTokens_makes (tokens : List Token) :
    Makes (resolveTokens tokens) (mentionsIn (indexed tokens)) := by
  rw [resolveTokens, ← List.append_nil (mentionsIn _)]
  exact (edits_makes _).bind fun edits => .pure _

/-! ### Blocks -/

mutual

/-- What a block mentions, its arguments first. -/
def nodeMentions : Node → List Mention
  | .run r => mentionsIn (indexed r.tokens)
  | .repeated args children _ _ => args.map .argument ++ mentionsOf children
  | .call c => c.args.map .argument ++ c.body.toList.flatMap fun body => mentionsIn (indexed body)
  | .marker _ _ | .header _ => []

/-- What blocks mention, in the order of the script. -/
def mentionsOf : List Node → List Mention
  | [] => []
  | n :: ns => nodeMentions n ++ mentionsOf ns

end

mutual

theorem resolveNode_makes (n : Node) : Makes (resolveNode n) (nodeMentions n) := by
  match n with
  | .run r =>
      rw [resolveNode, nodeMentions, ← List.append_nil (mentionsIn _)]
      exact (resolveTokens_makes r.tokens).bind fun tokens => .pure _
  | .marker m span =>
      rw [resolveNode, nodeMentions]
      exact .pure _
  | .header h =>
      rw [resolveNode, nodeMentions]
      exact .pure _
  | .repeated args children openSpan span =>
      rw [resolveNode, nodeMentions, ← List.append_nil (mentionsOf _)]
      exact (checkArguments_makes args).bind fun _ =>
        (resolveNodes_makes children).bind fun out => .pure _
  | .call c =>
      rw [resolveNode.eq_def, nodeMentions]
      refine (checkArguments_makes c.args).bind fun _ => ?_
      cases c.body with
      | none => exact .pure _
      | some body => exact (resolveTokens_makes body).bind fun tokens => .pure _

theorem resolveNodes_makes (ns : List Node) : Makes (resolveNodes ns) (mentionsOf ns) := by
  match ns with
  | [] =>
      rw [resolveNodes, mentionsOf]
      exact .pure _
  | n :: ns =>
      rw [resolveNodes, mentionsOf, ← List.append_nil (mentionsOf ns)]
      exact (resolveNode_makes n).bind fun out =>
        (resolveNodes_makes ns).bind fun outs => .pure _

end

end Resolve

/-! ### Scripts -/

namespace Script

open Resolve

/-- What a script mentions, in its order. -/
def mentions (s : Script Node) : List Mention := mentionsOf s.parts

/-- A constant refers to a name in one of its declarations. -/
def RefersTo (s : Script Node) (c d : Text) : Prop :=
  ∃ entry ∈ s.declared, entry.1 = c ∧ ∃ ref ∈ Operand.references entry.2.operand, ref.raw = d

/-- A name that is a constant of the script or from outside, or an area by then. -/
def HasDeclared (s : Script Node) (external : List Text) (before : List Mention) (name : Text) :
    Prop :=
  name ∈ s.constants ∨ name ∈ external ∨ name ∈ areasOf before

instance (s : Script Node) (external : List Text) (before : List Mention) (name : Text) :
    Decidable (s.HasDeclared external before name) :=
  inferInstanceAs (Decidable (_ ∨ _))

variable {s : Script Node} {table : SymbolTable}

theorem lacks_iff (hfresh : table.Fresh) :
    Lacks (declare table s.parts) (declare table s.parts).areas s.mentions ↔
      ∃ before m after, s.mentions = before ++ m :: after ∧
        ∃ name, m.Needs s.RefersTo name ∧ ¬ s.HasDeclared table.external before name := by
  obtain ⟨constants, hdeclare⟩ := declare_eq table s.parts
  have hareas := (declare_areas table s.parts).trans hfresh.areas
  have hrefers : Refers (declare table s.parts) = s.RefersTo := by
    funext c d
    exact propext (refers_iff hfresh.constants)
  have hconstant (name : Text) : (declare table s.parts).isConstant name = false ↔
      ¬ (name ∈ s.constants ∨ name ∈ table.external) := by
    rw [← Bool.not_eq_true, SymbolTable.isConstant, s.lookup_declare hfresh.constants,
      mem_constants_iff, hdeclare]
    split <;> simp [*]
  simp only [Lacks, hareas, hrefers, hconstant, List.nil_append, HasDeclared, not_or, and_assoc]

/-- A script that is resolved lacks nothing, and one that is refused for want of a
declaration lacks one. -/
theorem resolve_mentions (s : Script Node) (hfresh : table.Fresh) :
    Ends s.resolve table
      (fun _ _ => ¬ Lacks (declare table s.parts) (declare table s.parts).areas s.mentions)
      (fun e _ => e.Undeclared →
        Lacks (declare table s.parts) (declare table s.parts).areas s.mentions) := by
  rw [resolve]
  simp only [Ends.bind_iff, Ends.modify_iff, Ends.pure_iff]
  apply (resolveNodes_makes s.parts _ (s.sound_declare hfresh.values)).weaken
  intro out last hmeets
  exact hmeets.complete

/-- Where no constant needs itself and no arithmetic is at fault, a script is refused for
want of a declaration exactly if somewhere in it a name is needed that is no constant and
no area by then. -/
theorem resolve_undeclared (s : Script Node) (table : SymbolTable) (fresh : table.Fresh)
    (acyclic : ∀ c, ¬ Relation.TransGen s.Needs c c)
    (computable : ∀ f, s.resolution table ≠ .error (.fault f)) :
    (∃ r, s.resolution table = .error (.report r) ∧ r.cause.kind = .unresolved) ↔
      ∃ before m after, s.mentions = before ++ m :: after ∧
        ∃ name, m.Needs s.RefersTo name ∧ ¬ s.HasDeclared table.external before name := by
  have hends := s.resolve_mentions fresh
  rw [← lacks_iff fresh]
  constructor
  · rintro ⟨r, hr, hkind⟩
    exact hends.of_run_error (Prod.ext hr rfl) ⟨r, rfl, hkind⟩
  · intro hlacks
    cases hrun : s.resolution table with
    | ok out => exact absurd hlacks (hends.of_run_ok (Prod.ext hrun rfl))
    | error e =>
        cases e with
        | fault f => exact absurd hrun (computable f)
        | report r =>
            have hhalts := (s.resolve_traces table).of_run_error (Prod.ext hrun rfl)
            rcases closedWalk_of_halts fresh.constants fresh.values hhalts with
              honly | ⟨first, inner, span, notes, -, -, hchain⟩
            · exact ⟨r, rfl, List.mem_singleton.1 honly⟩
            · have hwalk := needs_of_closedWalk fresh.constants hchain
              exact absurd (transGen_of_isChain hwalk) (acyclic first)

/-- Constants that only need constants with shorter names do not need themselves. -/
theorem acyclic_of_shorter
    (h : ∀ entry ∈ s.declared, ∀ ref ∈ Operand.references entry.2.operand,
      ref.raw ∈ s.constants → ref.raw.length < entry.1.length) (c : Text) :
    ¬ Relation.TransGen s.Needs c c := by
  have hstep {a b : Text} (hneeds : s.Needs a b) : b.length < a.length := by
    obtain ⟨⟨entry, hentry, rfl, ref, href, rfl⟩, other, hother, hname⟩ := hneeds
    exact h entry hentry ref href (List.mem_map.2 ⟨other, hother, hname⟩)
  have hless {a b : Text} (hneeds : Relation.TransGen s.Needs a b) : b.length < a.length := by
    induction hneeds with
    | single hneeds => exact hstep hneeds
    | tail _ hneeds ih => exact (hstep hneeds).trans ih
  exact fun hcycle => Nat.lt_irrefl _ (hless hcycle)

/-- An area that a constant needs by way of another before it is declared. -/
def mooring : Text := "#const POND (BAY + 1)\n#const BAY LAKE\nactor_area LAKE".toList

theorem resolve_undeclared_mooring :
    ∃ s, ofSource mooring = .ok s ∧
      (∃ r, s.resolution {} = .error (.report r) ∧ r.cause.kind = .unresolved) ∧
      ∃ before m after, s.mentions = before ++ m :: after ∧
        ∃ name, m.Needs s.RefersTo name ∧ ¬ s.HasDeclared [] before name := by
  have hruns : (ofSource mooring).toOption.any (fun s =>
      decide (∀ entry ∈ s.declared, ∀ ref ∈ Operand.references entry.2.operand,
        ref.raw ∈ s.constants → ref.raw.length < entry.1.length) &&
      match s.resolution {} with
      | .error (.report r) => r.cause.kind == .unresolved
      | _ => false) = true := by
    decide +kernel
  obtain ⟨s, hs, hruns⟩ := toOption_any_iff.1 hruns
  obtain ⟨hshorter, hrefused⟩ := Bool.and_eq_true_iff.1 hruns
  split at hrefused
  · next r hr =>
    have hundeclared := resolve_undeclared s {} ⟨rfl, rfl, rfl⟩
      (acyclic_of_shorter (of_decide_eq_true hshorter))
      (fun f hf => by cases hr.symm.trans hf)
    have hkind : r.cause.kind = .unresolved := eq_of_beq hrefused
    exact ⟨s, hs, ⟨r, hr, hkind⟩, hundeclared.1 ⟨r, hr, hkind⟩⟩
  · cases hrefused

/-- An area that is declared before the constant that needs it, but after another
constant that needs this one. -/
def landing : Text := "#const POND BAY\nactor_area LAKE\n#const BAY LAKE".toList

/-- Every name that is used is declared by then, and the script is refused: the operand of a
constant is read where the constant is first needed. -/
theorem resolve_refuses_declared :
    ∃ s, ofSource landing = .ok s ∧ (∀ c, ¬ Relation.TransGen s.Needs c c) ∧
      (∃ r, s.resolution {} = .error (.report r) ∧ r.cause.kind = .unresolved) ∧
      ∀ before m after, s.mentions = before ++ m :: after →
        ∀ name ∈ m.names, s.HasDeclared [] before name := by
  have hruns : (ofSource landing).toOption.any (fun s =>
      decide (∀ entry ∈ s.declared, ∀ ref ∈ Operand.references entry.2.operand,
        ref.raw ∈ s.constants → ref.raw.length < entry.1.length) &&
      (decide (∀ i < s.mentions.length, ∀ m ∈ s.mentions[i]?, ∀ name ∈ m.names,
        s.HasDeclared [] (s.mentions.take i) name) &&
      match s.resolution {} with
      | .error (.report r) => r.cause.kind == .unresolved
      | _ => false)) = true := by
    decide +kernel
  obtain ⟨s, hs, hruns⟩ := toOption_any_iff.1 hruns
  obtain ⟨hshorter, hruns⟩ := Bool.and_eq_true_iff.1 hruns
  obtain ⟨hdeclared, hrefused⟩ := Bool.and_eq_true_iff.1 hruns
  refine ⟨s, hs, acyclic_of_shorter (of_decide_eq_true hshorter), ?_, ?_⟩
  · split at hrefused
    · next r hr => exact ⟨r, hr, eq_of_beq hrefused⟩
    · cases hrefused
  · intro before m after hsplit name hname
    have hhere := of_decide_eq_true hdeclared before.length (by simp [hsplit]) m
      (by simp [hsplit]) name hname
    rwa [hsplit, List.take_left] at hhere

end Script

end MapScript
