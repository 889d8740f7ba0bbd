import MapScript.Block.Builder
import MapScript.Proofs.Lexing.Boundary
import MapScript.Proofs.Symbol.Trace

/-!
# Coherent constants

Once a script is resolved, its constants form one system of equations: each has
the value of its only declaration, taken where the others have theirs, and none if
it is declared more than once.  The values that were kept on the way belong to
this system, whatever asked for them first, and so do those kept later.  The order
of the declarations does not count.
-/

namespace MapScript

namespace Token

theorem significant_congr {ts ts' : List Token} (h : ts.map toLexeme = ts'.map toLexeme) :
    (significant ts).map toLexeme = (significant ts').map toLexeme := by
  rw [map_significant, map_significant, h]

end Token

/-- The names that are referred to depend on the lexemes only. -/
theorem Operand.references_congr {ts ts' : List Token}
    (h : ts.map Token.toLexeme = ts'.map Token.toLexeme) :
    (references ts).map Token.toLexeme = (references ts').map Token.toLexeme := by
  induction ts generalizing ts' with
  | nil =>
      rw [List.map_nil, eq_comm, List.map_eq_nil_iff] at h
      rw [h]
  | cons t ts ih =>
      obtain ⟨t', ts', rfl, ht, hts⟩ := List.map_eq_cons_iff.1 h.symm
      rw [references, references, ht, Token.head?_any_isPunct_congr hts '(']
      split
      · rw [List.map_cons, List.map_cons, ht, ih hts.symm]
      · exact ih hts.symm

theorem Expression.fold_word (values : Text → Option Number) {t : Token} (h : t.kind = .word) :
    Expression.fold values [t] = .ok (values t.raw) := by
  have hsign : t.isPunct '-' = false := by simp [Token.isPunct, h]
  cases hvalue : values t.raw <;>
    simp [fold, evaluate, sum, product, signed, primary, hsign, h, hvalue, productTail, sumTail]

namespace Evaluation

variable {table table' : SymbolTable}

/-- The value of a name, none if it has none. -/
noncomputable def meaning (table : SymbolTable) (name : Text) : Option Number :=
  open Classical in if h : ∃ value, HasValue table name value then h.choose else none

theorem HasValue.meaning_eq {name : Text} {value : Option Number} (h : HasValue table name value) :
    meaning table name = value := by
  have hexists : ∃ value, HasValue table name value := ⟨value, h⟩
  rw [meaning, dif_pos hexists]
  exact hexists.choose_spec.unique h

/-- A constant has a value if its declarations have results. -/
theorem exists_hasValue {name : Text} {ds : List Declaration}
    (hknown : table.constants.lookup name = some ds)
    (h : ∀ d ∈ ds, ∃ values result, Assigns table values (Operand.references d.operand) ∧
      Expression.fold values (Token.significant d.operand) = .ok result) :
    ∃ value, HasValue table name value := by
  have hfolds : ∃ results, FoldsTo table ds results := by
    clear hknown
    induction ds with
    | nil => exact ⟨[], .nil table⟩
    | cons d ds ih =>
        rw [List.forall_mem_cons] at h
        obtain ⟨results, hresults⟩ := ih h.2
        obtain ⟨values, result, hassigns, hfold⟩ := h.1
        exact ⟨result :: results, hresults.cons hassigns hfold⟩
  obtain ⟨results, values, hassigns, hresults⟩ := hfolds
  exact ⟨_, .constant hknown hassigns hresults⟩

theorem single_eq_none {results : List (Option Number)} (h : 1 < results.length) :
    single results = none := by
  match results with
  | _ :: _ :: _ => rfl

/-- A constant of several declarations has no value. -/
theorem HasValue.eq_none {name : Text} {value : Option Number} (h : HasValue table name value)
    {ds : List Declaration} (hknown : table.constants.lookup name = some ds) (hds : 1 < ds.length) :
    value = none := by
  cases h with
  | outside _ hunknown => simp [hunknown] at hknown
  | constant hknown' _ hfolds =>
      obtain rfl := Option.some.inj (hknown.symm.trans hknown')
      apply single_eq_none
      have hlength := congrArg List.length hfolds
      simp only [List.length_map] at hlength
      omega

/-- A constant of one declaration has the value of its expression. -/
theorem HasValue.fold_eq {name : Text} {value : Option Number} (h : HasValue table name value)
    {d : Declaration} (hknown : table.constants.lookup name = some [d]) :
    Assigns table (meaning table) (Operand.references d.operand) ∧
      Expression.fold (meaning table) (Token.significant d.operand) = .ok value := by
  cases h with
  | outside _ hunknown => simp [hunknown] at hknown
  | @constant _ ds values results hknown' hneeds hfolds =>
      obtain rfl := Option.some.inj (hknown.symm.trans hknown')
      obtain ⟨result, rest, rfl, hresult, hrest⟩ := List.map_eq_cons_iff.1 hfolds.symm
      obtain rfl : rest = [] := List.map_eq_nil_iff.1 hrest
      have hmeaning : ∀ ref ∈ Operand.references d.operand,
          meaning table ref.raw = values ref.raw := by
        intro ref href
        exact (hneeds d (by simp) ref href).meaning_eq
      constructor
      · intro ref href
        rw [hmeaning ref href]
        exact hneeds d (by simp) ref href
      · rw [fold_congr_of_references hmeaning]
        exact hresult.symm

end Evaluation

/-! ### Resolved scripts -/

namespace SymbolTable

/-- A table in which nothing is entered yet. -/
structure Fresh (table : SymbolTable) : Prop where
  constants : table.constants = []
  areas : table.areas = []
  values : table.values = []

/-- What folding a name by itself gives. -/
def folding (table : SymbolTable) (name : Text) : Except Failure (Option Number) :=
  ((Evaluation.fold table [] [.made .word name (.point .origin)]).run.run table.values).1

/-- What folding an operand gives. -/
def operandValue (table : SymbolTable) (operand : List Token) : Except Failure (Option Number) :=
  ((Evaluation.fold table [] operand).run.run table.values).1

/-- An operand whose names have values folds to that of its expression. -/
theorem operandValue_eq {table : SymbolTable} (hsound : Evaluation.Sound table table.values)
    {operand : List Token} {values : Text → Option Number} {value : Option Number}
    (hassigns : Evaluation.Assigns table values (Operand.references operand))
    (hfold : Expression.fold values (Token.significant operand) = .ok value) :
    table.operandValue operand = .ok value := by
  have hsearch : ∀ ref ∈ Operand.references operand,
      Evaluation.Succeeds table (Evaluation.valueOf table [] ref) :=
    fun ref href => (hassigns ref href).succeeds rfl (by simp)
  have hends := Evaluation.fold_succeeds hassigns hfold hsearch hsound
  rw [operandValue]
  cases hrun : (Evaluation.fold table [] operand).run.run table.values with
  | mk outcome memo =>
      cases outcome with
      | error e => exact (hends.of_run_error hrun).elim
      | ok found => rw [(hends.of_run_ok hrun).1]

/-- The values that are kept after operands are folded one after the other, whatever
comes of it. -/
def valuesAfter (table : SymbolTable) (operands : List (List Token)) : Memo :=
  operands.foldl (fun memo operand => ((Evaluation.fold table [] operand).run.run memo).2)
    table.values

end SymbolTable

namespace Script

open Evaluation Resolve
open SymbolTable (declarationsOf mem_declarationsOf)

/-- The names of the constants of a script. -/
def constants (s : Script Node) : List Text := s.declared.map Prod.fst

/-- The values of the constants of a script are those of its declarations, and no
others are kept. -/
structure Coherent (s : Script Node) (table : SymbolTable) (value : Text → Option Number) :
    Prop where
  folds : ∀ name ∈ s.constants, table.folding name = .ok (value name)
  outside : ∀ name ∈ table.external, name ∉ s.constants → table.folding name = .ok none
  multiple : ∀ name, 1 < (declarationsOf name s.declared).length → value name = none
  single : ∀ name d, declarationsOf name s.declared = [d] →
    Expression.fold (fun other => if other ∈ s.constants then value other else none)
      (Token.significant d.operand) = .ok (value name)
  kept : ∀ operands name found, (table.valuesAfter operands).lookup name = some found →
    found = value name

/-- What is known of the table of a resolved script. -/
structure Resolved (s : Script Node) (external : List Text) (table : SymbolTable) : Prop where
  lookup : ∀ name, table.constants.lookup name =
    if declarationsOf name s.declared = [] then none else some (declarationsOf name s.declared)
  external : table.external = external
  free : ∀ name ∈ table.areas, table.isConstant name = false
  sound : Sound table table.values
  folded : ∀ entry ∈ s.declared, ∃ values result,
    Assigns table values (Operand.references entry.2.operand) ∧
      Expression.fold values (Token.significant entry.2.operand) = .ok result

theorem Resolved.of_run {s out : Script Node} {table table' : SymbolTable} (hfresh : table.Fresh)
    (hrun : s.resolve.run.run table = (.ok out, table')) : s.Resolved table.external table' := by
  have hcovers := (s.resolve_traces table).of_run_ok hrun
  have hstart := s.sound_declare hfresh.values
  obtain ⟨hgrows, hsound⟩ := hcovers.reaches.sound hstart
  obtain ⟨constants, hdeclare⟩ := declare_eq table s.parts
  refine ⟨?_, ?_, ?_, hsound, fun entry hentry => hcovers.folded hstart hentry⟩
  · intro name
    rw [hgrows.constants, s.lookup_declare hfresh.constants]
  · rw [hgrows.external, hdeclare]
  · intro name hname
    rw [hgrows.isConstant]
    refine (hgrows.free name hname).resolve_left ?_
    rw [hdeclare]
    show name ∉ table.areas
    simp [hfresh.areas]

section
variable {s : Script Node} {external : List Text} {table : SymbolTable}

theorem mem_constants_iff {name : Text} :
    name ∈ s.constants ↔ declarationsOf name s.declared ≠ [] := by
  rw [constants, List.mem_map]
  constructor
  · rintro ⟨⟨_, d⟩, hmem, rfl⟩
    exact List.ne_nil_of_mem (mem_declarationsOf.2 hmem)
  · intro hne
    obtain ⟨d, hd⟩ := List.exists_mem_of_ne_nil _ hne
    exact ⟨(name, d), mem_declarationsOf.1 hd, rfl⟩

theorem Resolved.lookup_some (h : s.Resolved external table) {name : Text}
    (hname : name ∈ s.constants) :
    table.constants.lookup name = some (declarationsOf name s.declared) := by
  rw [h.lookup, if_neg (mem_constants_iff.1 hname)]

theorem Resolved.lookup_none (h : s.Resolved external table) {name : Text}
    (hname : name ∉ s.constants) : table.constants.lookup name = none := by
  rw [h.lookup, if_pos (by simpa [mem_constants_iff] using hname)]

theorem Resolved.isConstant_iff (h : s.Resolved external table) {name : Text} :
    table.isConstant name = true ↔ name ∈ s.constants ∨ name ∈ external := by
  by_cases hname : name ∈ s.constants
  · simp [SymbolTable.isConstant, h.lookup_some hname, hname]
  · simp [SymbolTable.isConstant, h.lookup_none hname, hname, h.external]

theorem Resolved.isConstant_of_mem (h : s.Resolved external table) {name : Text}
    (hname : name ∈ s.constants) : table.isConstant name = true := h.isConstant_iff.2 (Or.inl hname)

/-- Every constant, of the script or from outside, has a value. -/
theorem Resolved.hasValue (h : s.Resolved external table) {name : Text}
    (hname : table.isConstant name = true) : HasValue table name (meaning table name) := by
  have hexists : ∃ value, HasValue table name value := by
    by_cases hin : name ∈ s.constants
    · exact exists_hasValue (h.lookup_some hin) fun d hd =>
        h.folded (name, d) (mem_declarationsOf.1 hd)
    · exact ⟨_, .outside (Or.inl hname) (h.lookup_none hin)⟩
  obtain ⟨value, hvalue⟩ := hexists
  rwa [hvalue.meaning_eq]

/-- Folding a constant finds its value. -/
theorem Resolved.folding_eq (h : s.Resolved external table) {name : Text}
    (hname : table.isConstant name = true) : table.folding name = .ok (meaning table name) := by
  let t : Token := .made .word name (.point .origin)
  have hassigns : Assigns table (meaning table) (Operand.references [t]) := by
    intro ref href
    obtain rfl : ref = t := List.mem_singleton.1 href
    exact h.hasValue hname
  exact SymbolTable.operandValue_eq h.sound hassigns (Expression.fold_word _ rfl)

/-- Folding more keeps no wrong value. -/
theorem sound_valuesAfter (hsound : Sound table table.values) (operands : List (List Token)) :
    Sound table (table.valuesAfter operands) := by
  rw [SymbolTable.valuesAfter]
  generalize table.values = memo at hsound
  induction operands generalizing memo with
  | nil => exact hsound
  | cons operand operands ih =>
      have hends := fold_sound hsound [] operand
      rw [List.foldl_cons]
      apply ih
      cases hrun : (Evaluation.fold table [] operand).run.run memo with
      | mk outcome memo' =>
          cases outcome with
          | error e => exact hends.of_run_error hrun
          | ok value => exact (hends.of_run_ok hrun).1

/-- No declaration of a script refers to an area. -/
def AreaFree (s : Script Node) (table : SymbolTable) : Prop :=
  ∀ entry ∈ s.declared, ∀ ref ∈ Operand.references entry.2.operand, ref.raw ∉ table.areas

instance (s : Script Node) (table : SymbolTable) : Decidable (s.AreaFree table) :=
  inferInstanceAs (Decidable (∀ entry ∈ s.declared, _))

/-- What is neither a constant of the script nor an area has no value. -/
theorem Resolved.meaning_eq_none (h : s.Resolved external table) {name : Text}
    {value : Option Number} (hvalue : HasValue table name value) (hname : name ∉ s.constants)
    (harea : name ∉ table.areas) : value = none := by
  cases hvalue with
  | outside => rw [SymbolTable.areaId?_eq_none_iff.2 harea]; rfl
  | constant hknown => simp [h.lookup_none hname] at hknown

theorem Resolved.coherent (h : s.Resolved external table) (hfree : s.AreaFree table) :
    s.Coherent table (meaning table) where
  folds := fun name hname => h.folding_eq (h.isConstant_of_mem hname)
  outside := by
    intro name hname hout
    have hconstant := h.isConstant_iff.2 (Or.inr (h.external ▸ hname))
    have harea : name ∉ table.areas := fun hmem => by simp [h.free name hmem] at hconstant
    rw [h.folding_eq hconstant, h.meaning_eq_none (h.hasValue hconstant) hout harea]
  multiple := by
    intro name hds
    have hname : name ∈ s.constants := mem_constants_iff.2 fun hnil => by simp [hnil] at hds
    exact (h.hasValue (h.isConstant_of_mem hname)).eq_none (h.lookup_some hname) hds
  single := by
    intro name d hd
    have hname : name ∈ s.constants := mem_constants_iff.2 (by simp [hd])
    have hmem : (name, d) ∈ s.declared := mem_declarationsOf.1 (by simp [hd])
    obtain ⟨hassigns, hfold⟩ :=
      (h.hasValue (h.isConstant_of_mem hname)).fold_eq (hd ▸ h.lookup_some hname)
    rw [← hfold]
    apply fold_congr_of_references
    intro ref href
    split
    · rfl
    · next hother =>
      exact (h.meaning_eq_none (hassigns ref href) hother (hfree _ hmem ref href)).symm
  kept := by
    intro operands name found hfound
    exact (sound_valuesAfter h.sound operands name found hfound).meaning_eq.symm

end

/-! ### Declarations in another order -/

/-- A declaration as it is spelled, wherever it stands. -/
def spelled (entry : Text × Declaration) : Text × List Lexeme :=
  (entry.1, entry.2.operand.map Token.toLexeme)

/-- The same declarations in any order. -/
def SameDeclarations (s s' : Script Node) : Prop :=
  (s.declared.map spelled).Perm (s'.declared.map spelled)

instance (s s' : Script Node) : Decidable (s.SameDeclarations s') :=
  inferInstanceAs (Decidable (List.Perm _ _))

variable {s s' : Script Node} {external external' : List Text} {table table' : SymbolTable}

theorem map_declarationsOf (name : Text) (entries : List (Text × Declaration)) :
    (declarationsOf name entries).map (fun d => d.operand.map Token.toLexeme) =
      ((entries.map spelled).filter fun entry => entry.1 == name).map Prod.snd := by
  rw [declarationsOf, List.filter_map, List.map_map, List.map_map]
  rfl

theorem SameDeclarations.perm (h : s.SameDeclarations s') (name : Text) :
    ((declarationsOf name s.declared).map fun d => d.operand.map Token.toLexeme).Perm
      ((declarationsOf name s'.declared).map fun d => d.operand.map Token.toLexeme) := by
  rw [map_declarationsOf, map_declarationsOf]
  exact (h.filter _).map _

theorem SameDeclarations.length_eq (h : s.SameDeclarations s') (name : Text) :
    (declarationsOf name s.declared).length = (declarationsOf name s'.declared).length := by
  simpa using (h.perm name).length_eq

theorem SameDeclarations.mem_constants_iff (h : s.SameDeclarations s') {name : Text} :
    name ∈ s.constants ↔ name ∈ s'.constants := by
  rw [Script.mem_constants_iff, Script.mem_constants_iff, ← List.length_pos_iff,
    ← List.length_pos_iff, h.length_eq]

/-- A value in one of two such scripts is a value in the other, but for areas. -/
theorem Resolved.transfer (h : s.Resolved external table) (h' : s'.Resolved external' table')
    (hexternal : ∀ name, name ∈ external ↔ name ∈ external') (hsame : s.SameDeclarations s')
    (hfree : s.AreaFree table) {name : Text} {value : Option Number}
    (hvalue : HasValue table name value) (harea : name ∉ table.areas) :
    HasValue table' name value := by
  induction hvalue with
  | @outside name hdeclared hunknown =>
      have hconstants : name ∉ s.constants := by
        intro hname
        simp [h.lookup_some hname] at hunknown
      have hout : table'.isConstant name = true := by
        have hin := h.isConstant_iff.1 (hdeclared.resolve_right harea)
        exact h'.isConstant_iff.2 (Or.inr ((hexternal name).1 (hin.resolve_left hconstants)))
      have hvalue' : HasValue table' name ((table'.areaId? name).map .int) :=
        .outside (Or.inl hout) (h'.lookup_none (hsame.mem_constants_iff.not.1 hconstants))
      have harea' : name ∉ table'.areas := fun hmem => by simp [h'.free name hmem] at hout
      rw [SymbolTable.areaId?_eq_none_iff.2 harea'] at hvalue'
      rw [SymbolTable.areaId?_eq_none_iff.2 harea]
      exact hvalue'
  | @constant name ds values results hknown hneeds hfolds ih =>
      have hname : name ∈ s.constants := by
        by_contra hnot
        simp [h.lookup_none hnot] at hknown
      obtain rfl : declarationsOf name s.declared = ds :=
        Option.some.inj ((h.lookup_some hname).symm.trans hknown)
      have hname' := hsame.mem_constants_iff.1 hname
      have hlength := hsame.length_eq name
      have hresults := congrArg List.length hfolds
      simp only [List.length_map] at hresults
      by_cases hone : (declarationsOf name s.declared).length = 1
      · obtain ⟨d, hd⟩ := List.length_eq_one_iff.1 hone
        obtain ⟨d', hd'⟩ := List.length_eq_one_iff.1 (hlength.symm.trans hone)
        have hoperand : d.operand.map Token.toLexeme = d'.operand.map Token.toLexeme := by
          simpa [hd, hd'] using hsame.perm name
        have hmem : (name, d) ∈ s.declared := mem_declarationsOf.1 (by simp [hd])
        rw [hd] at ih hfolds
        have hknown' := hd' ▸ h'.lookup_some hname'
        refine @HasValue.constant table' name [d'] values results hknown' ?_ ?_
        · rw [List.forall_mem_singleton]
          intro ref' href'
          -- the reference stands in the first script, too
          have hlexeme := List.mem_map_of_mem (f := Token.toLexeme) href'
          rw [← Operand.references_congr hoperand] at hlexeme
          obtain ⟨ref, href, hraw⟩ := List.mem_map.1 hlexeme
          rw [← hraw]
          exact ih d (by simp) ref href (hfree _ hmem ref href)
        · rw [← hfolds, List.map_singleton, List.map_singleton]
          congr 1
          refine (Expression.fold_congr ⟨.of_lexemes (Token.significant_congr hoperand), ?_⟩).symm
          exact fun _ _ => rfl
      · -- with several declarations there is no value in either script
        have hpos := List.length_pos_iff.2 (mem_constants_iff.1 hname)
        have hnone : single results = none := single_eq_none (by omega)
        have hvalue' := h'.hasValue (h'.isConstant_of_mem hname')
        have hnone' := hvalue'.eq_none (h'.lookup_some hname') (by omega)
        rw [hnone, ← hnone']
        exact hvalue'

/-- The constants of a resolved script are coherent, and those of another with the same
declarations in any order, and the same constants from outside, fold to the same. -/
theorem resolve_coherent {s out : Script Node} {table table' : SymbolTable} (fresh : table.Fresh)
    (resolved : s.resolve.run.run table = (.ok out, table')) (areaFree : s.AreaFree table') :
    (∃ value, s.Coherent table' value) ∧
    ∀ {other out' : Script Node} {start last : SymbolTable}, start.Fresh →
      other.resolve.run.run start = (.ok out', last) →
      (∀ name, name ∈ start.external ↔ name ∈ table.external) → other.SameDeclarations s →
      ∀ name, name ∈ s.constants ∨ name ∈ table.external →
        last.folding name = table'.folding name := by
  have h := Resolved.of_run fresh resolved
  refine ⟨⟨_, h.coherent areaFree⟩, ?_⟩
  intro other out' start last hfresh hrun hexternal hsame name hname
  have h' := Resolved.of_run hfresh hrun
  have hconstant : table'.isConstant name = true := h.isConstant_iff.2 hname
  have hconstant' : last.isConstant name = true :=
    h'.isConstant_iff.2 (hname.imp hsame.mem_constants_iff.2 (hexternal name).2)
  have harea : name ∉ table'.areas := fun hmem => by simp [h.free name hmem] at hconstant
  have hvalue := h.transfer h' (fun n => (hexternal n).symm) hsame.symm areaFree
    (h.hasValue hconstant) harea
  rw [h.folding_eq hconstant, h'.folding_eq hconstant', hvalue.meaning_eq]

/-- Constants that are used before they are declared, declared twice and taken from
outside. -/
def tangled : Text :=
  "#const A (B * 2)\n#const B 3\n#const D A\n#const D 1\n#const E (X + B)".toList

/-- The values of its constants. -/
def untangled : List (Text × Option Number) :=
  [(['A'], some (.int 6)), (['B'], some (.int 3)), (['D'], none), (['E'], none)]

/-- The same declarations in another order. -/
def rearranged : Text :=
  "#const E (X+B)\n#const D 1\n#const B 3\n#const A (B*2)\n#const D A".toList

theorem resolve_coherent_reordered :
    ∃ s s' out out' table table',
      ofSource tangled = .ok s ∧ ofSource rearranged = .ok s' ∧
      s.resolve.run.run { external := [['X']] } = (.ok out, table) ∧
      s'.resolve.run.run { external := [['X']] } = (.ok out', table') ∧
      (∃ value, s.Coherent table value ∧ ∀ entry ∈ untangled, value entry.1 = entry.2) ∧
      ∀ name ∈ s.constants, table'.folding name = table.folding name := by
  have hruns : (ofSource tangled).toOption.any
      (fun s => (ofSource rearranged).toOption.any fun s' =>
        (s.resolve.run.run { external := [['X']] }).1.isOk &&
          (s'.resolve.run.run { external := [['X']] }).1.isOk &&
          decide (s.AreaFree (s.resolve.run.run { external := [['X']] }).2 ∧
            s'.SameDeclarations s) &&
          decide (∀ entry ∈ untangled, entry.1 ∈ s.constants ∧
            ((s.resolve.run.run { external := [['X']] }).2.folding entry.1).toOption =
              some entry.2)) = true := by
    decide +kernel
  obtain ⟨s, hs, hruns⟩ := toOption_any_iff.1 hruns
  obtain ⟨s', hs', hruns⟩ := toOption_any_iff.1 hruns
  simp only [Bool.and_eq_true, isOk_iff, decide_eq_true_eq] at hruns
  obtain ⟨⟨⟨⟨out, hout⟩, ⟨out', hout'⟩⟩, hfree, hsame⟩, hvalues⟩ := hruns
  have hfresh : SymbolTable.Fresh { external := [['X']] } := ⟨rfl, rfl, rfl⟩
  obtain ⟨hcoherent, horder⟩ := resolve_coherent hfresh (Prod.ext hout rfl) hfree
  obtain ⟨value, hcoherent⟩ := hcoherent
  have hvalue : ∀ entry ∈ untangled, value entry.1 = entry.2 := by
    intro entry hentry
    obtain ⟨hname, hfolds⟩ := hvalues entry hentry
    rw [hcoherent.folds entry.1 hname] at hfolds
    exact Option.some.inj hfolds
  exact ⟨s, s', out, out', _, _, hs, hs', Prod.ext hout rfl, Prod.ext hout' rfl,
    ⟨value, hcoherent, hvalue⟩, fun name hname =>
      horder hfresh (Prod.ext hout' rfl) (fun _ => Iff.rfl) hsame name (Or.inl hname)⟩

end Script

end MapScript
