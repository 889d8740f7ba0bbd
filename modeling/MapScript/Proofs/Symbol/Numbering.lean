import MapScript.Proofs.Symbol.Substitution

/-!
# Numbers of areas

Areas are numbered in the order in which they are first declared, without gaps, and
keep their numbers whatever is declared or resolved afterwards.  In a resolved script
a name that stands where an area is declared or used gives way to its number, and
numbers are the same where names are.
-/

namespace MapScript

open Evaluation (Sound)

/-! ### Sequences of operations -/

/-- What is done with a symbol table: an area is declared, or a script is resolved. -/
inductive SymbolTable.Operation where
  | declare (name : Text)
  | resolve (script : Script Node)

namespace SymbolTable

variable {table : SymbolTable}

/-- The table after an operation, whether it succeeds or not. -/
def Operation.after (table : SymbolTable) : Operation → SymbolTable
  | .declare name => table.declareArea name
  | .resolve s => (s.resolve.run.run table).2

/-- The table after operations, one after the other. -/
def after (table : SymbolTable) (operations : List Operation) : SymbolTable :=
  operations.foldl Operation.after table

/-- The names that an operation declares as areas, in order.  A script that is not
resolved declares some of its areas, from the first on. -/
def Operation.Declares (table : SymbolTable) : Operation → List Text → Prop
  | .declare name, names => names = [name]
  | .resolve s, names => names <+: s.areasIn table ∧
      ((s.resolve.run.run table).1.isOk = true → names = s.areasIn table)

/-- The names that operations declare as areas, one after the other. -/
def Declares (table : SymbolTable) : List Operation → List Text → Prop
  | [], log => log = []
  | operation :: operations, log => ∃ names later, log = names ++ later ∧
      operation.Declares table names ∧ Declares (operation.after table) operations later

/-- One operation enters the areas it declares and no others, and gives none another number. -/
theorem Operation.after_spec (operation : Operation) (table : SymbolTable) :
    (operation.after table).areaBase = table.areaBase ∧
      table.numberedAreas <+: (operation.after table).numberedAreas ∧
      (table.Numbered → (operation.after table).Numbered) ∧
      ∃ names, operation.Declares table names ∧ ∀ {log}, table.areas = log.eraseDups →
        (operation.after table).areas = (log ++ names).eraseDups := by
  cases operation with
  | declare name =>
      have hextends := Extends.declareArea table name
      exact ⟨hextends.areaBase, hextends.numberedAreas, hextends.numbered, [name], rfl,
        fun h => areas_declareArea_of_log h name⟩
  | resolve s =>
      obtain ⟨hareas, hbase⟩ := Resolve.declare_numberedAreas table s.parts
      have hstart (h : table.Numbered) : (Resolve.declare table s.parts).Numbered := by
        rwa [Numbered, hareas, hbase]
      have hspec {names : List Text}
          (hcourse : (Resolve.declare table s.parts).Course names (s.resolve.run.run table).2)
          (hnames : Declares table (.resolve s) names) :
          (after table (.resolve s)).areaBase = table.areaBase ∧
            table.numberedAreas <+: (after table (.resolve s)).numberedAreas ∧
            (table.Numbered → (after table (.resolve s)).Numbered) ∧
            ∃ names, Declares table (.resolve s) names ∧ ∀ {log}, table.areas = log.eraseDups →
              (after table (.resolve s)).areas = (log ++ names).eraseDups :=
        ⟨hcourse.grows.areaBase.trans hbase, hareas ▸ hcourse.grows.numberedAreas,
          hcourse.grows.numbered ∘ hstart, names, hnames,
          fun h => hcourse.areas ((Resolve.declare_areas table s.parts).trans h)⟩
      have hends := s.resolve_rows Resolve.establishes_edited table
      cases hrun : s.resolve.run.run table with
      | mk outcome last =>
          cases outcome with
          | ok out =>
              have hcourse := (hends.of_run_ok hrun).1
              refine @hspec (s.areasIn table) (hrun ▸ hcourse) ?_
              exact ⟨List.prefix_rfl, fun _ => rfl⟩
          | error e =>
              obtain ⟨entered, hentered, hcourse⟩ := hends.of_run_error hrun
              refine hspec (hrun ▸ hcourse) ⟨hentered, fun hok => ?_⟩
              rw [hrun] at hok
              cases hok

/-- Operations keep the areas there are, with their numbers. -/
theorem after_extends (operations : List Operation) (table : SymbolTable) :
    (table.after operations).areaBase = table.areaBase ∧
      table.numberedAreas <+: (table.after operations).numberedAreas ∧
      (table.Numbered → (table.after operations).Numbered) := by
  induction operations generalizing table with
  | nil => exact ⟨rfl, List.prefix_rfl, id⟩
  | cons operation operations ih =>
      obtain ⟨hbase, hareas, hnumbered, -⟩ := operation.after_spec table
      obtain ⟨hbase', hareas', hnumbered'⟩ := ih (operation.after table)
      exact ⟨hbase'.trans hbase, hareas.trans hareas', hnumbered' ∘ hnumbered⟩

/-- Operations enter the areas that they declare, each at its first declaration. -/
theorem after_areas (operations : List Operation) {table : SymbolTable} {log : List Text}
    (h : table.areas = log.eraseDups) :
    ∃ names, table.Declares operations names ∧
      (table.after operations).areas = (log ++ names).eraseDups := by
  induction operations generalizing table log with
  | nil => exact ⟨[], rfl, by rwa [List.append_nil]⟩
  | cons operation operations ih =>
      obtain ⟨-, -, -, names, hnames, hafter⟩ := operation.after_spec table
      obtain ⟨later, hlater, hareas⟩ := ih (hafter h)
      refine ⟨names ++ later, ⟨names, later, rfl, hnames, hlater⟩, ?_⟩
      rw [← List.append_assoc]
      exact hareas

end SymbolTable

/-! ### Numbers in a resolved script -/

namespace Resolve

/-- A row after the edits that it calls for, collected one after the other. -/
def RowStaggered (table : SymbolTable) (tokens out : List Token) : Prop :=
  ∃ edits, out = Edit.applyAll edits tokens ∧ (∀ e ∈ edits, e.Encloses tokens) ∧
    EditsOf (indexed tokens) (indexed tokens) edits table ∧ edits.Pairwise Edit.Staggered

theorem resolveTokens_staggered (tokens : List Token) (table : SymbolTable) :
    Courses (resolveTokens tokens) table (areasIn table [tokens]) fun out table' =>
      RowStaggered table' tokens out := by
  have hnames : areasIn table [tokens] = freeNames table (declaredPlaces (indexed tokens)) := by
    simp [areasIn]
  rw [hnames, resolveTokens, Courses, Ends.bind_iff]
  have hcourses := edits_courses (List.suffix_refl (indexed tokens)) table
  have hencloses := Edit.edits_encloses (List.suffix_refl (indexed tokens)) table
  have hstaggered := Edit.edits_staggered (pairwise_indexed tokens) table
  apply (Ends.and (Ends.and hcourses hencloses) hstaggered).mono
  · rintro edits table' ⟨⟨⟨hcourse, hedits⟩, hencloses⟩, -, hstaggered⟩
    exact ⟨hcourse, fun hsound => ⟨edits, rfl, hencloses, hedits hsound, hstaggered⟩⟩
  · exact fun _ _ h => h.1.1

theorem establishes_staggered : Establishes RowStaggered where
  row := resolveTokens_staggered
  grow := by
    rintro table table' tokens out ⟨edits, hout, hencloses, hedits, hstaggered⟩ hgrows
    exact ⟨edits, hout, hencloses, hedits.grow hgrows, hstaggered⟩

end Resolve

/-- A resolved script with its areas numbered: what is declared as one and is no
constant gives way to its number, and so does what is used as one and is one.  The tokens
before such a name and those behind it give way to what the other edits put for them. -/
structure Script.AreasNumbered (s out : Script Node) (table : SymbolTable) : Prop where
  rows : List.Forall₂
    (fun tokens out => ∃ edits : List Resolve.Edit, (∀ e ∈ edits, e.Encloses tokens) ∧
      edits.Pairwise Resolve.Edit.Apart ∧ Resolve.Edit.Substitutes edits 0 tokens out ∧
      ∀ t k rest, (t, k) :: rest <:+ Resolve.indexed tokens → ∀ name i,
        Resolve.declaredPlace? t rest = some (name, i) ∧ table.isConstant name.raw = false ∨
          Resolve.usedPlace? t rest = some (name, i) ∧ name.raw ∈ table.areas →
        ∃ area before after ahead behind, table.areaId? name.raw = some area ∧
          tokens = before ++ name :: after ∧ before.length = i ∧
          out = ahead ++ .made .number (Text.ofInt area) name.span :: behind ∧
          Resolve.Edit.Substitutes edits 0 before ahead ∧
          Resolve.Edit.Substitutes edits (i + 1) after behind)
    (Resolve.groups s.parts) (Resolve.groups out.parts)
  /-- Numbers are the same where names are. -/
  injective : ∀ {name name' area area'}, table.areaId? name = some area →
    table.areaId? name' = some area' → (Text.ofInt area = Text.ofInt area' ↔ name = name')

/-- The number of an area stands where its name stood. -/
theorem Resolve.RowStaggered.numbered {table : SymbolTable} {tokens out : List Token}
    (h : RowStaggered table tokens out)
    (hfree : ∀ name ∈ table.areas, table.isConstant name = false) :
    ∃ edits : List Edit, (∀ e ∈ edits, e.Encloses tokens) ∧ edits.Pairwise Edit.Apart ∧
      Edit.Substitutes edits 0 tokens out ∧
      ∀ place, AreaPlace (indexed tokens) place → table.isConstant place.1.raw = false →
        ∃ area before after ahead behind, table.areaId? place.1.raw = some area ∧
          tokens = before ++ place.1 :: after ∧ before.length = place.2 ∧
          out = ahead ++ .made .number (Text.ofInt area) place.1.span :: behind ∧
          Edit.Substitutes edits 0 before ahead ∧
          Edit.Substitutes edits (place.2 + 1) after behind := by
  obtain ⟨edits, rfl, hencloses, hedits, hstaggered⟩ := h
  have hsimultaneous := Edit.Simultaneous.of_edits hfree hencloses hedits hstaggered
  refine ⟨edits, hencloses, hsimultaneous.apart, hsimultaneous.substitutes, ?_⟩
  intro place hplace hconstant
  obtain ⟨e, he, area, harea, rfl⟩ := hedits.numbers place hplace hconstant
  have hthere := getElem?_of_mem_indexed hplace.mem
  obtain ⟨hlt, -⟩ := List.getElem?_eq_some_iff.1 hthere
  obtain ⟨before, t, after, ahead, behind, htokens, hfirst, hout, hbefore, hafter⟩ :=
    hsimultaneous.substitutes.split hsimultaneous.apart he rfl (Nat.zero_le _) (by simpa using hlt)
  have hfirst : before.length = place.2 := by rwa [Nat.zero_add] at hfirst
  obtain rfl : t = place.1 := by
    rw [htokens, ← hfirst, List.getElem?_append_right le_rfl] at hthere
    simpa using hthere
  exact ⟨area, before, after, ahead, behind, harea, htokens, hfirst, hout, hbefore, hafter⟩

theorem Script.areasNumbered_of_run {s out : Script Node} {table last : SymbolTable}
    (hfresh : table.Fresh) (hrun : s.resolve.run.run table = (.ok out, last)) :
    s.AreasNumbered out last := by
  have hresolved := Resolved.of_run hfresh hrun
  obtain ⟨hcourse, hrows⟩ := (s.resolve_rows Resolve.establishes_staggered table).of_run_ok hrun
  have hstart : (Resolve.declare table s.parts).Numbered := by
    apply SymbolTable.Numbered.of_areas
    rw [Resolve.declare_areas, hfresh.areas]
  have hnumbered := hcourse.grows.numbered hstart
  constructor
  · refine (hrows (s.sound_declare hfresh.values)).imp ?_
    intro tokens out hrow
    obtain ⟨edits, hencloses, hapart, hsubstitutes, hplaces⟩ := hrow.numbered hresolved.free
    refine ⟨edits, hencloses, hapart, hsubstitutes, ?_⟩
    rintro t k rest hsuffix name i (⟨hplace, hfree⟩ | ⟨hplace, harea⟩)
    · exact hplaces (name, i) ⟨t, k, rest, hsuffix, Or.inl hplace⟩ hfree
    · exact hplaces (name, i) ⟨t, k, rest, hsuffix, Or.inr hplace⟩
        (hresolved.free name.raw harea)
  · intro name name' area area' harea harea'
    constructor
    · intro htext
      obtain rfl := Text.ofInt_injective htext
      exact hnumbered.areaId?_injective harea harea'
    · rintro rfl
      rw [Option.some.inj (harea.symm.trans harea')]

/-- Areas are numbered in the order in which they are first declared, whatever is done
with a table, and keep their numbers; and in a script that is resolved from a fresh table
every name of an area gives way to its number, equal numbers standing for equal names. -/
theorem SymbolTable.areas_numbered :
    (∀ (table : SymbolTable) (before after : List Operation), table.areas = [] →
      (∃ log, table.Declares before log ∧ (table.after before).areas = log.eraseDups) ∧
      (∀ i (h : i < (table.after before).areas.length),
        (table.after before).areaId? (table.after before).areas[i] =
          some (table.areaBase + i)) ∧
      ∀ name area, (table.after before).areaId? name = some area →
        (table.after (before ++ after)).areaId? name = some area) ∧
    ∀ (s out : Script Node) (table last : SymbolTable), table.Fresh →
      s.resolve.run.run table = (.ok out, last) → s.AreasNumbered out last := by
  refine ⟨?_, fun s out table last hfresh hrun => Script.areasNumbered_of_run hfresh hrun⟩
  intro table before after hnone
  obtain ⟨log, hlog, hareas⟩ := @after_areas before table [] hnone
  rw [List.nil_append] at hareas
  obtain ⟨hbase, -, hnumbers⟩ := after_extends before table
  refine ⟨⟨log, hlog, hareas⟩, ?_, ?_⟩
  · intro i hi
    have hnodup : (table.after before).areas.Nodup := hareas ▸ nodup_eraseDups log
    rw [(hnumbers (.of_areas hnone)).areaId?_getElem hnodup hi, hbase]
  · intro name area harea
    obtain ⟨-, hareas', -⟩ := after_extends after (table.after before)
    rw [SymbolTable.after, List.foldl_append]
    exact areaId?_later hareas' harea

/-- Areas declared with and without coordinates, in a repeated block, and used; one name
is a constant. -/
def shores : Text :=
  ("#const HILL 7\nactor_area LAKE\n#REPEAT(2)\ncreate_actor_area (1 + 2) -4 ISLE 3\n" ++
    "actor_area HILL\n#END_REPEAT\navoid_actor_area LAKE actor_area_to_place_in ISLE").toList

theorem SymbolTable.areas_numbered_shores :
    ∃ s out last, Script.ofSource shores = .ok s ∧ s.resolve.run.run {} = (.ok out, last) ∧
      s.AreasNumbered out last ∧ last.areas = ["LAKE".toList, "ISLE".toList] ∧
      (Resolve.groups out.parts).map (fun row => row.flatMap fun t => t.raw) =
        ["#const HILL 7\nactor_area 20000\n".toList,
          "\ncreate_actor_area (1 + 2) -4 20001 3\nactor_area HILL\n".toList,
          "\navoid_actor_area 20000 actor_area_to_place_in 20001".toList] ∧
      (({} : SymbolTable).after [.declare "COVE".toList, .resolve s]).areaId? "COVE".toList =
        some 20000 := by
  have hruns : (Script.ofSource shores).toOption.any (fun s =>
      decide ((s.resolve.run.run {}).2.areas = ["LAKE".toList, "ISLE".toList]) &&
        (s.resolve.run.run {}).1.toOption.any fun out =>
          decide ((Resolve.groups out.parts).map (fun row => row.flatMap fun t => t.raw) =
            ["#const HILL 7\nactor_area 20000\n".toList,
              "\ncreate_actor_area (1 + 2) -4 20001 3\nactor_area HILL\n".toList,
              "\navoid_actor_area 20000 actor_area_to_place_in 20001".toList])) = true := by
    decide +kernel
  obtain ⟨s, hs, hruns⟩ := toOption_any_iff.1 hruns
  rw [Bool.and_eq_true, decide_eq_true_eq] at hruns
  obtain ⟨hareas, hruns⟩ := hruns
  obtain ⟨out, hout, hrows⟩ := toOption_any_iff.1 hruns
  rw [decide_eq_true_eq] at hrows
  have hresolved := areas_numbered.2 s out {} _ ⟨rfl, rfl, rfl⟩ (Prod.ext hout rfl)
  have hkept := (areas_numbered.1 {} [.declare "COVE".toList] [.resolve s] rfl).2.2
  exact ⟨s, out, _, hs, Prod.ext hout rfl, hresolved, hareas, hrows, hkept _ _ (by decide)⟩

end MapScript
