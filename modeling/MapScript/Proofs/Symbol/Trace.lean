import MapScript.Proofs.Symbol.Meaning

/-!
# The course of resolving

What resolving a script does to the table, told once for all that is to follow
from it.  The table changes in two ways only: an area is entered, or a declaration
of the script is folded and the values found on the way stay.  A script that is
resolved has all its declarations folded, one after the other; one that is not
stops in a table it has reached, for one of a few reasons.
-/

namespace MapScript

namespace Resolve

open Evaluation (require check)

/-- What a script holds that can enter a table: its declarations and its words. -/
structure Scope where
  entries : List (Text × Declaration)
  words : List Text

variable {scope : Scope} {table table' table'' : SymbolTable}

/-- One change of the table. -/
inductive Enters (scope : Scope) (table : SymbolTable) : SymbolTable → Prop
  | area {name : Text} (word : name ∈ scope.words) (free : table.isConstant name = false) :
      Enters scope table (table.declareArea name)
  | values {entry : Text × Declaration} {value : Option Number} {memo : Memo}
      (declared : entry ∈ scope.entries)
      (found : (Evaluation.foldDeclaration table entry.1 entry.2).run.run table.values =
        (.ok value, memo)) :
      Enters scope table { table with values := memo }

/-- Any number of changes. -/
def Reaches (scope : Scope) : SymbolTable → SymbolTable → Prop :=
  Relation.ReflTransGen (Enters scope)

/-- Why resolving stops in a table. -/
inductive Stops (scope : Scope) (table : SymbolTable) : Failure → Prop
  | undeclared {r : Report} (kind : r.cause.kind = .unresolved) : Stops scope table (.report r)
  | search {entry : Text × Declaration} {e : Failure} {memo : Memo}
      (declared : entry ∈ scope.entries)
      (failed : (Evaluation.foldDeclaration table entry.1 entry.2).run.run table.values =
        (.error e, memo)) :
      Stops scope table e
  | longArea {name : Text} {area : Int} {f : Fault} (number : table.areaId? name = some area)
      (long : (Number.int area).format = .error f) : Stops scope table (.fault f)
  | longValue {entry : Text × Declaration} {value : Number} {memo : Memo} {f : Fault}
      (declared : entry ∈ scope.entries)
      (found : (Evaluation.foldDeclaration table entry.1 entry.2).run.run table.values =
        (.ok (some value), memo))
      (long : value.format = .error f) : Stops scope table (.fault f)

/-- Resolving goes on to a table in which it stops. -/
def Halts (scope : Scope) (table : SymbolTable) (e : Failure) : Prop :=
  ∃ mid, Reaches scope table mid ∧ Stops scope mid e

/-- The value of an operand is written in its place, unless it stands there already. -/
def Writes (operand : List Token) (value : Option Number) : Prop :=
  ∀ v, value = some v → isLiteral operand = true ∨ ∃ raw, v.format = .ok raw

/-- A declaration is folded on the way from one table to another. -/
def Folds (scope : Scope) (table : SymbolTable) (entry : Text × Declaration)
    (table' : SymbolTable) : Prop :=
  ∃ mid value memo, Reaches scope table mid ∧
    (Evaluation.foldDeclaration mid entry.1 entry.2).run.run mid.values = (.ok value, memo) ∧
    Writes entry.2.operand value ∧ Reaches scope { mid with values := memo } table'

/-- The way from one table to another, on which the declarations are folded that have
an operand. -/
structure Covers (scope : Scope) (table : SymbolTable) (entries : List (Text × Declaration))
    (table' : SymbolTable) : Prop where
  reaches : Reaches scope table table'
  folds : ∀ entry ∈ entries, entry.2.operand = [] ∨ Folds scope table entry table'

theorem Stops.halts {e : Failure} (h : Stops scope table e) : Halts scope table e :=
  ⟨table, .refl, h⟩

theorem Halts.of_reaches {e : Failure} (h : Reaches scope table table')
    (h' : Halts scope table' e) : Halts scope table e := by
  obtain ⟨mid, hreaches, hstops⟩ := h'
  exact ⟨mid, h.trans hreaches, hstops⟩

theorem Covers.refl (scope : Scope) (table : SymbolTable) : Covers scope table [] table :=
  ⟨.refl, by simp⟩

theorem Covers.single (h : Enters scope table table') : Covers scope table [] table' :=
  ⟨.single h, by simp⟩

theorem Covers.append {entries entries' : List (Text × Declaration)}
    (h : Covers scope table entries table') (h' : Covers scope table' entries' table'') :
    Covers scope table (entries ++ entries') table'' := by
  refine ⟨h.reaches.trans h'.reaches, List.forall_mem_append.2 ⟨?_, ?_⟩⟩
  · intro entry hentry
    refine (h.folds entry hentry).imp_right ?_
    rintro ⟨mid, value, memo, hbefore, hfound, hwrites, hafter⟩
    exact ⟨mid, value, memo, hbefore, hfound, hwrites, hafter.trans h'.reaches⟩
  · intro entry hentry
    refine (h'.folds entry hentry).imp_right ?_
    rintro ⟨mid, value, memo, hbefore, hfound, hwrites, hafter⟩
    exact ⟨mid, value, memo, h.reaches.trans hbefore, hfound, hwrites, hafter⟩

/-- The computation folds the declarations, or it halts. -/
abbrev Traces {α : Type} (scope : Scope) (x : Resolving α) (entries : List (Text × Declaration)) :
    Prop :=
  ∀ table, Ends x table (fun _ table' => Covers scope table entries table')
    (fun e _ => Halts scope table e)

theorem Traces.bind {α β : Type} {x : Resolving α} {f : α → Resolving β}
    {entries entries' : List (Text × Declaration)} (h : Traces scope x entries)
    (hf : ∀ a, Traces scope (f a) entries') : Traces scope (x >>= f) (entries ++ entries') := by
  intro table
  rw [Ends.bind_iff]
  apply (h table).weaken
  intro a table₁ hcovers
  apply (hf a table₁).mono
  · intro b table₂ hcovers'
    exact hcovers.append hcovers'
  · intro e _ hhalts
    exact .of_reaches hcovers.reaches hhalts

theorem Traces.pure {α : Type} (scope : Scope) (a : α) : Traces scope (pure a : Resolving α) [] :=
  fun table => Covers.refl scope table

/-! ### Rows -/

theorem require_error {table : SymbolTable} {ref : Token} {e : Failure}
    (h : require table ref = .error e) : ∃ r, e = .report r ∧ r.cause.kind = .unresolved := by
  unfold require at h
  split at h
  · cases h
  · cases h
    exact ⟨_, rfl, rfl⟩

theorem check_stops {operand : List Token} {e : Failure} (h : check table operand = .error e) :
    Stops scope table e := by
  obtain ⟨ref, -, href⟩ := forM_eq_error h
  obtain ⟨r, rfl, hkind⟩ := require_error href
  exact .undeclared hkind

theorem numeral_eq_error {value : Number} {span : Span} {f : Fault}
    (h : numeral value span = .error f) : value.format = .error f := by
  rw [numeral] at h
  cases hformat : value.format with
  | ok raw => simp [hformat, Except.map] at h
  | error f' =>
      rw [hformat, Except.map, Except.error.injEq] at h
      rw [h]

theorem replaceBy_traces (value : Number) (first last : Nat) (span : Span) (table : SymbolTable) :
    Ends (replaceBy value first last span) table
      (fun _ table' => table' = table ∧ ∃ raw, value.format = .ok raw)
      (fun e _ => ∃ f, value.format = .error f ∧ e = .fault f) := by
  rw [replaceBy, Ends.bind_iff, Resolving.ofFault_ends_iff]
  constructor
  · intro t ht
    obtain ⟨raw, hraw, -⟩ := numeral_eq_ok ht
    exact ⟨rfl, raw, hraw⟩
  · exact fun f hf => ⟨f, numeral_eq_error hf, rfl⟩

/-- Folding a declaration of the script. -/
theorem foldDeclaration_traces {name : Token} {rest : List Indexed}
    (hentry : (name.raw, ⟨operandOf (rest.map Prod.fst), name.span⟩) ∈ scope.entries) :
    Traces scope (foldDeclaration name rest)
      [(name.raw, ⟨operandOf (rest.map Prod.fst), name.span⟩)] := by
  intro table
  rw [foldDeclaration]
  split
  · next hnone =>
    refine ⟨.refl, List.forall_mem_singleton.2 (Or.inl ?_)⟩
    simp [operandOf, hnone]
  next n hn =>
    have hoperand : operandOf (rest.map Prod.fst) = (rest.take n).map Prod.fst := by
      simp [operandOf, hn]
    rw [hoperand] at hentry ⊢
    simp only [Ends.bind_iff, Ends.get_iff, Ends.lift_iff, Resolving.evaluate_ends_iff]
    refine ⟨?_, fun e he => (check_stops he).halts⟩
    rintro ⟨⟩ -
    refine Ends.of_run ?_ fun e memo hrun => (Stops.search hentry hrun).halts
    intro value memo hrun
    have hreaches : Reaches scope table { table with values := memo } :=
      .single (.values hentry hrun)
    have hcovers (hwrites : Writes ((rest.take n).map Prod.fst) value) : Covers scope table
        [(name.raw, ⟨(rest.take n).map Prod.fst, name.span⟩)] { table with values := memo } :=
      ⟨hreaches,
        List.forall_mem_singleton.2 (Or.inr ⟨table, value, memo, .refl, hrun, hwrites, .refl⟩)⟩
    split
    · next value first i more hpart =>
      split
      · next hliteral => exact hcovers fun _ _ => Or.inl hliteral
      · rw [Ends.map_iff]
        apply (replaceBy_traces value _ _ _ _).mono
        · rintro edit table' ⟨rfl, hraw⟩
          exact hcovers fun _ hv => Or.inr (Option.some.inj hv ▸ hraw)
        · rintro e table' ⟨f, hlong, rfl⟩
          exact (Stops.longValue hentry hrun hlong).halts
    · next value hother =>
      cases hpart : rest.take n with
      | nil => exact ⟨hreaches, List.forall_mem_singleton.2 (Or.inl rfl)⟩
      | cons x more =>
          rw [← hpart]
          refine hcovers ?_
          rintro v rfl
          exact (hother v x.1 x.2 more rfl hpart).elim

/-- The words of a row belong to the script. -/
def Scope.HasWords (scope : Scope) (row : List Token) : Prop :=
  ∀ t ∈ row, t.kind = .word → t.raw ∈ scope.words

theorem replaceArea_traces {name : Text} {area : Int} (i : Nat) (span : Span)
    (h : table.areaId? name = some area) :
    Ends (some <$> replaceBy (.int area) i i span) table (fun _ table' => table' = table)
      (fun e _ => Halts scope table e) := by
  rw [Ends.map_iff]
  apply (replaceBy_traces (.int area) i i span table).mono
  · rintro edit table' ⟨hsame, -⟩
    exact hsame
  · rintro e table' ⟨f, hlong, rfl⟩
    exact (Stops.longArea h hlong).halts

theorem declareArea_traces (coordinates : Nat) {rest : List Indexed}
    (hwords : scope.HasWords (rest.map Prod.fst)) :
    Traces scope (declareArea coordinates rest) [] := by
  intro table
  rw [declareArea]
  split
  · next name i others hskip =>
    have hmem : (name, i) ∈ rest := mem_of_skipOperands hskip (by simp)
    simp only [Ends.bind_iff, Ends.get_iff]
    split
    · exact .refl scope table
    next hname =>
      simp only [Bool.or_eq_true, bne_iff_ne, ne_eq, not_or, not_not, Bool.not_eq_true] at hname
      have hword := hwords name (List.mem_map.2 ⟨_, hmem, rfl⟩) hname.1
      have henters : Enters scope table (table.declareArea name.raw) := .area hword hname.2
      simp only [Ends.bind_iff, Ends.modify_iff, Ends.get_iff]
      split
      · next area harea =>
        apply (replaceArea_traces i name.span harea).mono
        · rintro edit table' rfl
          exact .single henters
        · intro e table' hhalts
          exact .of_reaches (.single henters) hhalts
      · exact .single henters
  · exact .refl scope table

theorem referArea_traces (rest : List Indexed) : Traces scope (referArea rest) [] := by
  intro table
  rw [referArea.eq_def]
  split
  · next name i others =>
    split
    · exact .refl scope table
    simp only [Ends.bind_iff, Ends.get_iff]
    split
    · next area harea =>
      apply (replaceArea_traces i name.span harea).weaken
      rintro edit table' rfl
      exact .refl scope table'
    · split
      · exact .refl scope table
      · exact (Stops.undeclared rfl).halts
  · exact .refl scope table

/-- The declarations and the words of a row of significant tokens belong to the script. -/
structure Scope.Has (scope : Scope) (row : List Token) : Prop where
  entries : declarations row ⊆ scope.entries
  words : scope.HasWords row

theorem Scope.Has.tail {t : Token} {row : List Token} (h : scope.Has (t :: row)) :
    scope.Has row where
  entries := by
    intro entry hentry
    apply h.entries
    rw [declarations_cons]
    exact List.mem_append_right _ hentry
  words := fun u hu => h.words u (List.mem_cons_of_mem t hu)

theorem editAt_traces {t : Token} {rest : List Indexed}
    (hscope : scope.Has (t :: rest.map Prod.fst)) :
    Traces scope (editAt t rest) (declaredBy t (rest.map Prod.fst)) := by
  intro table
  have hdeclared : declaredBy t (rest.map Prod.fst) ⊆ scope.entries := by
    intro entry hentry
    apply hscope.entries
    rw [declarations_cons]
    exact List.mem_append_left _ hentry
  rw [editAt.eq_def]
  split
  · next hconst =>
    cases rest with
    | nil =>
        rw [List.map_nil, declaredBy]
        · exact Covers.refl scope table
        · simp
    | cons x rest =>
        obtain ⟨name, i⟩ := x
        dsimp only
        split
        · next hname =>
          simp only [declaredBy, hconst, hname, List.map_cons, if_true] at hdeclared ⊢
          exact foldDeclaration_traces (hdeclared List.mem_cons_self) table
        · next hname =>
          simp only [declaredBy, hconst, hname, List.map_cons]
          exact .refl scope table
  next hconst =>
    have hnone : declaredBy t (rest.map Prod.fst) = [] := by simp [declaredBy, hconst]
    rw [hnone]
    split
    · exact .refl scope table
    split
    · exact declareArea_traces _ hscope.tail.words table
    split
    · exact referArea_traces rest table
    · exact .refl scope table

theorem edits_traces {row : List Indexed} (hscope : scope.Has (row.map Prod.fst)) :
    Traces scope (edits row) (declarations (row.map Prod.fst)) := by
  induction row with
  | nil => exact .pure scope []
  | cons x rest ih =>
      obtain ⟨t, i⟩ := x
      rw [List.map_cons, declarations_cons, ← List.append_nil (declarations _), edits]
      exact (editAt_traces hscope).bind fun here => (ih hscope.tail).bind fun later => .pure scope _

/-- The declarations in rows of tokens. -/
def declaredIn (rows : List (List Token)) : List (Text × Declaration) :=
  rows.flatMap fun row => declarations (Token.significant row)

/-- The rows belong to the script. -/
def Scope.HasAll (scope : Scope) (rows : List (List Token)) : Prop :=
  ∀ row ∈ rows, scope.Has (Token.significant row)

theorem resolveTokens_traces {tokens : List Token} (hscope : scope.HasAll [tokens]) :
    Traces scope (resolveTokens tokens) (declaredIn [tokens]) := by
  have hrow := hscope tokens (by simp)
  rw [← map_indexed] at hrow
  have hentries : declaredIn [tokens] = declarations ((indexed tokens).map Prod.fst) ++ [] := by
    rw [map_indexed]
    exact List.flatMap_cons
  rw [hentries, resolveTokens]
  exact (edits_traces hrow).bind fun edits => .pure scope _

theorem checkArguments_traces (args : List (List Token)) :
    Traces scope (checkArguments args) [] := by
  intro table
  rw [checkArguments]
  simp only [Ends.bind_iff, Ends.get_iff]
  induction args with
  | nil => exact .refl scope table
  | cons arg args ih =>
      rw [List.forM_eq_forM, List.forM_cons, Ends.bind_iff, Ends.lift_iff]
      exact ⟨fun _ _ => ih, fun e he => (check_stops he).halts⟩

/-! ### Blocks -/

theorem declaredIn_append (rows rows' : List (List Token)) :
    declaredIn (rows ++ rows') = declaredIn rows ++ declaredIn rows' := List.flatMap_append

mutual

theorem resolveNode_traces (n : Node) (hscope : scope.HasAll (nodeGroups n)) :
    Traces scope (resolveNode n) (declaredIn (nodeGroups n)) := by
  match n with
  | .run r =>
      rw [nodeGroups] at hscope ⊢
      rw [resolveNode, ← List.append_nil (declaredIn _)]
      exact (resolveTokens_traces hscope).bind fun tokens => .pure scope _
  | .marker m span =>
      rw [resolveNode]
      exact .pure scope _
  | .header h =>
      rw [resolveNode]
      exact .pure scope _
  | .repeated args children openSpan span =>
      rw [nodeGroups] at hscope ⊢
      rw [resolveNode, ← List.nil_append (declaredIn _), ← List.append_nil (declaredIn _)]
      exact (checkArguments_traces args).bind fun _ =>
        (resolveNodes_traces children hscope).bind fun out => .pure scope _
  | .call c =>
      rw [nodeGroups] at hscope ⊢
      rw [resolveNode.eq_def, ← List.nil_append (declaredIn _)]
      refine (checkArguments_traces c.args).bind fun _ => ?_
      cases hbody : c.body with
      | none => exact .pure scope _
      | some body =>
          rw [hbody] at hscope
          rw [← List.append_nil (declaredIn _)]
          exact (resolveTokens_traces hscope).bind fun tokens => .pure scope _

theorem resolveNodes_traces (ns : List Node) (hscope : scope.HasAll (groups ns)) :
    Traces scope (resolveNodes ns) (declaredIn (groups ns)) := by
  match ns with
  | [] =>
      rw [resolveNodes]
      exact .pure scope _
  | n :: ns =>
      rw [groups] at hscope ⊢
      rw [resolveNodes, declaredIn_append, ← List.append_nil (declaredIn (groups ns))]
      have hfirst := resolveNode_traces n fun row hrow => hscope row (List.mem_append_left _ hrow)
      have hrest := resolveNodes_traces ns fun row hrow => hscope row (List.mem_append_right _ hrow)
      exact hfirst.bind fun out => hrest.bind fun outs => .pure scope _

end

end Resolve

/-! ### Scripts -/

namespace Script

open Resolve

/-- The declarations of constants in a script, in its order. -/
def declared (s : Script Node) : List (Text × Declaration) := declaredIn (groups s.parts)

/-- The words in the rows of a script. -/
def words (s : Script Node) : List Text :=
  ((groups s.parts).flatten.filter fun t => t.kind == .word).map fun t => t.raw

/-- What a script can enter in a table. -/
def scope (s : Script Node) : Scope := ⟨s.declared, s.words⟩

theorem hasAll_scope (s : Script Node) : s.scope.HasAll (groups s.parts) := by
  intro row hrow
  constructor
  · intro entry hentry
    exact List.mem_flatMap.2 ⟨row, hrow, hentry⟩
  · intro t ht hword
    apply List.mem_map.2 ⟨t, List.mem_filter.2 ⟨List.mem_flatten.2 ⟨row, hrow, ?_⟩, ?_⟩, rfl⟩
    · exact List.mem_of_mem_filter ht
    · simpa using hword

/-- Resolving a script goes through its declarations, from a table that has them all. -/
theorem resolve_traces (s : Script Node) (table : SymbolTable) :
    Ends s.resolve table
      (fun _ table' => Covers s.scope (declare table s.parts) s.declared table')
      (fun e _ => Halts s.scope (declare table s.parts) e) := by
  rw [resolve]
  simp only [Ends.bind_iff, Ends.modify_iff, Ends.pure_iff]
  exact resolveNodes_traces s.parts s.hasAll_scope (declare table s.parts)

end Script

namespace SymbolTable

theorem lookup_addDeclaration (name other : Text) (d : Declaration)
    (constants : List (Text × List Declaration)) :
    (addDeclaration name d constants).lookup other =
      if other = name then some ((constants.lookup name).getD [] ++ [d])
      else constants.lookup other := by
  have hlookup (entry : Text × List Declaration) (rest : List (Text × List Declaration)) :
      (entry :: rest).lookup other =
        if other = entry.1 then some entry.2 else rest.lookup other := by
    rw [List.lookup_cons]
    cases h : other == entry.1 with
    | true => rw [if_pos (eq_of_beq h)]
    | false => rw [if_neg (beq_eq_false_iff_ne.1 h)]
  induction constants with
  | nil =>
      rw [addDeclaration, hlookup]
      rfl
  | cons entry rest ih =>
      obtain ⟨first, ds⟩ := entry
      rw [addDeclaration]
      split
      · next hfirst =>
        obtain rfl : first = name := eq_of_beq hfirst
        rw [hlookup, hlookup]
        by_cases h : other = first <;> simp [h]
      · next hfirst =>
        have hname : (name == first) = false := beq_eq_false_iff_ne.2 fun h => hfirst (by simp [h])
        rw [hlookup, hlookup, ih, List.lookup_cons, hname]
        by_cases h : other = name
        · rw [if_neg (fun hother => beq_eq_false_iff_ne.1 hname (h.symm.trans hother))]
          simp [h]
        · simp [h]

/-- The declarations of a name among others, in their order. -/
def declarationsOf (name : Text) (entries : List (Text × Declaration)) : List Declaration :=
  (entries.filter fun entry => entry.1 == name).map Prod.snd

theorem mem_declarationsOf {name : Text} {d : Declaration} {entries : List (Text × Declaration)} :
    d ∈ declarationsOf name entries ↔ (name, d) ∈ entries := by
  rw [declarationsOf, List.mem_map]
  constructor
  · rintro ⟨⟨other, d'⟩, hmem, rfl⟩
    obtain ⟨hin, hname⟩ := List.mem_filter.1 hmem
    obtain rfl : other = name := eq_of_beq hname
    exact hin
  · intro hmem
    exact ⟨(name, d), List.mem_filter.2 ⟨hmem, beq_self_eq_true name⟩, rfl⟩

/-- A constant has the declarations that were entered for it. -/
theorem lookup_constants_foldl (name : Text) (entries : List (Text × Declaration))
    (table : SymbolTable) :
    (entries.foldl (fun table (name, d) => table.declareConstant name d) table).constants.lookup
        name =
      if declarationsOf name entries = [] then table.constants.lookup name
      else some ((table.constants.lookup name).getD [] ++ declarationsOf name entries) := by
  induction entries generalizing table with
  | nil => rfl
  | cons entry rest ih =>
      obtain ⟨first, d⟩ := entry
      rw [List.foldl_cons, ih]
      dsimp only [declareConstant]
      rw [lookup_addDeclaration]
      by_cases h : name = first
      · subst h
        by_cases hrest : declarationsOf name rest = []
        · simp only [declarationsOf] at hrest ⊢
          simp [hrest]
        · simp only [declarationsOf] at hrest ⊢
          simp [hrest]
      · have hne : (first == name) = false := beq_eq_false_iff_ne.2 fun hfirst => h hfirst.symm
        simp only [declarationsOf, List.filter_cons, hne, h, if_false, Bool.false_eq_true]

end SymbolTable

theorem Script.lookup_declare (s : Script Node) {table : SymbolTable}
    (htable : table.constants = []) (name : Text) :
    (Resolve.declare table s.parts).constants.lookup name =
      if SymbolTable.declarationsOf name s.declared = [] then none
      else some (SymbolTable.declarationsOf name s.declared) := by
  have h := SymbolTable.lookup_constants_foldl name s.declared table
  rw [htable] at h
  exact h

/-- Declaring constants changes nothing else. -/
theorem Resolve.declare_eq (table : SymbolTable) (nodes : List Node) :
    ∃ constants, declare table nodes = { table with constants := constants } := by
  rw [declare]
  generalize (groups nodes).flatMap (fun tokens => declarations (Token.significant tokens)) =
    entries
  induction entries generalizing table with
  | nil => exact ⟨table.constants, rfl⟩
  | cons entry rest ih =>
      obtain ⟨constants, h⟩ := ih (table.declareConstant entry.1 entry.2)
      exact ⟨constants, h⟩

/-! ### What the values mean on the way -/

namespace Resolve

open Evaluation (Sound Assigns HasValue)

variable {scope : Scope} {table table' : SymbolTable}

@[simp] theorem values_declareArea (table : SymbolTable) (name : Text) :
    (table.declareArea name).values = table.values := by
  rw [SymbolTable.declareArea]
  split <;> rfl

theorem Enters.sound (h : Enters scope table table') (hsound : Sound table table.values) :
    table.Grows table' ∧ Sound table' table'.values := by
  cases h with
  | @area name _ hfree =>
      have hgrows := SymbolTable.Grows.declareArea hfree
      refine ⟨hgrows, ?_⟩
      rw [values_declareArea]
      exact hsound.grow hgrows
  | @values entry _ _ _ hfound =>
      have hgrows := SymbolTable.Grows.of_values
        ((Evaluation.fold_ends table [⟨entry.1, entry.2.span⟩] entry.2.operand
          table.values).of_run_ok hfound).1
      have hmemo := ((Evaluation.fold_sound hsound [⟨entry.1, entry.2.span⟩]
        entry.2.operand).of_run_ok hfound).1
      exact ⟨hgrows, hmemo.grow hgrows⟩

/-- The table only grows, and its values stay those of their names. -/
theorem Reaches.sound (h : Reaches scope table table') (hsound : Sound table table.values) :
    table.Grows table' ∧ Sound table' table'.values := by
  induction h with
  | refl => exact ⟨.refl table, hsound⟩
  | tail _ hstep ih =>
      obtain ⟨hgrows, hmid⟩ := ih
      obtain ⟨hgrows', hlast⟩ := hstep.sound hmid
      exact ⟨hgrows.trans hgrows', hlast⟩

/-- The names in a folded declaration have values, and its expression has a result that
is written. -/
theorem Covers.written {entries : List (Text × Declaration)} (h : Covers scope table entries table')
    (hsound : Sound table table.values) {entry : Text × Declaration} (hentry : entry ∈ entries) :
    ∃ values result, Assigns table' values (Operand.references entry.2.operand) ∧
      Expression.fold values (Token.significant entry.2.operand) = .ok result ∧
      Writes entry.2.operand result := by
  rcases h.folds entry hentry with hempty | ⟨mid, value, memo, hbefore, hfound, hwrites, hafter⟩
  · rw [hempty]
    refine ⟨fun _ => none, none, by simp [Assigns, Operand.references], ?_, by simp [Writes]⟩
    simp [Token.significant, Expression.fold, Expression.evaluate, Expression.sum,
      Expression.product, Expression.signed]
  · obtain ⟨-, hmid⟩ := hbefore.sound hsound
    have hmemo := (Evaluation.fold_ends mid [⟨entry.1, entry.2.span⟩] entry.2.operand
      mid.values).of_run_ok hfound
    have hgrows := SymbolTable.Grows.of_values hmemo.1
    obtain ⟨hvalues, values, hassigns, hfold⟩ :=
      (Evaluation.fold_sound hmid [⟨entry.1, entry.2.span⟩] entry.2.operand).of_run_ok hfound
    obtain ⟨hgrows', -⟩ := hafter.sound (hvalues.grow hgrows)
    exact ⟨values, value, hassigns.grow (hgrows.trans hgrows'), hfold, hwrites⟩

theorem Covers.folded {entries : List (Text × Declaration)} (h : Covers scope table entries table')
    (hsound : Sound table table.values) {entry : Text × Declaration} (hentry : entry ∈ entries) :
    ∃ values result, Assigns table' values (Operand.references entry.2.operand) ∧
      Expression.fold values (Token.significant entry.2.operand) = .ok result := by
  obtain ⟨values, result, hassigns, hfold, -⟩ := h.written hsound hentry
  exact ⟨values, result, hassigns, hfold⟩

end Resolve

/-- Before the search begins no value is wrong. -/
theorem Script.sound_declare (s : Script Node) {table : SymbolTable} (hvalues : table.values = []) :
    Evaluation.Sound (Resolve.declare table s.parts) (Resolve.declare table s.parts).values := by
  obtain ⟨constants, h⟩ := Resolve.declare_eq table s.parts
  have hnone : (Resolve.declare table s.parts).values = [] := by rw [h, hvalues]
  rw [hnone]
  exact .nil _

end MapScript
