import MapScript.Proofs.CallsOnce
import MapScript.Proofs.Enduring

/-!
# Texts that are read again

The text of a script is read as the lines that declare its calls and the rest of its row.
Nothing is left to resolve in them: what the lines declare calls, and what the rest declares
has endured.
-/

namespace MapScript

open Evaluation (HasValue Assigns Yields Sound Calls Outlives)
open Grammar (Balanced argumentList)
open Operand (references)
open Resolve (Indexed isConst isAreaCommand declarations operandOf begins AreaPlace Endures)

theorem forall₂_toLexeme {ts ts' : List Token} (h : ts.map Token.toLexeme = ts'.map Token.toLexeme) :
    List.Forall₂ (fun t t' => t.toLexeme = t'.toLexeme) ts ts' := by
  rwa [← List.forall₂_eq_eq_eq, List.forall₂_map_left_iff, List.forall₂_map_right_iff] at h

/-! ### Lines of declarations -/

namespace Hoist

/-- A constant that is declared outside the script only. -/
def IsExternal (table : SymbolTable) (name : Text) : Prop :=
  table.constants.lookup name = none ∧ table.isConstant name = true

/-- A call as it is declared: an operand by itself that refers to constants from outside. -/
structure Called (table : SymbolTable) (call : List Token) : Prop where
  coordinate : Coordinate call
  free : ∀ rest, readsAsCall call rest = false
  undirected : ∀ t ∈ call, t.kind ≠ .directive
  words : ∀ t ∈ call, t.kind = .word → t.raw = "rnd".toList ∨ IsExternal table t.raw
  calls : Calls table call

section
variable {table : SymbolTable} {names : List Text} {x : Hoisted} {calls : List Hoisted}

/-- An argument of a call that lasts is no directive, and it is a constant from outside if it is
a name. -/
theorem Lasts.argument {c : RandomCall} (h : Lasts table c) {us : List Token}
    (hus : List.Forall₂ (Folded table) (Token.significant c.group.inner) us) {u : Token}
    (hu : u ∈ us) : u.kind ≠ .directive ∧ (u.kind = .word → IsExternal table u.raw) := by
  obtain ⟨t, ht, hfolded⟩ := exists_of_forall₂_mem hus hu
  have ht := (List.mem_filter.1 ht).1
  unfold Folded at hfolded
  split at hfolded
  · obtain ⟨v, raw, -, -, rfl⟩ := hfolded
    exact ⟨nofun, nofun⟩
  · next hconstant =>
    subst hfolded
    refine ⟨h.undirected u ht, fun hword => ⟨?_, h.named u ht hword⟩⟩
    cases hlookup : table.constants.lookup u.raw with
    | none => rfl
    | some ds => exact absurd (by simp [isConstant, hword, hlookup]) hconstant

/-- What is read of a call that is declared. -/
theorem Taken.called (h : Taken table names x) {call : List Token}
    (hcall : call.map Token.toLexeme = x.declared.map Token.toLexeme) : Called table call := by
  obtain ⟨us, hus, hdeclared⟩ := h.declares.significant_declared
  rw [hdeclared] at hcall
  obtain ⟨n, row, rfl, hn, hrow⟩ := List.map_eq_cons_iff.1 hcall
  obtain ⟨o, row, rfl, ho, hrow⟩ := List.map_eq_cons_iff.1 hrow
  rw [List.map_append] at hrow
  obtain ⟨inner, closer, rfl, hinner, hcloser⟩ := List.map_eq_append_iff.1 hrow
  obtain ⟨c, row, rfl, hc, hrow⟩ := List.map_eq_cons_iff.1 hcloser
  obtain rfl := List.map_eq_nil_iff.1 hrow
  have hkind : n.kind = .word := (congrArg Lexeme.kind hn).trans h.formed.kind
  have hopens : o.isPunct '(' = true := (Token.isPunct_congr ho '(').trans h.formed.opening
  have hcloses : c.isPunct ')' = true := (Token.isPunct_congr hc ')').trans h.formed.closer
  have hbalanced : Balanced argumentList inner := by
    refine (h.formed.inner.significant.of_marks (hus.imp fun _ _ => Folded.isPunct_eq)).of_marks ?_
    exact (forall₂_toLexeme hinner.symm).imp fun _ _ hlexeme mark =>
      (Token.isPunct_congr hlexeme mark).symm
  have harguments {t : Token} (ht : t ∈ inner) :
      t.kind ≠ .directive ∧ (t.kind = .word → IsExternal table t.raw) := by
    have hmem : t.toLexeme ∈ us.map Token.toLexeme := hinner ▸ List.mem_map_of_mem ht
    obtain ⟨u, hu, hlexeme⟩ := List.mem_map.1 hmem
    have hargument := h.lasts.argument hus hu
    rwa [show u.kind = t.kind from congrArg Lexeme.kind hlexeme,
      show u.raw = t.raw from congrArg Lexeme.raw hlexeme] at hargument
  have hraw : n.raw = "rnd".toList := by
    have hname := h.formed.name
    rw [Token.isWord, Bool.and_eq_true, beq_iff_eq, beq_iff_eq] at hname
    exact (congrArg Lexeme.raw hn).trans hname.2
  have hmarks : o.kind = .punct ∧ c.kind = .punct :=
    ⟨Token.kind_of_isPunct hopens, Token.kind_of_isPunct hcloses⟩
  refine ⟨.call hkind hopens hbalanced hcloses, fun rest => by simp [readsAsCall], ?_, ?_,
    ⟨fun values => Expression.fold_call values _ hkind hopens, fun ref href => ?_⟩⟩
  · intro t ht
    rw [List.mem_cons, List.mem_cons, List.mem_append, List.mem_singleton] at ht
    rcases ht with rfl | rfl | ht | rfl
    · simp [hkind]
    · simp [hmarks.1]
    · exact (harguments ht).1
    · simp [hmarks.2]
  · intro t ht hword
    rw [List.mem_cons, List.mem_cons, List.mem_append, List.mem_singleton] at ht
    rcases ht with rfl | rfl | ht | rfl
    · exact Or.inl hraw
    · simp [hmarks.1] at hword
    · exact Or.inr ((harguments ht).2 hword)
    · simp [hmarks.2] at hword
  · rw [Operand.mem_references_cons, Operand.mem_references_cons,
      Operand.references_append_closer hcloses] at href
    rcases href with ⟨-, -, hplain⟩ | ⟨rfl, hword, -⟩ | href
    · simp [hopens] at hplain
    · simp [hmarks.1] at hword
    · obtain ⟨hmem, hword⟩ := Operand.mem_of_mem_references href
      exact (harguments hmem).2 hword

/-- The significant tokens of the line that declares a call. -/
theorem significant_line (x : Hoisted) : ∃ c n, Token.significant x.line = c :: n :: x.declared ∧
    isConst c = true ∧ n.kind = .word ∧ n.raw = x.name := by
  refine ⟨.made .directive "#const".toList x.call.name.span, .made .word x.name x.call.name.span,
    ?_, ?_, rfl, rfl⟩
  · have hself : Token.significant x.declared = x.declared := by
      rw [Hoisted.declared, Token.significant, Token.significant, List.filter_filter]
      simp
    have hline : x.line = [.made .directive "#const".toList x.call.name.span,
        .made .blank [' '] x.call.name.span, .made .word x.name x.call.name.span,
        .made .blank [' '] x.call.name.span] ++ (x.declared ++
          [.made .newline ['\n'] x.call.name.span]) := by
      simp [Hoisted.line, Hoisted.declared, declaration]
    rw [hline, significant_append, significant_append, hself]
    simp [Token.significant, Token.made, Token.isTrivia, TokenKind.isTrivia]
  · simp only [isConst, Token.value, Token.made]
    decide +kernel

/-- A row that declares the calls, each under its name. -/
structure Announces (table : SymbolTable) (calls : List Hoisted)
    (entries : List (Text × Declaration)) : Prop where
  named : ∀ entry ∈ entries, entry.1 ∈ calls.map Hoisted.name
  called : ∀ entry ∈ entries, Called table entry.2.operand
  all : ∀ x ∈ calls, ∃ entry ∈ entries, entry.1 = x.name

/-- What is read of the lines declares the calls, and nothing else. -/
theorem exists_declarations_lines (htaken : ∀ x ∈ calls, Taken table names x) {lines : List Token}
    (hlines : lines.map Token.toLexeme =
      (Token.significant (calls.flatMap Hoisted.line)).map Token.toLexeme) (rest : List Token) :
    ∃ entries, declarations (lines ++ rest) = entries ++ declarations rest ∧
      Announces table calls entries := by
  induction calls generalizing lines with
  | nil =>
      obtain rfl := List.map_eq_nil_iff.1 hlines
      exact ⟨[], rfl, by simp, by simp, by simp⟩
  | cons x calls ih =>
      obtain ⟨hx, hcalls⟩ := List.forall_mem_cons.1 htaken
      obtain ⟨c, n, hline, hconst, hword, hname⟩ := significant_line x
      rw [List.flatMap_cons, significant_append, hline, List.cons_append, List.cons_append] at hlines
      obtain ⟨c', row, rfl, hc, hrow⟩ := List.map_eq_cons_iff.1 hlines
      obtain ⟨n', row, rfl, hn, hrow⟩ := List.map_eq_cons_iff.1 hrow
      rw [List.map_append] at hrow
      obtain ⟨call, later, rfl, hcall, hlater⟩ := List.map_eq_append_iff.1 hrow
      obtain ⟨entries, hentries, hnamed, hcalled, hall⟩ := ih hcalls hlater
      have hcall := hx.called hcall
      have hoperand : operandOf (call ++ (later ++ rest)) = call := by
        rw [operandOf, hcall.coordinate.length? (hcall.free _)]
        exact List.take_left
      have hname' : n'.raw = x.name := (congrArg Lexeme.raw hn).trans hname
      refine ⟨(n'.raw, ⟨call, n'.span⟩) :: entries, ?_, ?_, ?_, ?_⟩
      · rw [List.cons_append, List.cons_append, List.append_assoc,
          Resolve.declarations_const ((Resolve.isConst_congr hc).trans hconst)
            ((congrArg Lexeme.kind hn).trans hword), hoperand,
          Resolve.declarations_append_of_undirected hcall.undirected, hentries]
        rfl
      · rw [List.forall_mem_cons]
        refine ⟨by simp [hname'], fun entry hentry => ?_⟩
        exact List.mem_cons_of_mem _ (hnamed entry hentry)
      · exact List.forall_mem_cons.2 ⟨hcall, hcalled⟩
      · rw [List.forall_mem_cons]
        refine ⟨⟨_, List.mem_cons_self, hname'⟩, fun y hy => ?_⟩
        obtain ⟨entry, hentry, hsame⟩ := hall y hy
        exact ⟨entry, List.mem_cons_of_mem _ hentry, hsame⟩

/-- The names in the lines are those of the calls, that of random calls, and constants from
outside. -/
theorem word_of_lines (htaken : ∀ x ∈ calls, Taken table names x) {lines : List Token}
    (hlines : lines.map Token.toLexeme =
      (Token.significant (calls.flatMap Hoisted.line)).map Token.toLexeme) {t : Token}
    (ht : t ∈ lines) (hword : t.kind = .word) :
    t.raw ∈ calls.map Hoisted.name ∨ t.raw = "rnd".toList ∨ IsExternal table t.raw := by
  induction calls generalizing lines with
  | nil =>
      obtain rfl := List.map_eq_nil_iff.1 hlines
      cases ht
  | cons x calls ih =>
      obtain ⟨hx, hcalls⟩ := List.forall_mem_cons.1 htaken
      obtain ⟨c, n, hline, hconst, -, hname⟩ := significant_line x
      rw [List.flatMap_cons, significant_append, hline, List.cons_append, List.cons_append] at hlines
      obtain ⟨c', row, rfl, hc, hrow⟩ := List.map_eq_cons_iff.1 hlines
      obtain ⟨n', row, rfl, hn, hrow⟩ := List.map_eq_cons_iff.1 hrow
      rw [List.map_append] at hrow
      obtain ⟨call, later, rfl, hcall, hlater⟩ := List.map_eq_append_iff.1 hrow
      rw [List.mem_cons, List.mem_cons, List.mem_append] at ht
      rcases ht with rfl | rfl | ht | ht
      · rw [show t.kind = c.kind from congrArg Lexeme.kind hc, Resolve.kind_of_isConst hconst] at hword
        cases hword
      · rw [show t.raw = n.raw from congrArg Lexeme.raw hn, hname]
        exact Or.inl List.mem_cons_self
      · exact Or.inr ((hx.called hcall).words t ht hword)
      · exact (ih hcalls hlater ht).imp_left (List.mem_cons_of_mem _)

end

end Hoist

/-! ### Constants of a row -/

namespace SymbolTable

/-- The constants of the table are those that the entries declare. -/
def Lists (table : SymbolTable) (entries : List (Text × Declaration)) : Prop :=
  ∀ name, table.constants.lookup name =
    if declarationsOf name entries = [] then none else some (declarationsOf name entries)

section
variable {table : SymbolTable} {entries : List (Text × Declaration)} {name : Text}

theorem declarationsOf_eq_nil_iff : declarationsOf name entries = [] ↔
    name ∉ entries.map Prod.fst := by
  rw [List.eq_nil_iff_forall_not_mem]
  simp [mem_declarationsOf]

theorem Lists.lookup_some (h : table.Lists entries) (hname : name ∈ entries.map Prod.fst) :
    table.constants.lookup name = some (declarationsOf name entries) := by
  rw [h, if_neg]
  exact fun hnone => declarationsOf_eq_nil_iff.1 hnone hname

theorem Lists.lookup_eq_none_iff (h : table.Lists entries) :
    table.constants.lookup name = none ↔ name ∉ entries.map Prod.fst := by
  rw [h, ← declarationsOf_eq_nil_iff]
  simp

theorem Lists.eq_of_lookup (h : table.Lists entries) {ds : List Declaration}
    (hds : table.constants.lookup name = some ds) : ds = declarationsOf name entries := by
  rw [h] at hds
  split at hds
  · cases hds
  · exact (Option.some.inj hds).symm

/-- Related entries declare a name alike. -/
theorem forall₂_declarationsOf {R : Declaration → Declaration → Prop}
    {entries entries' : List (Text × Declaration)}
    (h : List.Forall₂ (fun e e' => e.1 = e'.1 ∧ R e.2 e'.2) entries entries') (name : Text) :
    List.Forall₂ R (declarationsOf name entries) (declarationsOf name entries') := by
  induction h with
  | nil => exact .nil
  | @cons e e' es es' hhere _ ih =>
      simp only [declarationsOf, List.filter_cons] at ih ⊢
      rw [← hhere.1]
      split
      · exact .cons hhere.2 ih
      · exact ih

theorem map_fst_eq {R : Text × Declaration → Text × Declaration → Prop}
    {entries entries' : List (Text × Declaration)}
    (h : List.Forall₂ (fun e e' => e.1 = e'.1 ∧ R e e') entries entries') :
    entries.map Prod.fst = entries'.map Prod.fst := by
  rw [← List.forall₂_eq_eq_eq, List.forall₂_map_left_iff, List.forall₂_map_right_iff]
  exact h.imp fun _ _ => And.left

theorem declarationsOf_append (name : Text) (entries entries' : List (Text × Declaration)) :
    declarationsOf name (entries ++ entries') =
      declarationsOf name entries ++ declarationsOf name entries' := by
  simp [declarationsOf]

end

end SymbolTable

/-! ### Rows that last -/

namespace Resolve

/-- A row that can be resolved for good: its names are no commands of areas and not that of
random calls, its operands last, and no area is called. -/
structure RowLasts (table : SymbolTable) (tokens : List Token) : Prop where
  names : ∀ name ∈ table.names, isAreaCommand name = false ∧ name ≠ "rnd".toList
  operands : ∀ entry ∈ declarations (Token.significant tokens), OperandLasts table entry.2.operand
  uncalled : ∀ x rest, x :: rest <:+ indexed tokens → x.1.kind = .word → x.1.raw ∈ table.areas →
    begins (Token.isPunct '(') rest = false

instance (table : SymbolTable) (tokens : List Token) : Decidable (RowLasts table tokens) :=
  decidable_of_iff ((∀ name ∈ table.names, isAreaCommand name = false ∧ name ≠ "rnd".toList) ∧
      (∀ entry ∈ declarations (Token.significant tokens), OperandLasts table entry.2.operand) ∧
      ∀ row ∈ (indexed tokens).tails, ∀ x ∈ row.head?, x.1.kind = .word →
        table.areas.contains x.1.raw = true → begins (Token.isPunct '(') row.tail = false)
    ⟨fun h => ⟨h.1, h.2.1, fun x rest hrow hword hmem =>
        h.2.2 (x :: rest) ((List.mem_tails _ _).2 hrow) x rfl hword (List.contains_iff_mem.2 hmem)⟩,
      fun h => ⟨h.names, h.operands, fun row hrow x hx hword hmem =>
        h.uncalled x row.tail (by rwa [List.cons_head?_tail hx, ← List.mem_tails]) hword
          (List.contains_iff_mem.1 hmem)⟩⟩

/-- What is known of a row and its table once its names are resolved. -/
structure Settled (table : SymbolTable) (tokens : List Token) (edits : List Edit) : Prop where
  lists : table.Lists (declarations (Token.significant tokens))
  free : ∀ name ∈ table.areas, table.isConstant name = false
  sound : Sound table table.values
  yields : ∀ entry ∈ declarations (Token.significant tokens),
    ∃ result, Yields table entry.2.operand (.ok result)
  valued : ∀ name, table.isConstant name = true → ∃ value, HasValue table name value
  encloses : ∀ e ∈ edits, e.Encloses tokens
  called : EditsOf (indexed tokens) (indexed tokens) edits table
  simultaneous : Edit.Simultaneous tokens edits

section
variable {table : SymbolTable} {tokens : List Token} {edits : List Edit}

/-- Where an area is declared or used, its command stands before. -/
theorem isAreaCommand_of_place {t : Token} {rest : List Indexed} {place : Indexed}
    (h : declaredPlace? t rest = some place ∨ usedPlace? t rest = some place) :
    t.kind = .word ∧ isAreaCommand t.raw = true := by
  rcases h with h | h
  · rw [declaredPlace?] at h
    split at h
    · next hword =>
      obtain ⟨coordinates, hcommand, -⟩ := Option.bind_eq_some_iff.1 h
      exact ⟨by simpa using hword, by simp [isAreaCommand, hcommand]⟩
    · cases h
  · rw [usedPlace?] at h
    split at h
    · next hcommand =>
      rw [Bool.and_eq_true] at hcommand
      exact ⟨by simpa using hcommand.1, by simp [isAreaCommand, hcommand.2]⟩
    · cases h

theorem mem_names_of_isConstant {name : Text} (h : table.isConstant name = true) :
    name ∈ table.names := by
  rw [SymbolTable.isConstant, Bool.or_eq_true] at h
  rw [SymbolTable.names, List.mem_append, List.mem_append]
  rcases h with h | h
  · refine Or.inl (Or.inr ?_)
    by_contra hname
    rw [List.lookup_eq_none_iff.2 fun entry hentry => ?_] at h
    · cases h
    · rw [bne_iff_ne]
      rintro rfl
      exact hname (List.mem_map_of_mem hentry)
  · exact Or.inr (by simpa using h)

/-- A name behind the directive of a constant is declared. -/
theorem mem_declarations_of_suffix {row rest : List Indexed} {c n : Indexed}
    (hrow : c :: n :: rest <:+ row) (hconst : isConst c.1 = true) (hword : n.1.kind = .word) :
    n.1.raw ∈ (declarations (row.map Prod.fst)).map Prod.fst := by
  have hsuffix := declarations_suffix (hrow.map Prod.fst)
  rw [List.map_cons, List.map_cons, declarations_const hconst hword] at hsuffix
  exact List.mem_map_of_mem (f := Prod.fst) (hsuffix List.mem_cons_self)

variable (hlasts : RowLasts table tokens) (hsettled : Settled table tokens edits)

include hsettled in
theorem Settled.isConstant {name : Text}
    (h : name ∈ (declarations (Token.significant tokens)).map Prod.fst) :
    table.isConstant name = true := by
  simp [SymbolTable.isConstant, hsettled.lists.lookup_some h]

include hlasts hsettled

/-- The row behind its edits is the row with parts replaced. -/
theorem Settled.replaced : Replaced (Edit.swaps edits table) (indexed tokens)
    (indexed (Edit.applyAll edits tokens)) := by
  have horderly : Orderly tokens table := by
    refine ⟨hsettled.free, fun c n rest hrow hconst hword => ?_, hlasts.uncalled⟩
    have hname := mem_declarations_of_suffix hrow hconst hword
    rw [map_indexed] at hname
    exact (hlasts.names _ (mem_names_of_isConstant (hsettled.isConstant hname))).1
  have hspliced := hsettled.simultaneous.substitutes.spliced List.drop_zero hsettled.encloses 0
  exact hspliced.replaced horderly hsettled.called.arises
    (fun e he => (hsettled.simultaneous.within e he).1) List.suffix_rfl (.whole tokens edits)

/-- What the row declares lands where its edits are made. -/
theorem Settled.lands :
    List.Forall₂ (fun e e' => e.1 = e'.1 ∧ Lands table e.2.operand e'.2.operand)
      (declarations (Token.significant tokens))
      (declarations (Token.significant (Edit.applyAll edits tokens))) := by
  have hdeclared := (hsettled.replaced hlasts).declarations List.suffix_rfl
  rw [map_indexed, map_indexed] at hdeclared
  rw [List.forall₂_iff_get] at hdeclared ⊢
  refine ⟨hdeclared.1, fun i hi hi' => ?_⟩
  have hmem := List.get_mem (declarations (Token.significant tokens)) ⟨i, hi⟩
  exact (hdeclared.2 i hi hi').lands (hlasts.operands _ hmem) hsettled.sound
    (hsettled.yields _ hmem) (significant_operand hmem)
    (fun e he => (hsettled.simultaneous.within e he).1) hsettled.called

end

end Resolve

/-! ### The second reading -/

namespace Hoist

open Resolve (RowLasts Settled Edit Lands Replaced Quiet Rests indexed)
open SymbolTable (declarationsOf mem_declarationsOf)

/-- The calls that are taken out of a row. -/
def callsOf (stretches : List Stretch) : List Hoisted := stretches.filterMap Stretch.hoisted?

/-- The names of the calls that are taken out of a row. -/
def namesOf (stretches : List Stretch) : List Text := (callsOf stretches).map Hoisted.name

theorem suffix_of_not_mem {x : Indexed} {row front back : List Indexed}
    (h : x :: row <:+ front ++ back) (hx : x ∉ front) : x :: row <:+ back := by
  induction front with
  | nil => exact h
  | cons y front ih =>
      rw [List.cons_append, List.suffix_cons_iff] at h
      rw [List.mem_cons, not_or] at hx
      rcases h with heq | h
      · exact absurd (List.cons.inj heq).1 hx.1
      · exact ih h hx.2

theorem isTrivia_of_lexemes {row : List Indexed} {ts : List Token}
    (hrow : row.map (fun x => x.1.toLexeme) = (Token.significant ts).map Token.toLexeme) :
    ∀ x ∈ row, x.1.isTrivia = false := by
  intro x hx
  have hmem := List.mem_map_of_mem (f := fun x : Indexed => x.1.toLexeme) hx
  rw [hrow] at hmem
  obtain ⟨t, ht, hlexeme⟩ := List.mem_map.1 hmem
  have hkind : t.kind = x.1.kind := congrArg Lexeme.kind hlexeme
  have hsignificant := (List.mem_filter.1 ht).2
  simpa [Token.isTrivia, hkind] using hsignificant

/-- A row that lasts, its stretches once it is resolved, and what is read of the lines and of
the rest that are written for them, with the tables of both readings. -/
structure Rereads (table table' : SymbolTable) (tokens : List Token) (edits : List Edit)
    (stretches : List Stretch) (lines rest : List Indexed) : Prop where
  lasts : RowLasts table tokens
  settled : Settled table tokens edits
  source : sourceOf stretches = Edit.applyAll edits tokens
  parts : Parts table (namesOf stretches) stretches
  fresh : ∀ name ∈ namesOf stretches, name ∉ table.names
  declares : lines.map (fun x => x.1.toLexeme) =
    (Token.significant ((callsOf stretches).flatMap Hoisted.line)).map Token.toLexeme
  remains : rest.map (fun x => x.1.toLexeme) =
    (Token.significant (writtenOf stretches)).map Token.toLexeme
  lists : table'.Lists (declarations ((lines ++ rest).map Prod.fst))
  external : table'.external = table.external
  areas : table'.areas = []

section
variable {table table' : SymbolTable} {tokens : List Token} {edits : List Edit}
  {stretches : List Stretch} {lines rest : List Indexed}
  (h : Rereads table table' tokens edits stretches lines rest)

include h

/-- What is read of the rest is the resolved row with its calls replaced. -/
theorem Rereads.replaced : Replaced (swaps (namesOf stretches))
    (indexed (Edit.applyAll edits tokens)) rest := by
  have hswept : Swept (namesOf stretches) (indexed (Edit.applyAll edits tokens)) rest :=
    h.source ▸ h.parts.swept 0 h.remains
  refine hswept.replaced fun c n behind hrow hconst hword => ?_
  have hname := Resolve.mem_declarations_of_suffix hrow hconst hword
  rw [Resolve.map_indexed, ← SymbolTable.map_fst_eq (h.settled.lands h.lasts)] at hname
  obtain ⟨hplain, hrnd⟩ :=
    h.lasts.names _ (Resolve.mem_names_of_isConstant (h.settled.isConstant hname))
  exact ⟨hplain, by simpa [Token.isWord] using fun _ => hrnd⟩

/-- What the rest declares has endured. -/
theorem Rereads.endures :
    List.Forall₂ (fun e e' => e.1 = e'.1 ∧ Endures table (namesOf stretches) e.2.operand e'.2.operand)
      (declarations (Token.significant tokens)) (declarations (rest.map Prod.fst)) := by
  have hlands := h.settled.lands h.lasts
  have hdeclared := h.replaced.declarations List.suffix_rfl
  rw [Resolve.map_indexed] at hdeclared
  rw [List.forall₂_iff_get] at hlands hdeclared ⊢
  refine ⟨hlands.1.trans hdeclared.1, fun i hi hi' => ?_⟩
  have hi₁ := hlands.1 ▸ hi
  obtain ⟨hname, hlanded⟩ := hlands.2 i hi hi₁
  obtain ⟨hname', hendures⟩ := (hdeclared.2 i hi₁ hi').endures hlanded
  exact ⟨hname.trans hname', hendures⟩

/-- What is read declares the calls, and then what the rest declares. -/
theorem Rereads.announced : ∃ entries,
    declarations ((lines ++ rest).map Prod.fst) = entries ++ declarations (rest.map Prod.fst) ∧
      Announces table (callsOf stretches) entries := by
  have hlines : (lines.map Prod.fst).map Token.toLexeme =
      (Token.significant ((callsOf stretches).flatMap Hoisted.line)).map Token.toLexeme := by
    rw [← h.declares, List.map_map]
    rfl
  rw [List.map_append]
  exact exists_declarations_lines h.parts.taken hlines (rest.map Prod.fst)

/-- The rest declares what the row declared. -/
theorem Rereads.names : (declarations (rest.map Prod.fst)).map Prod.fst =
    (declarations (Token.significant tokens)).map Prod.fst :=
  (SymbolTable.map_fst_eq h.endures).symm

/-- A name of the row is that of no call. -/
theorem Rereads.not_mem_names {name : Text} (hname : name ∈ table.names) :
    name ∉ namesOf stretches := fun hfresh => h.fresh name hfresh hname

theorem Rereads.lookup_none {name : Text} (hunknown : table.constants.lookup name = none)
    (hname : name ∉ namesOf stretches) : table'.constants.lookup name = none := by
  obtain ⟨entries, hentries, hannounces⟩ := h.announced
  rw [h.lists.lookup_eq_none_iff, hentries, List.map_append, List.mem_append, not_or, h.names]
  refine ⟨fun hmem => ?_, h.settled.lists.lookup_eq_none_iff.1 hunknown⟩
  obtain ⟨entry, hentry, rfl⟩ := List.mem_map.1 hmem
  exact hname (hannounces.named entry hentry)

/-- The declarations of a constant of the row have endured. -/
theorem Rereads.lookup_some {name : Text} {ds : List Declaration}
    (hknown : table.constants.lookup name = some ds) :
    ∃ ds', table'.constants.lookup name = some ds' ∧
      List.Forall₂ (fun d d' => Endures table (namesOf stretches) d.operand d'.operand) ds ds' := by
  obtain ⟨entries, hentries, hannounces⟩ := h.announced
  have hname : name ∈ (declarations (Token.significant tokens)).map Prod.fst := by
    by_contra hnot
    rw [h.settled.lists.lookup_eq_none_iff.2 hnot] at hknown
    cases hknown
  have hold := h.not_mem_names (Resolve.mem_names_of_isConstant (h.settled.isConstant hname))
  have hnone : declarationsOf name entries = [] := by
    rw [SymbolTable.declarationsOf_eq_nil_iff]
    intro hmem
    obtain ⟨entry, hentry, rfl⟩ := List.mem_map.1 hmem
    exact hold (hannounces.named entry hentry)
  refine ⟨_, h.lists.lookup_some ?_, ?_⟩
  · rw [hentries, List.map_append, h.names]
    exact List.mem_append_right _ hname
  · rw [hentries, SymbolTable.declarationsOf_append, hnone, List.nil_append,
      h.settled.lists.eq_of_lookup hknown]
    exact SymbolTable.forall₂_declarationsOf h.endures name

theorem Rereads.isConstant {name : Text} (hconstant : table.isConstant name = true) :
    table'.isConstant name = true := by
  cases hlookup : table.constants.lookup name with
  | some ds =>
      obtain ⟨ds', hknown, -⟩ := h.lookup_some hlookup
      simp [SymbolTable.isConstant, hknown]
  | none =>
      rw [SymbolTable.isConstant, hlookup] at hconstant
      rw [SymbolTable.isConstant, h.external, Bool.or_eq_true]
      exact Or.inr (by simpa using hconstant)

/-- What a call refers to is still from outside. -/
theorem Rereads.calls {operand : List Token} (hcalls : Calls table operand) :
    Calls table' operand where
  folds := hcalls.folds
  refers ref href := by
    obtain ⟨hunknown, hconstant⟩ := hcalls.refers ref href
    have hold := h.not_mem_names (Resolve.mem_names_of_isConstant hconstant)
    exact ⟨h.lookup_none hunknown hold, h.isConstant hconstant⟩

/-- Nothing but significant tokens is declared or read. -/
theorem Rereads.significant :
    Token.significant ((lines ++ rest).map Prod.fst) = (lines ++ rest).map Prod.fst := by
  refine List.filter_eq_self.2 fun t ht => ?_
  obtain ⟨x, hx, rfl⟩ := List.mem_map.1 ht
  rw [Bool.not_eq_true']
  rcases List.mem_append.1 hx with hx | hx
  · exact isTrivia_of_lexemes h.declares x hx
  · exact isTrivia_of_lexemes h.remains x hx

/-- The constants that are read have outlived the first reading. -/
theorem Rereads.outlives : Outlives table table' (namesOf stretches) where
  significant name ds hknown d hd := by
    rw [h.settled.lists.eq_of_lookup hknown] at hd
    exact Resolve.significant_operand (mem_declarationsOf.1 hd)
  significant' name ds hknown d hd := by
    rw [h.lists.eq_of_lookup hknown, ← h.significant] at hd
    exact Resolve.significant_operand (mem_declarationsOf.1 hd)
  areas := h.areas
  external name hunknown hconstant := by
    have hold := h.not_mem_names (Resolve.mem_names_of_isConstant hconstant)
    exact ⟨h.lookup_none hunknown hold, h.isConstant hconstant⟩
  declared name ds hknown := h.lookup_some hknown
  unused name hname := by
    rw [← Bool.not_eq_true]
    exact fun hconstant => h.not_mem_names (Resolve.mem_names_of_isConstant hconstant) hname
  fresh name hname := by
    obtain ⟨entries, hentries, hannounces⟩ := h.announced
    obtain ⟨x, hx, rfl⟩ := List.mem_map.1 hname
    obtain ⟨entry, hentry, hsame⟩ := hannounces.all x hx
    refine ⟨_, h.lists.lookup_some ?_, fun d hd => ?_⟩
    · rw [hentries, List.map_append, ← hsame]
      exact List.mem_append_left _ (List.mem_map_of_mem hentry)
    · rw [hentries, mem_declarationsOf, List.mem_append] at hd
      rcases hd with hd | hd
      · exact h.calls (hannounces.called _ hd).calls
      · have hold := List.mem_map_of_mem (f := Prod.fst) hd
        rw [h.names] at hold
        exact absurd hname (h.not_mem_names
          (Resolve.mem_names_of_isConstant (h.settled.isConstant hold)))

/-- What is declared rests. -/
theorem Rereads.rests {entry : Text × Declaration}
    (hentry : entry ∈ declarations ((lines ++ rest).map Prod.fst)) :
    Rests table' entry.2.operand := by
  obtain ⟨entries, hentries, hannounces⟩ := h.announced
  have hsignificant : Token.significant entry.2.operand = entry.2.operand := by
    rw [← h.significant] at hentry
    exact Resolve.significant_operand hentry
  rw [hentries, List.mem_append] at hentry
  rcases hentry with hentry | hentry
  · exact ⟨none, (h.calls (hannounces.called entry hentry).calls).yields h.areas hsignificant,
      Or.inl rfl⟩
  · obtain ⟨e, he, -, hendures⟩ := exists_of_forall₂_mem h.endures hentry
    obtain ⟨result, ⟨values, hassigns, hfold⟩, hrests⟩ := hendures.yields
    have hold := Resolve.significant_operand he
    obtain ⟨hassigns', hfold'⟩ := h.outlives.follows hendures hold hassigns
      fun ref href hfree => h.outlives.hasValue (hassigns ref href) hfree
    refine ⟨result, ⟨_, hassigns', ?_⟩, hrests⟩
    rw [hsignificant, hfold', ← hfold, hold]

/-- Every constant that is declared has a value. -/
theorem Rereads.valued {entry : Text × Declaration}
    (hentry : entry ∈ declarations ((lines ++ rest).map Prod.fst)) :
    ∃ value, HasValue table' entry.1 value := by
  obtain ⟨entries, hentries, hannounces⟩ := h.announced
  rw [hentries, List.mem_append] at hentry
  rcases hentry with hentry | hentry
  · exact ⟨none, h.outlives.hasValue_fresh (hannounces.named entry hentry)⟩
  · have hname := List.mem_map_of_mem (f := Prod.fst) hentry
    rw [h.names] at hname
    have hconstant := h.settled.isConstant hname
    obtain ⟨value, hvalue⟩ := h.settled.valued entry.1 hconstant
    refine ⟨value, h.outlives.hasValue hvalue fun harea => ?_⟩
    rw [h.settled.free entry.1 harea] at hconstant
    cases hconstant

/-- No line begins with a command of areas. -/
theorem Rereads.plain_lines {x : Indexed} (hx : x ∈ lines) (hword : x.1.kind = .word) :
    isAreaCommand x.1.raw = false := by
  have hlines : (lines.map Prod.fst).map Token.toLexeme =
      (Token.significant ((callsOf stretches).flatMap Hoisted.line)).map Token.toLexeme := by
    rw [← h.declares, List.map_map]
    rfl
  rcases word_of_lines h.parts.taken hlines (List.mem_map_of_mem hx) hword with
    hname | hname | ⟨-, hconstant⟩
  · obtain ⟨y, hy, hname⟩ := List.mem_map.1 hname
    rw [← hname]
    exact (h.parts.taken y hy).plain
  · rw [hname]
    decide
  · exact (h.lasts.names _ (Resolve.mem_names_of_isConstant hconstant)).1

/-- No area is declared or used any more: such a place had its number put there. -/
theorem Rereads.places {place : Indexed} (hplace : AreaPlace (lines ++ rest) place) :
    table'.isConstant place.1.raw = true := by
  have hrest : AreaPlace rest place := by
    obtain ⟨t, k, more, hsuffix, hhere⟩ := hplace
    refine ⟨t, k, more, suffix_of_not_mem hsuffix fun hmem => ?_, hhere⟩
    obtain ⟨hword, hcommand⟩ := Resolve.isAreaCommand_of_place hhere
    rw [h.plain_lines hmem hword] at hcommand
    cases hcommand
  rcases h.replaced.areaPlace hrest with ⟨middle, hmiddle, hlexeme, -⟩ | ⟨part, -, -, hname⟩
  · have hraw : middle.1.raw = place.1.raw := congrArg Lexeme.raw hlexeme
    rcases (h.settled.replaced h.lasts).areaPlace hmiddle with
      ⟨first, hfirst, hsame, huncovered⟩ | ⟨part, hnumber, -⟩
    · have hraw' : first.1.raw = middle.1.raw := congrArg Lexeme.raw hsame
      rw [← hraw, ← hraw']
      refine h.isConstant ?_
      by_contra hfree
      obtain ⟨e, he, area, harea, rfl⟩ :=
        h.settled.called.numbers first hfirst (by simpa using hfree)
      have := huncovered _ he
      simp [Edit.covers] at this
    · rw [hmiddle.trails.1] at hnumber
      cases hnumber
  · obtain ⟨ds, hknown, -⟩ := h.outlives.fresh _ hname
    simp [SymbolTable.isConstant, hknown]

/-- Nothing is left to resolve in what is read. -/
theorem Rereads.quiet : Quiet table' (lines ++ rest) where
  known _ hentry :=
    ⟨_, h.lists.lookup_some (List.mem_map_of_mem hentry), mem_declarationsOf.2 hentry⟩
  valued _ hentry := h.valued hentry
  rests _ hentry := h.rests hentry
  places _ hplace := h.places hplace
  areas := h.areas

end

end Hoist

end MapScript
