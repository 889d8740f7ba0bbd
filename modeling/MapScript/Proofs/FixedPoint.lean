import MapScript.Proofs.Directives
import MapScript.Proofs.Symbol.Substitution

/-!
# Text that is its own result

A text without directives of ours is one run of tokens for every pass.  It is its
own result exactly if no pass changes it: resolution leaves its tokens their texts,
no random call of it moves, and its compact form is the text itself.  No pass undoes
another: a numeral never spells what it replaced, and a declaration in front of the
text would declare a name that is new to it.
-/

namespace MapScript

open Lexer MapScript.Compact
open Resolve (AllTokens groups Indexed indexed Edit declarations)
open Preprocess (runPass resolved expanded hoisted)

/-! ### Scripts of runs -/

namespace Builder

theorem run_of_step {b b' : Builder} {t : Token} {ts rest : List Token}
    (h : b.step t ts = .ok (b', rest)) : b.run (t :: ts) = b'.run rest := by
  rw [run]
  split
  · next he =>
    rw [h] at he
    cases he
  · next he =>
    rw [h] at he
    cases he
    rfl

/-- Tokens that are left to the engine are gathered in the innermost block. -/
theorem run_native {ts : List Token} (h : ∀ t ∈ ts, t.isOwnDirective = false) {b : Builder}
    (hb : b.inHeader = false) (rest : List Token) :
    b.run (ts ++ rest) =
      (b.update fun c => { c with pending := ts.reverse ++ c.pending }).run rest := by
  induction ts generalizing b with
  | nil =>
      have hsame : (b.update fun c => { c with pending := [].reverse ++ c.pending }) = b := by
        obtain ⟨top, blocks⟩ := b
        cases blocks <;> rfl
      rw [hsame]
      rfl
  | cons t ts ih =>
      obtain ⟨ht, hts⟩ := List.forall_mem_cons.1 h
      have hstep : b.step t (ts ++ rest) = .ok (b.update fun c => c.push t, ts ++ rest) := by
        rw [step, hb, ht]
        rfl
      have hlater : (b.update fun c => c.push t).inHeader = false := by
        rw [inHeader_update, hb]
      rw [List.cons_append, run_of_step hstep, ih hts hlater]
      obtain ⟨top, blocks⟩ := b
      cases blocks <;> simp [update, Content.push]

end Builder

/-- The blocks of a script without directives of ours. -/
theorem Script.ofSource_native {source : Text} {stream : TokenStream}
    (h : TokenStream.ofSource source = .ok stream)
    (hnative : ∀ t ∈ stream.tokens, t.isOwnDirective = false) :
    Script.ofSource source =
      .ok ⟨(Run.ofTokens? stream.tokens).toList.map Node.run, ⟨.origin, stream.stop⟩⟩ := by
  have hempty : ({} : Builder).inHeader = false := rfl
  have hrun := Builder.run_native hnative hempty []
  rw [List.append_nil, Builder.run] at hrun
  simp only [Script.ofSource, h, Script.ofStream, hrun]
  simp only [Builder.update, Builder.finish, Content.finish, Content.flush, List.append_nil,
    List.reverse_reverse]
  cases stream.tokens with
  | nil => rfl
  | cons t ts => rfl

theorem Expansion.expandNodes_runs (runs : List Run) :
    expandNodes (runs.map Node.run) = pure (runs.map Leaf.run) := by
  induction runs with
  | nil => simp [expandNodes]
  | cons r runs ih => simp [expandNodes, expandNode, ih]

theorem Placement.placeAll_runs (runs : List Run) :
    placeAll (runs.map Leaf.run) = .ok (runs.map Piece.run) := by
  have hmarkers : (runs.map Leaf.run).any isPlayerMarker = false := by simp [isPlayerMarker]
  have hpieces : (runs.map Leaf.run).filterMap toPiece? = runs.map Piece.run := by
    rw [List.filterMap_map]
    exact congrFun (List.filterMap_eq_map (f := Piece.run)) runs
  simp [placeAll, hmarkers, hpieces]

/-- Runs are expanded already. -/
theorem Script.expand_runs (runs : List Run) (span : Span) :
    Script.expand ⟨runs.map Node.run, span⟩ = pure ⟨runs.map Piece.run, span⟩ := by
  simp [Script.expand, Expansion.expandNodes_runs, Placement.placeAll_runs, Pass.ofReport]

theorem flatten_groups_runs (runs : List Run) :
    (groups (runs.map Node.run)).flatten = runs.flatMap Run.tokens := by
  induction runs with
  | nil => rfl
  | cons r runs ih => simp [groups, Resolve.nodeGroups, ih]

theorem flatMap_ofTokens? (ts : List Token) :
    (Run.ofTokens? ts).toList.flatMap Run.tokens = ts := by
  cases ts <;> simp [Run.ofTokens?]

theorem lexemes_runs (runs : List Run) :
    (runs.map Piece.run).flatMap Piece.lexemes =
      (runs.flatMap Run.tokens).map Token.toLexeme := by
  induction runs with
  | nil => rfl
  | cons r runs ih =>
      rw [List.map_cons, List.flatMap_cons, ih, List.flatMap_cons, List.map_append]
      rfl

theorem truncate_runs (runs : List Run) (span : Span) :
    (Script.truncate ⟨runs.map Piece.run, span⟩).parts = runs.map Piece.run := by
  simp [Script.truncate, List.takeWhile_eq_self_iff]

/-- The text of runs is the compact text of their lexemes. -/
theorem engineText_runs (keepLines : Bool) (runs : List Run) :
    engineText keepLines (runs.map Piece.run) =
      Compact.render keepLines ((runs.map Piece.run).flatMap Piece.lexemes) := by
  have hheaders : (runs.map Piece.run).flatMap Piece.headerLines = [] := by
    simp [Piece.headerLines]
  rw [engineText, hheaders]
  split
  · next hempty => simpa [Text.join] using (List.isEmpty_iff.1 hempty).symm
  · simp [Text.join]

/-! ### Names of a run -/

namespace Resolve

theorem mem_names_addDeclaration {name other : Text} (d : Declaration)
    {constants : List (Text × List Declaration)}
    (h : name = other ∨ name ∈ constants.map Prod.fst) :
    name ∈ (SymbolTable.addDeclaration other d constants).map Prod.fst := by
  induction constants with
  | nil => simpa [SymbolTable.addDeclaration] using h
  | cons entry rest ih =>
      obtain ⟨first, ds⟩ := entry
      rw [SymbolTable.addDeclaration]
      split
      · next hfirst =>
        have heq : first = other := by simpa using hfirst
        rcases h with rfl | h
        · simp [heq]
        · simpa using h
      · rw [List.map_cons, List.mem_cons] at h ⊢
        rcases h with h | h | h
        · exact Or.inr (ih (Or.inl h))
        · exact Or.inl h
        · exact Or.inr (ih (Or.inr h))

/-- Every declaration of a script enters its name. -/
theorem mem_names_declare {entries : List (Text × Declaration)} {table : SymbolTable} {name : Text}
    (h : name ∈ entries.map Prod.fst ∨ name ∈ table.constants.map Prod.fst) :
    name ∈ (entries.foldl (fun table (name, d) => table.declareConstant name d)
      table).constants.map Prod.fst := by
  induction entries generalizing table with
  | nil => simpa using h
  | cons entry rest ih =>
      obtain ⟨first, d⟩ := entry
      apply ih
      rcases h with h | h
      · rcases List.mem_cons.1 h with h | h
        · exact Or.inr (mem_names_addDeclaration d (Or.inl h))
        · exact Or.inl h
      · exact Or.inr (mem_names_addDeclaration d (Or.inr h))

end Resolve

/-- Runs that a row of tokens is resolved to, one unless it is empty: they hold it after edits
that lie apart, and what it declares is among the names. -/
structure Resolve.Edited (ts : List Token) (runs : List Run) (edits : List Edit)
    (table : SymbolTable) : Prop where
  tokens : runs.flatMap Run.tokens = Edit.applyAll edits ts
  single : runs = [] ∨ ∃ r, runs = [r]
  fits : ∀ e ∈ edits, e.Fits (indexed ts)
  encloses : ∀ e ∈ edits, e.Encloses ts
  called : Resolve.EditsOf (indexed ts) (indexed ts) edits table
  simultaneous : Edit.Simultaneous ts edits
  names : ∀ entry ∈ declarations (Token.significant ts), entry.1 ∈ table.names

open Resolve in
/-- The edits of a row, made all at once. -/
theorem Resolve.resolveTokens_edits (ts : List Token) {table : SymbolTable}
    (hsound : Evaluation.Sound table table.values) (hareas : table.areas = []) :
    Ends (resolveTokens ts) table
      (fun out table' => table.Extends table' ∧ ∃ edits, out = Edit.applyAll edits ts ∧
        (∀ e ∈ edits, e.Fits (indexed ts)) ∧ (∀ e ∈ edits, e.Encloses ts) ∧
        EditsOf (indexed ts) (indexed ts) edits table' ∧ Edit.Simultaneous ts edits)
      (fun _ _ => True) := by
  rw [resolveTokens, Ends.bind_iff]
  refine Ends.of_run (fun es table' hrun => ?_) fun _ _ _ => trivial
  obtain ⟨hextends, hfits, -⟩ := (edits_ends (indexed ts) table).of_run_ok hrun
  obtain ⟨-, hedits⟩ := (edits_courses List.suffix_rfl table).of_run_ok hrun
  have hencloses := (Edit.edits_encloses List.suffix_rfl table).of_run_ok hrun
  have hsimultaneous := simultaneous_of_run hsound (by simp [hareas]) hrun
  exact ⟨hextends, es, rfl, hfits, hencloses, hedits hsound, hsimultaneous⟩

/-- A run is resolved to a run. -/
theorem Script.resolve_run_ends (ts : List Token) (span : Span) {table : SymbolTable}
    (hfresh : table.Fresh) :
    Ends (Script.resolve ⟨(Run.ofTokens? ts).toList.map Node.run, span⟩) table
      (fun out table' => ∃ runs edits, out = ⟨List.map Node.run runs, span⟩ ∧
        Resolve.Edited ts runs edits table')
      (fun _ _ => True) := by
  have hsound := Script.sound_declare ⟨(Run.ofTokens? ts).toList.map Node.run, span⟩ hfresh.values
  obtain ⟨constants, hdeclare⟩ :=
    Resolve.declare_eq table ((Run.ofTokens? ts).toList.map Node.run)
  unfold Script.resolve
  simp only [Ends.bind_iff, Ends.modify_iff, Ends.pure_iff]
  cases ts with
  | nil =>
      simp only [Run.ofTokens?, Option.toList_none, List.map_nil, Resolve.resolveNodes,
        Ends.pure_iff]
      exact ⟨[], [], rfl, rfl, Or.inl rfl, by simp, by simp, .nil _ _,
        .of_apart (by simp) .nil, by simp [Token.significant, declarations]⟩
  | cons t ts =>
      simp only [Run.ofTokens?, Option.toList_some, List.map_cons, List.map_nil,
        Resolve.resolveNodes, Resolve.resolveNode, Ends.bind_iff, Ends.pure_iff] at hsound hdeclare ⊢
      apply (Resolve.resolveTokens_edits (t :: ts) hsound
        (by rw [hdeclare]; exact hfresh.areas)).mono
      · rintro out table' ⟨hextends, edits, hout, hfits, hencloses, hcalled, hsimultaneous⟩
        refine ⟨[⟨out, Token.spanOf t ts⟩], edits, rfl, by simpa using hout, Or.inr ⟨_, rfl⟩,
          hfits, hencloses, hcalled, hsimultaneous, ?_⟩
        intro entry hentry
        have hname : entry.1 ∈ table'.constants.map Prod.fst := by
          rw [hextends.constants]
          apply Resolve.mem_names_declare
          left
          simpa [groups, Resolve.nodeGroups] using ⟨entry.2, hentry⟩
        simp only [SymbolTable.names, List.mem_append]
        exact Or.inl (Or.inr hname)
      · exact fun _ _ _ => trivial

/-- A row that begins with a constant directive and a name declares the name. -/
theorem Resolve.mem_declarations {row : List Token} {name : Text} {rest : List Lexeme}
    (h : row.map Token.toLexeme = ⟨.directive, "#const".toList⟩ :: ⟨.word, name⟩ :: rest) :
    ∃ d, (name, d) ∈ declarations row := by
  obtain ⟨t, us, rfl, ht, hus⟩ := List.map_eq_cons_iff.1 h
  obtain ⟨u, vs, rfl, hu, -⟩ := List.map_eq_cons_iff.1 hus
  have hconst : isConst t = true := by
    unfold isConst Token.value
    rw [ht]
    decide +kernel
  have hkind : u.kind = .word := congrArg Lexeme.kind hu
  have hraw : u.raw = name := congrArg Lexeme.raw hu
  refine ⟨⟨operandOf vs, u.span⟩, ?_⟩
  rw [declarations_cons]
  simp [declaredBy, hconst, hkind, hraw]

/-! ### Edits that cannot be seen -/

namespace Resolve.Edit

/-- The token where a fitting edit begins. -/
theorem Fits.at_first {whole : List Token} {e : Edit} {u : Token} (h : e.Fits (indexed whole))
    (hu : whole[e.first]? = some u) :
    u.isTrivia = false ∧ (u.kind = .word ∧ e.last = e.first ∨ u.isPunct '(' = true) := by
  obtain ⟨⟨t, hmem, hform⟩, -⟩ := h
  obtain ⟨hmem, hs⟩ := List.mem_filter.1 hmem
  rw [List.mem_zipIdx_iff_getElem?] at hmem
  obtain rfl : u = t := Option.some.inj (hu.symm.trans hmem)
  exact ⟨by simpa using hs, hform⟩

end Resolve.Edit

/-- What the significant lexemes of a row read as, each standing alone. -/
def spelledRow (ts : List Token) : List Lexeme :=
  ((ts.map Token.toLexeme).filter fun l => !l.isTrivia).flatMap spelled

theorem spelledRow_cons_of_isTrivia {t : Token} (ts : List Token) (h : t.isTrivia = true) :
    spelledRow (t :: ts) = spelledRow ts := by
  have hl : t.toLexeme.isTrivia = true := h
  simp [spelledRow, hl]

theorem spelledRow_cons {t : Token} (ts : List Token) (h : t.isTrivia = false) :
    spelledRow (t :: ts) = spelled t.toLexeme ++ spelledRow ts := by
  have hl : t.toLexeme.isTrivia = false := h
  simp [spelledRow, hl]

/-- A replacement spells its own text as a word, or begins unlike what edits replace. -/
theorem Resolve.Edit.Fits.spelled {row : List Indexed} {e : Edit} (h : e.Fits row) :
    e.replacement.isTrivia = false ∧
      (spelled e.replacement.toLexeme = [⟨.word, e.replacement.raw⟩] ∨
        ∃ p rest, spelled e.replacement.toLexeme = p :: rest ∧
          (p.kind = .number ∨ p.kind = .punct ∧ p.raw = ['-'])) := by
  obtain ⟨-, value, raw, span, hraw, hreplacement⟩ := h
  rw [hreplacement]
  obtain ⟨body, hform, hbody⟩ := Number.format_cases hraw
  obtain ⟨ps, hspells, -, hps⟩ := Number.spells_numeral (l := ⟨.number, raw⟩) hform hbody
  refine ⟨rfl, ?_⟩
  rw [show (Token.made .number raw span).toLexeme = ⟨.number, raw⟩ from rfl, hspells.spelled_eq]
  exact hps

namespace Resolve.Edit

/-- Where a row reads as it did up to an index and behind it, the text there is the same:
a numeral would else be read as the name or the parenthesis that it replaces. -/
theorem resultAt_texts {edits : List Edit} {whole rest ts : List Token} {i : Nat} {u : Token}
    (hfits : ∀ e ∈ edits, e.Fits (indexed whole)) (hu : whole[i]? = some u) (hplain : u.Plain)
    (hclosed : Closed edits i)
    (h : spelledRow (resultAt edits u i ++ rest) =
      (Token.significant (u :: ts)).map Token.toLexeme) :
    (resultAt edits u i).map (fun t => t.raw) = [u.raw] ∧ Closed edits (i + 1) ∧
      spelledRow rest = (Token.significant ts).map Token.toLexeme := by
  rw [Token.significant_cons] at h
  rcases resultAt_cases hclosed with ⟨hresult, hhere⟩ | ⟨e, he, rfl, hresult⟩
  · rw [hresult, List.singleton_append] at h
    refine ⟨by rw [hresult]; rfl, hclosed.succ hhere, ?_⟩
    split at h
    · next htrivia => rwa [spelledRow_cons_of_isTrivia _ htrivia] at h
    · next htrivia =>
      have hs : u.isTrivia = false := by simpa using htrivia
      rw [spelledRow_cons _ hs, (hplain.spells hs).spelled_eq] at h
      exact (List.cons.inj h).2
  · obtain ⟨hs, hform⟩ := (hfits e he).at_first hu
    obtain ⟨hnumeral, hspelled⟩ := (hfits e he).spelled
    rw [hresult, List.singleton_append, spelledRow_cons _ hnumeral, hs] at h
    rcases hspelled with hword | ⟨p, more, hhead, hkind⟩
    · -- the numeral is read as the word that it replaces
      rw [hword] at h
      obtain ⟨hlex, hrest⟩ := List.cons.inj h
      have hkind : u.kind = .word := (congrArg Lexeme.kind hlex).symm
      have hraw : e.replacement.raw = u.raw := by rw [← hlex]
      refine ⟨by rw [hresult, ← hraw]; rfl, hclosed.succ ?_, hrest⟩
      intro e' he' hfirst
      rcases ((hfits e' he').at_first (hfirst ▸ hu)).2 with ⟨-, hlast⟩ | hopen
      · omega
      · simp [Token.isPunct, hkind] at hopen
    · rw [hhead] at h
      obtain ⟨hlex, -⟩ := List.cons.inj h
      rw [hlex] at hkind
      rcases hform with ⟨hword, -⟩ | hopen
      · simp [hword] at hkind
      · simp only [Token.isPunct, Bool.and_eq_true, beq_iff_eq] at hopen
        simp [hopen.1, hopen.2] at hkind

/-- Edits after which a row reads as it did have changed no text. -/
theorem applyFrom_texts {edits : List Edit} {whole ts : List Token} {i : Nat}
    (hfits : ∀ e ∈ edits, e.Fits (indexed whole)) (hwhole : whole.drop i = ts)
    (hplain : ∀ t ∈ ts, t.Plain) (hclosed : Closed edits i)
    (h : spelledRow (applyFrom edits i ts) = (Token.significant ts).map Token.toLexeme) :
    (applyFrom edits i ts).map (fun t => t.raw) = ts.map fun t => t.raw := by
  induction ts generalizing i with
  | nil => rfl
  | cons u ts ih =>
      have hu : whole[i]? = some u := by
        rw [← List.head?_drop, hwhole]
        rfl
      have hnext : whole.drop (i + 1) = ts := by
        rw [← List.tail_drop, hwhole]
        rfl
      rw [applyFrom_cons] at h ⊢
      obtain ⟨htext, hclosed, hrest⟩ := resultAt_texts hfits hu (hplain u (by simp)) hclosed h
      rw [List.map_append, htext, ih hnext (fun t ht => hplain t (by simp [ht])) hclosed hrest]
      rfl

end Resolve.Edit

/-! ### Texts that no pass changes -/

/-- No pass changes the text: its names are resolved, so that the tokens of its blocks
keep their texts, none of its random calls moves, and it is compact. -/
structure Unmoved (options : Options) (t : Text) : Prop where
  names : ∃ script named s, Script.ofSource t = .ok script ∧
    runPass options (resolved t) = (.ok named, s) ∧
    (groups named.parts).flatten.map (fun t => t.raw) =
      (groups script.parts).flatten.map fun t => t.raw
  calls : ∃ script s₁ s₂, runPass options (expanded t) = (.ok script, s₁) ∧
    runPass options (hoisted options t) = (.ok script, s₂)
  compact : ∃ script s, runPass options (expanded t) = (.ok script, s) ∧
    Compact.render options.keepLines (script.parts.flatMap Piece.lexemes) = t

section
variable {options : Options} {t : Text} {stream : TokenStream}
  (hstream : TokenStream.ofSource t = .ok stream)

include hstream

/-- A text that is a result is read as what the lexemes of its parts spell. -/
theorem significant_of_hoisted {out : Script Piece} {s : Session}
    (hstem : ∀ c ∈ options.stem, isPlain c = true)
    (h : runPass options (hoisted options t) = (.ok out, s))
    (htext : t = engineText options.keepLines out.truncate.parts) :
    (Token.significant stream.tokens).map Token.toLexeme =
      ((out.truncate.parts.flatMap Piece.lexemes).filter fun l => !l.isTrivia).flatMap spelled := by
  have hwritable := (Preprocess.writable_of_hoisted hstem h).truncate
  obtain ⟨-, read, hread, hreads, hsig⟩ := readsAs_of_writable options.keepLines hwritable
  obtain ⟨ls, hlex, hls⟩ := TokenStream.lexScript_of_ofSource hstream
  have hsame : read = ls := by
    have hagain := hreads.lexScript_rawText
    rw [hread, ← htext, hlex] at hagain
    exact (Except.ok.inj hagain).symm
  rw [Token.map_significant, hls, ← hsame, hsig]

variable (hnative : ∀ u ∈ stream.tokens, u.isOwnDirective = false)

include hnative

theorem plain_of_native : ∀ u ∈ stream.tokens, u.Plain := by
  intro u hu
  rw [← flatMap_ofTokens? stream.tokens, ← flatten_groups_runs] at hu
  obtain ⟨row, hrow, hu⟩ := List.mem_flatten.1 hu
  exact Preprocess.plain_of_ofSource (Script.ofSource_native hstream hnative) row hrow u hu

/-- A text that is resolved is one run of edited tokens, and expanded already. -/
theorem runs_of_resolved {named : Script Node} {s : Session}
    (h : runPass options (resolved t) = (.ok named, s)) :
    ∃ runs span edits, named = ⟨List.map Node.run runs, span⟩ ∧
      runPass options (expanded t) = (.ok ⟨runs.map Piece.run, span⟩, s) ∧
      Resolve.Edited stream.tokens runs edits s.table := by
  have hends : Ends (resolved t) (Session.start options)
      (fun out s => ∃ runs span edits, out = ⟨List.map Node.run runs, span⟩ ∧
        Resolve.Edited stream.tokens runs edits s.table)
      (fun _ _ => True) := by
    unfold resolved Preprocess.blocks
    simp only [Script.ofSource_native hstream hnative, Ends.bind_iff, Pass.ofReport_ends_iff,
      Pass.onTable_ends_iff]
    constructor
    · rintro script ⟨⟩
      apply (Script.resolve_run_ends stream.tokens _ ⟨rfl, rfl, rfl⟩).weaken
      rintro out table ⟨runs, edits, hout, hedited⟩
      exact ⟨runs, _, edits, hout, hedited⟩
    · exact fun _ _ => trivial
  obtain ⟨runs, span, edits, rfl, hedited⟩ := hends.of_run_ok h
  refine ⟨runs, span, edits, rfl, ?_, hedited⟩
  rw [Preprocess.run_expanded h, Script.expand_runs]
  rfl

/-- A text that no random call leaves and that is compact is its own result. -/
theorem Unmoved.preprocess_eq (h : Unmoved options t) : preprocess options t = .ok t := by
  obtain ⟨-, named, s, -, hnamed, -⟩ := h.names
  obtain ⟨runs, span, edits, -, hexpanded, -⟩ := runs_of_resolved hstream hnative hnamed
  obtain ⟨script, s₁, s₂, hscript, hhoisted⟩ := h.calls
  obtain ⟨script', s', hscript', hcompact⟩ := h.compact
  rw [hexpanded] at hscript hscript'
  cases hscript
  cases hscript'
  unfold preprocess
  rw [Preprocess.run_text_of_hoisted hhoisted, truncate_runs, engineText_runs, hcompact]

/-- A declaration in front of the text would be one of the text. -/
theorem mem_names_of_declaration {out : Script Piece} {s s₁ : Session} {named : Script Node}
    (hstem : IsName options.stem)
    (hnamed : runPass options (resolved t) = (.ok named, s))
    (h : runPass options (hoisted options t) = (.ok out, s₁))
    (htext : t = engineText options.keepLines out.truncate.parts) {n : Nat} {call : List Token}
    {span whole : Span} {later : List Token} {parts : List Piece}
    (hparts : out.parts =
      .run ⟨Hoist.declaration (options.stem ++ Text.ofNat n) call span ++ later, whole⟩ :: parts) :
    options.stem ++ Text.ofNat n ∈ s.table.names := by
  have hsig := significant_of_hoisted hstream hstem.isPlain h htext
  have hname : spelled ⟨.word, options.stem ++ Text.ofNat n⟩ =
      [⟨.word, options.stem ++ Text.ofNat n⟩] :=
    (spells_name (l := ⟨.word, _⟩) (hstem.append_ofNat n)).spelled_eq
  have hconst : spelled ⟨.directive, "#const".toList⟩ = [⟨.directive, "#const".toList⟩] := by
    decide +kernel
  obtain ⟨rest, hrow⟩ : ∃ rest, (Token.significant stream.tokens).map Token.toLexeme =
      ⟨.directive, "#const".toList⟩ :: ⟨.word, options.stem ++ Text.ofNat n⟩ :: rest := by
    obtain ⟨more, hmore⟩ : ∃ more, out.truncate.parts.flatMap Piece.lexemes =
        ⟨.directive, "#const".toList⟩ :: ⟨.blank, [' ']⟩ ::
          ⟨.word, options.stem ++ Text.ofNat n⟩ :: more := by
      rw [Script.truncate, hparts]
      exact ⟨_, rfl⟩
    rw [hsig, hmore, List.filter_cons_of_pos rfl, List.filter_cons_of_neg (by decide),
      List.filter_cons_of_pos rfl, List.flatMap_cons, List.flatMap_cons, hconst, hname]
    exact ⟨_, rfl⟩
  obtain ⟨d, hd⟩ := Resolve.mem_declarations hrow
  obtain ⟨_, _, _, _, _, hedited⟩ := runs_of_resolved hstream hnative hnamed
  exact hedited.names _ hd

/-- A text that is its own result is changed by no pass. -/
theorem unmoved_of_preprocess (hstem : IsName options.stem) (h : preprocess options t = .ok t) :
    Unmoved options t := by
  obtain ⟨out, s₂, hhoisted, htext⟩ := Preprocess.hoisted_of_preprocess h
  have hsource := Script.ofSource_native hstream hnative
  cases hresolved : runPass options (resolved t) with
  | mk outcome s =>
  cases outcome with
  | error e =>
      unfold preprocess at h
      rw [Preprocess.run_text_of_error (Or.inl hresolved)] at h
      cases h
  | ok named =>
      obtain ⟨runs, span, edits, rfl, hexpanded, hedited⟩ :=
        runs_of_resolved hstream hnative hresolved
      obtain ⟨hsettled, -, -⟩ := (Preprocess.resolved_ends options hsource).of_run_ok hresolved
      have hhoist := Preprocess.hoist_ends options ⟨runs.map Piece.run, span⟩ hsettled
      obtain ⟨hout, -⟩ :=
        hhoist.of_run_ok ((Preprocess.run_hoisted hexpanded).symm.trans hhoisted)
      rcases hout with rfl | ⟨n, call, place, later, whole, parts, hfresh, hparts⟩
      · have hsig := significant_of_hoisted hstream hstem.isPlain hhoisted htext
        rw [truncate_runs] at htext hsig
        rw [lexemes_runs, hedited.tokens] at hsig
        rw [engineText_runs] at htext
        have hplain := plain_of_native hstream hnative
        have hclosed : Edit.Closed edits 0 := fun e _ hfirst => absurd hfirst (by omega)
        have htexts := Edit.applyFrom_texts hedited.fits List.drop_zero hplain hclosed hsig.symm
        refine ⟨⟨_, _, s, hsource, hresolved, ?_⟩, ⟨_, s, s₂, hexpanded, hhoisted⟩,
          ⟨_, s, hexpanded, htext.symm⟩⟩
        rw [flatten_groups_runs, flatten_groups_runs, flatMap_ofTokens?, hedited.tokens]
        exact htexts
      · exact absurd (mem_names_of_declaration hstream hnative hstem hresolved hhoisted htext hparts)
          hfresh

end

/-- The text of a script is read again, and it has no directives of ours. -/
theorem exists_native {options : Options} {source text : Text} (hstem : IsName options.stem)
    (h : preprocess options source = .ok text) :
    ∃ stream, TokenStream.ofSource text = .ok stream ∧
      ∀ t ∈ stream.tokens, t.isOwnDirective = false := by
  obtain ⟨out, s, hrun, rfl⟩ := Preprocess.hoisted_of_preprocess h
  have hout := (Preprocess.writable_of_hoisted hstem.isPlain hrun).truncate
  obtain ⟨stream, hstream, hnative⟩ := ofSource_engineText hout
  refine ⟨stream, hstream, fun t ht => ?_⟩
  by_cases hkind : t.kind = .directive
  · simp [Token.isOwnDirective, hnative t ht hkind]
  · simp [Token.isOwnDirective, hkind]

/-- The text of a script is its own result exactly if no pass changes it. -/
theorem preprocess_eq_iff_unmoved {options : Options} {source text : Text}
    (hstem : IsName options.stem) (h : preprocess options source = .ok text) :
    preprocess options text = .ok text ↔ Unmoved options text := by
  obtain ⟨stream, hstream, hnative⟩ := exists_native hstem h
  exact ⟨unmoved_of_preprocess hstream hnative hstem, Unmoved.preprocess_eq hstream hnative⟩

end MapScript
