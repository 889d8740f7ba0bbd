import MapScript.Proofs.Repetition
import MapScript.Proofs.SecondReading
import MapScript.Proofs.Separators

/-!
# Texts that last

A text that a run has written is read as it was written, if each of its significant tokens
spells itself: the numerals that are put in do if they have no sign.  Nothing is left to
resolve in it and no call is left to be taken out, if the constants and the calls of the
source last, so no pass changes the text and a second run returns it.
-/

namespace MapScript

open Lexer MapScript.Compact
open Evaluation (Sound)
open Preprocess (runPass resolved expanded hoisted)
open Resolve (indexed RowLasts Settled Edit declarations operandOf)

/-! ### Lexemes that spell themselves -/

/-- The token is read again as it is written, unless it separates others. -/
def Token.SpellsItself (t : Token) : Prop :=
  t.isTrivia = false → Spells t.toLexeme [t.toLexeme]

theorem spellsItself_numeral {raw : Text} (h : Stands ⟨.number, raw⟩ []) (span : Span) :
    (Token.made .number raw span).SpellsItself := fun hs => .self h rfl hs

theorem Number.stands_ofInt {n : Int} (h : 0 ≤ n) : Stands ⟨.number, Text.ofInt n⟩ [] := by
  obtain ⟨n, rfl⟩ := Int.eq_ofNat_of_zero_le h
  exact Text.IsDecimal.stands (Or.inl (isDigits_ofNat n))

/-- An integer is read back if it has no sign and not too many digits. -/
theorem Number.readsBack_int_iff {n : Int} :
    (int n).ReadsBack ↔ 0 ≤ n ∧ n.natAbs < 10 ^ maxDigits := by
  have hformat : (int n).format = if maxDigits < (Text.ofNat n.natAbs).length then .error .tooLong
      else .ok (Text.ofInt n) := rfl
  rw [← length_ofNat_le_iff, ← Nat.not_lt]
  constructor
  · rintro ⟨raw, hraw, hnumeral, -⟩
    rw [hformat] at hraw
    split at hraw
    · cases hraw
    · next hshort =>
      obtain rfl := Except.ok.inj hraw
      refine ⟨?_, hshort⟩
      cases n with
      | ofNat n => exact Int.natCast_nonneg n
      | negSucc n =>
          -- no numeral begins with a sign
          have hdigit := (stands_of_merges hnumeral).isDigit rfl (c := '-') List.mem_cons_self
            (by decide)
          exact absurd hdigit (by decide)
  · rintro ⟨hsign, hshort⟩
    refine ⟨Text.ofInt n, by rw [hformat, if_neg hshort], ?_, ?_⟩
    · have hself : merges [⟨.number, Text.ofInt n⟩] = false ↔ Stands _ [] :=
        merges_cons_eq_false_iff rfl trivial
      exact hself.2 (stands_ofInt hsign)
    · obtain ⟨n, rfl⟩ := Int.eq_ofNat_of_zero_le hsign
      rw [show Text.ofInt (n : Int) = Text.ofNat n from rfl, parse_ofNat,
        if_pos ((length_ofNat_le_iff n).1 (Nat.not_lt.1 hshort))]

namespace Resolve

section
variable {table : SymbolTable} {tokens : List Token} {edits : List Edit}

/-- A literal begins with neither a name nor a parenthesis. -/
theorem isLiteral_operandOf_cons {t : Token} {ts : List Token}
    (h : t.kind = .word ∨ t.isPunct '(' = true) : isLiteral (operandOf (t :: ts)) = false := by
  rw [← Bool.not_eq_true]
  intro hliteral
  have hbegins {u : Token} {us : List Token} (hrow : operandOf (t :: ts) = u :: us) : u = t := by
    have hprefix : operandOf (t :: ts) <+: t :: ts := List.take_prefix _ _
    rw [hrow] at hprefix
    exact (List.cons_prefix_cons.1 hprefix).1
  rcases literal_form hliteral with ⟨u, hrow, hu⟩ | ⟨u, v, hrow, hu, -⟩
  · obtain rfl := hbegins hrow
    rcases h with hword | hopens
    · simp [hu] at hword
    · simp [Token.isPunct, hu] at hopens
  · obtain rfl := hbegins hrow
    rcases h with hword | hopens
    · simp [Token.kind_of_isPunct hu] at hword
    · simp only [Token.isPunct, Bool.and_eq_true, beq_iff_eq] at hu hopens
      simp [hu.2] at hopens

/-- What stands behind the name of a constant begins with an operand that lasts. -/
theorem RowLasts.operand {row : List Indexed} (h : RowLasts table tokens)
    (hplace : OperandPlace (indexed tokens) row) :
    OperandLasts table (operandOf (row.map Prod.fst)) := by
  obtain ⟨c, j, name, k, hsuffix, hconst, hname⟩ := hplace
  have hrow := hsuffix.map Prod.fst
  rw [map_indexed, List.map_cons, List.map_cons] at hrow
  have hentry := declarations_suffix hrow
  rw [declarations_const hconst hname] at hentry
  exact h.operands _ (hentry List.mem_cons_self)

/-- What an edit of a row that lasts puts in spells itself. -/
theorem Edit.Arises.spellsItself {e : Edit} (h : e.Arises table (indexed tokens))
    (hlasts : RowLasts table tokens) (hsound : Sound table table.values)
    (hnumbered : table.Numbered) (hbase : 0 ≤ table.areaBase) :
    e.replacement.SpellsItself := by
  cases h with
  | area _ hnumbers _ =>
      obtain ⟨area, harea, rfl⟩ := hnumbers
      obtain ⟨i, -, rfl⟩ := hnumbered.exists_index harea
      exact spellsItself_numeral (Number.stands_ofInt (by omega)) _
  | @operand first i m others values value raw hplace hlength hassigns hfolds hform hformat =>
      have hoperand : operandOf (((first, i) :: others).map Prod.fst) =
          ((first, i) :: others.take m).map Prod.fst := by
        rw [operandOf, List.map_cons, hlength]
        simp
      have hpart : (first, i) :: others.take m ⊆ indexed tokens := fun x hx =>
        hplace.suffix.subset (List.take_subset (m + 1) _ hx)
      have hvalue : table.operandValue (((first, i) :: others.take m).map Prod.fst) =
          .ok (some value) :=
        SymbolTable.operandValue_eq hsound hassigns
          (by rwa [significant_map_of_subset hpart])
      rw [← hoperand] at hvalue
      have hliteral : isLiteral (operandOf (((first, i) :: others).map Prod.fst)) = false :=
        isLiteral_operandOf_cons (hform.imp And.left id)
      obtain ⟨hnumeral, -⟩ := (hlasts.operand hplace).readsBack hliteral hvalue hformat
      exact spellsItself_numeral (stands_of_merges hnumeral) _

/-- A row that lasts spells itself once its edits are made. -/
theorem Settled.spellsItself (hsettled : Settled table tokens edits)
    (hlasts : RowLasts table tokens) (hnumbered : table.Numbered) (hbase : 0 ≤ table.areaBase)
    (hplain : ∀ t ∈ tokens, t.Plain) : ∀ t ∈ Edit.applyAll edits tokens, t.SpellsItself := by
  intro t ht
  rcases Edit.mem_applyAll ht with ht | ⟨e, he, rfl⟩
  · exact (hplain t ht).spells
  · exact (hsettled.called.arises e he).spellsItself hlasts hsettled.sound hnumbered hbase

end

end Resolve

namespace Hoist

section
variable {table : SymbolTable} {names : List Text} {stretches : List Stretch} {x : Hoisted}

theorem spellsItself_name {name : Text} (h : IsName name) (span : Span) :
    (Token.made .word name span).SpellsItself := fun _ => spells_name (l := ⟨.word, name⟩) h

theorem mem_sourceOf_of_mem_callsOf (hx : x ∈ callsOf stretches) :
    x.call.tokens ⊆ sourceOf stretches := fun _ ht =>
  List.mem_flatMap.2 ⟨.call x, mem_hoisted_iff.1 hx, ht⟩

/-- The line that declares a call that lasts spells itself if the call does. -/
theorem Taken.spellsItself (h : Taken table names x) (hname : IsName x.name)
    (hcall : ∀ t ∈ x.call.tokens, t.SpellsItself) : ∀ t ∈ x.line, t.SpellsItself := by
  obtain ⟨us, hus, hdeclared⟩ := h.declares.significant_declared
  have hconst : (Token.made .directive "#const".toList x.call.name.span).SpellsItself := fun hs =>
    (spells_fixed (l := ⟨.directive, "#const".toList⟩) (by decide) hs).1
  have hgap {t : Token} (ht : t.isTrivia = true) : t.SpellsItself := fun hs => by
    rw [ht] at hs
    cases hs
  have hinner : ∀ u ∈ us, u.SpellsItself := by
    intro u hu
    obtain ⟨t, ht, hfolded⟩ := exists_of_forall₂_mem hus hu
    have ht := (List.mem_filter.1 ht).1
    unfold Folded at hfolded
    split at hfolded
    · next hconstant =>
      obtain ⟨v, raw, hfolding, hraw, rfl⟩ := hfolded
      obtain ⟨v', hfolding', raw', hraw', hnumeral, -⟩ := h.lasts.valued t ht hconstant
      obtain rfl := Option.some.inj (Except.ok.inj (hfolding.symm.trans hfolding'))
      obtain rfl := Except.ok.inj (hraw.symm.trans hraw')
      exact spellsItself_numeral (stands_of_merges hnumeral) t.span
    · subst hfolded
      exact hcall u (by simp [RandomCall.tokens, RandomCall.arguments, ht])
  have hall : ∀ t ∈ x.declared, t.SpellsItself := by
    rw [hdeclared]
    refine List.forall_mem_cons.2 ⟨hcall _ (by simp [RandomCall.tokens]), List.forall_mem_cons.2
      ⟨hcall _ (by simp [RandomCall.tokens, RandomCall.arguments]), ?_⟩⟩
    refine List.forall_mem_append.2 ⟨hinner, List.forall_mem_singleton.2 ?_⟩
    exact hcall _ (by simp [RandomCall.tokens, RandomCall.arguments])
  rw [Hoisted.line, declaration]
  simp only [List.cons_append, List.nil_append, List.forall_mem_cons, List.forall_mem_append]
  exact ⟨hconst, hgap rfl, spellsItself_name hname _, hgap rfl, hall,
    hgap rfl, by simp⟩

/-- What is written spells itself if the row does. -/
theorem Parts.spellsItself (h : Parts table names stretches)
    (hsource : ∀ t ∈ sourceOf stretches, t.SpellsItself) (hnames : ∀ name ∈ names, IsName name) :
    ∀ t ∈ (callsOf stretches).flatMap Hoisted.line ++ writtenOf stretches, t.SpellsItself := by
  rw [List.forall_mem_append]
  constructor
  · intro t ht
    obtain ⟨x, hx, ht⟩ := List.mem_flatMap.1 ht
    have htaken := h.taken x hx
    exact htaken.spellsItself (hnames _ htaken.mem)
      (fun t ht => hsource t (mem_sourceOf_of_mem_callsOf hx ht)) t ht
  · induction h with
    | nil => simp [writtenOf]
    | token t _ ih =>
        have hwritten := ih fun u hu => hsource u (List.mem_cons_of_mem t hu)
        exact List.forall_mem_cons.2 ⟨hsource t List.mem_cons_self, hwritten⟩
    | @call x back hleaves _ ih =>
        have hwritten := ih fun u hu => hsource u (List.mem_append_right x.call.tokens hu)
        exact List.forall_mem_cons.2
          ⟨spellsItself_name (hnames _ hleaves.mem) x.call.span, hwritten⟩

end

end Hoist

/-! ### Rows that are read as they are written -/

/-- Tokens that spell themselves are read again from their compact text, which is compact. -/
theorem exists_reading (keepLines : Bool) {row : List Token} (h : ∀ t ∈ row, t.SpellsItself) :
    ∃ stream, TokenStream.ofSource (render keepLines (row.map Token.toLexeme)) = .ok stream ∧
      (Token.significant stream.tokens).map Token.toLexeme =
        (Token.significant row).map Token.toLexeme ∧
      render keepLines (stream.tokens.map Token.toLexeme) =
        render keepLines (row.map Token.toLexeme) := by
  have hspells : ∀ l ∈ row.map Token.toLexeme, l.isTrivia = false → Spells l [l] := by
    intro l hl hs
    obtain ⟨t, ht, rfl⟩ := List.mem_map.1 hl
    exact h t ht hs
  obtain ⟨stream, hstream, htokens⟩ := ofSource_render_of_spells keepLines hspells
  refine ⟨stream, hstream, ?_, ?_⟩
  · rw [Token.map_significant, Token.map_significant, htokens, filter_rowFrom keepLines hspells]
    simp
  · rw [htokens]
    exact renderFrom_rowFrom keepLines .start _

/-! ### The first run -/

/-- What the script of a run declares is what the tokens of the run do. -/
theorem declared_native (tokens : List Token) (span : Span) :
    (Script.mk ((Run.ofTokens? tokens).toList.map Node.run) span).declared =
      declarations (Token.significant tokens) := by
  cases tokens with
  | nil => rfl
  | cons t ts =>
      simp [Script.declared, Resolve.declaredIn, Run.ofTokens?, Resolve.groups, Resolve.nodeGroups]

section
variable {options : Options} {source : Text} {stream : TokenStream}
  (hstream : TokenStream.ofSource source = .ok stream)
  (hnative : ∀ t ∈ stream.tokens, t.isOwnDirective = false)
  {named : Script Node} {s : Session}

include hstream hnative

/-- A text without directives of ours is one run of which the names are settled. -/
theorem settled_of_resolved (h : runPass options (resolved source) = (.ok named, s)) :
    ∃ runs span edits, named = ⟨List.map Node.run runs, span⟩ ∧
      runPass options (expanded source) = (.ok ⟨runs.map Piece.run, span⟩, s) ∧
      runs.flatMap Run.tokens = Edit.applyAll edits stream.tokens ∧
      (runs = [] ∨ ∃ r, runs = [r]) ∧ Settled s.table stream.tokens edits ∧
      s.table.Numbered ∧ s.table.areaBase = options.areaBase ∧
      s.table.external = options.external := by
  obtain ⟨runs, span, edits, hout, hexpanded, hedited⟩ := runs_of_resolved hstream hnative h
  obtain ⟨script, hsource, hrun⟩ := Preprocess.resolve_of_resolved h
  have hscript := Script.ofSource_native hstream hnative
  rw [hsource] at hscript
  obtain rfl := Except.ok.inj hscript
  have hfresh : (Session.start options).table.Fresh := ⟨rfl, rfl, rfl⟩
  have hresolved := Script.Resolved.of_run hfresh hrun
  obtain ⟨hgrows, -⟩ := ((Script.resolve_traces _ _).of_run_ok hrun).reaches.sound
    (Script.sound_declare _ hfresh.values)
  obtain ⟨constants, hdeclare⟩ := Resolve.declare_eq (Session.start options).table
    ((Run.ofTokens? stream.tokens).toList.map Node.run)
  refine ⟨runs, span, edits, hout, hexpanded, hedited.tokens, hedited.single, ?_, ?_, ?_,
    hresolved.external⟩
  · have hdeclared := declared_native stream.tokens ⟨.origin, stream.stop⟩
    refine ⟨fun name => ?_, hresolved.free, hresolved.sound, fun entry hentry => ?_,
      fun name hname => ⟨_, hresolved.hasValue hname⟩, hedited.encloses, hedited.called,
      hedited.simultaneous⟩
    · rw [hresolved.lookup, hdeclared]
    · rw [← hdeclared] at hentry
      obtain ⟨values, result, hassigns, hfold⟩ := hresolved.folded entry hentry
      exact ⟨result, values, hassigns, hfold⟩
  · refine hgrows.numbered (.of_areas ?_)
    rw [Resolve.declare_areas]
    rfl
  · rw [hgrows.areaBase, hdeclare]
    rfl

end

/-! ### Texts of the first run -/

namespace Hoist

/-- The calls of a row can be taken out for good: a parenthesis stands directly behind each
name of a call, and a call lasts unless it is the operand of a constant. -/
structure CallsLast (table : SymbolTable) (row : List Token) : Prop where
  direct : Direct row
  lasts : ∀ before us c, row = before ++ us → RandomCall.read? us = some c →
    EndsInConst before ∨ Lasts table c

instance (table : SymbolTable) (row : List Token) : Decidable (CallsLast table row) :=
  decidable_of_iff ((∀ us ∈ row.tails, ∀ t ∈ us.head?, t.isWord "rnd".toList = true →
        us.tail.head?.any (Token.isPunct '(') = true) ∧
      ∀ i ≤ row.length, ∀ c ∈ RandomCall.read? (row.drop i),
        EndsInConst (row.take i) ∨ Lasts table c)
    ⟨fun h => ⟨fun t us hrow => h.1 (t :: us) ((List.mem_tails _ _).2 hrow) t rfl,
        fun before us c hrow hread => by
          subst hrow
          simpa using h.2 before.length (by simp) c (by simpa using hread)⟩,
      fun h => ⟨fun us hrow t ht =>
          h.direct t us.tail (by rwa [List.cons_head?_tail ht, ← List.mem_tails]),
        fun i _ c hread => h.lasts _ _ c (List.take_append_drop i row).symm hread⟩⟩

/-- No command of areas ends in a digit. -/
theorem getLast?_of_isAreaCommand {command : Text} (h : Resolve.isAreaCommand command = true) :
    command.getLast?.any Char.isDigit = false := by
  have hcases : command = "actor_area".toList ∨ command = "create_actor_area".toList ∨
      command = "avoid_actor_area".toList ∨ command = "actor_area_to_place_in".toList := by
    rw [Resolve.isAreaCommand, Resolve.areaDeclaration?, Resolve.isAreaReference] at h
    split at h
    · next heq => exact Or.inl (by simpa using heq)
    split at h
    · next heq => exact Or.inr (Or.inl (by simpa using heq))
    · exact Or.inr (Or.inr (by simpa using h))
  rcases hcases with rfl | rfl | rfl | rfl <;> decide +kernel

theorem isAreaCommand_append_ofNat (stem : Text) (n : Nat) :
    Resolve.isAreaCommand (stem ++ Text.ofNat n) = false := by
  rw [← Bool.not_eq_true]
  exact fun h => append_ofNat_ne (getLast?_of_isAreaCommand h) stem n rfl

theorem Parts.of_tokens (table : SymbolTable) (names : List Text) (row : List Token) :
    Parts table names (row.map Stretch.token) := by
  induction row with
  | nil => exact .nil
  | cons t row ih => exact .token t ih

/-- The stretches of a row that a run goes through, and the text that it writes for them. -/
structure TextOf (options : Options) (table : SymbolTable) (row : List Token)
    (stretches : List Stretch) (text : Text) : Prop where
  source : sourceOf stretches = row
  parts : Parts table (namesOf stretches) stretches
  fresh : ∀ name ∈ namesOf stretches, name ∉ table.names
  names : ∀ name ∈ namesOf stretches, IsName name
  declared : options.hoistRandom = true →
    Declared [] (writtenOf stretches) ∧ Direct (writtenOf stretches)
  text : text = render options.keepLines
    (((callsOf stretches).flatMap Hoisted.line ++ writtenOf stretches).map Token.toLexeme)

/-- The calls of a row are taken out as they last. -/
theorem TextOf.of_scans {options : Options} {table : SymbolTable} {row : List Token}
    {stretches : List Stretch} {text : Text} (hstem : IsName options.stem) (hwrites : table.Writes)
    (hscans : Scans table [] row stretches) (hlasts : CallsLast table row)
    (hnames : ∀ x, .call x ∈ stretches →
      ∃ n, x.name = options.stem ++ Text.ofNat n ∧ x.name ∉ table.names)
    (htext : text = render options.keepLines
      (((callsOf stretches).flatMap Hoisted.line ++ writtenOf stretches).map Token.toLexeme)) :
    TextOf options table row stretches text := by
  have hname {name : Text} (hname : name ∈ namesOf stretches) :
      ∃ n, name = options.stem ++ Text.ofNat n ∧ name ∉ table.names := by
    obtain ⟨x, hx, rfl⟩ := List.mem_map.1 hname
    exact hnames x (mem_hoisted_iff.1 hx)
  have hparts : Parts table (namesOf stretches) stretches := by
    have hfollows : Follows (([] : List Token).foldl remember []) [] := .nil
    refine hscans.parts hwrites hfollows (by simpa using hlasts.lasts) fun x hx => ?_
    obtain ⟨n, hn, -⟩ := hnames x hx
    refine ⟨List.mem_map_of_mem (mem_hoisted_iff.2 hx), ?_⟩
    rw [hn]
    exact isAreaCommand_append_ofNat options.stem n
  have hsource := hscans.source_eq
  refine ⟨hsource.symm, hparts, fun name h => ?_, fun name h => ?_,
    fun _ => ⟨hscans.declared hparts, hparts.direct (hsource ▸ hlasts.direct)⟩, htext⟩
  · obtain ⟨-, -, hfresh⟩ := hname h
    exact hfresh
  · obtain ⟨n, rfl, -⟩ := hname h
    exact hstem.append_ofNat n

/-- A row whose calls are left where they are. -/
theorem TextOf.of_tokens {options : Options} (hrandom : options.hoistRandom = false)
    (table : SymbolTable) (row : List Token) :
    TextOf options table row (row.map .token)
      (render options.keepLines (row.map Token.toLexeme)) := by
  have hcalls : callsOf (row.map .token) = [] := by
    simp [callsOf, Stretch.hoisted?]
  have hsource : sourceOf (row.map .token) = row := by
    simp [sourceOf, List.flatMap_map, Stretch.source]
  have hwritten : writtenOf (row.map .token) = row := by
    simp [writtenOf, List.flatMap_map, Stretch.written]
  refine ⟨hsource, .of_tokens table _ row, ?_, ?_, fun h => ?_, ?_⟩
  · simp [namesOf, hcalls]
  · simp [namesOf, hcalls]
  · rw [hrandom] at h
    cases h
  · rw [hcalls, hwritten]
    rfl

/-- The declarations of calls, and the row behind them, as runs. -/
theorem exists_runs (calls : List Hoisted) (start : Position) (r : Run) :
    ∃ runs : List Run, declarationRun calls start ++ [.run r] = runs.map Piece.run ∧
      runs.flatMap Run.tokens = calls.flatMap Hoisted.line ++ r.tokens := by
  rw [declarationRun]
  split
  · next hnone =>
    rw [List.isEmpty_iff.1 hnone]
    exact ⟨[r], rfl, by simp⟩
  · exact ⟨[⟨calls.flatMap Hoisted.line, .point start⟩, r], rfl, by simp⟩

end Hoist

open Hoist in
/-- A text that is preprocessed, gone through from its resolved row on. -/
theorem exists_textOf {options : Options} {source text : Text} {runs : List Run} {span : Span}
    {named : Script Node} {s : Session} (hstem : IsName options.stem)
    (hnamed : runPass options (resolved source) = (.ok named, s))
    (hexpanded : runPass options (expanded source) = (.ok ⟨runs.map Piece.run, span⟩, s))
    (hsingle : runs = [] ∨ ∃ r, runs = [r])
    (hcalls : options.hoistRandom = true → CallsLast s.table (runs.flatMap Run.tokens))
    (h : preprocess options source = .ok text) :
    ∃ stretches, TextOf options s.table (runs.flatMap Run.tokens) stretches text := by
  cases hrandom : options.hoistRandom with
  | false =>
      rw [preprocess_runs hexpanded (Or.inl hrandom)] at h
      obtain rfl := Except.ok.inj h
      exact ⟨_, .of_tokens hrandom s.table _⟩
  | true =>
      obtain ⟨script, hsource, hresolve⟩ := Preprocess.resolve_of_resolved hnamed
      have hwrites := Script.writes_of_resolve hsource ⟨rfl, rfl, rfl⟩ hresolve
      rcases hsingle with rfl | ⟨⟨row, whole⟩, rfl⟩
      · rw [preprocess_runs hexpanded (Or.inr (by simp))] at h
        obtain rfl := Except.ok.inj h
        exact ⟨[], .of_scans hstem hwrites .nil (hcalls hrandom) (by simp) rfl⟩
      · have hknows := Preprocess.knows_of_expand hresolve
          ((Preprocess.run_expanded hnamed).symm.trans hexpanded)
        have hsettled := Preprocess.settled_of_expanded hnamed hexpanded
        obtain ⟨out, s₁, hrun, stretches, hscans, rfl, hnames⟩ :=
          (Script.hoist_run hwrites options.stem row whole span hknows hsettled).exists_run
        have hhoisted := Preprocess.run_hoisted hexpanded
        rw [if_pos hrandom, List.map_singleton, hrun] at hhoisted
        obtain ⟨runs, hruns, htokens⟩ := exists_runs (callsOf stretches) span.start
          ⟨writtenOf stretches, whole⟩
        rw [preprocess, Preprocess.run_text_of_hoisted hhoisted] at h
        obtain rfl := Except.ok.inj h
        have hcall := hcalls hrandom
        rw [List.flatMap_singleton] at hcall ⊢
        refine ⟨stretches, .of_scans hstem hwrites hscans hcall hnames ?_⟩
        rw [← callsOf, hruns, truncate_runs, engineText_runs, lexemes_runs, htokens]

/-! ### The second run -/

section
variable {options : Options} {text : Text} {stream : TokenStream}
  (hstream : TokenStream.ofSource text = .ok stream)
  (hnative : ∀ t ∈ stream.tokens, t.isOwnDirective = false)

include hstream hnative

/-- No pass changes a compact text in which nothing is left to resolve and what calls is
declared. -/
theorem unmoved_of_quiet
    (hquiet : Resolve.Quiet (Resolve.declare (Session.start options).table
      ((Run.ofTokens? stream.tokens).toList.map Node.run)) (indexed stream.tokens))
    (hcalls : options.hoistRandom = true → Hoist.Declared [] stream.tokens)
    (hcompact : render options.keepLines (stream.tokens.map Token.toLexeme) = text) :
    Unmoved options text := by
  have hsource := Script.ofSource_native hstream hnative
  have hends : Ends (resolved text) (Session.start options)
      (fun out _ => out = ⟨(Run.ofTokens? stream.tokens).toList.map Node.run,
        ⟨.origin, stream.stop⟩⟩) (fun _ _ => False) := by
    rw [Preprocess.resolved_eq hsource, Pass.onTable_ends_iff]
    exact Script.resolve_quiet _ ⟨rfl, rfl, rfl⟩ hquiet
  obtain ⟨_, s, hnamed, rfl⟩ := hends.exists_run
  have hexpanded : runPass options (expanded text) =
      (.ok ⟨(Run.ofTokens? stream.tokens).toList.map Piece.run, ⟨.origin, stream.stop⟩⟩, s) := by
    rw [Preprocess.run_expanded hnamed, Script.expand_runs]
    rfl
  have hhoisted : runPass options (hoisted options text) =
      (.ok ⟨(Run.ofTokens? stream.tokens).toList.map Piece.run, ⟨.origin, stream.stop⟩⟩, s) := by
    rw [Preprocess.run_hoisted hexpanded]
    split
    · next hrandom =>
      refine Script.hoist_eq_pure _ (fun r hr => ?_) s
      have htokens := flatMap_ofTokens? stream.tokens
      rw [Option.mem_toList] at hr
      rw [hr, Option.toList_some, List.flatMap_singleton] at htokens
      rw [htokens]
      have hidle := Hoist.hoistTokens_declared options.stem (hcalls hrandom)
      exact hidle
    · rfl
  refine ⟨⟨_, _, s, hsource, hnamed, rfl⟩, ⟨_, s, s, hexpanded, hhoisted⟩, _, s, hexpanded, ?_⟩
  rw [lexemes_runs, flatMap_ofTokens?]
  exact hcompact

end

namespace Hoist

section
variable {options : Options} {table : SymbolTable} {tokens : List Token} {edits : List Edit}
  {stretches : List Stretch} {text : Text} {again : TokenStream}
  (hlasts : RowLasts table tokens) (hsettled : Settled table tokens edits)
  (hwritten : TextOf options table (Edit.applyAll edits tokens) stretches text)

include hlasts hsettled hwritten

/-- What is written is read as the lines of the calls and the rest. -/
theorem TextOf.rereads (hexternal : table.external = options.external)
    (hsignificant : (Token.significant again.tokens).map Token.toLexeme =
      (Token.significant ((callsOf stretches).flatMap Hoisted.line ++ writtenOf stretches)).map
        Token.toLexeme) :
    ∃ lines rest, indexed again.tokens = lines ++ rest ∧
      Rereads table (Resolve.declare (Session.start options).table
        ((Run.ofTokens? again.tokens).toList.map Node.run)) tokens edits stretches lines rest := by
  have hrow : (indexed again.tokens).map (fun x => x.1.toLexeme) =
      (Token.significant ((callsOf stretches).flatMap Hoisted.line)).map Token.toLexeme ++
        (Token.significant (writtenOf stretches)).map Token.toLexeme := by
    rw [← List.map_append, ← significant_append, ← hsignificant, ← Resolve.map_indexed,
      List.map_map]
    rfl
  obtain ⟨lines, rest, hsplit, hlines, hrest⟩ := List.map_eq_append_iff.1 hrow
  obtain ⟨constants, hdeclare⟩ := Resolve.declare_eq (Session.start options).table
    ((Run.ofTokens? again.tokens).toList.map Node.run)
  refine ⟨lines, rest, hsplit, hlasts, hsettled, hwritten.source, hwritten.parts, hwritten.fresh, hlines,
    hrest, fun name => ?_, ?_, ?_⟩
  · have hlookup := @Script.lookup_declare ⟨(Run.ofTokens? again.tokens).toList.map Node.run,
      ⟨.origin, again.stop⟩⟩ (Session.start options).table rfl name
    rw [declared_native] at hlookup
    rw [← hsplit, Resolve.map_indexed]
    exact hlookup
  · rw [hdeclare, hexternal]
    rfl
  · rw [Resolve.declare_areas]
    rfl

omit hsettled in
/-- What is read calls in operands only. -/
theorem TextOf.declared_again (hrandom : options.hoistRandom = true)
    (hsignificant : (Token.significant again.tokens).map Token.toLexeme =
      (Token.significant ((callsOf stretches).flatMap Hoisted.line ++ writtenOf stretches)).map
        Token.toLexeme) : Declared [] again.tokens := by
  have hrnd : table.isConstant "rnd".toList = false := by
    rw [← Bool.not_eq_true]
    exact fun h => (hlasts.names _ (Resolve.mem_names_of_isConstant h)).2 rfl
  obtain ⟨hdeclared, hdirect⟩ := hwritten.declared hrandom
  have htaken := hwritten.parts.taken
  exact (declared_lines hrnd htaken hdeclared []).congr (direct_lines hrnd htaken hdirect)
    hsignificant.symm

end

end Hoist

/-! ### Sources that last -/

/-- A source without directives of ours whose text lasts: its row does, the numbers of areas
have no sign, and its random calls last where they are taken out. -/
def Lasting (options : Options) (source : Text) : Prop :=
  ∃ stream named s, TokenStream.ofSource source = .ok stream ∧
    (∀ t ∈ stream.tokens, t.isOwnDirective = false) ∧
    runPass options (resolved source) = (.ok named, s) ∧
    0 ≤ options.areaBase ∧ RowLasts s.table stream.tokens ∧
    (options.hoistRandom = true →
      Hoist.CallsLast s.table (Resolve.groups named.parts).flatten)

instance (options : Options) (source : Text) : Decidable (Lasting options source) :=
  decidable_of_iff ((TokenStream.ofSource source).toOption.any (fun stream =>
      (runPass options (resolved source)).1.toOption.any fun named => decide (
        (∀ t ∈ stream.tokens, t.isOwnDirective = false) ∧ 0 ≤ options.areaBase ∧
        RowLasts (runPass options (resolved source)).2.table stream.tokens ∧
        (options.hoistRandom = true → Hoist.CallsLast (runPass options (resolved source)).2.table
          (Resolve.groups named.parts).flatten))) = true) (by
    simp only [toOption_any_iff, decide_eq_true_eq]
    constructor
    · rintro ⟨stream, hstream, named, hnamed, hnative, hbase, hlasts, hcalls⟩
      exact ⟨stream, named, _, hstream, hnative, Prod.ext hnamed rfl, hbase, hlasts, hcalls⟩
    · rintro ⟨stream, named, s, hstream, hnative, hnamed, hbase, hlasts, hcalls⟩
      rw [hnamed]
      exact ⟨stream, hstream, named, rfl, hnative, hbase, hlasts, hcalls⟩)

/-- The text of a source that lasts is changed by no pass. -/
theorem Lasting.unmoved {options : Options} {source text : Text} (hstem : IsName options.stem)
    (hlasting : Lasting options source) (h : preprocess options source = .ok text) :
    Unmoved options text := by
  obtain ⟨stream, named, s, hstream, hnative, hnamed, hbase, hlasts, hcalls⟩ := hlasting
  obtain ⟨runs, span, edits, rfl, hexpanded, htokens, hsingle, hsettled, hnumbered, hareas,
    hexternal⟩ := settled_of_resolved hstream hnative hnamed
  rw [flatten_groups_runs] at hcalls
  obtain ⟨stretches, hwritten⟩ := exists_textOf hstem hnamed hexpanded hsingle hcalls h
  rw [htokens] at hwritten
  have hplain := plain_of_native hstream hnative
  have hspells := hwritten.parts.spellsItself
    (hwritten.source ▸ hsettled.spellsItself hlasts hnumbered (hareas ▸ hbase) hplain) hwritten.names
  obtain ⟨again, hagain, hsignificant, hcompact⟩ := exists_reading options.keepLines hspells
  rw [← hwritten.text] at hagain hcompact
  obtain ⟨stream', hstream', hnative'⟩ := exists_native hstem h
  obtain rfl := Except.ok.inj (hagain.symm.trans hstream')
  obtain ⟨lines, rest, hsplit, hrereads⟩ :=
    hwritten.rereads hlasts hsettled hexternal hsignificant
  refine unmoved_of_quiet hagain hnative' ?_ (fun hrandom =>
    hwritten.declared_again hlasts hrandom hsignificant) hcompact
  rw [hsplit]
  exact hrereads.quiet

/-- Preprocessed once more, the text of a script is returned again exactly if no pass changes
it, and no pass does if the script lasts; the stem of new names has to be a name of ASCII. -/
theorem preprocess_eq_self_iff {options : Options} {source text : Text}
    (hstem : IsName options.stem) (h : preprocess options source = .ok text) :
    (preprocess options text = .ok text ↔ Unmoved options text) ∧
      (Lasting options source → preprocess options text = .ok text) := by
  have hiff := preprocess_eq_iff_unmoved hstem h
  exact ⟨hiff, fun hlasting => hiff.2 (hlasting.unmoved hstem h)⟩

/-- A script with an operand that has a value, an area and calls that refer to constants. -/
def meadow : Text :=
  ("#const A 5\n#const B (A + 1)\nactor_area Q // c\navoid_actor_area Q x rnd(A, B) " ++
    "rnd(1,2)").toList

/-- The numeral put for a negative constant is set apart on both sides as one lexeme; the
second run reads a sign and a number instead, so its text is another one.  Where no constant
among arguments is negative, all else is resolved and taken out for good. -/
theorem preprocess_eq_self_iff_numeral :
    IsName ['C'] ∧
      (∃ text, preprocess {} "#const A -5\nx rnd(A,3)".toList = .ok text ∧
        (preprocess {} text = .ok text ↔ Unmoved {} text) ∧ ¬ Unmoved {} text ∧
        ¬ Lasting {} "#const A -5\nx rnd(A,3)".toList) ∧
      ∃ text, preprocess {} meadow = .ok text ∧
        text = ("#const C1 rnd(5,6)\n#const C2 rnd(1,2)\n#const A 5\n#const B 6\n" ++
          "actor_area 20000\navoid_actor_area 20000 x C1 C2").toList ∧
        Lasting {} meadow ∧ preprocess {} text = .ok text := by
  have hstem : IsName ['C'] := ⟨'C', [], rfl, rfl, by simp⟩
  have hfirst : (preprocess {} "#const A -5\nx rnd(A,3)".toList).toOption =
      some "#const C1 rnd( -5 ,3)\n#const A -5\nx C1".toList := by decide +kernel
  have hsecond : (preprocess {} "#const C1 rnd( -5 ,3)\n#const A -5\nx C1".toList).toOption ≠
      some "#const C1 rnd( -5 ,3)\n#const A -5\nx C1".toList := by decide +kernel
  have hmeadow : (preprocess {} meadow).toOption.any (fun text =>
      decide (text = ("#const C1 rnd(5,6)\n#const C2 rnd(1,2)\n#const A 5\n#const B 6\n" ++
        "actor_area 20000\navoid_actor_area 20000 x C1 C2").toList)) = true := by
    decide +kernel
  have hlasting : Lasting {} meadow := by decide +kernel
  obtain ⟨text', hrun', htext'⟩ := toOption_any_iff.1 hmeadow
  refine ⟨hstem, ?_, text', hrun', of_decide_eq_true htext', hlasting,
    (preprocess_eq_self_iff hstem hrun').2 hlasting⟩
  cases hrun : preprocess {} "#const A -5\nx rnd(A,3)".toList with
  | error e =>
      rw [hrun] at hfirst
      cases hfirst
  | ok text =>
      rw [hrun] at hfirst
      obtain rfl := Option.some.inj hfirst
      obtain ⟨hiff, hlasts⟩ := preprocess_eq_self_iff hstem hrun
      have hmoved : ¬ Unmoved {} _ := fun hunmoved => hsecond (by rw [hiff.2 hunmoved]; rfl)
      exact ⟨_, rfl, hiff, hmoved, fun h => hmoved (hiff.1 (hlasts h))⟩

end MapScript
