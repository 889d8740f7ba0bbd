import MapScript.Proofs.EngineText
import MapScript.Proofs.Spelling
import MapScript.Proofs.Stages

/-!
# Directives of engine text

Every directive of a script that is not the engine's is used up: the tokens that
reach the text are plain ones of the script, or made.  What they spell is read
again, and the directives among it are the engine's.
-/

namespace MapScript

open Lexer MapScript.Compact
open Resolve (AllTokens groups)

/-- A lexeme that can be read again, with directives of the engine only, unless it
separates others. -/
def Lexeme.Writable (l : Lexeme) : Prop :=
  l.isTrivia = false → Spells l (spelled l) ∧
    ∀ p ∈ spelled l, p.kind = .directive → nativeDirectives.contains (Text.lower p.value) = true

theorem Compact.Spells.writable {l : Lexeme} {ps : List Lexeme} (h : Spells l ps)
    (hps : ∀ p ∈ ps, p.kind = .directive →
      nativeDirectives.contains (Text.lower p.value) = true) : l.Writable := by
  intro _
  rw [h.spelled_eq]
  exact ⟨h, hps⟩

theorem writable_of_headed {l : Lexeme} {ps : List Lexeme} (h : Spells l ps)
    (hps : ∀ p ∈ ps, Headed p) : l.Writable := by
  apply h.writable
  intro p hp hkind
  exact absurd hkind (hps p hp).kind_ne_directive

theorem Token.Plain.spells {t : Token} (h : t.Plain) (hs : t.isTrivia = false) :
    Spells t.toLexeme [t.toLexeme] :=
  .self (h.2 hs) (opensHeader_of_isOwnDirective h.1) hs

theorem Token.Plain.writable {t : Token} (h : t.Plain) : t.toLexeme.Writable := by
  intro hs
  refine (h.spells hs).writable ?_ hs
  intro p hp hkind
  rw [List.mem_singleton.1 hp] at hkind ⊢
  have hnative : nativeDirectives.contains (Text.lower t.value) = true := by
    simpa [Token.isOwnDirective, Token.isNative, hkind] using h.1
  exact hnative

/-- The fixed lexemes that passes make are read as they are. -/
theorem spells_fixed {l : Lexeme} (h : l ∈ fixedLexemes) (hs : l.isTrivia = false) :
    Spells l [l] ∧
      (l.kind = .directive → nativeDirectives.contains (Text.lower l.value) = true) := by
  have hfixed : ∀ l ∈ fixedLexemes, l.isTrivia = false → merges [l] = false ∧
      opensHeader l = false ∧
      (l.kind = .directive → nativeDirectives.contains (Text.lower l.value) = true) := by
    decide +kernel
  obtain ⟨hmerges, hopens, hnative⟩ := hfixed l h hs
  have hstands : Stands l [] := by
    simpa [Lexeme.rawText] using stands_of_merges hmerges
  exact ⟨Spells.self hstands hopens hs, hnative⟩

theorem writable_of_fixed {l : Lexeme} (h : l ∈ fixedLexemes) : l.Writable := by
  intro hs
  obtain ⟨hspells, hnative⟩ := spells_fixed h hs
  refine hspells.writable ?_ hs
  intro p hp
  rw [List.mem_singleton.1 hp]
  exact hnative

theorem holdsOfMade_writable : HoldsOfMade fun t => t.toLexeme.Writable where
  numerals := by
    intro value raw span hraw
    obtain ⟨body, hform, hbody⟩ := Number.format_cases hraw
    obtain ⟨ps, hspells, hps, -⟩ := Number.spells_numeral (l := ⟨.number, raw⟩) hform hbody
    exact writable_of_headed hspells hps
  integers := by
    intro n span
    obtain ⟨body, hform, hbody⟩ := Number.ofInt_cases n
    obtain ⟨ps, hspells, hps, -⟩ :=
      Number.spells_numeral (l := ⟨.number, Text.ofInt n⟩) hform hbody
    exact writable_of_headed hspells hps
  fixed := by
    intro l hl span
    exact writable_of_fixed hl

theorem holdsOfNames_writable {stem : Text} (h : ∀ c ∈ stem, isPlain c = true) :
    Hoist.HoldsOfNames stem fun t => t.toLexeme.Writable := by
  intro n span
  obtain ⟨ps, hspells, hps⟩ := spells_plain (l := ⟨.word, stem ++ Text.ofNat n⟩)
    (by simp [Text.ofNat, Nat.toDigits_ne_nil]) (by
      intro c hc
      rcases List.mem_append.1 hc with hc | hc
      · exact h c hc
      · exact isPlain_of_isDigit (Number.isDigit_of_mem_ofNat hc))
  exact writable_of_headed hspells hps

/-! ### Tokens that reach the text -/

namespace Preprocess

/-- The tokens of a script with its random calls in front are those of its blocks, or
made. -/
theorem hoisted_ends (options : Options) (source : Text) :
    Ends (hoisted options source) (Session.start options)
      (fun out _ => ∃ script, Script.ofSource source = .ok script ∧
        ∀ P, HoldsOfMade P → Hoist.HoldsOfNames options.stem P →
          AllTokens P (groups script.parts) → AllTokens P (out.parts.map Piece.tokens))
      (fun _ _ => True) := by
  unfold hoisted expanded
  simp only [Ends.bind_iff]
  cases hsource : Script.ofSource source with
  | error r =>
      unfold resolved blocks
      simp only [hsource, Ends.bind_iff, Pass.ofReport_ends_iff]
      constructor
      · rintro script ⟨⟩
      · exact fun _ _ => trivial
  | ok script =>
      apply (resolved_ends options hsource).mono
      · rintro named s ⟨hs, hargs, hnamed⟩
        apply (named.expand_ends hs hargs).mono
        · rintro pieces s₁ ⟨hextends, hpieces⟩
          apply (hoist_ends options pieces (hs.extend hextends)).mono
          · rintro out s₂ ⟨-, hout⟩
            refine ⟨script, rfl, ?_⟩
            intro P hP hnames hgroups
            exact hout P hP hnames (hpieces P hP (hnamed P hP.numerals hgroups))
          · exact fun _ _ _ => trivial
        · exact fun _ _ _ => trivial
      · exact fun _ _ _ => trivial

/-- The tokens of a script's blocks are plain. -/
theorem plain_of_ofSource {source : Text} {script : Script Node}
    (h : Script.ofSource source = .ok script) : AllTokens Token.Plain (groups script.parts) := by
  unfold Script.ofSource at h
  split at h
  · cases h
  · next stream hstream =>
    exact (Script.ofStream_delivers (TokenStream.tidy_of_ofSource hstream)).1 script h

theorem writable_of_hoisted {options : Options} {source : Text} {out : Script Piece} {s : Session}
    (hstem : ∀ c ∈ options.stem, isPlain c = true)
    (h : runPass options (hoisted options source) = (.ok out, s)) :
    AllTokens (fun t => t.toLexeme.Writable) (out.parts.map Piece.tokens) := by
  obtain ⟨script, hsource, hout⟩ := (hoisted_ends options source).of_run_ok h
  apply hout _ holdsOfMade_writable (holdsOfNames_writable hstem)
  intro row hrow t ht
  exact (plain_of_ofSource hsource row hrow t ht).writable

/-- A text is that of a script with its random calls in front, up to the cut. -/
theorem hoisted_of_preprocess {options : Options} {source text : Text}
    (h : preprocess options source = .ok text) :
    ∃ out s, runPass options (hoisted options source) = (.ok out, s) ∧
      text = engineText options.keepLines out.truncate.parts := by
  unfold preprocess at h
  cases hrun : runPass options (hoisted options source) with
  | mk outcome s =>
  cases outcome with
  | error e =>
      rw [run_text_of_error (Or.inr (Or.inr hrun))] at h
      cases h
  | ok out =>
      rw [run_text_of_hoisted hrun] at h
      exact ⟨out, s, rfl, (Except.ok.inj h).symm⟩

end Preprocess

/-! ### Directives that reach the text -/

theorem Resolve.AllTokens.truncate {P : Token → Prop} {script : Script Piece}
    (h : AllTokens P (script.parts.map Piece.tokens)) :
    AllTokens P (script.truncate.parts.map Piece.tokens) := by
  intro row hrow
  obtain ⟨piece, hpiece, rfl⟩ := List.mem_map.1 hrow
  exact h _ (List.mem_map_of_mem ((List.takeWhile_sublist _).subset hpiece))

/-- Writable parts are read as what their lexemes spell. -/
theorem readsAs_of_writable (keepLines : Bool) {pieces : List Piece}
    (h : AllTokens (fun t => t.toLexeme.Writable) (pieces.map Piece.tokens)) :
    (∀ l ∈ pieces.flatMap Piece.lexemes, l.Writable) ∧
      ReadsAs spelled (pieces.flatMap Piece.lexemes) (engineText keepLines pieces) := by
  have hwritable : ∀ l ∈ pieces.flatMap Piece.lexemes, l.Writable := by
    intro l hl
    obtain ⟨piece, hpiece, hl⟩ := List.mem_flatMap.1 hl
    cases piece with
    | run r =>
        obtain ⟨t, ht, rfl⟩ := List.mem_map.1 hl
        exact h r.tokens (List.mem_map_of_mem hpiece) t ht
    | cut span => simp [Piece.lexemes] at hl
    | header header => simp [Piece.lexemes] at hl
  exact ⟨hwritable, readsAs_engineText keepLines fun l hl hs => (hwritable l hl hs).1⟩

/-- What writable parts are written as is read as directives of the engine only. -/
theorem ofSource_engineText {keepLines : Bool} {pieces : List Piece}
    (h : AllTokens (fun t => t.toLexeme.Writable) (pieces.map Piece.tokens)) :
    ∃ stream, TokenStream.ofSource (engineText keepLines pieces) = .ok stream ∧
      ∀ t ∈ stream.tokens, t.kind = .directive → t.isNative = true := by
  obtain ⟨hwritable, out, htext, hreads, hsig⟩ := readsAs_of_writable keepLines h
  obtain ⟨stream, hstream, htokens⟩ := TokenStream.ofSource_of_lexScript hreads.lexScript_rawText
  rw [htext] at hstream
  refine ⟨stream, hstream, ?_⟩
  intro t ht hkind
  have hout : t.toLexeme ∈ out.filter fun l => !l.isTrivia := by
    rw [← htokens, List.mem_filter]
    refine ⟨List.mem_map_of_mem ht, ?_⟩
    simp [Lexeme.isTrivia, hkind, TokenKind.isTrivia]
  rw [hsig] at hout
  obtain ⟨l, hl, hmem⟩ := List.mem_flatMap.1 hout
  obtain ⟨hl, hs⟩ := List.mem_filter.1 hl
  have hnative := (hwritable l hl (by simpa using hs)).2 _ hmem hkind
  simp only [Token.isNative, hkind, beq_self_eq_true, Bool.true_and]
  exact hnative

/-- No directive survives that is not the engine's: with an accepted stem for new
names, the text of a script is read again, and each directive in it is native. -/
theorem preprocess_native {options : Options} {source text : Text}
    (hstem : Settings.checkStem options.stem = .ok options.stem)
    (h : preprocess options source = .ok text) :
    ∃ stream, TokenStream.ofSource text = .ok stream ∧
      ∀ t ∈ stream.tokens, t.kind = .directive → t.isNative = true := by
  obtain ⟨out, s, hrun, rfl⟩ := Preprocess.hoisted_of_preprocess h
  have hout := Preprocess.writable_of_hoisted (Settings.isPlain_of_checkStem hstem) hrun
  exact ofSource_engineText hout.truncate

/-- A header with a directive and the end of a comment in its prose, an object for
every player and a cut. -/
theorem preprocess_native_players :
    Settings.checkStem ['C'] = .ok ['C'] ∧ ∃ text,
      preprocess {} ("#HEADER_START\n#REPEAT */ x\n#HEADER_END\n#include_drs a\n" ++
        "create_object A \x7b #PLACE8 \x7d\n#BREAK\ny").toList = .ok text ∧
      ∃ stream, TokenStream.ofSource text = .ok stream ∧
        ∀ t ∈ stream.tokens, t.kind = .directive → t.isNative = true := by
  have hstem : Settings.checkStem ['C'] = .ok ['C'] := by rfl
  have hok : (preprocess {} ("#HEADER_START\n#REPEAT */ x\n#HEADER_END\n#include_drs a\n" ++
      "create_object A \x7b #PLACE8 \x7d\n#BREAK\ny").toList).isOk = true := by
    decide +kernel
  refine ⟨hstem, ?_⟩
  cases hrun : preprocess {} ("#HEADER_START\n#REPEAT */ x\n#HEADER_END\n#include_drs a\n" ++
      "create_object A \x7b #PLACE8 \x7d\n#BREAK\ny").toList with
  | error e =>
      rw [hrun] at hok
      cases hok
  | ok text => exact ⟨text, rfl, preprocess_native hstem hrun⟩

end MapScript
