import MapScript.Proofs.Characters
import MapScript.Proofs.Directives
import MapScript.Proofs.HeaderSource
import MapScript.Proofs.Lexing.NulCharacter

/-!
# Where a NUL gets through

The scanners of strings and comments do not look for a NUL, so a source may hold one there,
and nowhere else: at every other place it is refused.  Comments of a script are not
written, and no pass makes a NUL of its own, so a text that holds one has it from a string
of the source.
-/

namespace MapScript

open Resolve (AllTokens groups nodeGroups)

/-! ### The tokens of a script -/

namespace Grammar

theorem CallTakes.mem_body {c : Call} {ts rest body : List Token} (h : CallTakes c ts rest)
    (hbody : c.body = some body) {t : Token} (ht : t ∈ body) : t ∈ ts := by
  obtain ⟨-, -, harguments, -, hcontent, -, -⟩ := h
  next u us taken mid args =>
  have hmid : t ∈ mid := by
    rw [hbody] at hcontent
    obtain ⟨-, -, -, -⟩ | _ := hcontent
    simp [ht]
  refine List.mem_cons_of_mem _ ?_
  cases harguments with
  | present => simp [hmid]
  | absent => exact hmid

/-- What the blocks of a script hold stands in the script. -/
theorem Spells.mem_groups {ns : List Node} {ts rest : List Token} (h : Spells ns ts rest)
    {row : List Token} (hrow : row ∈ groups ns) {t : Token} (ht : t ∈ row) : t ∈ ts := by
  induction h with
  | nil => cases hrow
  | @run u us vs _ _ _ _ ih =>
      rcases List.mem_append.1 hrow with hrow | hrow
      · obtain rfl := List.mem_singleton.1 hrow
        exact List.mem_append_left vs ht
      · exact List.mem_append_right (u :: us) (ih hrow)
  | marker _ _ ih => exact List.mem_cons_of_mem _ (ih hrow)
  | header _ _ _ _ ih => simp [ih hrow]
  | call htaken _ ih =>
      rcases List.mem_append.1 hrow with hrow | hrow
      · exact htaken.mem_body (Option.mem_toList.1 hrow) ht
      · exact htaken.isSuffix.subset (ih hrow)
  | repeated _ _ _ hwithin _ _ ihw ih =>
      refine List.mem_cons_of_mem _ (List.mem_append_right _ ?_)
      rcases List.mem_append.1 hrow with hrow | hrow
      · exact ihw hrow
      · exact hwithin.isSuffix.subset (List.mem_cons_of_mem _ (ih hrow))

end Grammar

namespace TokenStream

/-- A token that holds a NUL is a string or a comment. -/
theorem nul_enclosed {source : Text} {stream : TokenStream} (h : ofSource source = .ok stream) :
    ∀ t ∈ stream.tokens, '\x00' ∈ t.raw → t.kind = .string ∨ t.kind = .comment := by
  obtain ⟨ls, hlex, htokens⟩ := lexScript_of_ofSource h
  obtain ⟨-, next, hscans⟩ := Lexer.scans_of_lexemes hlex
  rw [← htokens] at hscans
  exact List.forall_mem_map.1 hscans.nul_enclosed

end TokenStream

/-! ### Headers -/

namespace Lexer

theorem Tidy.behind_opener {mode : Mode} {front ls : List Lexeme} {l : Lexeme}
    (h : Tidy mode (front ++ l :: ls)) (hopens : opensHeader l = true) : Tidy .prose ls := by
  induction front generalizing mode with
  | nil =>
      cases mode with
      | script =>
          rw [List.nil_append, Tidy, hopens] at h
          exact h.2
      | prose =>
          rcases h with ⟨hkind, -⟩ | ⟨hcloses, -⟩
          · rw [opensHeader, Bool.and_eq_true, beq_iff_eq] at hopens
            rw [hopens.1] at hkind
            simp at hkind
          · rw [opensHeader_of_closesHeader hcloses] at hopens
            cases hopens
  | cons m front ih =>
      cases mode with
      | script => exact ih h.2
      | prose => exact h.elim (fun h => ih h.2) fun h => ih h.2

/-- The prose of a header is lines and line breaks. -/
theorem Tidy.kind_of_prose {ls ms : List Lexeme} (h : Tidy .prose (ls ++ ms))
    (hls : ∀ l ∈ ls, closesHeader l = false) : ∀ l ∈ ls, l.kind = .text ∨ l.kind = .newline := by
  induction ls with
  | nil => simp
  | cons l ls ih =>
      rw [List.forall_mem_cons] at hls
      rcases h with ⟨hkind, htail⟩ | ⟨hcloses, -⟩
      · exact List.forall_mem_cons.2 ⟨hkind, ih htail hls.2⟩
      · rw [hls.1] at hcloses
        cases hcloses

end Lexer

/-- The prose of a header holds no NUL. -/
theorem Header.nul_notMem {source : Text} {stream : TokenStream} {h : Header}
    {front back : List Token} {opener closer : Token}
    (hsource : TokenStream.ofSource source = .ok stream)
    (henclosed : h.Enclosed stream.tokens front back opener closer) : '\x00' ∉ h.text := by
  have htidy := TokenStream.tidy_of_ofSource hsource
  rw [henclosed.split, List.map_append, List.map_cons, List.map_append] at htidy
  have hprose := (htidy.behind_opener henclosed.starts).kind_of_prose
    (List.forall_mem_map.2 henclosed.within)
  intro hnul
  obtain ⟨t, ht, hnul⟩ := List.mem_flatMap.1 hnul
  have hkind : t.kind = .text ∨ t.kind = .newline := hprose _ (List.mem_map_of_mem ht)
  have hmem : t ∈ stream.tokens := by
    rw [henclosed.split]
    simp [ht]
  rcases TokenStream.nul_enclosed hsource t hmem hnul with hstring | hcomment
  · simp [hstring] at hkind
  · simp [hcomment] at hkind

/-! ### Made tokens -/

/-- The token holds no NUL, if it is significant. -/
def Token.NulFree (t : Token) : Prop := t.isTrivia = false → '\x00' ∉ t.raw

theorem nul_notMem_magnitude {raw body : Text} (hform : raw = body ∨ raw = '-' :: body)
    (hbody : Number.IsMagnitude body) : '\x00' ∉ raw := by
  have hplain : '\x00' ∉ body := fun hnul => absurd (hbody.isPlain _ hnul) (by decide)
  rcases hform with rfl | rfl
  · exact hplain
  · simpa using hplain

theorem holdsOfMade_nulFree : HoldsOfMade Token.NulFree where
  numerals := by
    intro value raw span hraw _
    obtain ⟨body, hform, hbody⟩ := Number.format_cases hraw
    exact nul_notMem_magnitude hform hbody
  integers := by
    intro n span _
    obtain ⟨body, hform, hbody⟩ := Number.ofInt_cases n
    exact nul_notMem_magnitude hform hbody
  fixed := by
    intro l hl span _
    have hfixed : ∀ l ∈ fixedLexemes, '\x00' ∉ l.raw := by decide
    exact hfixed l hl

theorem holdsOfNames_nulFree {stem : Text} (h : '\x00' ∉ stem) :
    Hoist.HoldsOfNames stem Token.NulFree := by
  intro n span _ hnul
  rcases List.mem_append.1 hnul with hnul | hnul
  · exact h hnul
  · exact absurd (Number.isDigit_of_mem_ofNat hnul) (by decide)

/-! ### The text -/

/-- A NUL in the text comes from a string of the source. -/
theorem Preprocess.nul_of_string {options : Options} {source text : Text}
    (hstem : '\x00' ∉ options.stem) (h : preprocess options source = .ok text)
    (hnul : '\x00' ∈ text) :
    ∃ stream, TokenStream.ofSource source = .ok stream ∧
      ∃ t ∈ stream.tokens, t.kind = .string ∧ '\x00' ∈ t.raw := by
  obtain ⟨out, s, hrun, rfl⟩ := hoisted_of_preprocess h
  obtain ⟨script, hscript, hout⟩ := (hoisted_ends options source).of_run_ok hrun
  obtain ⟨stream, hstream, hspells⟩ : ∃ stream, TokenStream.ofSource source = .ok stream ∧
      Grammar.Spells script.parts stream.tokens [] := by
    unfold Script.ofSource at hscript
    split at hscript
    · cases hscript
    · next stream hstream => exact ⟨stream, hstream, (Script.spells_of_ofStream hscript).1⟩
  refine ⟨stream, hstream, ?_⟩
  by_contra hstrings
  have hgroups : AllTokens Token.NulFree (groups script.parts) := by
    intro row hrow t ht hsignificant hnul
    have hmem := hspells.mem_groups hrow ht
    rcases TokenStream.nul_enclosed hstream t hmem hnul with hstring | hcomment
    · exact hstrings ⟨t, hmem, hstring, hnul⟩
    · rw [Token.isTrivia, hcomment] at hsignificant
      cases hsignificant
  have htokens := (hout _ holdsOfMade_nulFree (holdsOfNames_nulFree hstem) hgroups).truncate
  rcases mem_engineText hnul with hfills | ⟨header, hheader, hnul⟩ | ⟨p, hp, t, ht, hs, hnul⟩
  · exact absurd hfills (by decide)
  · have hpart : Piece.header header ∈ out.parts := (List.takeWhile_sublist _).subset hheader
    obtain ⟨script', hscript', hheld⟩ := (hoisted_headers options source).of_run_ok hrun
    obtain rfl : script' = script := Except.ok.inj (hscript'.symm.trans hscript)
    obtain ⟨n, hn, hholds⟩ := hheld hpart
    obtain ⟨front, back, opener, closer, henclosed⟩ := hspells.exists_enclosed hn hholds
    exact Header.nul_notMem hstream henclosed hnul
  · exact htokens _ (List.mem_map_of_mem hp) t ht hs hnul

/-- What becomes of the NUL characters of a source.  The source is refused for one exactly
where the text before it is cut into lexemes that end there, and by the lexer wherever it is
refused so; if it is read, each of them stands in a string or a comment; and the text of a
script has one only from a string of the source. -/
theorem nul_refused_or_enclosed {options : Options} (hstem : '\x00' ∉ options.stem)
    (source : Text) :
    (∀ before after, source = before ++ '\x00' :: after →
      (Lexer.lexScript source = .error ⟨.nulCharacter, before.length⟩ ↔
        ∃ ls next, Lexeme.rawText ls = before ∧
          Lexer.Scans .script ls ('\x00' :: after) next)) ∧
    (∀ r, TokenStream.ofSource source = .error r → r.cause.kind = .lexical) ∧
    (∀ stream, TokenStream.ofSource source = .ok stream → ∀ t ∈ stream.toList,
      '\x00' ∈ t.raw → t.kind = .string ∨ t.kind = .comment) ∧
    ∀ text, preprocess options source = .ok text → '\x00' ∈ text →
      ∃ stream, TokenStream.ofSource source = .ok stream ∧
        ∃ t ∈ stream.tokens, t.kind = .string ∧ '\x00' ∈ t.raw := by
  refine ⟨?_, fun r => TokenStream.kind_of_ofSource_error, ?_,
    fun text => Preprocess.nul_of_string hstem⟩
  · rintro before after rfl
    exact Lexer.lexScript_nul_iff
  · intro stream hstream t ht hnul
    rcases List.mem_append.1 ht with ht | ht
    · exact TokenStream.nul_enclosed hstream t ht hnul
    · rw [List.mem_singleton.1 ht] at hnul
      cases hnul

/-- A string of one NUL. -/
def quotedNul : Text := ['"', '\x00', '"']

theorem preprocess_quotedNul : ∃ text, preprocess {} quotedNul = .ok text ∧ '\x00' ∈ text := by
  have hwrites : (preprocess {} quotedNul).toOption.any (·.contains '\x00') = true := by
    decide +kernel
  obtain ⟨text, htext, hnul⟩ := toOption_any_iff.1 hwrites
  exact ⟨text, htext, List.contains_iff_mem.1 hnul⟩

/-- A NUL in a string is read and written. -/
theorem quotedNul_accepted :
    ∃ stream text, TokenStream.ofSource quotedNul = .ok stream ∧
      (∃ t ∈ stream.tokens, '\x00' ∈ t.raw) ∧ preprocess {} quotedNul = .ok text ∧
      '\x00' ∈ text := by
  have hreads : (TokenStream.ofSource quotedNul).toOption.any (fun stream =>
      stream.tokens.any fun t => t.raw.contains '\x00') = true := by
    decide +kernel
  obtain ⟨stream, hstream, hreads⟩ := toOption_any_iff.1 hreads
  obtain ⟨t, ht, hnul⟩ := List.any_eq_true.1 hreads
  obtain ⟨text, htext, hwritten⟩ := preprocess_quotedNul
  exact ⟨stream, text, hstream, ⟨t, ht, List.contains_iff_mem.1 hnul⟩, htext, hwritten⟩

theorem nul_refused_or_enclosed_quoted :
    '\x00' ∉ ({} : Options).stem ∧ ∃ text, preprocess {} quotedNul = .ok text ∧ '\x00' ∈ text ∧
      ∃ stream, TokenStream.ofSource quotedNul = .ok stream ∧
        (∃ t ∈ stream.tokens, t.kind = .string ∧ '\x00' ∈ t.raw) ∧
        ∀ t ∈ stream.toList, '\x00' ∈ t.raw → t.kind = .string ∨ t.kind = .comment := by
  have hstem : '\x00' ∉ ({} : Options).stem := by decide
  obtain ⟨text, htext, hnul⟩ := preprocess_quotedNul
  obtain ⟨-, -, hstream, hstring⟩ := nul_refused_or_enclosed hstem quotedNul
  obtain ⟨stream, hsource, hwhere⟩ := hstring text htext hnul
  exact ⟨hstem, text, htext, hnul, stream, hsource, hwhere, hstream stream hsource⟩

end MapScript
