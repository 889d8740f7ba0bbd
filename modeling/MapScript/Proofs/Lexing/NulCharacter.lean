import MapScript.Proofs.Lexing.Scans

/-!
# NUL characters

A text is refused where a lexeme would begin with a NUL, in script and in prose, and a line
of prose stops before one.  The scanners of strings and comments go over a NUL as over any
other character, and no other scanner goes over one.
-/

namespace MapScript.Lexer

open Text (spanAhead)

/-- A scan takes no character that it stops at wherever it stands. -/
theorem notMem_of_spanAhead {p : Char → Text → Bool} {a w : Text} {c : Char}
    (h : spanAhead p (a ++ w) = (a, w)) (hc : ∀ cs, p c cs = false) : c ∉ a := by
  intro hmem
  obtain ⟨x, b, rfl⟩ := List.append_of_mem hmem
  have hgoes := (spanAhead_iff.1 h).1 x c b rfl
  rw [hc] at hgoes
  cases hgoes

theorem IsBreak.nul_notMem {b : Text} (h : IsBreak b) : '\x00' ∉ b := by
  rcases h with rfl | rfl <;> decide

/-- Only strings and comments hold NUL characters. -/
theorem Stands.nul_notMem {l : Lexeme} {u : Text} (h : Stands l u) (hstring : l.kind ≠ .string)
    (hcomment : l.kind ≠ .comment) : '\x00' ∉ l.raw := by
  cases hl : l.isTrivia with
  | true =>
      rcases h.trivia_cases hl with ⟨-, hbreak⟩ | ⟨-, hspan⟩ | ⟨hkind, -⟩ | ⟨hkind, -⟩
      · exact hbreak.nul_notMem
      · exact notMem_of_spanAhead hspan fun _ => rfl
      · exact absurd hkind hcomment
      · exact absurd hkind hcomment
  | false =>
      obtain ⟨c, tail, hraw, hscan⟩ := h
      have hkind := Opening.kind?_of_scan hscan
      have hsig := Opening.isSignificant_of_scan hscan hl
      have hfirst : '\x00' ≠ c := by
        rintro rfl
        cases hscan
      have hspan {p : Char → Bool} {kind : TokenKind} (hp : p '\x00' = false)
          (hs : Except.ok (Scan.of kind (spanAhead (fun c _ => p c) (tail ++ u))) =
            (.ok ⟨l.kind, tail, u⟩ : Except Cause Scan)) : '\x00' ∉ tail :=
        notMem_of_spanAhead (Scan.of_eq_iff.1 (Except.ok.inj hs)).2 fun _ => hp
      rw [hraw, List.mem_cons, not_or]
      refine ⟨hfirst, ?_⟩
      unfold scanScript at hscan
      cases ho : opening c (tail ++ u) with
      | nul | blockComment | lineComment | lineFeed | carriageReturn | space =>
          rw [ho] at hsig
          cases hsig
      | directive | word =>
          rw [ho] at hscan
          exact hspan (p := isNameChar) (by decide) hscan
      | text =>
          rw [ho] at hscan
          exact hspan (p := fun c => 128 ≤ c.toNat && !Text.isBlank c) (by decide) hscan
      | number =>
          rw [ho] at hscan
          obtain ⟨-, htaken⟩ := Scan.of_eq_iff.1 (Except.ok.inj hscan)
          have hmem := of_mem_numeralTail (t := tail ++ u)
          rw [htaken] at hmem
          intro hnul
          exact absurd (hmem _ hnul) (by decide)
      | punct =>
          rw [ho, Opening.scan, Except.ok.injEq, Scan.mk.injEq] at hscan
          obtain ⟨-, rfl, -⟩ := hscan
          exact List.not_mem_nil
      | string =>
          rw [ho] at hkind
          exact absurd (Option.some.inj hkind).symm hstring

namespace Scans

variable {mode next : Mode} {ls : List Lexeme} {rest : Text}

/-- A scanned lexeme that holds a NUL is a string or a comment. -/
theorem nul_enclosed (h : Scans mode ls rest next) :
    ∀ l ∈ ls, '\x00' ∈ l.raw → l.kind = .string ∨ l.kind = .comment := by
  have hstands {l : Lexeme} {u : Text} (h : Stands l u) (hnul : '\x00' ∈ l.raw) :
      l.kind = .string ∨ l.kind = .comment := by
    by_contra hkind
    rw [not_or] at hkind
    exact h.nul_notMem hkind.1 hkind.2 hnul
  induction h with
  | nil => simp
  | script hl _ ih | close hl _ _ _ ih => exact List.forall_mem_cons.2 ⟨hstands hl, ih⟩
  | lineBreak hbreak _ ih =>
      exact List.forall_mem_cons.2 ⟨fun hnul => absurd hnul hbreak.nul_notMem, ih⟩
  | line _ hspan _ ih =>
      refine List.forall_mem_cons.2 ⟨fun hnul => absurd hnul ?_, ih⟩
      exact notMem_of_spanAhead hspan fun _ => rfl

/-- Whatever mode is left, a NUL begins no lexeme. -/
theorem nul_refused (h : Scans mode ls ('\x00' :: rest) next) :
    lexemes mode (Lexeme.rawText ls ++ '\x00' :: rest) =
      .error ⟨.nulCharacter, (Lexeme.rawText ls).length⟩ := by
  refine h.refused ?_
  cases next.enter ('\x00' :: rest) <;> rfl

end Scans

/-- A NUL is what a script is refused for exactly where the text before it is cut into
lexemes that end there. -/
theorem lexScript_nul_iff {before after : Text} :
    lexScript (before ++ '\x00' :: after) = .error ⟨.nulCharacter, before.length⟩ ↔
      ∃ ls next, Lexeme.rawText ls = before ∧ Scans .script ls ('\x00' :: after) next := by
  constructor
  · intro h
    obtain ⟨ls, c, cs, next, hsplit, hscans, -, hlength⟩ := scans_of_refusal h
    obtain ⟨rfl, hrest⟩ := List.append_inj hsplit hlength
    rw [← hrest] at hscans
    exact ⟨ls, next, rfl, hscans⟩
  · rintro ⟨ls, next, rfl, hscans⟩
    exact hscans.nul_refused

end MapScript.Lexer
