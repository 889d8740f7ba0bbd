import MapScript.Proofs.Lexing.Place

/-!
# Numerals

A numeral is a digit and what its scanner takes after it: digits, and the point of a
fraction.
-/

namespace MapScript.Lexer

theorem of_mem_numeralTail {t : Text} : ∀ c ∈ (numeralTail t).1, c.isDigit = true ∨ c = '.' := by
  unfold numeralTail
  have ht := of_mem_spanAhead (p := Char.isDigit) t
  split
  · next digits d ds heq =>
    rw [heq] at ht
    split
    · next hd =>
      have hmore := of_mem_spanAhead (p := Char.isDigit) ds
      intro c hc
      rw [List.mem_append, List.mem_cons, List.mem_cons] at hc
      rcases hc with hc | rfl | rfl | hc
      · exact Or.inl (ht c hc)
      · exact Or.inr rfl
      · exact Or.inl hd
      · exact Or.inl (hmore c hc)
    · exact fun c hc => Or.inl (ht c hc)
  · next digits rest hne heq =>
    rw [heq] at ht
    exact fun c hc => Or.inl (ht c hc)

theorem isDigit_of_opening {c : Char} {cs : Text} (h : opening c cs = .number) :
    c.isDigit = true := by
  have hmeets := opening_meets c cs
  rwa [h] at hmeets

/-- A numeral begins with a digit, and its scanner takes the rest of it. -/
theorem Stands.numeral {l : Lexeme} {rest : Text} (h : Stands l rest) (hkind : l.kind = .number) :
    ∃ d tail, l.raw = d :: tail ∧ d.isDigit = true ∧ numeralTail (tail ++ rest) = (tail, rest) := by
  obtain ⟨d, tail, hraw, hscan⟩ := h
  have hopening : opening d (tail ++ rest) = .number := by
    have hstarts := Opening.kind?_of_scan hscan
    generalize opening d (tail ++ rest) = o at hstarts
    rw [hkind] at hstarts
    cases o <;> first | rfl | cases hstarts
  rw [scanScript, hopening] at hscan
  obtain ⟨-, htaken⟩ := Scan.of_eq_iff.1 (Except.ok.inj hscan)
  exact ⟨d, tail, hraw, isDigit_of_opening hopening, htaken⟩

/-- A numeral that stands alone is made of digits, but for its point. -/
theorem Stands.isDigit {l : Lexeme} {rest : Text} (h : Stands l rest) (hkind : l.kind = .number)
    {c : Char} (hc : c ∈ l.raw) (hpoint : c ≠ '.') : c.isDigit = true := by
  obtain ⟨d, tail, hraw, hd, htaken⟩ := h.numeral hkind
  have hmem := of_mem_numeralTail (t := tail ++ rest)
  rw [htaken] at hmem
  rw [hraw] at hc
  rcases List.mem_cons.1 hc with rfl | hc
  · exact hd
  · exact (hmem c hc).resolve_right hpoint

end MapScript.Lexer
