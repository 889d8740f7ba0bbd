import MapScript.Proofs.Directives
import MapScript.Proofs.Lexing.Numeral
import MapScript.Proofs.Totality

/-!
# Values that were written

Once a script is resolved, the value of every constant can be written: it stands as
a numeral in the place of its operand, or the operand is a numeral that was read,
and what is read is no longer than what can be written.
-/

namespace MapScript

open Evaluation Resolve

/-! ### Numerals -/

/-- A row of digits writes a number that has no more. -/
theorem ofDigits_lt {digits : Text} (h : ∀ c ∈ digits, c.isDigit = true) :
    ofDigits digits < 10 ^ digits.length := by
  have hvalue {c : Char} (hc : c.isDigit = true) : digitValue c < 10 := by
    simp only [Char.isDigit, Bool.and_eq_true, decide_eq_true_eq] at hc
    have hle : c.toNat ≤ 57 := UInt32.le_iff_toNat_le.1 hc.2
    show c.toNat - 48 < 10
    omega
  have hfold (n : Nat) : digits.foldl (fun n c => n * 10 + digitValue c) n <
      (n + 1) * 10 ^ digits.length := by
    induction digits generalizing n with
    | nil => simp
    | cons c cs ih =>
        rw [List.forall_mem_cons] at h
        have hc := hvalue h.1
        calc List.foldl (fun n c => n * 10 + digitValue c) (n * 10 + digitValue c) cs
            < (n * 10 + digitValue c + 1) * 10 ^ cs.length := ih h.2 _
          _ ≤ ((n + 1) * 10) * 10 ^ cs.length := Nat.mul_le_mul_right _ (by omega)
          _ = (n + 1) * 10 ^ (cs.length + 1) := by rw [Nat.pow_succ']; ring
  simpa [ofDigits] using hfold 0

namespace Number

/-- A numeral that is read can be written, with either sign. -/
theorem exists_format_of_parse {raw : Text} {v : Number}
    (hraw : ∀ c ∈ raw, c ≠ '.' → c.isDigit = true) (h : parse raw = .ok v) :
    (∃ text, v.format = .ok text) ∧ ∃ text, v.neg.format = .ok text := by
  have hshort {v : Number} (hv : v.Short) : ∃ text, v.format = .ok text := by
    cases hformat : v.format with
    | ok text => exact ⟨text, rfl⟩
    | error f => exact absurd hformat (hv.format_ne f)
  unfold parse at h
  split at h
  · next whole hspan =>
    rw [List.span_eq_takeWhile_dropWhile, Prod.mk.injEq] at hspan
    have hdigits : ∀ c ∈ whole, c.isDigit = true := by
      intro c hc
      rw [← hspan.1] at hc
      have hpoint : c ≠ '.' := by simpa using List.mem_takeWhile_imp hc
      exact hraw c ((List.takeWhile_sublist _).subset hc) hpoint
    cases hread : readNat whole with
    | error f =>
        rw [hread] at h
        cases h
    | ok n =>
        rw [hread] at h
        cases h
        rw [readNat] at hread
        split at hread
        · cases hread
        · next hlength =>
          cases hread
          have hlt : ofDigits whole < 10 ^ maxDigits :=
            Nat.lt_of_lt_of_le (ofDigits_lt hdigits)
              (Nat.pow_le_pow_right (by decide) (Nat.not_lt.1 hlength))
          have hn : (int (ofDigits whole)).Short := by
            show (Text.ofNat (ofDigits whole)).length ≤ maxDigits
            exact Nat.toDigits_length 10 _ maxDigits (by decide) hlt
          exact ⟨hshort hn, hshort hn.neg⟩
  · cases h
    exact ⟨⟨_, rfl⟩, ⟨_, rfl⟩⟩

end Number

namespace Operand

/-- A numeral has the value that is read, or the fault of its reading. -/
theorem fold_number (values : Text → Option Number) {t : Token} (ht : t.kind = .number) :
    Expression.fold values [t] = (Number.parse t.raw).map some := by
  cases hparse : Number.parse t.raw with
  | ok n => exact fold_numeral values ht hparse
  | error f =>
      have hsign : t.isPunct '-' = false := by simp [Token.isPunct, ht]
      simp [Expression.fold, Expression.evaluate, Expression.sum, Expression.product,
        Expression.signed, Expression.primary, hsign, ht, hparse, Except.map]

/-- A numeral with a value is read. -/
theorem parse_of_fold {values : Text → Option Number} {t : Token} {v : Number}
    (ht : t.kind = .number) (hv : Expression.fold values [t] = .ok (some v)) :
    Number.parse t.raw = .ok v := by
  rw [fold_number values ht] at hv
  cases hparse : Number.parse t.raw with
  | ok n =>
      rw [hparse] at hv
      cases hv
      rfl
  | error f =>
      rw [hparse] at hv
      cases hv

theorem parse_of_fold_negative {values : Text → Option Number} {t u : Token} {v : Number}
    (ht : t.isPunct '-' = true) (hu : u.kind = .number)
    (hv : Expression.fold values [t, u] = .ok (some v)) :
    ∃ n, Number.parse u.raw = .ok n ∧ v = n.neg := by
  cases hparse : Number.parse u.raw with
  | ok n =>
      rw [fold_negative values ht hu hparse] at hv
      cases hv
      exact ⟨n, rfl, rfl⟩
  | error f =>
      have hsign : u.isPunct '-' = false := by simp [Token.isPunct, hu]
      simp [Expression.fold, Expression.evaluate, Expression.sum, Expression.product,
        Expression.signed, Expression.primary, ht, hsign, hu, hparse] at hv

end Operand

namespace Resolve

/-- A literal is a numeral, or a sign and a numeral. -/
theorem literal_form {row : List Token} (h : isLiteral (operandOf row) = true) :
    (∃ t, operandOf row = [t] ∧ t.kind = .number) ∨
      ∃ t u, operandOf row = [t, u] ∧ t.isPunct '-' = true ∧ u.kind = .number := by
  rw [isLiteral, Bool.and_eq_true, decide_eq_true_eq] at h
  obtain ⟨hlength, hlast⟩ := h
  rw [operandOf] at hlength hlast ⊢
  cases hn : Operand.length? row with
  | none => simp [hn] at hlast
  | some n =>
  rw [hn, Option.getD_some] at hlength hlast
  cases row with
  | nil => simp at hlast
  | cons t ts =>
      rw [Operand.length?.eq_def] at hn
      dsimp only at hn
      split at hn
      · next hsigned =>
        cases hn
        obtain ⟨hsign, hnumber⟩ := Bool.and_eq_true_iff.1 hsigned
        cases ts with
        | nil => simp at hnumber
        | cons u us => exact Or.inr ⟨t, u, by simp, hsign, by simpa using hnumber⟩
      split at hn
      · next hnumber =>
        cases hn
        exact Or.inl ⟨t, by simp, by simpa using hnumber⟩
      split at hn
      · next hword =>
        have ht : t.kind = .word := by simpa using hword
        split at hn
        · cases hn
          simp [ht] at hlast
        · next u us =>
          split at hn
          · obtain ⟨g, hg, rfl⟩ := Option.map_eq_some_iff.1 hn
            simp [Group.parens?_append hg] at hlength
          · cases hn
            simp [ht] at hlast
      split at hn
      · obtain ⟨g, hg, rfl⟩ := Option.map_eq_some_iff.1 hn
        have hcloser := Token.kind_of_isPunct (Group.closer_of_parens? hg)
        have htake : (t :: ts).take (g.inner.length + 2) = (t :: g.inner) ++ [g.closer] := by
          simp [Group.parens?_append hg, List.take_append]
        rw [htake, List.getLast?_concat, Option.any_some, hcloser] at hlast
        cases hlast
      · cases hn

/-- The operand of a declaration in a row is that of a row in it. -/
theorem exists_operandOf {row : List Token} {entry : Text × Declaration}
    (h : entry ∈ declarations row) :
    ∃ rest, entry.2.operand = operandOf rest ∧ rest ⊆ row := by
  induction row with
  | nil => simp [declarations] at h
  | cons t ts ih =>
      rw [declarations_cons] at h
      rcases List.mem_append.1 h with hhere | hlater
      · unfold declaredBy at hhere
        split at hhere
        · next name rest _ =>
          split at hhere
          · rw [List.mem_singleton.1 hhere]
            exact ⟨rest, rfl, fun u hu => by simp [hu]⟩
          · cases hhere
        · cases hhere
      · obtain ⟨rest, hrest, hsub⟩ := ih hlater
        exact ⟨rest, hrest, fun u hu => List.mem_cons_of_mem t (hsub hu)⟩

end Resolve

/-! ### Constants -/

namespace Script

/-- The value of a literal in a script can be written. -/
theorem exists_format_of_literal {source : Text} {s : Script Node} (hs : ofSource source = .ok s)
    {entry : Text × Declaration} (hentry : entry ∈ s.declared)
    (hliteral : isLiteral entry.2.operand = true) {values : Text → Option Number} {v : Number}
    (hv : Expression.fold values (Token.significant entry.2.operand) = .ok (some v)) :
    ∃ raw, v.format = .ok raw := by
  obtain ⟨row, hrow, hdeclared⟩ := List.mem_flatMap.1 hentry
  obtain ⟨rest, hoperand, hsub⟩ := exists_operandOf hdeclared
  have hdigits {t : Token} (ht : t ∈ entry.2.operand) (hnumber : t.kind = .number) :
      ∀ c ∈ t.raw, c ≠ '.' → c.isDigit = true := by
    have hmem : t ∈ Token.significant row := by
      rw [hoperand] at ht
      exact hsub (List.mem_of_mem_take ht)
    have hplain := Preprocess.plain_of_ofSource hs row hrow t (List.mem_of_mem_filter hmem)
    have hstands := hplain.2 (by simp [Token.isTrivia, hnumber, TokenKind.isTrivia])
    exact fun c hc hpoint => hstands.isDigit hnumber hc hpoint
  rw [hoperand] at hliteral
  rcases literal_form hliteral with ⟨t, hform, hnumber⟩ | ⟨t, u, hform, hsign, hnumber⟩
  · rw [← hoperand] at hform
    have hsignificant : Token.significant [t] = [t] := by
      simp [Token.significant, Token.isTrivia, hnumber, TokenKind.isTrivia]
    rw [hform, hsignificant] at hv
    have hparse := Operand.parse_of_fold hnumber hv
    exact (Number.exists_format_of_parse (hdigits (by simp [hform]) hnumber) hparse).1
  · rw [← hoperand] at hform
    have hsignificant : Token.significant [t, u] = [t, u] := by
      simp [Token.significant, Token.isTrivia, hnumber, TokenKind.isTrivia,
        Token.kind_of_isPunct hsign]
    rw [hform, hsignificant] at hv
    obtain ⟨n, hparse, rfl⟩ := Operand.parse_of_fold_negative hsign hnumber hv
    exact (Number.exists_format_of_parse (hdigits (by simp [hform]) hnumber) hparse).2

end Script

/-- Folding finds a value for every constant of the script, and if it is a single one it
can be written. -/
def SymbolTable.Writes (table : SymbolTable) : Prop :=
  ∀ name, (table.constants.lookup name).isSome → ∃ value, HasValue table name value ∧
    table.folding name = .ok value ∧ ∀ v, value = some v → ∃ raw, v.format = .ok raw

/-- The table of a script that is resolved has values that can be written. -/
theorem Script.writes_of_resolve {source : Text} {s out : Script Node} {fresh table : SymbolTable}
    (hs : ofSource source = .ok s) (hfresh : fresh.Fresh)
    (hrun : s.resolve.run.run fresh = (.ok out, table)) : table.Writes := by
  have hresolved := Resolved.of_run hfresh hrun
  have hcovers := (s.resolve_traces fresh).of_run_ok hrun
  intro name hname
  have hmem : name ∈ s.constants := by
    by_contra hnot
    simp [hresolved.lookup_none hnot] at hname
  have hconstant := hresolved.isConstant_of_mem hmem
  have hvalue := hresolved.hasValue hconstant
  refine ⟨_, hvalue, hresolved.folding_eq hconstant, ?_⟩
  intro v hv
  rw [hv] at hvalue
  have hknown := hresolved.lookup_some hmem
  -- a constant with a single value has one declaration
  obtain ⟨d, hd⟩ : ∃ d, SymbolTable.declarationsOf name s.declared = [d] := by
    have hpos := List.length_pos_iff.2 (mem_constants_iff.1 hmem)
    refine List.length_eq_one_iff.1 ?_
    by_contra hmany
    have hnone := hvalue.eq_none hknown (by omega)
    cases hnone
  obtain ⟨hassigns, hfold⟩ := hvalue.fold_eq (hd ▸ hknown)
  have hentry : (name, d) ∈ s.declared := SymbolTable.mem_declarationsOf.1 (by simp [hd])
  obtain ⟨values, result, hvalues, hresult, hwrites⟩ :=
    hcovers.written (s.sound_declare hfresh.values) hentry
  have hsame : result = some v := by
    rw [fold_congr_of_references fun ref href => (hassigns ref href).unique (hvalues ref href),
      hresult] at hfold
    exact Except.ok.inj hfold
  rcases hwrites v hsame with hliteral | hraw
  · exact exists_format_of_literal hs hentry hliteral (hsame ▸ hresult)
  · exact hraw

end MapScript
