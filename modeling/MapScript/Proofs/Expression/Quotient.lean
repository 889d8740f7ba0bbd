import MapScript.Proofs.Expression.Reading
import MapScript.Proofs.Number.Quotient
import MapScript.Proofs.Outcome
import MapScript.Proofs.Symbol.Congruence

/-!
# Quotients of expressions

A quotient in parentheses folds to the integer nearest to the exact quotient of the values
of its operands, however these are written and whatever the names beside them stand for.
-/

namespace MapScript

namespace Expression

open Binary64 (one)

variable {values : Text → Option Number} {env : Text → Option Int}

attribute [local irreducible] Binary64.one Binary64.limit Binary64.reach

/-- The quotient of two integers, the dividend of at most 51 binary digits. -/
theorem divideInt_eq {a b : Int} (hb : b ≠ 0) (ha : |a| < 2 ^ 51) :
    divideInt a b = .ok (Binary64.signed ((a < 0) != (b < 0))
      ((2 * a.natAbs + b.natAbs) / (2 * b.natAbs))) := by
  have hpos : 0 < b.natAbs := Int.natAbs_pos.2 hb
  have hsmall : a.natAbs < 2 ^ 51 := by
    rw [Int.abs_eq_natAbs] at ha
    exact_mod_cast ha
  have hbound : a.natAbs * one ≤ 2 ^ 51 * one * b.natAbs :=
    (Nat.mul_le_mul_right one hsmall.le).trans (Nat.le_mul_of_pos_right _ hpos)
  obtain ⟨x, hquotient, hx⟩ := Number.intQuotient_holds hb
    (hbound.trans (Nat.mul_le_mul_right _ (Binary64.mul_one_le_reach (by decide))))
  rw [← Binary64.signed_roundRatio] at hx
  rw [divideInt, hquotient]
  dsimp only
  rw [Number.roundAway_holds hx, Number.nearestWhole_signed,
    Number.wholeNear_roundRatio hpos hsmall]
  rw [Binary64.natAbs_signed]
  exact Binary64.roundRatio_le (Binary64.representable_whole (by decide)) hpos hbound

/-! ### Expressions among other values -/

/-- The names in a tree with a value have values. -/
theorem Tree.exists_of_mem_lexemes {r : Rank} (t : Tree r) {v : Int} (hv : t.value env = .ok v)
    {l : Lexeme} (hl : l ∈ t.lexemes) (hword : l.kind = .word) : ∃ n, env l.raw = some n := by
  induction t generalizing v with
  | numeral digits whole =>
      rw [lexemes, List.mem_singleton] at hl
      rw [hl] at hword
      cases hword
  | name word =>
      rw [lexemes, List.mem_singleton] at hl
      rw [hl]
      cases hvalue : env word with
      | none => simp [value, hvalue] at hv
      | some n => exact ⟨n, rfl⟩
  | group inner ih =>
      simp only [lexemes, List.mem_cons, List.mem_append, List.not_mem_nil, or_false] at hl
      rcases hl with rfl | hl | rfl
      · cases hword
      · exact ih hv hl
      · cases hword
  | plain inner ih | factor inner ih | term inner ih => exact ih hv hl
  | negative inner ih =>
      obtain rfl | hl := List.mem_cons.1 hl
      · cases hword
      cases hinner : inner.value env with
      | error e => simp [value, hinner, Except.map] at hv
      | ok n => exact ih hinner hl
  | scaled left operator right ihl ihr | shifted left operator right ihl ihr =>
      rw [value] at hv
      obtain ⟨a, ha, hv⟩ := exists_of_bind hv
      obtain ⟨b, hb, -⟩ := exists_of_bind hv
      simp only [lexemes, List.mem_append, List.mem_cons] at hl
      rcases hl with hl | rfl | hl
      · exact ihl ha hl
      · cases hword
      · exact ihr hb hl

/-- An expression with an integer value folds to it, whatever other names stand for. -/
theorem fold_of_lexemes (hvalues : ∀ word n, env word = some n → values word = some (.int n))
    (t : Tree .sum) {v : Int} (hv : t.value env = .ok v) {ts : List Token}
    (ht : ts.map Token.toLexeme = t.lexemes) : fold values ts = .ok (some (.int v)) := by
  have hagree : Agree values (integers env) ts ts := by
    refine ⟨.of_lexemes rfl, fun ref href => ?_⟩
    obtain ⟨hmem, hword⟩ := Operand.mem_of_mem_references href
    have hlexeme : ref.toLexeme ∈ t.lexemes := ht ▸ List.mem_map_of_mem hmem
    obtain ⟨n, hn⟩ := t.exists_of_mem_lexemes hv hlexeme hword
    rw [hvalues _ n hn, integers, hn]
    rfl
  rw [fold_congr hagree, fold, evaluate_of_lexemes t ht, hv]
  rfl

/-- A quotient in parentheses folds to the integer nearest to the exact quotient, from the
middle to the one farther from zero. -/
theorem fold_quotient (hvalues : ∀ word n, env word = some n → values word = some (.int n))
    {left : Tree .product} {right : Tree .signed} {a b : Int} (ha : left.value env = .ok a)
    (hb : right.value env = .ok b) (hzero : b ≠ 0) (hsmall : |a| < 2 ^ 51) {ts : List Token}
    (hts : ts.map Token.toLexeme
      = mark '(' :: (left.lexemes ++ mark '/' :: right.lexemes) ++ [mark ')']) :
    ∃ q : Int, fold values ts = .ok (some (.int q)) ∧
      ∀ k, NearestAway ((a : ℚ) / b) k ↔ k = q := by
  have hnearest := nearestAway_div (a := a) hzero
  refine ⟨_, ?_, fun k => ⟨fun hk => hk.unique hnearest, fun hk => hk ▸ hnearest⟩⟩
  apply fold_of_lexemes hvalues
    (.term (.factor (.plain (.group (.term (.scaled left .divide right)))))) _ hts
  simp only [Tree.value, ha, hb]
  show MulOp.divide.apply a b = _
  rw [MulOp.apply, if_neg hzero, divideInt_eq hzero hsmall]
  rfl

/-- A dividend below zero, exactly in the middle. -/
theorem fold_quotient_middle :
    let made (kind : TokenKind) (raw : String) : Token := .made kind raw.toList (.point .origin)
    fold (fun _ => none) [made .punct "(", made .punct "-", made .number "5", made .punct "/",
      made .number "2", made .punct ")"] = .ok (some (.int (-3))) := by
  intro made
  obtain ⟨q, hfold, hq⟩ := @fold_quotient (fun _ => none) (fun _ => none)
    (by rintro _ _ ⟨⟩) (.factor (.negative (.plain (.numeral ['5'] (by decide)))))
    (.plain (.numeral ['2'] (by decide))) (-5) 2 rfl rfl (by decide) (by decide)
    [made .punct "(", made .punct "-", made .number "5", made .punct "/", made .number "2",
      made .punct ")"] rfl
  rw [hfold, ← (hq (-3)).1 (nearestAway_div (a := -5) (b := 2) (by decide))]

end Expression

end MapScript
