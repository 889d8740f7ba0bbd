import MapScript.Symbol.Expression
import MapScript.Symbol.Operand
import Mathlib

/-!
# What the value of an expression depends on

An expression is read off the lexemes of its tokens, wherever these stand, and not past
a directive, a name that is called or one that has no value.  Of the values of names only
those of its references matter: a name before a parenthesis is called and has no value at
all.
-/

namespace MapScript

namespace Token

variable {t t' : Token}

theorem isPunct_congr (h : t.toLexeme = t'.toLexeme) (c : Char) : t.isPunct c = t'.isPunct c := by
  rw [isPunct, isPunct, h]

theorem head?_any_isPunct_congr {ts ts' : List Token} (h : ts.map toLexeme = ts'.map toLexeme)
    (c : Char) : ts.head?.any (isPunct c) = ts'.head?.any (isPunct c) := by
  cases ts with
  | nil =>
      rw [List.map_nil, eq_comm, List.map_eq_nil_iff] at h
      rw [h]
  | cons t ts =>
      obtain ⟨t', ts', rfl, ht, -⟩ := List.map_eq_cons_iff.1 h.symm
      simpa using isPunct_congr ht.symm c

end Token

/-- What is referred to is a name in the row. -/
theorem Operand.mem_of_mem_references {t : Token} {ts : List Token} (h : t ∈ references ts) :
    t ∈ ts ∧ t.kind = .word := by
  induction ts with
  | nil => cases h
  | cons u us ih =>
      rw [references] at h
      split_ifs at h with hu
      · rw [Bool.and_eq_true, beq_iff_eq] at hu
        rcases List.mem_cons.1 h with rfl | h
        · exact ⟨List.mem_cons_self, hu.1⟩
        · exact (ih h).imp_left (List.mem_cons_of_mem u)
      · exact (ih h).imp_left (List.mem_cons_of_mem u)

namespace Expression

/-- No expression is read past the token: it is a directive, or a name that is called or has
no value. -/
def Stuck (values : Text → Option Number) (t : Token) (ts : List Token) : Prop :=
  t.kind = .directive ∨
    t.kind = .word ∧ (values t.raw = none ∨ ts.head?.any (Token.isPunct '(') = true)

theorem Stuck.isPunct {values : Text → Option Number} {t : Token} {ts : List Token}
    (h : Stuck values t ts) (c : Char) : t.isPunct c = false := by
  rcases h with hkind | ⟨hkind, -⟩ <;> simp [Token.isPunct, hkind]

theorem primary_of_stuck {values : Text → Option Number} {t : Token} {ts : List Token}
    (h : Stuck values t ts) : primary values t ts = .error .unfoldable := by
  have hopening := h.isPunct '('
  rw [primary]
  rcases h with hkind | ⟨hkind, hnone | hcall⟩
  · simp [hkind, hopening]
  · simp [hkind, hnone]
  · cases hvalue : values t.raw <;> simp [hkind, hcall]

/-- The same lexemes, up to a token in either row past which no expression is read. -/
inductive Matched (values values' : Text → Option Number) : List Token → List Token → Prop
  | nil : Matched values values' [] []
  | cons {t t' : Token} {ts ts' : List Token} (lexeme : t.toLexeme = t'.toLexeme)
      (rest : Matched values values' ts ts') : Matched values values' (t :: ts) (t' :: ts')
  | barrier {t t' : Token} {ts ts' : List Token} (stuck : Stuck values t ts)
      (stuck' : Stuck values' t' ts') : Matched values values' (t :: ts) (t' :: ts')

section
variable {values values' : Text → Option Number}

theorem Matched.of_lexemes {ts ts' : List Token}
    (h : ts.map Token.toLexeme = ts'.map Token.toLexeme) : Matched values values' ts ts' := by
  induction ts generalizing ts' with
  | nil =>
      rw [List.map_nil, eq_comm, List.map_eq_nil_iff] at h
      rw [h]
      exact .nil
  | cons t ts ih =>
      obtain ⟨t', ts', rfl, ht, hts⟩ := List.map_eq_cons_iff.1 h.symm
      exact .cons ht.symm (ih hts.symm)

theorem Matched.head?_any_isPunct {ts ts' : List Token} (h : Matched values values' ts ts')
    (c : Char) : ts.head?.any (Token.isPunct c) = ts'.head?.any (Token.isPunct c) := by
  cases h with
  | nil => rfl
  | cons ht _ => exact Token.isPunct_congr ht c
  | barrier hstuck hstuck' => exact (hstuck.isPunct c).trans (hstuck'.isPunct c).symm

end

/-- Lexemes that match, and the same values of the names they refer to. -/
structure Agree (values values' : Text → Option Number) (ts ts' : List Token) : Prop where
  lexemes : Matched values values' ts ts'
  names : ∀ ref ∈ Operand.references ts, values ref.raw = values' ref.raw

/-- Two readings that halt alike, or give one value and agree on what is left. -/
inductive Alike (values values' : Text → Option Number) {bound bound' : Nat} :
    Except Halt (Reading bound) → Except Halt (Reading bound') → Prop
  | ok {r : Reading bound} {r' : Reading bound'} (value : r.value = r'.value)
      (rest : Agree values values' r.rest r'.rest) : Alike values values' (.ok r) (.ok r')
  | error (e : Halt) : Alike values values' (.error e) (.error e)

section
variable {values values' : Text → Option Number}

theorem Agree.cons {t : Token} {ts us : List Token} (h : Agree values values' (t :: ts) us) :
    ∃ t' ts', us = t' :: ts' ∧ (t.toLexeme = t'.toLexeme ∧ Agree values values' ts ts' ∨
      Stuck values t ts ∧ Stuck values' t' ts') := by
  have hnames : ∀ ref ∈ Operand.references ts, values ref.raw = values' ref.raw := by
    intro ref href
    apply h.names
    rw [Operand.references]
    split
    · exact List.mem_cons_of_mem t href
    · exact href
  cases h.lexemes with
  | cons ht hts => exact ⟨_, _, rfl, Or.inl ⟨ht, hts, hnames⟩⟩
  | barrier hstuck hstuck' => exact ⟨_, _, rfl, Or.inr ⟨hstuck, hstuck'⟩⟩

theorem Agree.isEmpty {ts us : List Token} (h : Agree values values' ts us) :
    ts.isEmpty = us.isEmpty := by
  cases h.lexemes <;> rfl

theorem Agree.nil {us : List Token} (h : Agree values values' [] us) : us = [] := by
  cases h.lexemes
  rfl

theorem primary_alike {t t' : Token} {ts ts' : List Token}
    (h : Agree values values' (t :: ts) (t' :: ts'))
    (hsum : Agree values values' ts ts' →
      Alike values values' (sum values ts) (sum values' ts')) :
    Alike values values' (primary values t ts) (primary values' t' ts') := by
  obtain ⟨_, _, heq, ⟨ht, hts⟩ | ⟨hstuck, hstuck'⟩⟩ := h.cons
  · cases heq
    rw [primary, primary, ← ht, ← Token.isPunct_congr ht]
    split
    · split
      · exact .error _
      · exact .ok rfl hts
    split
    · next hword =>
      rw [← hts.lexemes.head?_any_isPunct '(']
      cases hcall : ts.head?.any (Token.isPunct '(') with
      | true => cases values t.raw <;> cases values' t.raw <;> exact .error _
      | false =>
          have hvalue : values t.raw = values' t.raw := by
            apply h.names
            rw [Operand.references, hword, hcall]
            exact List.mem_cons_self
          rw [hvalue]
          cases values' t.raw with
          | none => exact .error _
          | some value => exact .ok rfl hts
    split
    · replace hsum := hsum hts
      generalize sum values ts = x at hsum
      generalize sum values' ts' = y at hsum
      cases hsum with
      | error e => exact .error e
      | @ok r r' hvalue hrest =>
          obtain ⟨value, rest, hshort⟩ := r
          obtain ⟨value', rest', hshort'⟩ := r'
          dsimp only at hvalue hrest
          cases rest with
          | nil =>
              obtain rfl := hrest.nil
              exact .error _
          | cons u rest =>
              obtain ⟨u', rest', rfl, ⟨hu, hagree⟩ | ⟨hstuck, hstuck'⟩⟩ := hrest.cons
              · dsimp only
                rw [← Token.isPunct_congr hu]
                split
                · exact .ok hvalue hagree
                · exact .error _
              · dsimp only
                rw [hstuck.isPunct, hstuck'.isPunct]
                exact .error _
    · exact .error _
  · cases heq
    rw [primary_of_stuck hstuck, primary_of_stuck hstuck']
    exact .error _

theorem signed_alike {ts ts' : List Token} (h : Agree values values' ts ts')
    (hprimary : ∀ t us t' us', us.length < ts.length →
      Agree values values' (t :: us) (t' :: us') →
      Alike values values' (primary values t us) (primary values' t' us')) :
    Alike values values' (signed values ts) (signed values' ts') := by
  induction ts generalizing ts' with
  | nil =>
      rw [h.nil, signed, signed]
      exact .error _
  | cons t rest ih =>
      obtain ⟨t', rest', rfl, ⟨ht, hrest⟩ | ⟨hstuck, hstuck'⟩⟩ := h.cons
      · rw [signed, signed, ← Token.isPunct_congr ht]
        split
        · have hsigned := ih hrest fun u us u' us' hlt =>
            hprimary u us u' us' (Nat.lt_succ_of_lt hlt)
          generalize signed values rest = x at hsigned
          generalize signed values' rest' = y at hsigned
          cases hsigned with
          | error e => exact .error e
          | ok hvalue hagree => exact .ok (congrArg Number.neg hvalue) hagree
        · exact hprimary t rest t' rest' (by simp) h
      · rw [signed, signed, hstuck.isPunct, hstuck'.isPunct]
        exact hprimary t rest t' rest' (by simp) h

theorem productTail_alike {bound bound' : Nat} {left : Reading bound} {left' : Reading bound'}
    (hvalue : left.value = left'.value) (h : Agree values values' left.rest left'.rest)
    (hsigned : ∀ us us', us.length < left.rest.length → Agree values values' us us' →
      Alike values values' (signed values us) (signed values' us')) :
    Alike values values' (productTail values left) (productTail values' left') := by
  induction hn : left.rest.length using Nat.strongRecOn generalizing left left' with
  | _ n ih =>
      obtain ⟨value, rest, hshort⟩ := left
      obtain ⟨value', rest', hshort'⟩ := left'
      dsimp only at hvalue h hsigned hn
      subst hvalue
      rw [productTail, productTail]
      cases rest with
      | nil =>
          obtain rfl := h.nil
          exact .ok rfl h
      | cons t ts =>
          obtain ⟨t', ts', rfl, ⟨ht, hagree⟩ | ⟨hstuck, hstuck'⟩⟩ := h.cons
          · dsimp only
            rw [← Token.isPunct_congr ht, ← Token.isPunct_congr ht]
            split
            · exact .ok rfl h
            next operation hoperation =>
            have hright := hsigned ts ts' (by simp) hagree
            generalize signed values ts = x at hright
            generalize signed values' ts' = y at hright
            cases hright with
            | error e => exact .error e
            | @ok r r' hr hrest =>
                have hlt := r.shorter
                rw [List.length_cons] at hn
                dsimp only
                rw [← hr]
                split
                · exact .error _
                · apply ih r.rest.length (by omega) rfl hrest _ rfl
                  intro us us' hus
                  exact hsigned us us' (by rw [List.length_cons]; dsimp only at hus; omega)
          · simp only [hstuck.isPunct, hstuck'.isPunct, Bool.false_eq_true, if_false]
            exact .ok rfl h

theorem product_alike {ts ts' : List Token} (h : Agree values values' ts ts')
    (hsigned : ∀ us us', us.length ≤ ts.length → Agree values values' us us' →
      Alike values values' (signed values us) (signed values' us')) :
    Alike values values' (product values ts) (product values' ts') := by
  have hfirst := hsigned ts ts' (Nat.le_refl _) h
  rw [product, product]
  generalize signed values ts = x at hfirst
  generalize signed values' ts' = y at hfirst
  cases hfirst with
  | error e => exact .error e
  | @ok r r' hvalue hrest =>
      have hshort := r.shorter
      apply productTail_alike hvalue hrest
      intro us us' hus
      exact hsigned us us' (by omega)

theorem sumTail_alike {bound bound' : Nat} {left : Reading bound} {left' : Reading bound'}
    (hvalue : left.value = left'.value) (h : Agree values values' left.rest left'.rest)
    (hproduct : ∀ us us', us.length < left.rest.length → Agree values values' us us' →
      Alike values values' (product values us) (product values' us')) :
    Alike values values' (sumTail values left) (sumTail values' left') := by
  induction hn : left.rest.length using Nat.strongRecOn generalizing left left' with
  | _ n ih =>
      obtain ⟨value, rest, hshort⟩ := left
      obtain ⟨value', rest', hshort'⟩ := left'
      dsimp only at hvalue h hproduct hn
      subst hvalue
      rw [sumTail, sumTail]
      cases rest with
      | nil =>
          obtain rfl := h.nil
          exact .ok rfl h
      | cons t ts =>
          obtain ⟨t', ts', rfl, ⟨ht, hagree⟩ | ⟨hstuck, hstuck'⟩⟩ := h.cons
          · dsimp only
            rw [← Token.isPunct_congr ht, ← Token.isPunct_congr ht]
            split
            · exact .ok rfl h
            next operation hoperation =>
            have hright := hproduct ts ts' (by simp) hagree
            generalize product values ts = x at hright
            generalize product values' ts' = y at hright
            cases hright with
            | error e => exact .error e
            | @ok r r' hr hrest =>
                have hlt := r.shorter
                rw [List.length_cons] at hn
                dsimp only
                rw [← hr]
                split
                · exact .error _
                · apply ih r.rest.length (by omega) rfl hrest _ rfl
                  intro us us' hus
                  exact hproduct us us' (by rw [List.length_cons]; dsimp only at hus; omega)
          · simp only [hstuck.isPunct, hstuck'.isPunct, Bool.false_eq_true, if_false]
            exact .ok rfl h

/-- Sums are read alike: what stands in their parentheses is shorter. -/
theorem sum_alike_of_length (n : Nat) : ∀ ts ts', ts.length = n → Agree values values' ts ts' →
    Alike values values' (sum values ts) (sum values' ts') := by
  induction n using Nat.strongRecOn with
  | _ n ih =>
      intro ts ts' hn h
      have hsigned : ∀ us us', us.length ≤ n → Agree values values' us us' →
          Alike values values' (signed values us) (signed values' us') := by
        intro us us' hus hagree
        apply signed_alike hagree
        intro t vs t' vs' hvs hcons
        exact primary_alike hcons (ih vs.length (by omega) vs vs' rfl)
      have hproduct : ∀ us us', us.length ≤ n → Agree values values' us us' →
          Alike values values' (product values us) (product values' us') := by
        intro us us' hus hagree
        apply product_alike hagree
        intro vs vs' hvs
        exact hsigned vs vs' (by omega)
      have hfirst := hproduct ts ts' (by omega) h
      rw [sum, sum]
      generalize product values ts = x at hfirst
      generalize product values' ts' = y at hfirst
      cases hfirst with
      | error e => exact .error e
      | @ok r r' hvalue hrest =>
          have hshort := r.shorter
          apply sumTail_alike hvalue hrest
          intro us us' hus
          exact hproduct us us' (by omega)

/-- The value of an expression depends on its lexemes and on the values of its
references. -/
theorem fold_congr {ts ts' : List Token} (h : Agree values values' ts ts') :
    fold values ts = fold values' ts' := by
  have hsum := sum_alike_of_length ts.length ts ts' rfl h
  unfold fold evaluate
  generalize sum values ts = x at hsum
  generalize sum values' ts' = y at hsum
  cases hsum with
  | error e => rfl
  | @ok r r' hvalue hrest =>
      dsimp only
      rw [hvalue, hrest.isEmpty]

end

end Expression

end MapScript
