import MapScript.Symbol.Expression
import MapScript.Proofs.Block

/-!
# Names in expressions

In an expression that has a value no name stands directly after a numeral, a name or
a closing parenthesis: between two values there is always an operator.  And there is
nothing in it but numerals, names, operators and parentheses.
-/

namespace MapScript

namespace Token

/-- A value may end with the token. -/
def EndsValue (t : Token) : Prop := t.kind = .number ∨ t.kind = .word ∨ t.isPunct ')' = true

/-- The marks of expressions that end no value. -/
def operators : List Char := ['+', '-', '*', '/', '(']

/-- The token may stand in an expression. -/
def Operates (t : Token) : Prop :=
  t.kind = .number ∨ t.kind = .word ∨ ∃ c ∈ ')' :: operators, t.isPunct c = true

/-- The second token is no name that stands after a value. -/
def Apart (t u : Token) : Prop := t.EndsValue → u.kind ≠ .word

theorem isPunct_eq_false {t : Token} {c d : Char} (h : t.isPunct c = true) (hne : c ≠ d) :
    t.isPunct d = false := by
  simp only [isPunct, Bool.and_eq_true, beq_iff_eq] at h
  simp [isPunct, h.2, hne]

/-- Punctuation that closes nothing ends no value. -/
theorem not_endsValue {t : Token} {c : Char} (h : t.isPunct c = true) (hne : c ≠ ')') :
    ¬t.EndsValue := by
  have hkind := kind_of_isPunct h
  rintro (hnumber | hword | hcloser)
  · rw [hkind] at hnumber
    cases hnumber
  · rw [hkind] at hword
    cases hword
  · rw [isPunct_eq_false h hne] at hcloser
    cases hcloser

end Token

namespace Expression

/-- The tokens may stand in an expression, with its names apart. -/
structure Fit (used : List Token) : Prop where
  chain : used.IsChain Token.Apart
  operates : ∀ t ∈ used, t.Operates

/-- What is read off the tokens, up to the rest, fits an expression. -/
def Parts (ts rest : List Token) : Prop :=
  ∃ used, ts = used ++ rest ∧ Fit used

/-- What is read after a value begins with no name. -/
def Continues (ts rest : List Token) : Prop :=
  ∃ used, ts = used ++ rest ∧ Fit used ∧ ∀ u ∈ used.head?, u.kind ≠ .word

section
variable {ts us rest last : List Token} {t : Token}

theorem Fit.nil : Fit [] := ⟨.nil, by simp⟩

theorem Fit.single (ht : t.Operates) : Fit [t] := ⟨.singleton t, by simpa using ht⟩

theorem Fit.append (h : Fit ts) (h' : Fit us) (hhead : ∀ u ∈ us.head?, u.kind ≠ .word) :
    Fit (ts ++ us) :=
  ⟨h.chain.append h'.chain fun _ _ u hu _ => hhead u hu,
    List.forall_mem_append.2 ⟨h.operates, h'.operates⟩⟩

/-- An operator before what fits. -/
theorem Fit.cons {c : Char} (ht : t.isPunct c = true) (hc : c ∈ Token.operators) (h : Fit ts) :
    Fit (t :: ts) := by
  have hne : c ≠ ')' := by
    rintro rfl
    exact absurd hc (by decide)
  refine ⟨List.isChain_cons.2 ⟨?_, h.chain⟩, List.forall_mem_cons.2 ⟨?_, h.operates⟩⟩
  · exact fun _ _ hends => absurd hends (Token.not_endsValue ht hne)
  · exact Or.inr (Or.inr ⟨c, List.mem_cons_of_mem _ hc, ht⟩)

theorem Continues.refl (ts : List Token) : Continues ts ts := ⟨[], rfl, .nil, by simp⟩

theorem Parts.single (ht : t.Operates) (ts : List Token) : Parts (t :: ts) ts :=
  ⟨[t], rfl, .single ht⟩

theorem Parts.append (h : Parts ts rest) (h' : Continues rest last) : Parts ts last := by
  obtain ⟨used, rfl, hused⟩ := h
  obtain ⟨more, rfl, hmore, hhead⟩ := h'
  exact ⟨used ++ more, by simp, hused.append hmore hhead⟩

theorem Continues.append (h : Continues ts rest) (h' : Continues rest last) :
    Continues ts last := by
  obtain ⟨used, rfl, hused, hfirst⟩ := h
  obtain ⟨more, rfl, hmore, hhead⟩ := h'
  refine ⟨used ++ more, by simp, hused.append hmore hhead, ?_⟩
  cases used with
  | nil => exact hhead
  | cons u used => exact hfirst

/-- Punctuation before a value. -/
theorem Parts.cons {c : Char} (ht : t.isPunct c = true) (hc : c ∈ Token.operators)
    (h : Parts ts rest) : Parts (t :: ts) rest := by
  obtain ⟨used, rfl, hused⟩ := h
  exact ⟨t :: used, rfl, hused.cons ht hc⟩

/-- An operator and the value after it. -/
theorem Parts.continues {c : Char} (ht : t.isPunct c = true) (hc : c ∈ Token.operators)
    (h : Parts ts rest) : Continues (t :: ts) rest := by
  obtain ⟨used, rfl, hused⟩ := h
  refine ⟨t :: used, rfl, hused.cons ht hc, ?_⟩
  rintro u ⟨⟩
  rw [Token.kind_of_isPunct ht]
  simp

/-- The parenthesis that closes. -/
theorem Continues.closer (ht : t.isPunct ')' = true) (ts : List Token) :
    Continues (t :: ts) ts := by
  refine ⟨[t], rfl, .single (Or.inr (Or.inr ⟨')', List.mem_cons_self, ht⟩)), ?_⟩
  rintro u ⟨⟩
  rw [Token.kind_of_isPunct ht]
  simp

end

variable {values : Text → Option Number}

theorem primary_parts {t : Token} {ts : List Token} {r : Reading (ts.length + 1)}
    (hsum : ∀ r, sum values ts = .ok r → Parts ts r.rest) (h : primary values t ts = .ok r) :
    Parts (t :: ts) r.rest := by
  rw [primary] at h
  split at h
  · next hnumber =>
    split at h
    · cases h
    · cases h
      exact .single (Or.inl (beq_iff_eq.1 hnumber)) ts
  split at h
  · next hword =>
    split at h
    · cases h
    split at h
    · cases h
    · cases h
      exact .single (Or.inr (Or.inl (beq_iff_eq.1 hword))) ts
  split at h
  · next hopener =>
    split at h
    · cases h
    next inner hinner =>
    have hparts := hsum inner hinner
    split at h
    · cases h
    next u rest hrest =>
    split at h
    · next hcloser =>
      cases h
      rw [hrest] at hparts
      exact (hparts.cons hopener (by decide)).append (.closer hcloser rest)
    · cases h
  · cases h

theorem signed_parts {ts : List Token} {r : Reading ts.length}
    (hprimary : ∀ t us (r : Reading (us.length + 1)), us.length < ts.length →
      primary values t us = .ok r → Parts (t :: us) r.rest)
    (h : signed values ts = .ok r) : Parts ts r.rest := by
  induction ts with
  | nil =>
      rw [signed] at h
      cases h
  | cons t rest ih =>
      rw [signed] at h
      split at h
      · next hsign =>
        split at h
        · cases h
        next r' hr' =>
        cases h
        have hparts := ih (fun u us r hlt => hprimary u us r (Nat.lt_succ_of_lt hlt)) hr'
        exact hparts.cons hsign (by decide)
      · exact hprimary t rest r (Nat.lt_succ_self _) h

theorem productTail_continues {bound : Nat} {left r : Reading bound}
    (hsigned : ∀ us (r : Reading us.length), us.length < left.rest.length →
      signed values us = .ok r → Parts us r.rest)
    (h : productTail values left = .ok r) : Continues left.rest r.rest := by
  induction hn : left.rest.length using Nat.strongRecOn generalizing left with
  | _ n ih =>
      obtain ⟨value, rest, hshort⟩ := left
      dsimp only at hsigned hn ⊢
      rw [productTail] at h
      cases rest with
      | nil =>
          cases h
          exact .refl []
      | cons t ts =>
          dsimp only at h
          split at h
          · cases h
            exact .refl (t :: ts)
          next operation hoperation =>
          split at h
          · cases h
          next right hright =>
          split at h
          · cases h
          next value' hvalue =>
          have hparts := hsigned ts right (by simp) hright
          have hlt := right.shorter
          rw [List.length_cons] at hn
          have hrest := ih right.rest.length (by omega) (fun us r hus => hsigned us r (by
            dsimp only at hus
            rw [List.length_cons]
            omega)) h rfl
          have hfirst : Continues (t :: ts) right.rest := by
            split at hoperation
            · next ht => exact hparts.continues ht (by decide)
            split at hoperation
            · next ht => exact hparts.continues ht (by decide)
            · cases hoperation
          exact hfirst.append hrest

theorem product_parts {ts : List Token} {r : Reading ts.length}
    (hsigned : ∀ us (r : Reading us.length), us.length ≤ ts.length →
      signed values us = .ok r → Parts us r.rest)
    (h : product values ts = .ok r) : Parts ts r.rest := by
  rw [product] at h
  split at h
  · cases h
  next first hfirst =>
  have hshort := first.shorter
  have htail := productTail_continues (fun us r hus => hsigned us r (by omega)) h
  exact (hsigned ts first (Nat.le_refl _) hfirst).append htail

theorem sumTail_continues {bound : Nat} {left r : Reading bound}
    (hproduct : ∀ us (r : Reading us.length), us.length < left.rest.length →
      product values us = .ok r → Parts us r.rest)
    (h : sumTail values left = .ok r) : Continues left.rest r.rest := by
  induction hn : left.rest.length using Nat.strongRecOn generalizing left with
  | _ n ih =>
      obtain ⟨value, rest, hshort⟩ := left
      dsimp only at hproduct hn ⊢
      rw [sumTail] at h
      cases rest with
      | nil =>
          cases h
          exact .refl []
      | cons t ts =>
          dsimp only at h
          split at h
          · cases h
            exact .refl (t :: ts)
          next operation hoperation =>
          split at h
          · cases h
          next right hright =>
          split at h
          · cases h
          next value' hvalue =>
          have hparts := hproduct ts right (by simp) hright
          have hlt := right.shorter
          rw [List.length_cons] at hn
          have hrest := ih right.rest.length (by omega) (fun us r hus => hproduct us r (by
            dsimp only at hus
            rw [List.length_cons]
            omega)) h rfl
          have hfirst : Continues (t :: ts) right.rest := by
            split at hoperation
            · next ht => exact hparts.continues ht (by decide)
            split at hoperation
            · next ht => exact hparts.continues ht (by decide)
            · cases hoperation
          exact hfirst.append hrest

/-- What stands in the parentheses of a sum is shorter than the sum. -/
theorem sum_parts_of_length (n : Nat) : ∀ ts (r : Reading ts.length), ts.length = n →
    sum values ts = .ok r → Parts ts r.rest := by
  induction n using Nat.strongRecOn with
  | _ n ih =>
      intro ts r hn h
      have hsigned : ∀ us (r : Reading us.length), us.length ≤ n →
          signed values us = .ok r → Parts us r.rest := by
        intro us r hus hr
        apply signed_parts _ hr
        intro t vs r' hvs
        exact primary_parts fun r'' => ih vs.length (by omega) vs r'' rfl
      have hproduct : ∀ us (r : Reading us.length), us.length ≤ n →
          product values us = .ok r → Parts us r.rest := by
        intro us r hus hr
        exact product_parts (fun vs r' hvs => hsigned vs r' (by omega)) hr
      rw [sum] at h
      split at h
      · cases h
      next first hfirst =>
      have hshort := first.shorter
      have htail := sumTail_continues (fun us r hus => hproduct us r (by omega)) h
      exact (hproduct ts first (by omega) hfirst).append htail

/-- An expression that has a value fits. -/
theorem fit_of_fold {ts : List Token} {value : Number} (h : fold values ts = .ok (some value)) :
    Fit ts := by
  unfold fold evaluate at h
  cases hsum : sum values ts with
  | error e => cases e <;> simp [hsum] at h
  | ok r =>
      obtain ⟨used, hts, hused⟩ := sum_parts_of_length ts.length ts r rfl hsum
      cases hempty : r.rest.isEmpty with
      | false => simp [hsum, hempty] at h
      | true =>
          rw [List.isEmpty_iff.1 hempty, List.append_nil] at hts
          rwa [hts]

/-- The names of an expression that has a value are apart. -/
theorem isChain_of_fold {ts : List Token} {value : Number} (h : fold values ts = .ok (some value)) :
    ts.IsChain Token.Apart := (fit_of_fold h).chain

end Expression

end MapScript
