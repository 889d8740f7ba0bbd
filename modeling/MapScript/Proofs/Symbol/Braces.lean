import MapScript.Proofs.Symbol.Substitution

/-!
# Braces and edits

Brackets come in pairs in a row if they do in the row of its brackets alone.  An edit
covers a name or an operand that has a value, and no brace stands in either, so a body
whose braces come in pairs keeps them through all its edits.
-/

namespace MapScript

open Grammar (Balanced callBody)

/-! ### Brackets alone -/

namespace Grammar

/-- Whether a token is a bracket of the part. -/
def Part.isBracket (p : Part) (t : Token) : Bool := t.isPunct p.opener || t.isPunct p.closer

variable {p : Part} {ts us : List Token}

theorem Balanced.append (h : Balanced p ts) (h' : Balanced p us) : Balanced p (ts ++ us) := by
  induction h with
  | nil => exact h'
  | token hopener hcloser hallowed _ ih => exact .token hopener hcloser hallowed ih
  | pair hopener hcloser hwithin _ _ ih =>
      rw [List.cons_append, List.append_assoc, List.cons_append]
      exact .pair hopener hcloser hwithin ih

theorem Balanced.of_plain (hplain : ∀ t ∈ ts, p.isBracket t = false)
    (hallowed : ∀ t ∈ ts, p.isBracket t = false → p.refused t = false) : Balanced p ts := by
  induction ts with
  | nil => exact .nil
  | cons t ts ih =>
      rw [List.forall_mem_cons] at hplain hallowed
      have ht := hplain.1
      rw [Part.isBracket, Bool.or_eq_false_iff] at ht
      exact .token ht.1 ht.2 (hallowed.1 hplain.1) (ih hplain.2 hallowed.2)

theorem Balanced.filter (h : Balanced p ts) : Balanced p (ts.filter p.isBracket) := by
  induction h with
  | nil => exact .nil
  | token hopener hcloser _ _ ih =>
      rwa [List.filter_cons_of_neg (by simp [Part.isBracket, hopener, hcloser])]
  | pair hopener hcloser _ _ ihw ihr =>
      rw [List.filter_cons_of_pos (by simp [Part.isBracket, hopener]), List.filter_append,
        List.filter_cons_of_pos (by simp [Part.isBracket, hcloser])]
      exact .pair hopener hcloser ihw ihr

theorem Balanced.allowed (h : Balanced p ts) :
    ∀ t ∈ ts, p.isBracket t = false → p.refused t = false := by
  induction h with
  | nil => simp
  | token _ _ hallowed _ ih => exact List.forall_mem_cons.2 ⟨fun _ => hallowed, ih⟩
  | @pair o c _ _ hopener hcloser _ _ ihw ihr =>
      have ho : p.isBracket o = true := by simp [Part.isBracket, hopener]
      have hc : p.isBracket c = true := by simp [Part.isBracket, hcloser]
      simp only [List.forall_mem_cons, List.forall_mem_append]
      exact ⟨by simp [ho], ihw, by simp [hc], ihr⟩

/-- Tokens are balanced if their brackets are and no other is refused. -/
theorem Balanced.of_filter (h : Balanced p (ts.filter p.isBracket))
    (hallowed : ∀ t ∈ ts, p.isBracket t = false → p.refused t = false) : Balanced p ts := by
  generalize hbrackets : ts.filter p.isBracket = brackets at h
  induction h generalizing ts with
  | nil => exact .of_plain (by simpa using hbrackets) hallowed
  | @token t _ hopener hcloser _ _ _ =>
      have ht : t ∈ ts.filter p.isBracket := by simp [hbrackets]
      simp [Part.isBracket, hopener, hcloser] at ht
  | pair hopener hcloser _ _ ihw ihr =>
      -- what stands before the closing bracket and is no bracket is within it
      obtain ⟨before, behind, rfl, hbefore, -, hbehind⟩ := List.filter_eq_cons_iff.1 hbrackets
      obtain ⟨inner, tail, rfl, hinner, htail⟩ := List.filter_eq_append_iff.1 hbehind
      obtain ⟨more, rest, rfl, hmore, -, hrest⟩ := List.filter_eq_cons_iff.1 htail
      simp only [List.forall_mem_append, List.forall_mem_cons] at hallowed
      obtain ⟨hbeforeAllowed, -, hinnerAllowed, hmoreAllowed, -, hrestAllowed⟩ := hallowed
      have hwithin : (inner ++ more).filter p.isBracket = inner.filter p.isBracket := by
        rw [List.filter_append, List.filter_eq_nil_iff.2 hmore, List.append_nil]
      have hbalanced := ihw (List.forall_mem_append.2 ⟨hinnerAllowed, hmoreAllowed⟩)
        (hwithin.trans hinner)
      have hblock := Balanced.pair hopener hcloser hbalanced (ihr hrestAllowed hrest)
      rw [List.append_assoc] at hblock
      exact (Balanced.of_plain (by simpa using hbefore) hbeforeAllowed).append hblock

end Grammar

/-! ### Bodies -/

theorem Token.isBracket_of_kind {t : Token} (h : t.kind ≠ .punct) :
    callBody.isBracket t = false := by
  simp [Grammar.Part.isBracket, isPunct, h]

/-- No brace stands in an expression. -/
theorem Token.Operates.not_isBracket {t : Token} (h : t.Operates) :
    callBody.isBracket t = false := by
  rcases h with hnumber | hword | ⟨c, hc, hpunct⟩
  · exact isBracket_of_kind (by simp [hnumber])
  · exact isBracket_of_kind (by simp [hword])
  · have hopener : c ≠ callBody.opener := by
      rintro rfl
      exact absurd hc (by decide)
    have hcloser : c ≠ callBody.closer := by
      rintro rfl
      exact absurd hc (by decide)
    rw [Grammar.Part.isBracket, isPunct_eq_false hpunct hopener, isPunct_eq_false hpunct hcloser]
    rfl

namespace Resolve

/-- What a part of an ordered row spans belongs to it. -/
theorem mem_of_covered {before part after : List Indexed} {x first : Indexed} {more : List Indexed}
    (hrow : (before ++ (part ++ after)).Pairwise fun y z => y.2 < z.2)
    (hpart : part = first :: more) (hx : x ∈ before ++ (part ++ after)) (hfirst : first.2 ≤ x.2)
    (hlast : x.2 ≤ ((first :: more).getLast (List.cons_ne_nil _ _)).2) : x ∈ part := by
  obtain ⟨-, hbehind, hahead⟩ := List.pairwise_append.1 hrow
  rcases List.mem_append.1 hx with hbefore | hx
  · have hlt := hahead x hbefore first (by simp [hpart])
    omega
  rcases List.mem_append.1 hx with hx | hafter
  · exact hx
  · subst hpart
    have hlt := (List.pairwise_append.1 hbehind).2.2 _ (List.getLast_mem (List.cons_ne_nil _ _)) x
      hafter
    omega

namespace Edit

/-- The edit covers nothing but what separates and what may stand in an expression. -/
def Spares (tokens : List Token) (e : Edit) : Prop :=
  ∀ x ∈ indexed tokens, e.covers x.2 = true → x.1.Operates

/-- An edit of one place replaces a name. -/
theorem Encloses.spares {tokens : List Token} {e : Edit} (h : e.Encloses tokens)
    (hone : e.first = e.last) : e.Spares tokens := by
  cases h with
  | parens =>
      dsimp only at hone
      omega
  | @name before after t _ hwhole hkind _ =>
      rintro ⟨u, i⟩ hu hcovers
      simp only [covers, Bool.and_eq_true, decide_eq_true_eq] at hcovers
      obtain rfl : i = before.length := by omega
      have hthere := getElem?_of_mem_indexed hu
      rw [hwhole, List.getElem?_append_right (Nat.le_refl _), Nat.sub_self] at hthere
      obtain rfl := Option.some.inj hthere
      exact Or.inr (Or.inl hkind)

section
variable {tokens : List Token}

theorem foldDeclaration_spares (name : Token) {rest : List Indexed}
    (hrest : rest <:+ indexed tokens) (table : SymbolTable) :
    Ends (foldDeclaration name rest) table (fun edit _ => ∀ e ∈ edit, e.Spares tokens)
      (fun _ _ => True) := by
  unfold foldDeclaration
  split
  · simp
  next n hn =>
    simp only [Ends.bind_iff, Ends.get_iff, Ends.lift_iff, Resolving.evaluate_ends_iff]
    refine ⟨?_, fun _ _ => trivial⟩
    rintro ⟨⟩ -
    unfold Evaluation.foldDeclaration
    apply (Evaluation.fold_ends table _ _ table.values).mono
    · rintro value memo ⟨-, -, lookup, hvalue⟩
      split
      · next value first i more hpart =>
        split
        · simp
        rw [Ends.map_iff]
        apply (replaceBy_ends value i _ _ _).mono
        · rintro e table' ⟨-, hfirst, hlast, -⟩ e' ⟨⟩ x hx hcovers
          simp only [covers, Bool.and_eq_true, decide_eq_true_eq, hfirst, hlast] at hcovers
          have hmem : x ∈ rest.take n := by
            obtain ⟨before, hbefore⟩ := hrest
            rw [← List.take_append_drop n rest] at hbefore
            have hordered := pairwise_indexed tokens
            rw [← hbefore] at hordered hx
            exact mem_of_covered hordered hpart hx hcovers.1 hcovers.2
          apply (Expression.fit_of_fold hvalue).operates
          refine List.mem_filter.2 ⟨List.mem_map_of_mem hmem, ?_⟩
          simp [not_isTrivia_of_mem_indexed hx]
        · exact fun _ _ _ => trivial
      · simp
    · exact fun _ _ _ => trivial

/-- The edit of an area spares the row, as it has one place. -/
theorem single_spares {x : Resolving (Option Edit)} {table : SymbolTable}
    (hencloses : Ends x table (fun edit _ => ∀ e ∈ edit, e.Encloses tokens) (fun _ _ => True))
    (hsingle : Ends x table (fun edit _ => ∀ e ∈ edit, e.first = e.last) (fun _ _ => True)) :
    Ends x table (fun edit _ => ∀ e ∈ edit, e.Spares tokens) (fun _ _ => True) := by
  apply (hencloses.and hsingle).mono
  · exact fun edit _ h e he => (h.1 e he).spares (h.2 e he)
  · exact fun _ _ _ => trivial

theorem editAt_spares (t : Token) {rest : List Indexed} (hrest : rest <:+ indexed tokens)
    (table : SymbolTable) :
    Ends (editAt t rest) table (fun edit _ => ∀ e ∈ edit, e.Spares tokens) (fun _ _ => True) := by
  unfold editAt
  split
  · split
    · split
      · exact foldDeclaration_spares _ ((List.suffix_cons _ _).trans hrest) table
      · simp
    · simp
  split
  · simp
  split
  · exact single_spares (declareArea_encloses _ hrest table) (declareArea_single _ rest table)
  split
  · exact single_spares (referArea_encloses hrest table) (referArea_single rest table)
  · simp

/-- The edits of a row spare it. -/
theorem edits_spare (tokens : List Token) (table : SymbolTable) :
    Ends (edits (indexed tokens)) table (fun es _ => ∀ e ∈ es, e.Spares tokens)
      (fun _ _ => True) := by
  refine edits_forall (fun x rest hrest => ?_) table
  exact editAt_spares x.1 ((List.suffix_cons x rest).trans hrest)

/-- Edits that spare a row leave its braces. -/
theorem filter_applyAll {es : List Edit} (hspares : ∀ e ∈ es, e.Spares tokens)
    (hnumbers : ∀ e ∈ es, e.replacement.kind = .number) :
    (applyAll es tokens).filter callBody.isBracket = tokens.filter callBody.isBracket := by
  have hplace : ∀ x ∈ tokens.zipIdx,
      (resultAt es x.1 x.2).filter callBody.isBracket = [x.1].filter callBody.isBracket := by
    rintro ⟨t, i⟩ hx
    rw [resultAt]
    split
    · rfl
    next e he =>
      have hmem : e ∈ es := List.mem_reverse.1 (List.mem_of_find?_eq_some he)
      have ht : callBody.isBracket t = false := by
        cases htrivia : t.isTrivia with
        | true =>
            rw [Grammar.Part.isBracket, Token.isPunct_of_isTrivia htrivia,
              Token.isPunct_of_isTrivia htrivia]
            rfl
        | false =>
            have hindexed : (t, i) ∈ indexed tokens := List.mem_filter.2 ⟨hx, by simp [htrivia]⟩
            exact (hspares e hmem _ hindexed (by simpa using List.find?_some he)).not_isBracket
      have hreplacement : callBody.isBracket e.replacement = false :=
        Token.isBracket_of_kind (by simp [hnumbers e hmem])
      split <;> simp [ht, hreplacement]
  calc (applyAll es tokens).filter callBody.isBracket
      = tokens.zipIdx.flatMap fun x => (resultAt es x.1 x.2).filter callBody.isBracket :=
        List.filter_flatMap
    _ = tokens.zipIdx.flatMap fun x => [x.1].filter callBody.isBracket :=
        List.flatMap_congr hplace
    _ = (tokens.zipIdx.flatMap fun x => [x.1]).filter callBody.isBracket :=
        List.filter_flatMap.symm
    _ = tokens.filter callBody.isBracket := by
        rw [← List.map_eq_flatMap, List.zipIdx_map_fst]

end

end Edit

/-- A body is balanced after it is resolved if it was before. -/
theorem resolveTokens_balanced (tokens : List Token) (table : SymbolTable) :
    Ends (resolveTokens tokens) table
      (fun out _ => Balanced callBody tokens → Balanced callBody out) (fun _ _ => True) := by
  rw [resolveTokens]
  simp only [Ends.bind_iff, Ends.pure_iff]
  have hspares := Edit.edits_spare tokens table
  have hencloses := Edit.edits_encloses (List.suffix_refl (indexed tokens)) table
  apply (hspares.and hencloses).mono
  · rintro es table' ⟨hspares, hencloses⟩ hbalanced
    have hnumbers : ∀ e ∈ es, e.replacement.kind = .number := fun e he => (hencloses e he).isNumber
    apply Grammar.Balanced.of_filter
    · rw [Edit.filter_applyAll hspares hnumbers]
      exact hbalanced.filter
    · intro t ht
      rcases Edit.mem_applyAll ht with ht | ⟨e, he, rfl⟩
      · exact hbalanced.allowed t ht
      · simp [callBody, Token.isOwnDirective, hnumbers e he]
  · exact fun _ _ _ => trivial

end Resolve

end MapScript
