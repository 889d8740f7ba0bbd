import MapScript.Proofs.Symbol.Areas

/-!
# Names that remain

An operand gives way to its value as a whole, so a name remains in one that has no value.
In a resolved script every name that the operand of a constant still refers to is a constant,
or it was there before, in an operand without a value.

An edit may take the parenthesis behind a name, and the name is then no longer called; but
only operands of constants begin with a parenthesis that an edit takes, so the name is that
of a constant.
-/

namespace MapScript

open Evaluation (Assigns HasValue)
open Grammar (Balanced argumentList)

/-! ### References in parts of a row -/

theorem Grammar.Balanced.significant {ts : List Token} (h : Balanced argumentList ts) :
    Balanced argumentList (Token.significant ts) := by
  induction h with
  | nil => exact .nil
  | @token t ts hopener hcloser hallowed _ ih =>
      rw [Token.significant_cons]
      split
      · exact ih
      · exact .token hopener hcloser hallowed ih
  | @pair o c inner rest hopener hcloser _ _ ihw ihr =>
      rw [Token.significant_cons, if_neg (by simp [Token.isTrivia_of_isPunct hopener]),
        significant_append, Token.significant_cons,
        if_neg (by simp [Token.isTrivia_of_isPunct hcloser])]
      exact .pair hopener hcloser ihw ihr

namespace Operand

/-- The next token decides whether a name is called. -/
theorem mem_references_cons {t r : Token} {ts : List Token} :
    r ∈ references (t :: ts) ↔
      (r = t ∧ t.kind = .word ∧ ts.head?.any (Token.isPunct '(') = false) ∨ r ∈ references ts := by
  rw [references]
  split
  · next h =>
    simp only [Bool.and_eq_true, beq_iff_eq, Bool.not_eq_true'] at h
    simp [h]
  · next h =>
    simp only [Bool.and_eq_true, beq_iff_eq, Bool.not_eq_true'] at h
    simp [h]

theorem references_subset_append (ts us : List Token) : references us ⊆ references (ts ++ us) := by
  induction ts with
  | nil => exact List.Subset.refl _
  | cons t ts ih => exact fun r hr => mem_references_cons.2 (Or.inr (ih hr))

theorem references_append_of_numbers {ts : List Token} (h : ∀ t ∈ ts, t.kind = .number)
    (us : List Token) : references (ts ++ us) = references us := by
  induction ts with
  | nil => rfl
  | cons t ts ih =>
      obtain ⟨ht, hts⟩ := List.forall_mem_cons.1 h
      rw [List.cons_append, references, ih hts]
      simp [ht]

/-- Before a bracket that closes a row begins as it does by itself. -/
theorem head?_opens_append {c : Token} (hc : c.isPunct ')' = true) (ts rest : List Token) :
    (ts ++ c :: rest).head?.any (Token.isPunct '(') = ts.head?.any (Token.isPunct '(') := by
  cases ts with
  | nil =>
      simp only [Token.isPunct, Bool.and_eq_true, beq_iff_eq] at hc
      simp [Token.isPunct, hc.2]
  | cons t ts => rfl

/-- A bracket that closes takes no part in references. -/
theorem references_append_closer {c : Token} (hc : c.isPunct ')' = true) (ts : List Token) :
    references (ts ++ [c]) = references ts := by
  induction ts with
  | nil => simp [references, Token.kind_of_isPunct hc]
  | cons t ts ih => rw [List.cons_append, references, references, head?_opens_append hc, ih]

end Operand

namespace Resolve

open Operand (references mem_references_cons)

/-- An operand that begins with a numeral is that numeral. -/
theorem references_operandOf_number {v : Token} (h : v.kind = .number) (us : List Token) :
    references (operandOf (v :: us)) = [] := by
  have hsign : v.isPunct '-' = false := by simp [Token.isPunct, h]
  have hlength : Operand.length? (v :: us) = some 1 := by
    rw [Operand.length?.eq_def]
    simp [hsign, h]
  simp [operandOf, hlength, references, h]

/-- Declarations at the end of a row are declarations of the row. -/
theorem declarations_suffix {ts us : List Token} (h : ts <:+ us) :
    declarations ts ⊆ declarations us := by
  obtain ⟨before, rfl⟩ := h
  induction before with
  | nil => exact List.Subset.refl _
  | cons t before ih =>
      rw [List.cons_append, declarations_cons]
      exact List.Subset.trans ih (List.subset_append_right _ _)

/-- Only a directive declares. -/
theorem declarations_append_of_undirected {ts : List Token} (h : ∀ t ∈ ts, t.kind ≠ .directive)
    (us : List Token) : declarations (ts ++ us) = declarations us := by
  induction ts with
  | nil => rfl
  | cons t ts ih =>
      obtain ⟨ht, hts⟩ := List.forall_mem_cons.1 h
      rw [List.cons_append, declarations_cons, ih hts]
      simp [declaredBy, isConst, ht]

/-- A call refers to what its arguments refer to. -/
theorem references_operandOf_call {t o : Token} {ts : List Token} {g : Group}
    (ht : t.kind = .word) (ho : o.isPunct '(' = true) (hg : Group.parens? ts = some g) :
    references (operandOf (t :: o :: ts)) = references g.inner := by
  obtain ⟨-, hcloser, hts⟩ := Group.readPart_eq_ok_iff.1 (Call.readPart_of_parens? hg)
  have hoperand : operandOf (t :: o :: ts) = t :: o :: (g.inner ++ [g.closer]) := by
    rw [operandOf, Operand.length?_word ht, if_pos (by simpa using ho), List.tail_cons, hg, hts]
    exact congrArg (fun us => t :: o :: us) (List.take_length_add_append 1)
  rw [hoperand, references, references, Operand.references_append_closer hcloser]
  simp [ho, Token.kind_of_isPunct ho]

theorem references_operandOf_parens {o : Token} {ts : List Token} {g : Group}
    (ho : o.isPunct '(' = true) (hg : Group.parens? ts = some g) :
    references (operandOf (o :: ts)) = references g.inner := by
  obtain ⟨-, hcloser, hts⟩ := Group.readPart_eq_ok_iff.1 (Call.readPart_of_parens? hg)
  have hoperand : operandOf (o :: ts) = o :: (g.inner ++ [g.closer]) := by
    rw [operandOf, Operand.length?_parens ho, hg, hts]
    exact congrArg (List.cons o) (List.take_length_add_append 1)
  rw [hoperand, references, Operand.references_append_closer hcloser]
  simp [Token.kind_of_isPunct ho]

/-- An operand that refers to a name is that name, or it refers to it in its brackets. -/
theorem mem_references_operandOf {t r : Token} {ts : List Token}
    (h : r ∈ references (operandOf (t :: ts))) :
    (t.kind = .word ∧ r = t ∧ ts.head?.any (Token.isPunct '(') = false) ∨
      (t.kind = .word ∧ ∃ o us g, ts = o :: us ∧ o.isPunct '(' = true ∧
        Group.parens? us = some g ∧ r ∈ references g.inner) ∨
      (t.isPunct '(' = true ∧ ∃ g, Group.parens? ts = some g ∧ r ∈ references g.inner) := by
  have hnothing (hlength : Operand.length? (t :: ts) = none) :
      r ∉ references (operandOf (t :: ts)) := by
    rw [operandOf, hlength]
    exact List.not_mem_nil
  by_cases hword : t.kind = .word
  · cases hnext : ts.head?.any (Token.isPunct '(') with
    | false =>
        left
        rw [operandOf, Operand.length?_word hword, hnext] at h
        simpa [references, hword] using h
    | true =>
        right; left
        cases ts with
        | nil => cases hnext
        | cons o us =>
            replace hnext : o.isPunct '(' = true := hnext
            cases hg : Group.parens? us with
            | none =>
                refine absurd h (hnothing ?_)
                rw [Operand.length?_word hword, if_pos (by simpa using hnext), List.tail_cons, hg]
                rfl
            | some g =>
                rw [references_operandOf_call hword hnext hg] at h
                exact ⟨hword, o, us, g, rfl, hnext, hg, h⟩
  by_cases hparen : t.isPunct '(' = true
  · right; right
    cases hg : Group.parens? ts with
    | none => exact absurd h (hnothing (by rw [Operand.length?_parens hparen, hg]; rfl))
    | some g => exact ⟨hparen, g, rfl, references_operandOf_parens hparen hg ▸ h⟩
  · -- a numeral, signed or not, refers to nothing
    rw [operandOf, Operand.length?.eq_def] at h
    cases ts with
    | nil => by_cases hnumber : t.kind = .number <;> simp [hword, hparen, hnumber, references] at h
    | cons n ts =>
        by_cases hsigned : t.isPunct '-' = true ∧ n.kind = .number
        · simp [hsigned, references, hword] at h
        · by_cases hnumber : t.kind = .number <;>
            simp [hword, hparen, hnumber, hsigned, references] at h

/-- What one token declares before a row. -/
theorem mem_declaredBy {t : Token} {ts : List Token} {entry : Text × Declaration} :
    entry ∈ declaredBy t ts ↔ isConst t = true ∧ ∃ name rest, ts = name :: rest ∧
      name.kind = .word ∧ entry = (name.raw, ⟨operandOf rest, name.span⟩) := by
  cases ts with
  | nil => simp [declaredBy]
  | cons name rest =>
      cases hconst : isConst t <;> by_cases hname : name.kind = .word <;>
        simp [declaredBy, hconst, hname]

/-! ### Rows with parts condensed to numerals -/

/-- The second row is the first with balanced parts condensed to numerals.  Where a name is no
longer called it is one of the names given, and where an operand is not condensed it is settled. -/
inductive Condenses (names : List Text) (settled : List Token → Prop) :
    List Token → List Token → Prop
  | nil : Condenses names settled [] []
  | keep (t : Token) {ts us : List Token}
      (called : ts.head?.any (Token.isPunct '(') = true →
        us.head?.any (Token.isPunct '(') = true ∨ t.raw ∈ names)
      (declares : isConst t = true → ∀ name v rest, us = name :: v :: rest → name.kind = .word →
        v.kind = .number ∨ settled (operandOf ts.tail))
      (rest : Condenses names settled ts us) : Condenses names settled (t :: ts) (t :: us)
  | contract {part numerals ts us : List Token} (within : Balanced argumentList part)
      (some : numerals ≠ []) (numbers : ∀ t ∈ numerals, t.kind = .number)
      (rest : Condenses names settled ts us) : Condenses names settled (part ++ ts) (numerals ++ us)

namespace Condenses

variable {names : List Text} {settled : List Token → Prop} {ts us : List Token}

theorem mono {settled' : List Token → Prop} (h : Condenses names settled ts us)
    (hsettled : ∀ operand, settled operand → settled' operand) :
    Condenses names settled' ts us := by
  induction h with
  | nil => exact .nil
  | keep t hcalled hdeclares _ ih =>
      refine .keep t hcalled (fun hconst name v rest hus hname => ?_) ih
      exact (hdeclares hconst name v rest hus hname).imp_right (hsettled _)
  | contract hwithin hsome hnumbers _ ih => exact .contract hwithin hsome hnumbers ih

/-- A token that is no numeral and stands first was first before. -/
theorem of_cons {u : Token} (h : Condenses names settled ts (u :: us)) (hu : u.kind ≠ .number) :
    ∃ ts', ts = u :: ts' ∧ Condenses names settled ts' us ∧
      (ts'.head?.any (Token.isPunct '(') = true →
        us.head?.any (Token.isPunct '(') = true ∨ u.raw ∈ names) := by
  generalize hrow : u :: us = row at h
  cases h with
  | nil => cases hrow
  | keep t hcalled _ hrest =>
      obtain ⟨rfl, rfl⟩ := List.cons.inj hrow
      exact ⟨_, rfl, hrest, hcalled⟩
  | @contract part numerals _ _ _ hsome hnumbers _ =>
      cases numerals with
      | nil => exact absurd rfl hsome
      | cons v numerals =>
          obtain ⟨rfl, -⟩ := List.cons.inj hrow
          exact absurd (hnumbers u (by simp)) hu

/-- What is referred to was referred to before, but for the names that are given. -/
theorem mem_references (h : Condenses names settled ts us) {r : Token} (hr : r ∈ references us) :
    r ∈ references ts ∨ r.raw ∈ names := by
  induction h with
  | nil => cases hr
  | @keep t ts us hcalled _ _ ih =>
      rcases mem_references_cons.1 hr with ⟨rfl, hword, hplain⟩ | hr
      · cases hnext : ts.head?.any (Token.isPunct '(') with
        | true => exact Or.inr ((hcalled hnext).resolve_left (by simp [hplain]))
        | false => exact Or.inl (mem_references_cons.2 (Or.inl ⟨rfl, hword, hnext⟩))
      · exact (ih hr).imp_left fun hr => mem_references_cons.2 (Or.inr hr)
  | @contract part numerals ts us _ _ hnumbers _ ih =>
      rw [Operand.references_append_of_numbers hnumbers] at hr
      exact (ih hr).imp_left fun hr => Operand.references_subset_append part ts hr

/-- A group in the condensed row is that in the row condensed. -/
theorem readPart (h : Condenses names settled ts us) {depth : Nat} {g : Group}
    (hread : Group.readPart argumentList depth us = .ok g) :
    ∃ g', Group.readPart argumentList depth ts = .ok g' ∧
      Condenses names (fun _ => True) g'.inner g.inner := by
  induction h generalizing depth g with
  | nil => cases hread
  | @keep t ts us hcalled _ _ ih =>
      rcases Group.readPart_step depth t with hclose | ⟨d, hgo⟩
      · rw [hclose] at hread
        cases hread
        exact ⟨_, hclose ts, .nil⟩
      · rw [hgo] at hread
        cases hinside : Group.readPart argumentList d us with
        | error e =>
            rw [hinside] at hread
            cases hread
        | ok inside =>
            rw [hinside] at hread
            cases hread
            obtain ⟨inside', hinside', hrest⟩ := ih hinside
            refine ⟨Group.cons t inside', by rw [hgo, hinside']; rfl, .keep t ?_ ?_ hrest⟩
            · have hopens {row : List Token} {g : Group}
                  (h : Group.readPart argumentList d row = .ok g) :
                  row.head?.any (Token.isPunct '(') = g.inner.head?.any (Token.isPunct '(') := by
                rw [Group.read_append h]
                exact Operand.head?_opens_append (Group.read_spec h).1 _ _
              rwa [hopens hinside, hopens hinside'] at hcalled
            · exact fun _ _ _ _ _ _ => Or.inr trivial
  | @contract part numerals ts us hwithin hsome hnumbers _ ih =>
      rw [Group.readPart_balanced (balanced_of_numbers hnumbers)] at hread
      cases hinside : Group.readPart argumentList depth us with
      | error e =>
          rw [hinside] at hread
          cases hread
      | ok inside =>
          rw [hinside] at hread
          cases hread
          obtain ⟨inside', hinside', hrest⟩ := ih hinside
          refine ⟨_, by rw [Group.readPart_balanced hwithin, hinside']; rfl, ?_⟩
          exact .contract hwithin hsome hnumbers hrest

/-- An operand that does not begin with a numeral refers to what it referred to. -/
theorem mem_references_operandOf (h : Condenses names settled ts us) {r : Token}
    (hr : r ∈ references (operandOf us)) : r ∈ references (operandOf ts) ∨ r.raw ∈ names := by
  cases us with
  | nil => cases hr
  | cons o us =>
      by_cases hnumber : o.kind = .number
      · rw [references_operandOf_number hnumber] at hr
        cases hr
      obtain ⟨ts, rfl, hrest, hcalled⟩ := h.of_cons hnumber
      have hgroup {ts us : List Token} (h : Condenses names settled ts us) {g : Group}
          (hg : Group.parens? us = some g) (hr : r ∈ references g.inner) :
          ∃ g', Group.parens? ts = some g' ∧ (r ∈ references g'.inner ∨ r.raw ∈ names) := by
        obtain ⟨g', hg', hinner⟩ := h.readPart (Call.readPart_of_parens? hg)
        refine ⟨g', ?_, hinner.mem_references hr⟩
        rw [Call.parens?_eq, hg']
        rfl
      rcases Resolve.mem_references_operandOf hr with ⟨hword, rfl, hplain⟩ |
        ⟨hword, p, us, g, rfl, hp, hg, hr⟩ | ⟨hparen, g, hg, hr⟩
      · cases hnext : ts.head?.any (Token.isPunct '(') with
        | true => exact Or.inr ((hcalled hnext).resolve_left (by simp [hplain]))
        | false =>
            left
            rw [operandOf, Operand.length?_word hword, hnext]
            simp [references, hword]
      · obtain ⟨ts, rfl, hrest, -⟩ := hrest.of_cons (by rw [Token.kind_of_isPunct hp]; decide)
        obtain ⟨g', hg', hr⟩ := hgroup hrest hg hr
        refine hr.imp_left fun hr => ?_
        rwa [references_operandOf_call hword hp hg']
      · obtain ⟨g', hg', hr⟩ := hgroup hrest hg hr
        refine hr.imp_left fun hr => ?_
        rwa [references_operandOf_parens hparen hg']

/-- A declaration in the condensed row is one of the row, and refers to no more than it did
unless it is settled. -/
theorem declarations (h : Condenses names settled ts us) {entry : Text × Declaration}
    (hentry : entry ∈ declarations us) :
    references entry.2.operand = [] ∨ ∃ d, (entry.1, d) ∈ Resolve.declarations ts ∧
      d.span = entry.2.span ∧ settled d.operand ∧
      ∀ r ∈ references entry.2.operand, r ∈ references d.operand ∨ r.raw ∈ names := by
  induction h with
  | nil => cases hentry
  | @keep t ts us _ hdeclares hrest ih =>
      rw [declarations_cons] at hentry
      rcases List.mem_append.1 hentry with hentry | hentry
      · obtain ⟨hconst, name, rest, rfl, hname, rfl⟩ := mem_declaredBy.1 hentry
        obtain ⟨ts, rfl, hrest, -⟩ := hrest.of_cons (by rw [hname]; decide)
        have hdeclared : (name.raw, ⟨operandOf ts, name.span⟩) ∈
            Resolve.declarations (t :: name :: ts) := by
          rw [declarations_cons]
          exact List.mem_append_left _ (mem_declaredBy.2 ⟨hconst, name, ts, rfl, hname, rfl⟩)
        cases rest with
        | nil => exact Or.inl rfl
        | cons v rest =>
            rcases hdeclares hconst name v rest rfl hname with hnumber | hsettled
            · exact Or.inl (references_operandOf_number hnumber rest)
            · exact Or.inr ⟨_, hdeclared, rfl, hsettled,
                fun r hr => hrest.mem_references_operandOf hr⟩
      · refine (ih hentry).imp_right ?_
        rintro ⟨d, hd, hrest⟩
        exact ⟨d, declarations_suffix (List.suffix_cons t ts) hd, hrest⟩
  | @contract part numerals ts us _ _ hnumbers _ ih =>
      rw [declarations_append_of_undirected fun t ht => by simp [hnumbers t ht]] at hentry
      refine (ih hentry).imp_right ?_
      rintro ⟨d, hd, hrest⟩
      exact ⟨d, declarations_suffix (List.suffix_append part ts) hd, hrest⟩

end Condenses

/-! ### Edited rows -/

/-- What separates before the first significant token of a row. -/
theorem exists_gap {i j : Nat} {ts : List Token} {t : Token} {more : List Indexed}
    (h : indexedFrom i ts = (t, j) :: more) :
    ∃ gap after, ts = gap ++ t :: after ∧ (∀ u ∈ gap, u.isTrivia = true) ∧ t.isTrivia = false ∧
      j = i + gap.length ∧ more = indexedFrom (j + 1) after := by
  induction ts generalizing i with
  | nil => cases h
  | cons u ts ih =>
      rw [indexedFrom_cons] at h
      split at h
      · next hu =>
        obtain ⟨gap, after, rfl, hgap, ht, rfl, hmore⟩ := ih h
        refine ⟨u :: gap, after, rfl, List.forall_mem_cons.2 ⟨hu, hgap⟩, ht, ?_, hmore⟩
        rw [List.length_cons]
        omega
      · next hu =>
        cases h
        exact ⟨[], ts, rfl, by simp, by simpa using hu, rfl, rfl⟩

theorem indexedFrom_suffix {whole ts : List Token} {i : Nat} (h : whole.drop i = ts) :
    indexedFrom i ts <:+ indexed whole := by
  rcases Nat.lt_or_ge i whole.length with hlt | hge
  · refine ⟨indexedFrom 0 (whole.take i), ?_⟩
    have hsplit := indexedFrom_append 0 (whole.take i) (whole.drop i)
    rw [List.take_append_drop, List.length_take_of_le hlt.le, Nat.zero_add, h] at hsplit
    exact hsplit.symm
  · rw [List.drop_eq_nil_of_le hge] at h
    rw [← h]
    exact List.nil_suffix

/-- Significant tokens at one index are one, with the same tokens around. -/
theorem eq_of_index_eq {tokens : List Token} {x y : Token} {j : Nat} {xs ys : List Indexed}
    (hx : (x, j) :: xs <:+ indexed tokens) (hy : (y, j) :: ys <:+ indexed tokens) :
    (x, j) :: xs = (y, j) :: ys := by
  have hordered := pairwise_indexed tokens
  have hlater {z : Token} {zs ws : List Indexed} (hz : (z, j) :: zs <:+ indexed tokens)
      (hw : ∃ w, (w, j) :: ws <:+ zs) : False := by
    obtain ⟨w, hw⟩ := hw
    have hlt := List.rel_of_pairwise_cons (hordered.sublist hz.sublist)
      (hw.subset List.mem_cons_self)
    exact Nat.lt_irrefl j hlt
  rcases List.suffix_or_suffix_of_suffix hx hy with h | h
  · exact (List.suffix_cons_iff.1 h).resolve_right fun h => (hlater hy ⟨x, h⟩).elim
  · exact ((List.suffix_cons_iff.1 h).resolve_right fun h => (hlater hx ⟨y, h⟩).elim).symm

namespace Edit

/-- What an edit replaces begins and ends with a significant token. -/
theorem Encloses.exists_ends {whole : List Token} {e : Edit} (h : e.Encloses whole) :
    ∃ t u, whole[e.first]? = some t ∧ t.isTrivia = false ∧ whole[e.last]? = some u ∧
      u.isTrivia = false := by
  cases h with
  | @name before after t _ hwhole hkind _ =>
      have ht : t.isTrivia = false := by simp [Token.isTrivia, hkind, TokenKind.isTrivia]
      exact ⟨t, t, by simp [hwhole], ht, by simp [hwhole], ht⟩
  | @parens before inner after o c _ hwhole hopener _ hcloser _ =>
      refine ⟨o, c, by simp [hwhole], Token.isTrivia_of_isPunct hopener, ?_,
        Token.isTrivia_of_isPunct hcloser⟩
      rw [hwhole, Nat.add_assoc, List.getElem?_append_right (Nat.le_add_right _ _)]
      simp

section
variable {edits : List Edit} {whole : List Token} (hencloses : ∀ e ∈ edits, e.Encloses whole)
include hencloses

/-- What separates stays. -/
theorem applyFrom_trivia {gap rest : List Token} {i : Nat} (hwhole : whole.drop i = gap ++ rest)
    (hgap : ∀ u ∈ gap, u.isTrivia = true) (hclosed : Closed edits i) :
    applyFrom edits i gap = gap ∧ Closed edits (i + gap.length) := by
  induction gap generalizing i with
  | nil => exact ⟨rfl, hclosed⟩
  | cons u gap ih =>
      obtain ⟨hu, hgap⟩ := List.forall_mem_cons.1 hgap
      have hhere : ∀ e ∈ edits, e.first ≠ i := by
        rintro e he rfl
        obtain ⟨t, -, ht, hsignificant, -⟩ := (hencloses e he).exists_ends
        have hthere := congrArg List.head? hwhole
        rw [List.head?_drop, ht] at hthere
        cases hthere
        simp [hu] at hsignificant
      obtain ⟨hresult, hclosed'⟩ := resultAt_of_no_start hclosed hhere u
      obtain ⟨happly, hafter⟩ := ih (drop_succ_of_drop hwhole) hgap hclosed'
      rw [applyFrom_cons, hresult, happly, List.length_cons]
      refine ⟨rfl, ?_⟩
      rwa [Nat.add_assoc, Nat.add_comm 1] at hafter

/-- An edited row begins with a numeral where an edit begins, and with its own first token
where none does. -/
theorem head_cases {ts : List Token} {i j : Nat} {t : Token} {more : List Indexed}
    (hwhole : whole.drop i = ts) (hclosed : Closed edits i)
    (hrow : indexedFrom i ts = (t, j) :: more) :
    ((∃ e ∈ edits, e.first = j) ∧
        ∃ v us, Token.significant (applyFrom edits i ts) = v :: us ∧ v.kind = .number) ∨
      ((∀ e ∈ edits, e.first ≠ j) ∧ Closed edits (j + 1) ∧ ∃ after, whole.drop (j + 1) = after ∧
        more = indexedFrom (j + 1) after ∧ Token.significant (applyFrom edits i ts) =
          t :: Token.significant (applyFrom edits (j + 1) after)) := by
  obtain ⟨gap, after, rfl, hgap, ht, rfl, rfl⟩ := exists_gap hrow
  obtain ⟨happly, hclosed'⟩ := applyFrom_trivia hencloses hwhole hgap hclosed
  have hbegins : Token.significant (applyFrom edits i (gap ++ t :: after)) =
      Token.significant (applyFrom edits (i + gap.length) (t :: after)) := by
    rw [applyFrom_append, happly, significant_append, significant_trivia hgap, List.nil_append]
  have hnext : whole.drop (i + gap.length) = t :: after := by
    rw [← List.drop_drop, hwhole, List.drop_left]
  rw [hbegins]
  by_cases hstart : ∃ e ∈ edits, e.first = i + gap.length
  · left
    obtain ⟨part, rest, hparts, -, -, -, -, hsome, hnumbers⟩ :=
      exists_contraction hencloses hnext hclosed' hstart
    obtain ⟨v, numerals, hv⟩ := List.exists_cons_of_ne_nil hsome
    have hnumber : v.kind = .number := hnumbers v (by simp [hv])
    rw [hparts, applyFrom_append, hv, List.cons_append, Token.significant_cons,
      if_neg (by simp [Token.isTrivia, hnumber, TokenKind.isTrivia])]
    exact ⟨hstart, v, _, rfl, hnumber⟩
  · right
    have hhere : ∀ e ∈ edits, e.first ≠ i + gap.length := fun e he h => hstart ⟨e, he, h⟩
    obtain ⟨hresult, hclosed''⟩ := resultAt_of_no_start hclosed' hhere t
    refine ⟨hhere, hclosed'', after, drop_succ_of_drop hnext, rfl, ?_⟩
    rw [applyFrom_cons, hresult, List.singleton_append, Token.significant_cons,
      if_neg (by simp [ht])]

end

end Edit

/-- The names of the constants that a row declares. -/
def declaredNames (tokens : List Token) : List Text :=
  (declarations (Token.significant tokens)).map Prod.fst

/-- The row condensed, with the operands that are not condensed as they stay. -/
abbrev RowCondensed (table : SymbolTable) (tokens out : List Token) : Prop :=
  Condenses (declaredNames tokens) (Stays table) (Token.significant tokens) (Token.significant out)

section
variable {tokens : List Token} {edits : List Edit} {table : SymbolTable}
  (hencloses : ∀ e ∈ edits, e.Encloses tokens)
  (hedits : EditsOf (indexed tokens) (indexed tokens) edits table)

theorem mem_declaredNames {c name : Token} {j k : Nat} {rest : List Indexed}
    (hrow : (c, j) :: (name, k) :: rest <:+ indexed tokens) (hconst : isConst c = true)
    (hname : name.kind = .word) : name.raw ∈ declaredNames tokens := by
  obtain ⟨before, hbefore⟩ := hrow
  have hsuffix : c :: name :: rest.map Prod.fst <:+ Token.significant tokens :=
    ⟨before.map Prod.fst, by simpa [map_indexed] using congrArg (List.map Prod.fst) hbefore⟩
  apply List.mem_map_of_mem (f := Prod.fst)
    (a := (name.raw, ⟨operandOf (rest.map Prod.fst), name.span⟩))
  apply declarations_suffix hsuffix
  rw [declarations_cons]
  exact List.mem_append_left _ (mem_declaredBy.2 ⟨hconst, name, _, rfl, hname, rfl⟩)

include hencloses hedits

/-- A bracket behind a token stays, or the token is the name of a constant. -/
theorem called_of_edits {ts : List Token} {i : Nat} {u : Token}
    (hrow : (u, i) :: indexedFrom (i + 1) ts <:+ indexed tokens) (hwhole : tokens.drop (i + 1) = ts)
    (hclosed : Edit.Closed edits (i + 1))
    (hcalled : (Token.significant ts).head?.any (Token.isPunct '(') = true) :
    (Token.significant (Edit.applyFrom edits (i + 1) ts)).head?.any (Token.isPunct '(') = true ∨
      u.raw ∈ declaredNames tokens := by
  rw [← map_indexedFrom (i + 1) ts] at hcalled
  cases hmore : indexedFrom (i + 1) ts with
  | nil =>
      rw [hmore] at hcalled
      cases hcalled
  | cons x more =>
      obtain ⟨o, j⟩ := x
      rw [hmore] at hcalled hrow
      replace hcalled : o.isPunct '(' = true := hcalled
      rcases Edit.head_cases hencloses hwhole hclosed hmore with
        ⟨⟨e, he, rfl⟩, -⟩ | ⟨-, -, after, -, -, hsignificant⟩
      · right
        have ho := (List.suffix_cons _ _).trans hrow
        cases hedits.arises e he with
        | @area name k _ hplace hnumbers _ =>
            obtain ⟨area, -, rfl⟩ := hnumbers
            obtain ⟨hname, p, l, others, -, hsuffix⟩ := hplace.trails
            have heq := eq_of_index_eq ((List.suffix_cons _ _).trans hsuffix) ho
            obtain rfl : name = o := (Prod.mk.inj (List.cons.inj heq).1).1
            rw [Token.kind_of_isPunct hcalled] at hname
            cases hname
        | @operand first k m others _ _ _ hplace _ _ _ _ _ =>
            obtain ⟨c, l, name, l', hsuffix, hconst, hname⟩ := hplace
            have hbehind := (List.suffix_cons _ _).trans hsuffix
            have heq := eq_of_index_eq ((List.suffix_cons _ _).trans hbehind) ho
            rw [heq] at hsuffix hbehind
            -- what stands before the bracket stands there once
            have hbefore := (List.suffix_of_suffix_length_le hbehind hrow (by simp)).eq_of_length
              (by simp)
            obtain rfl : name = u := (Prod.mk.inj (List.cons.inj hbefore).1).1
            exact mem_declaredNames hsuffix hconst hname
      · left
        rw [hsignificant]
        simpa using hcalled

/-- Behind the name of a constant stands a numeral, or the operand stays as it is. -/
theorem settled_of_edits {ts : List Token} {i : Nat} {c name v : Token} {us : List Token}
    (hrow : (c, i) :: indexedFrom (i + 1) ts <:+ indexed tokens) (hwhole : tokens.drop (i + 1) = ts)
    (hclosed : Edit.Closed edits (i + 1)) (hconst : isConst c = true)
    (hsignificant : Token.significant (Edit.applyFrom edits (i + 1) ts) = name :: v :: us)
    (hname : name.kind = .word) :
    v.kind = .number ∨ Stays table (operandOf (Token.significant ts).tail) := by
  rw [← map_indexedFrom (i + 1) ts]
  cases hmore : indexedFrom (i + 1) ts with
  | nil =>
      have hgap : ∀ u ∈ ts, u.isTrivia = true := by
        have hnone := map_indexedFrom (i + 1) ts
        rw [hmore, eq_comm, Token.significant, List.map_nil, List.filter_eq_nil_iff] at hnone
        simpa using hnone
      rw [← List.append_nil ts] at hwhole
      obtain ⟨happly, -⟩ := Edit.applyFrom_trivia hencloses hwhole hgap hclosed
      rw [happly, significant_trivia hgap] at hsignificant
      cases hsignificant
  | cons x more =>
      obtain ⟨t, j⟩ := x
      rw [hmore] at hrow
      rcases Edit.head_cases hencloses hwhole hclosed hmore with
        ⟨-, t', us', hhead, hnumber⟩ | ⟨-, hclosed', after, hafter, rfl, hhead⟩
      · rw [hsignificant] at hhead
        obtain ⟨rfl, -⟩ := List.cons.inj hhead
        rw [hname] at hnumber
        cases hnumber
      · rw [hsignificant] at hhead
        obtain ⟨rfl, hrest⟩ := List.cons.inj hhead
        refine (hedits.settles _ ⟨c, i, name, j, hrow, hconst, hname⟩).imp_left ?_
        rintro ⟨e, he, first, others, hfirst⟩
        rcases Edit.head_cases hencloses hafter hclosed' hfirst with
          ⟨-, v', us', hhead', hnumber⟩ | ⟨hhere, -⟩
        · rw [← hrest] at hhead'
          obtain ⟨rfl, -⟩ := List.cons.inj hhead'
          exact hnumber
        · exact absurd rfl (hhere e he)

theorem condenses_applyFrom {ts : List Token} {i : Nat} (hwhole : tokens.drop i = ts)
    (hclosed : Edit.Closed edits i) :
    Condenses (declaredNames tokens) (Stays table) (Token.significant ts)
      (Token.significant (Edit.applyFrom edits i ts)) := by
  induction hn : ts.length using Nat.strongRecOn generalizing ts i with
  | _ n ih =>
      by_cases hstart : ∃ e ∈ edits, e.first = i
      · obtain ⟨part, rest, rfl, hnext, hshorter, hclosed', hbalanced, hsome, hnumbers⟩ :=
          Edit.exists_contraction hencloses hwhole hclosed hstart
        have hnumerals : Token.significant (Edit.applyFrom edits i part) =
            Edit.applyFrom edits i part := by
          refine List.filter_eq_self.2 fun t ht => ?_
          simp [Token.isTrivia, hnumbers t ht, TokenKind.isTrivia]
        rw [Edit.applyFrom_append, significant_append, significant_append, hnumerals]
        exact .contract hbalanced.significant hsome hnumbers
          (ih rest.length (hn ▸ hshorter) hnext hclosed' rfl)
      · cases ts with
        | nil => exact .nil
        | cons u ts =>
            obtain ⟨hresult, hclosed'⟩ := Edit.resultAt_of_no_start hclosed
              (fun e he hfirst => hstart ⟨e, he, hfirst⟩) u
            have hnext := Edit.drop_succ_of_drop hwhole
            have hrest := ih ts.length (by rw [← hn, List.length_cons]; omega) hnext hclosed' rfl
            rw [Edit.applyFrom_cons, hresult, List.singleton_append, Token.significant_cons,
              Token.significant_cons]
            cases hu : u.isTrivia with
            | true => simpa [hu] using hrest
            | false =>
                have hrow := indexedFrom_suffix hwhole
                rw [indexedFrom_cons, hu] at hrow
                refine .keep u ?_ ?_ hrest
                · exact called_of_edits hencloses hedits hrow hnext hclosed'
                · intro hconst name v rest hsignificant hname
                  exact settled_of_edits hencloses hedits hrow hnext hclosed' hconst hsignificant
                    hname

end

theorem RowEdited.condensed {tokens out : List Token} {table : SymbolTable}
    (h : RowEdited table tokens out) : RowCondensed table tokens out := by
  obtain ⟨edits, rfl, hencloses, hedits⟩ := h
  exact condenses_applyFrom hencloses hedits List.drop_zero
    fun e _ hfirst => absurd hfirst (by omega)

end Resolve

/-- Only what is declared has a value. -/
theorem Evaluation.HasValue.declared {table : SymbolTable} {name : Text} {value : Option Number}
    (h : HasValue table name value) : table.isConstant name = true ∨ name ∈ table.areas := by
  cases h with
  | outside hdeclared => exact hdeclared
  | constant hknown => exact Or.inl (by simp [SymbolTable.isConstant, hknown])

open Resolve

/-- Every name that is left in the operand of a constant is itself a constant, or it stood
there before, in an operand that has no value as a whole. -/
theorem Script.resolve_leaves_constants {s out : Script Node} {table last : SymbolTable}
    (hfresh : table.Fresh) (hrun : s.resolve.run.run table = (.ok out, last)) :
    ∀ row ∈ groups out.parts, ∀ entry ∈ declarations (Token.significant row),
      ∀ ref ∈ Operand.references entry.2.operand,
        ref.raw ∈ s.constants ∨ ref.raw ∈ table.external ∨
          ref.raw ∈ last.areas ∧ ∃ d, (entry.1, d) ∈ s.declared ∧ d.span = entry.2.span ∧
            ref ∈ Operand.references d.operand ∧ last.operandValue d.operand = .ok none := by
  intro row hrow entry hentry ref href
  have hresolved := Resolved.of_run hfresh hrun
  have hrows := ((s.resolve_rows establishes_edited table).of_run_ok hrun).2
    (s.sound_declare hfresh.values)
  obtain ⟨tokens, htokens, hedited⟩ : ∃ tokens ∈ groups s.parts, RowEdited last tokens row := by
    obtain ⟨k, hk, rfl⟩ := List.getElem_of_mem hrow
    have hk' : k < (groups s.parts).length := hrows.length_eq ▸ hk
    exact ⟨_, List.getElem_mem hk', (List.forall₂_iff_get.1 hrows).2 k hk' hk⟩
  have hdeclared {name : Text} {d : Declaration}
      (h : (name, d) ∈ declarations (Token.significant tokens)) : (name, d) ∈ s.declared :=
    List.mem_flatMap.2 ⟨tokens, htokens, h⟩
  have hconstants (h : ref.raw ∈ declaredNames tokens) : ref.raw ∈ s.constants := by
    obtain ⟨entry, hentry, hname⟩ := List.mem_map.1 h
    exact hname ▸ List.mem_map_of_mem (hdeclared hentry)
  rcases hedited.condensed.declarations hentry with hnone | ⟨d, hd, hspan, hstays, hreferences⟩
  · rw [hnone] at href
    cases href
  rcases hreferences ref href with hold | hname
  · rcases hstays with ⟨hnone, -⟩ | ⟨values, hassigns, hfold⟩
    · rw [hnone] at hold
      cases hold
    cases hconstant : last.isConstant ref.raw with
    | true => exact (hresolved.isConstant_iff.1 hconstant).imp_right Or.inl
    | false =>
        refine Or.inr (Or.inr ⟨?_, d, hdeclared hd, hspan, hold, ?_⟩)
        · exact (hassigns ref hold).declared.resolve_left (by simp [hconstant])
        · exact SymbolTable.operandValue_eq hresolved.sound hassigns hfold
  · exact Or.inl (hconstants hname)

/-- A constant that needs an area, and one that needs a random number. -/
def marsh : Text :=
  "actor_area LAKE\n#const X (LAKE + 1)\n#const Y (X + Z)\n#const Z rnd(1,2)".toList

theorem Script.resolve_leaves_constants_marsh :
    ∃ s out last, ofSource marsh = .ok s ∧ s.resolve.run.run {} = (.ok out, last) ∧
      (∃ row ∈ groups out.parts, ∃ entry ∈ declarations (Token.significant row),
        Operand.references entry.2.operand ≠ []) ∧
      ∀ row ∈ groups out.parts, ∀ entry ∈ declarations (Token.significant row),
        ∀ ref ∈ Operand.references entry.2.operand,
          ref.raw ∈ s.constants ∨ ref.raw ∈ ({} : SymbolTable).external ∨
            ref.raw ∈ last.areas ∧ ∃ d, (entry.1, d) ∈ s.declared ∧ d.span = entry.2.span ∧
              ref ∈ Operand.references d.operand ∧ last.operandValue d.operand = .ok none := by
  have hruns : (ofSource marsh).toOption.any (fun s =>
      (s.resolve.run.run {}).1.toOption.any fun (out : Script Node) =>
        decide (∃ row ∈ groups out.parts, ∃ entry ∈ declarations (Token.significant row),
          Operand.references entry.2.operand ≠ [])) = true := by
    decide +kernel
  obtain ⟨s, hs, hruns⟩ := toOption_any_iff.1 hruns
  obtain ⟨out, hout, hleft⟩ := toOption_any_iff.1 hruns
  exact ⟨s, out, _, hs, Prod.ext hout rfl, of_decide_eq_true hleft,
    resolve_leaves_constants ⟨rfl, rfl, rfl⟩ (Prod.ext hout rfl)⟩

/-- A constant that needs an area and a random number. -/
def fen : Text := "actor_area LAKE\n#const X (LAKE + rnd(1,2))".toList

/-- The name of an area is left where the operand has no value. -/
theorem Script.resolve_leaves_area :
    ∃ s out last, ofSource fen = .ok s ∧ s.resolve.run.run {} = (.ok out, last) ∧
      ∃ row ∈ groups out.parts, ∃ entry ∈ declarations (Token.significant row),
        ∃ ref ∈ Operand.references entry.2.operand,
          ref.raw ∈ last.areas ∧ ref.raw ∉ s.constants ∧ ref.raw ∉ last.external := by
  have hruns : (ofSource fen).toOption.any (fun s =>
      (s.resolve.run.run {}).1.toOption.any fun (out : Script Node) =>
        decide (∃ row ∈ groups out.parts, ∃ entry ∈ declarations (Token.significant row),
          ∃ ref ∈ Operand.references entry.2.operand, ref.raw ∈ (s.resolve.run.run {}).2.areas ∧
            ref.raw ∉ s.constants ∧ ref.raw ∉ (s.resolve.run.run {}).2.external)) = true := by
    decide +kernel
  obtain ⟨s, hs, hruns⟩ := toOption_any_iff.1 hruns
  obtain ⟨out, hout, hleft⟩ := toOption_any_iff.1 hruns
  exact ⟨s, out, _, hs, Prod.ext hout rfl, of_decide_eq_true hleft⟩

end MapScript
