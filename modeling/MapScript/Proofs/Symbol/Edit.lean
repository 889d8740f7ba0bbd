import MapScript.Proofs.Symbol.Likeness

/-!
# Rows after their edits

The edits of a row are made all at once, each token giving way to what stands at its
index.  What they make of a row depends on its lexemes, and on how far the edits are
from its beginning; where none of them reaches, the row stays as it is.
-/

namespace MapScript

namespace Resolve.Edit

/-! ### Rows from an index on -/

/-- A row that begins at an index, after all edits. -/
def applyFrom (edits : List Edit) (i : Nat) (ts : List Token) : List Token :=
  (ts.zipIdx i).flatMap fun (t, i) => resultAt edits t i

theorem applyFrom_cons (edits : List Edit) (i : Nat) (t : Token) (ts : List Token) :
    applyFrom edits i (t :: ts) = resultAt edits t i ++ applyFrom edits (i + 1) ts := by
  simp [applyFrom, List.zipIdx_cons]

/-- No edit reaches across an index. -/
def Closed (edits : List Edit) (i : Nat) : Prop := ∀ e ∈ edits, e.first < i → e.last < i

theorem Closed.succ {edits : List Edit} {i : Nat} (h : Closed edits i)
    (hhere : ∀ e ∈ edits, e.first = i → e.last ≤ i) : Closed edits (i + 1) := by
  intro e he hfirst
  rcases Nat.lt_succ_iff_lt_or_eq.1 hfirst with hbefore | hat
  · exact Nat.lt_succ_of_lt (h e he hbefore)
  · exact Nat.lt_succ_of_le (hhere e he hat)

/-- What stands at an index that no earlier edit reaches. -/
theorem resultAt_cases {edits : List Edit} {u : Token} {i : Nat} (hclosed : Closed edits i) :
    (resultAt edits u i = [u] ∧ ∀ e ∈ edits, e.first = i → e.last ≤ i) ∨
      ∃ e ∈ edits, e.first = i ∧ resultAt edits u i = [e.replacement] := by
  unfold resultAt
  split
  · next hnone =>
    refine Or.inl ⟨rfl, ?_⟩
    intro e he hfirst
    have huncovered := List.find?_eq_none.1 hnone e (List.mem_reverse.2 he)
    simp only [covers, Bool.and_eq_true, decide_eq_true_eq] at huncovered
    omega
  · next e hsome =>
    have he := List.mem_reverse.1 (List.mem_of_find?_eq_some hsome)
    have hcovers := List.find?_some hsome
    simp only [covers, Bool.and_eq_true, decide_eq_true_eq] at hcovers
    have hfirst : e.first = i := by
      have := hclosed e he
      omega
    exact Or.inr ⟨e, he, hfirst, by simp [hfirst]⟩

theorem applyFrom_append (edits : List Edit) (i : Nat) (ts us : List Token) :
    applyFrom edits i (ts ++ us) =
      applyFrom edits i ts ++ applyFrom edits (i + ts.length) us := by
  rw [applyFrom, List.zipIdx_append, List.flatMap_append]
  rfl

theorem resultAt_of_uncovered {edits : List Edit} {i : Nat} (t : Token)
    (h : ∀ e ∈ edits, e.covers i = false) : resultAt edits t i = [t] := by
  have hnone : edits.reverse.find? (fun e => e.covers i) = none := by
    rw [List.find?_eq_none]
    intro e he
    simpa using h e (List.mem_reverse.1 he)
  rw [resultAt, hnone]

/-- A row that no edit reaches stays as it is. -/
theorem applyFrom_of_uncovered {edits : List Edit} {i : Nat} {ts : List Token}
    (h : ∀ e ∈ edits, e.last < i ∨ i + ts.length ≤ e.first) : applyFrom edits i ts = ts := by
  induction ts generalizing i with
  | nil => rfl
  | cons t ts ih =>
      rw [applyFrom_cons, ih, resultAt_of_uncovered]
      · rfl
      · intro e he
        have := h e he
        rw [List.length_cons] at this
        simp only [covers, Bool.and_eq_false_iff, decide_eq_false_iff_not]
        omega
      · intro e he
        have := h e he
        rw [List.length_cons] at this
        omega

/-- What stands at an index that an edit covers is a replacement or nothing. -/
theorem mem_resultAt_of_covered {edits : List Edit} {e : Edit} (he : e ∈ edits) {i : Nat}
    (hcovers : e.covers i = true) {u t : Token} (ht : t ∈ resultAt edits u i) :
    ∃ e' ∈ edits, t = e'.replacement := by
  unfold resultAt at ht
  split at ht
  · next hnone =>
    have huncovered := List.find?_eq_none.1 hnone e (List.mem_reverse.2 he)
    exact absurd hcovers huncovered
  · next e' hsome =>
    split at ht
    · exact ⟨e', List.mem_reverse.1 (List.mem_of_find?_eq_some hsome), List.mem_singleton.1 ht⟩
    · cases ht

/-! ### Edits of rows that correspond -/

/-- Indices that lie alike among those that correspond. -/
def Level (M : Nat → Nat → Prop) (i i' : Nat) : Prop :=
  ∀ a a', M a a' → (a ≤ i ↔ a' ≤ i') ∧ (i ≤ a ↔ i' ≤ a')

section
variable {k : Likeness} {M : Nat → Nat → Prop} {edits edits' : List Edit} {i i' : Nat}

theorem covers_alike {e e' : Edit} (h : e.Alike k M e') (hlevel : Level M i i') :
    e.covers i = e'.covers i' := by
  have hfirst := (hlevel _ _ h.first).1
  have hlast := (hlevel _ _ h.last).2
  rw [covers, covers, Bool.eq_iff_iff]
  simp [hfirst, hlast]

theorem find?_alike (h : List.Forall₂ (Alike k M) edits edits') (hlevel : Level M i i') :
    Option.Rel (Alike k M) (edits.find? fun e => e.covers i)
      (edits'.find? fun e => e.covers i') := by
  induction h with
  | nil => exact .none
  | cons he _ ih =>
      rw [List.find?_cons, List.find?_cons, covers_alike he hlevel]
      split
      · exact .some he
      · exact ih

theorem resultAt_alike (h : List.Forall₂ (Alike k M) edits edits') (hlevel : Level M i i')
    {t t' : Token} (ht : Token.Alike k t t') :
    List.Forall₂ (Token.Alike k) (resultAt edits t i) (resultAt edits' t' i') := by
  have hfind := find?_alike (List.rel_reverse h) hlevel
  unfold resultAt
  generalize edits.reverse.find? (fun e => e.covers i) = found at hfind
  generalize edits'.reverse.find? (fun e => e.covers i') = found' at hfind
  cases hfind with
  | none => exact .cons ht .nil
  | @some e e' he =>
      have hfirst : e.first = i ↔ e'.first = i' := by
        have := hlevel _ _ he.first
        omega
      simp only [hfirst]
      split
      · exact .cons he.replacement .nil
      · exact .nil

/-- One index is so far behind another. -/
def Shifted (n i i' : Nat) : Prop := i' = i + n

theorem level_shifted (n i : Nat) : Level (Shifted n) i (i + n) := by
  rintro a _ rfl
  omega

/-- Edits that are as far apart as two rows of the same lexemes make the same of them. -/
theorem applyFrom_alike {n : Nat} (h : List.Forall₂ (Alike k (Shifted n)) edits edits')
    {ts ts' : List Token} (hts : List.Forall₂ (Token.Alike k) ts ts') (i : Nat) :
    List.Forall₂ (Token.Alike k) (applyFrom edits i ts) (applyFrom edits' (i + n) ts') := by
  induction hts generalizing i with
  | nil => exact .nil
  | @cons t t' ts ts' ht _ ih =>
      rw [applyFrom_cons, applyFrom_cons, Nat.add_right_comm]
      exact List.rel_append (resultAt_alike h (level_shifted n i) ht) (ih (i + 1))

end

end Resolve.Edit

/-! ### Significant tokens and their indices -/

theorem significant_trivia {ts : List Token} (h : ∀ t ∈ ts, t.isTrivia = true) :
    Token.significant ts = [] := by
  rw [Token.significant, List.filter_eq_nil_iff]
  intro t ht
  simp [h t ht]

theorem significant_append (ts us : List Token) :
    Token.significant (ts ++ us) = Token.significant ts ++ Token.significant us :=
  List.filter_append ts us

namespace Resolve

/-- The significant tokens of a row that begins at an index. -/
def indexedFrom (i : Nat) (ts : List Token) : List Indexed :=
  (ts.zipIdx i).filter fun (t, _) => !t.isTrivia

theorem indexedFrom_cons (i : Nat) (t : Token) (ts : List Token) :
    indexedFrom i (t :: ts) =
      if t.isTrivia then indexedFrom (i + 1) ts else (t, i) :: indexedFrom (i + 1) ts := by
  cases h : t.isTrivia <;> simp [indexedFrom, List.zipIdx_cons, h]

theorem indexedFrom_append (i : Nat) (ts us : List Token) :
    indexedFrom i (ts ++ us) = indexedFrom i ts ++ indexedFrom (i + ts.length) us := by
  rw [indexedFrom, List.zipIdx_append, List.filter_append]
  rfl

theorem map_indexedFrom (i : Nat) (ts : List Token) :
    (indexedFrom i ts).map Prod.fst = Token.significant ts := by
  induction ts generalizing i with
  | nil => rfl
  | cons t ts ih =>
      rw [indexedFrom_cons, Token.significant_cons]
      split
      · exact ih (i + 1)
      · rw [List.map_cons, ih]

theorem indexedFrom_trivia {ts : List Token} (h : ∀ t ∈ ts, t.isTrivia = true) (i : Nat) :
    indexedFrom i ts = [] := by
  induction ts generalizing i with
  | nil => rfl
  | cons t ts ih =>
      obtain ⟨ht, hts⟩ := List.forall_mem_cons.1 h
      rw [indexedFrom_cons, if_pos ht, ih hts]

/-- Rows of the same lexemes have significant tokens as far apart as they are. -/
theorem indexedFrom_alike {k : Likeness} {ts ts' : List Token}
    (h : List.Forall₂ (Token.Alike k) ts ts') (i n : Nat) :
    List.Forall₂ (Corresponds k (Edit.Shifted n)) (indexedFrom i ts) (indexedFrom (i + n) ts') := by
  induction h generalizing i with
  | nil => exact .nil
  | @cons t t' ts ts' ht _ ih =>
      have hrest := ih (i + 1)
      rw [Nat.add_right_comm] at hrest
      rw [indexedFrom_cons, indexedFrom_cons, ht.isTrivia_eq]
      split
      · exact hrest
      · exact .cons ⟨ht, rfl⟩ hrest

/-- A significant token of a row stands in it, and those after it come from what follows. -/
theorem exists_of_suffix {i : Nat} {ts : List Token} {t : Token} {j : Nat} {more : List Indexed}
    (h : (t, j) :: more <:+ indexedFrom i ts) :
    ∃ before after, ts = before ++ t :: after ∧ j = i + before.length ∧
      more = indexedFrom (j + 1) after := by
  induction ts generalizing i with
  | nil => exact absurd (List.suffix_nil.1 h) (by simp)
  | cons u ts ih =>
      have hlater (h : (t, j) :: more <:+ indexedFrom (i + 1) ts) :
          ∃ before after, u :: ts = before ++ t :: after ∧ j = i + before.length ∧
            more = indexedFrom (j + 1) after := by
        obtain ⟨before, after, rfl, rfl, hmore⟩ := ih h
        refine ⟨u :: before, after, rfl, ?_, hmore⟩
        rw [List.length_cons]
        omega
      rw [indexedFrom_cons] at h
      split at h
      · exact hlater h
      · rcases List.suffix_cons_iff.1 h with heq | h
        · obtain ⟨hhead, rfl⟩ := List.cons.inj heq
          obtain ⟨rfl, rfl⟩ := Prod.mk.inj hhead
          exact ⟨[], ts, rfl, rfl, rfl⟩
        · exact hlater h

end Resolve

end MapScript
