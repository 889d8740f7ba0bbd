import MapScript.Proofs.Symbol.Edit

/-!
# Rows with other gaps

A gap is what separates two significant tokens.  Rows that differ in their gaps only,
each with a line break where the other has one, are resolved to such rows: the same
significant tokens are edited, and a gap goes where an edit reaches across it.
-/

namespace MapScript

/-- Whether a token that separates others breaks the line. -/
def Token.breaksLine (t : Token) : Bool := t.kind == .newline || t.raw.contains '\n'

/-- Two gaps with a line break in both or in neither. -/
structure Gap (g g' : List Token) : Prop where
  trivia : ∀ t ∈ g, t.isTrivia = true
  trivia' : ∀ t ∈ g', t.isTrivia = true
  nonempty : g ≠ []
  nonempty' : g' ≠ []
  breaks : g.any Token.breaksLine = g'.any Token.breaksLine

/-- Rows of the same significant tokens with gaps in the same places. -/
inductive Row (k : Likeness) : List Token → List Token → Prop
  | nil : Row k [] []
  | token {t t' : Token} {ts ts' : List Token} (alike : Token.Alike k t t')
      (significant : t.isTrivia = false) (rest : Row k ts ts') : Row k (t :: ts) (t' :: ts')
  | gap {g g' ts ts' : List Token} (gap : Gap g g') (rest : Row k ts ts') :
      Row k (g ++ ts) (g' ++ ts')

variable {k : Likeness}

theorem Token.breaksLine_congr {t t' : Token} (h : t.toLexeme = t'.toLexeme) :
    t.breaksLine = t'.breaksLine := by
  rw [breaksLine, breaksLine, h]

/-- A token that separates others is a gap. -/
theorem Gap.single {t t' : Token} (h : t.toLexeme = t'.toLexeme) (ht : t.isTrivia = true) :
    Gap [t] [t'] := by
  have ht' : t'.isTrivia = true := by rwa [Token.isTrivia, ← h]
  exact ⟨by simpa using ht, by simpa using ht', by simp, by simp,
    by simp [Token.breaksLine_congr h]⟩

theorem Gap.reverse {g g' : List Token} (h : Gap g g') : Gap g.reverse g'.reverse := by
  refine ⟨by simpa using h.trivia, by simpa using h.trivia', by simpa using h.nonempty,
    by simpa using h.nonempty', ?_⟩
  rw [List.any_reverse, List.any_reverse, h.breaks]

namespace Row

variable {ts ts' us us' : List Token}

/-- A row ends, begins with a token, or begins with a gap. -/
theorem uncons (h : Row k ts ts') :
    (ts = [] ∧ ts' = []) ∨
      (∃ t t' us us', ts = t :: us ∧ ts' = t' :: us' ∧ Token.Alike k t t' ∧
        t.isTrivia = false ∧ Row k us us') ∨
      ∃ g g' us us', ts = g ++ us ∧ ts' = g' ++ us' ∧ Gap g g' ∧ Row k us us' := by
  cases h with
  | nil => exact Or.inl ⟨rfl, rfl⟩
  | token alike hsig hrest => exact Or.inr (Or.inl ⟨_, _, _, _, rfl, rfl, alike, hsig, hrest⟩)
  | gap hgap hrest => exact Or.inr (Or.inr ⟨_, _, _, _, rfl, rfl, hgap, hrest⟩)

theorem append (h : Row k ts ts') (hus : Row k us us') : Row k (ts ++ us) (ts' ++ us') := by
  induction h with
  | nil => exact hus
  | token alike hsig _ ih => exact .token alike hsig ih
  | gap hgap _ ih =>
      rw [List.append_assoc, List.append_assoc]
      exact .gap hgap ih

theorem of_gap {g g' : List Token} (h : Gap g g') : Row k g g' := by
  simpa using Row.gap h (Row.nil (k := k))

theorem single {t t' : Token} (h : Token.Alike k t t') : Row k [t] [t'] := by
  cases hsig : t.isTrivia with
  | false => exact .token h hsig .nil
  | true => exact .of_gap (.single h.lexeme hsig)

/-- Rows that are alike token by token have the same gaps. -/
theorem of_alike (h : List.Forall₂ (Token.Alike k) ts ts') : Row k ts ts' := by
  induction h with
  | nil => exact .nil
  | cons ht _ ih => exact (single ht).append ih

theorem reverse (h : Row k ts ts') : Row k ts.reverse ts'.reverse := by
  induction h with
  | nil => exact .nil
  | token alike hsig _ ih =>
      rw [List.reverse_cons, List.reverse_cons]
      exact ih.append (.token alike hsig .nil)
  | gap hgap _ ih =>
      rw [List.reverse_append, List.reverse_append]
      exact ih.append (.of_gap hgap.reverse)

/-- The significant tokens are the same. -/
theorem significant (h : Row k ts ts') :
    List.Forall₂ (Token.Alike k) (Token.significant ts) (Token.significant ts') := by
  induction h with
  | nil => exact .nil
  | token alike hsig _ ih =>
      rw [Token.significant_cons, Token.significant_cons, ← alike.isTrivia_eq, hsig]
      exact .cons alike ih
  | gap hgap _ ih =>
      rwa [significant_append, significant_append, significant_trivia hgap.trivia,
        significant_trivia hgap.trivia']

theorem isEmpty_eq (h : Row k ts ts') : ts.isEmpty = ts'.isEmpty := by
  cases h with
  | nil => rfl
  | token _ _ _ => rfl
  | gap hgap _ =>
      have hfirst := hgap.nonempty
      have hsecond := hgap.nonempty'
      rw [List.isEmpty_eq_false_iff.2 (by simp [hfirst]),
        List.isEmpty_eq_false_iff.2 (by simp [hsecond])]

theorem dropWhile_trivia (h : Row k ts ts') :
    Row k (ts.dropWhile Token.isTrivia) (ts'.dropWhile Token.isTrivia) := by
  induction h with
  | nil => exact .nil
  | @token t t' ts ts' alike hsig hrest ih =>
      rw [List.dropWhile_cons_of_neg (by simp [hsig]),
        List.dropWhile_cons_of_neg (by simp [← alike.isTrivia_eq, hsig])]
      exact .token alike hsig hrest
  | gap hgap _ ih =>
      rwa [List.dropWhile_append_of_pos hgap.trivia, List.dropWhile_append_of_pos hgap.trivia']

end Row

/-! ### Places in a row -/

namespace Resolve

/-- How many significant tokens stand before an index. -/
def rank (ts : List Token) (i : Nat) : Nat := (Token.significant (ts.take i)).length

theorem rank_append_length (pre ts : List Token) :
    rank (pre ++ ts) pre.length = (Token.significant pre).length := by
  rw [rank, List.take_left]

theorem rank_mono (ts : List Token) {i j : Nat} (h : i ≤ j) : rank ts i ≤ rank ts j := by
  have htake : ts.take i <+: ts.take j := List.take_prefix_take_left h
  exact (htake.filter _).length_le

theorem rank_succ {ts : List Token} {i : Nat} {t : Token} (ht : ts[i]? = some t)
    (hsig : t.isTrivia = false) : rank ts (i + 1) = rank ts i + 1 := by
  rw [rank, rank, List.take_add_one, ht, significant_append, Option.toList_some,
    Token.significant_cons, hsig]
  simp [Token.significant]

/-- Significant tokens stand at two indices, so many before the one as before the other. -/
structure Matching (ts ts' : List Token) (i i' : Nat) : Prop where
  here : ∃ t, ts[i]? = some t ∧ t.isTrivia = false
  there : ∃ t, ts'[i']? = some t ∧ t.isTrivia = false
  rank : rank ts i = rank ts' i'

/-- An index against that of a significant token, told by what stands before them. -/
theorem le_iff_rank {ts : List Token} {a : Nat} (ha : ∃ t, ts[a]? = some t ∧ t.isTrivia = false)
    (i : Nat) : i ≤ a ↔ rank ts i ≤ rank ts a := by
  obtain ⟨t, ht, hsig⟩ := ha
  refine ⟨rank_mono ts, fun h => ?_⟩
  by_contra hlt
  have := rank_mono ts (show a + 1 ≤ i by omega)
  rw [rank_succ ht hsig] at this
  omega

theorem Matching.level {ts ts' : List Token} {i i' : Nat} (h : Matching ts ts' i i') :
    Edit.Level (Matching ts ts') i i' := by
  intro a a' ha
  rw [le_iff_rank h.here, le_iff_rank h.there, le_iff_rank ha.here, le_iff_rank ha.there, h.rank,
    ha.rank]
  exact ⟨Iff.rfl, Iff.rfl⟩

/-- In a gap only the significant tokens before it count. -/
theorem level_of_trivia {ts ts' : List Token} {i i' : Nat} {t t' : Token} (ht : ts[i]? = some t)
    (ht' : ts'[i']? = some t') (htrivia : t.isTrivia = true) (htrivia' : t'.isTrivia = true)
    (hrank : rank ts i = rank ts' i') : Edit.Level (Matching ts ts') i i' := by
  have hstrict {ts : List Token} {a i : Nat} {t : Token} (ht : ts[i]? = some t)
      (htrivia : t.isTrivia = true) (ha : ∃ t, ts[a]? = some t ∧ t.isTrivia = false) :
      a ≤ i ↔ rank ts a < rank ts i := by
    obtain ⟨u, hu, hsig⟩ := ha
    have hne : a ≠ i := by
      rintro rfl
      rw [ht, Option.some.injEq] at hu
      rw [← hu, htrivia] at hsig
      cases hsig
    constructor
    · intro hle
      have := rank_mono ts (show a + 1 ≤ i by omega)
      rw [rank_succ hu hsig] at this
      omega
    · intro hlt
      by_contra hgt
      have := rank_mono ts (show i ≤ a by omega)
      omega
  intro a a' ha
  rw [hstrict ht htrivia ha.here, hstrict ht' htrivia' ha.there, le_iff_rank ha.here,
    le_iff_rank ha.there, hrank, ha.rank]
  exact ⟨Iff.rfl, Iff.rfl⟩

/-! ### Edits of a row -/

section
variable {whole whole' : List Token}

theorem indexedFrom_row {pre pre' ts ts' : List Token} (hwhole : whole = pre ++ ts)
    (hwhole' : whole' = pre' ++ ts')
    (hrank : (Token.significant pre).length = (Token.significant pre').length)
    (h : Row k ts ts') :
    List.Forall₂ (Corresponds k (Matching whole whole')) (indexedFrom pre.length ts)
      (indexedFrom pre'.length ts') := by
  induction h generalizing pre pre' with
  | nil => exact .nil
  | @token t t' ts ts' alike hsig hrest ih =>
      have hsig' : t'.isTrivia = false := alike.isTrivia_eq ▸ hsig
      have hlater := @ih (pre ++ [t]) (pre' ++ [t']) (by simp [hwhole]) (by simp [hwhole'])
        (by simp [significant_append, Token.significant_cons, hsig, hsig', hrank])
      rw [List.length_append, List.length_append] at hlater
      rw [indexedFrom_cons, indexedFrom_cons, hsig, hsig']
      refine .cons ⟨alike, ⟨t, by simp [hwhole], hsig⟩, ⟨t', by simp [hwhole'], hsig'⟩, ?_⟩ hlater
      rw [hwhole, hwhole', rank_append_length, rank_append_length, hrank]
  | @gap g g' ts ts' hgap _ ih =>
      have hlater := @ih (pre ++ g) (pre' ++ g') (by simp [hwhole]) (by simp [hwhole'])
        (by simp [significant_append, significant_trivia hgap.trivia,
          significant_trivia hgap.trivia', hrank])
      rw [List.length_append, List.length_append] at hlater
      rwa [indexedFrom_append, indexedFrom_append, indexedFrom_trivia hgap.trivia,
        indexedFrom_trivia hgap.trivia']

namespace Edit

variable {edits edits' : List Edit}

/-- Tokens none of which begins an edit stay if they are not covered. -/
theorem applyFrom_of_eq {covered : Bool} {i : Nat} {ts : List Token}
    (hcovered : ∀ j, j < ts.length → edits.any (fun e => e.covers (i + j)) = covered)
    (hfirst : ∀ j, j < ts.length → ∀ e ∈ edits, e.first ≠ i + j) :
    applyFrom edits i ts = if covered then [] else ts := by
  induction ts generalizing i with
  | nil => simp [applyFrom]
  | cons t ts ih =>
      have hlater := @ih (i + 1)
        (fun j hj => by rw [Nat.add_assoc, Nat.add_comm 1]; exact hcovered (j + 1) (by simpa))
        (fun j hj => by rw [Nat.add_assoc, Nat.add_comm 1]; exact hfirst (j + 1) (by simpa))
      have hhere := hcovered 0 (by simp)
      rw [applyFrom_cons, hlater, resultAt]
      cases hfind : edits.reverse.find? fun e => e.covers i with
      | none =>
          have hnone : covered = false := by
            rw [← hhere, List.any_eq_false]
            intro e he
            exact List.find?_eq_none.1 hfind e (List.mem_reverse.2 he)
          simp [hnone]
      | some e =>
          have he := List.mem_reverse.1 (List.mem_of_find?_eq_some hfind)
          have hsome : covered = true := by
            rw [← hhere, List.any_eq_true]
            have hcovers := List.find?_some hfind
            exact ⟨e, he, hcovers⟩
          have hne : e.first ≠ i := hfirst 0 (by simp) e he
          simp [hsome, hne]

theorem any_covers_alike (h : List.Forall₂ (Edit.Alike k (Matching whole whole')) edits edits')
    {i i' : Nat} (hlevel : Level (Matching whole whole') i i') :
    edits.any (fun e => e.covers i) = edits'.any (fun e => e.covers i') := by
  induction h with
  | nil => rfl
  | cons he _ ih => rw [List.any_cons, List.any_cons, covers_alike he hlevel, ih]

theorem first_ne_of_trivia {e : Edit} {i : Nat} {t : Token}
    (he : ∃ t, whole[e.first]? = some t ∧ t.isTrivia = false) (ht : whole[i]? = some t)
    (htrivia : t.isTrivia = true) : e.first ≠ i := by
  rintro rfl
  obtain ⟨u, hu, hsig⟩ := he
  rw [ht, Option.some.injEq] at hu
  rw [← hu, htrivia] at hsig
  cases hsig

/-- A gap is kept or taken away as a whole, and so is the one in the other row. -/
theorem applyFrom_gap {pre pre' g g' ts ts' : List Token} (hwhole : whole = pre ++ (g ++ ts))
    (hwhole' : whole' = pre' ++ (g' ++ ts'))
    (hrank : (Token.significant pre).length = (Token.significant pre').length)
    (hedits : List.Forall₂ (Edit.Alike k (Matching whole whole')) edits edits')
    (hgap : Gap g g') :
    Row k (applyFrom edits pre.length g) (applyFrom edits' pre'.length g') := by
  have hat {whole pre g ts : List Token} (hwhole : whole = pre ++ (g ++ ts))
      (htrivia : ∀ t ∈ g, t.isTrivia = true) {j : Nat} (hj : j < g.length) :
      ∃ t, whole[pre.length + j]? = some t ∧ t.isTrivia = true ∧
        rank whole (pre.length + j) = (Token.significant pre).length := by
    refine ⟨g[j], ?_, htrivia _ (List.getElem_mem hj), ?_⟩
    · rw [hwhole, List.getElem?_append_right (by omega), Nat.add_sub_cancel_left,
        List.getElem?_append_left hj, List.getElem?_eq_getElem hj]
    · rw [rank, hwhole, List.take_length_add_append, List.take_append_of_le_length (by omega),
        significant_append, significant_trivia fun t ht => htrivia t (List.mem_of_mem_take ht),
        List.append_nil]
  have hlevel {j j' : Nat} (hj : j < g.length) (hj' : j' < g'.length) :
      Level (Matching whole whole') (pre.length + j) (pre'.length + j') := by
    obtain ⟨t, ht, htrivia, hbefore⟩ := hat hwhole hgap.trivia hj
    obtain ⟨t', ht', htrivia', hbefore'⟩ := hat hwhole' hgap.trivia' hj'
    exact level_of_trivia ht ht' htrivia htrivia' (by rw [hbefore, hbefore', hrank])
  have hpos := List.length_pos_of_ne_nil hgap.nonempty
  have hpos' := List.length_pos_of_ne_nil hgap.nonempty'
  have hfirst : applyFrom edits pre.length g =
      if edits.any (fun e => e.covers (pre.length + 0)) then [] else g := by
    apply applyFrom_of_eq
    · intro j hj
      rw [any_covers_alike hedits (hlevel hj hpos'), any_covers_alike hedits (hlevel hpos hpos')]
    · intro j hj e he
      obtain ⟨t, ht, htrivia, -⟩ := hat hwhole hgap.trivia hj
      obtain ⟨e', -, halike⟩ := exists_of_forall₂_mem hedits.flip he
      exact first_ne_of_trivia halike.first.here ht htrivia
  have hsecond : applyFrom edits' pre'.length g' =
      if edits.any (fun e => e.covers (pre.length + 0)) then [] else g' := by
    apply applyFrom_of_eq
    · intro j hj
      rw [any_covers_alike hedits (hlevel hpos hj)]
    · intro j hj e he
      obtain ⟨t, ht, htrivia, -⟩ := hat hwhole' hgap.trivia' hj
      obtain ⟨e', -, halike⟩ := exists_of_forall₂_mem hedits he
      exact first_ne_of_trivia halike.first.there ht htrivia
  rw [hfirst, hsecond]
  split
  · exact .nil
  · exact .of_gap hgap

theorem applyFrom_row {pre pre' ts ts' : List Token} (hwhole : whole = pre ++ ts)
    (hwhole' : whole' = pre' ++ ts')
    (hrank : (Token.significant pre).length = (Token.significant pre').length)
    (hedits : List.Forall₂ (Edit.Alike k (Matching whole whole')) edits edits')
    (h : Row k ts ts') :
    Row k (applyFrom edits pre.length ts) (applyFrom edits' pre'.length ts') := by
  induction h generalizing pre pre' with
  | nil => exact .nil
  | @token t t' ts ts' alike hsig hrest ih =>
      have hsig' : t'.isTrivia = false := alike.isTrivia_eq ▸ hsig
      have hlater := @ih (pre ++ [t]) (pre' ++ [t']) (by simp [hwhole]) (by simp [hwhole'])
        (by simp [significant_append, Token.significant_cons, hsig, hsig', hrank])
      have hmatch : Matching whole whole' pre.length pre'.length := by
        refine ⟨⟨t, by simp [hwhole], hsig⟩, ⟨t', by simp [hwhole'], hsig'⟩, ?_⟩
        rw [hwhole, hwhole', rank_append_length, rank_append_length, hrank]
      rw [List.length_append, List.length_append] at hlater
      rw [applyFrom_cons, applyFrom_cons]
      exact (Row.of_alike (resultAt_alike hedits hmatch.level alike)).append hlater
  | @gap g g' ts ts' hgap _ ih =>
      have hlater := @ih (pre ++ g) (pre' ++ g') (by simp [hwhole]) (by simp [hwhole'])
        (by simp [significant_append, significant_trivia hgap.trivia,
          significant_trivia hgap.trivia', hrank])
      rw [List.length_append, List.length_append] at hlater
      rw [applyFrom_append, applyFrom_append]
      exact (applyFrom_gap hwhole hwhole' hrank hedits hgap).append hlater

end Edit

end

/-- Rows with other gaps are resolved to such rows. -/
theorem resolveTokens_alike {ts ts' : List Token} (h : Row k ts ts') :
    Resolving.Parallel k (Row k) (resolveTokens ts) (resolveTokens ts') := by
  have hindexed : List.Forall₂ (Corresponds k (Matching ts ts')) (indexed ts) (indexed ts') :=
    @indexedFrom_row k ts ts' [] [] ts ts' rfl rfl rfl h
  rw [resolveTokens, resolveTokens]
  apply (edits_alike hindexed).bind
  intro es es' hes
  exact .pure (@Edit.applyFrom_row k ts ts' es es' [] [] ts ts' rfl rfl rfl hes h)

end Resolve

end MapScript
