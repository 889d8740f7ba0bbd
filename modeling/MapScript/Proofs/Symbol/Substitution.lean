import MapScript.Proofs.Symbol.Remaining
import MapScript.Proofs.Symbol.Splice

/-!
# Resolution as a substitution

The edits of a row come from constants, from areas that are declared and from areas that
are used, and each of these is looked for at every token.  Two edits that meet are the
same: an operand with a value holds no directive, so no declaration lies within it, and
a name after a value stands in it only if it is all of it.  So the edits of a row are
one simultaneous substitution, and around the rows a script keeps its shape.
-/

namespace MapScript

open Evaluation (Sound Assigns)

/-- No directive stands in an expression that has a value. -/
theorem Expression.kind_ne_directive_of_fold {values : Text → Option Number} {ts : List Token}
    {value : Number} (h : fold values ts = .ok (some value)) {t : Token} (ht : t ∈ ts) :
    t.kind ≠ .directive := by
  intro hkind
  rcases (fit_of_fold h).operates t ht with hnumber | hword | ⟨c, -, hpunct⟩
  · rw [hkind] at hnumber
    cases hnumber
  · rw [hkind] at hword
    cases hword
  · rw [Token.kind_of_isPunct hpunct] at hkind
    cases hkind

namespace Resolve

/-! ### Edits that meet -/

/-- Parts of an ordered row that begin together and end at one index are one. -/
theorem eq_of_getLast_eq {row part part' : List Indexed} (hrow : row.Pairwise fun x y => x.2 < y.2)
    (h : part <+: row) (h' : part' <+: row) (hne : part ≠ []) (hne' : part' ≠ [])
    (hlast : (part.getLast hne).2 = (part'.getLast hne').2) : part = part' := by
  have hlonger {xs ys : List Indexed} (hys : ys <+: row) (hxs : xs <+: ys) (hx : xs ≠ [])
      (hy : ys ≠ []) (heq : (xs.getLast hx).2 = (ys.getLast hy).2) : xs = ys := by
    obtain ⟨more, rfl⟩ := hxs
    by_cases hmore : more = []
    · rw [hmore, List.append_nil]
    · have hlt := (List.pairwise_append.1 (hrow.sublist hys.sublist)).2.2 _ (List.getLast_mem hx) _
        (List.getLast_mem hmore)
      rw [List.getLast_append_of_ne_nil _ hmore] at heq
      omega
  rcases List.prefix_or_prefix_of_prefix h h' with hle | hle
  · exact hlonger h' hle hne hne' hlast
  · exact (hlonger h hle hne' hne hlast.symm).symm

namespace Edit

theorem Encloses.within {tokens : List Token} {e : Edit} (h : e.Encloses tokens) :
    e.Within tokens := by
  obtain ⟨part, rest, hdrop, -, hpart, hlast⟩ := h.exists_part
  have hlength := congrArg List.length hdrop
  rw [List.length_drop, List.length_append] at hlength
  have := List.length_pos_of_ne_nil hpart
  exact ⟨by omega, by omega⟩

section
variable {table : SymbolTable} {tokens : List Token} {e e' : Edit}

/-- What covers the place of an area is the edit that numbers it. -/
theorem Arises.eq_of_numbers (h : e.Arises table (indexed tokens))
    (hfree : ∀ name ∈ table.areas, table.isConstant name = false) {place : Indexed}
    (hplace : AreaPlace (indexed tokens) place) (hnumbers : e'.Numbers table place)
    (hcovers : e.covers place.2 = true) : e = e' := by
  obtain ⟨area, harea, rfl⟩ := hnumbers
  obtain ⟨hname, p, j, more, hp, hsuffix⟩ := hplace.trails
  have hdeclared := SymbolTable.mem_areas_of_areaId? harea
  obtain ⟨area', harea', rfl⟩ :=
    h.numbers_of_covers hsuffix hp hname (hfree _ hdeclared) hcovers
  rw [Option.some.inj (harea.symm.trans harea')]

/-- No operand with a value reaches to the operand of a later declaration. -/
theorem not_reaches_operand {first first' : Token} {i i' m : Nat} {others others' : List Indexed}
    {values : Text → Option Number} {value : Number}
    (hrow : (first, i) :: others <:+ indexed tokens)
    (hfolds : Expression.fold values (first :: (others.take m).map Prod.fst) = .ok (some value))
    (hform : first.kind = .word ∧ others.take m = [] ∨ first.isPunct '(' = true)
    (hplace : OperandPlace (indexed tokens) ((first', i') :: others')) (hlater : i < i') :
    (((first, i) :: others.take m).getLast (List.cons_ne_nil _ _)).2 < i' := by
  by_contra hreaches
  obtain ⟨c, j, name, k, hdeclared, hconst, hname⟩ := hplace
  have hordered := (pairwise_indexed tokens).sublist hdeclared.sublist
  have hdirective : c.kind = .directive := by
    rw [isConst, Bool.and_eq_true, beq_iff_eq] at hconst
    exact hconst.1
  have hk : k < i' :=
    List.rel_of_pairwise_cons (List.pairwise_cons.1 hordered).2 List.mem_cons_self
  rcases List.suffix_or_suffix_of_suffix hrow hdeclared with hwithin | hwithin
  · -- the first operand begins at the directive or behind it
    rcases List.suffix_cons_iff.1 hwithin with heq | hwithin
    · obtain ⟨hhead, -⟩ := List.cons.inj heq
      obtain ⟨rfl, -⟩ := Prod.mk.inj hhead
      exact Expression.kind_ne_directive_of_fold hfolds List.mem_cons_self hdirective
    rcases List.suffix_cons_iff.1 hwithin with heq | hwithin
    · obtain ⟨hhead, -⟩ := List.cons.inj heq
      obtain ⟨rfl, rfl⟩ := Prod.mk.inj hhead
      rcases hform with ⟨-, halone⟩ | hopener
      · simp only [halone, List.getLast_singleton] at hreaches
        exact hreaches hlater
      · rw [Token.kind_of_isPunct hopener] at hname
        cases hname
    · rcases List.suffix_cons_iff.1 hwithin with heq | hwithin
      · have hsame := congrArg Prod.snd (List.cons.inj heq).1
        exact hlater.ne hsame
      · have hbehind := (List.pairwise_cons.1 (List.pairwise_cons.1 hordered).2).2
        have hlt := List.rel_of_pairwise_cons hbehind (hwithin.subset List.mem_cons_self)
        exact absurd hlater (Nat.lt_asymm hlt)
  · -- the directive stands within the first operand
    obtain ⟨before, hwhole⟩ := hwithin
    obtain ⟨after, hpart⟩ := exists_of_covered (m := m)
      ((pairwise_indexed tokens).sublist hrow.sublist) hwhole.symm (by omega)
    have hmem : c ∈ first :: (others.take m).map Prod.fst := by
      have := List.mem_map_of_mem (f := Prod.fst)
        (show (c, j) ∈ (first, i) :: others.take m by rw [hpart]; simp)
      simpa using this
    exact Expression.kind_ne_directive_of_fold hfolds hmem hdirective

/-- Operands that begin and end together are replaced by the same. -/
theorem numeral_eq_of_operand {values values' : Text → Option Number} {operand : List Token}
    {value value' : Number} {raw raw' : Text}
    (hassigns : Assigns table values (Operand.references operand))
    (hassigns' : Assigns table values' (Operand.references operand))
    (hfolds : Expression.fold values operand = .ok (some value))
    (hfolds' : Expression.fold values' operand = .ok (some value'))
    (hformat : value.format = .ok raw) (hformat' : value'.format = .ok raw') : raw = raw' := by
  have hvalues : ∀ ref ∈ Operand.references operand, values ref.raw = values' ref.raw :=
    fun ref href => (hassigns ref href).unique (hassigns' ref href)
  rw [Expression.fold_congr ⟨.of_lexemes rfl, hvalues⟩, hfolds'] at hfolds
  obtain rfl := Option.some.inj (Except.ok.inj hfolds)
  exact Except.ok.inj (hformat.symm.trans hformat')

/-- Two edits of a row that meet are the same. -/
theorem Arises.eq_of_meets (h : e.Arises table (indexed tokens))
    (h' : e'.Arises table (indexed tokens))
    (hfree : ∀ name ∈ table.areas, table.isConstant name = false) (hencloses : e.Encloses tokens)
    (hencloses' : e'.Encloses tokens) (hfirst : e.first ≤ e'.first) (hlast : e'.first ≤ e.last) :
    e = e' := by
  cases h' with
  | @area name i _ hplace hnumbers _ =>
      apply h.eq_of_numbers hfree hplace hnumbers
      obtain ⟨area, -, rfl⟩ := hnumbers
      exact covers_iff.2 ⟨hfirst, hlast⟩
  | @operand first' i' m' others' values' value' raw' hplace' hlength' hassigns' hfolds' hform'
      hformat' =>
      have hwithin' := hencloses'.within.1
      cases h with
      | @area name i _ hplace hnumbers _ =>
          refine (Arises.eq_of_numbers (.operand hplace' hlength' hassigns' hfolds' hform' hformat')
            hfree hplace hnumbers ?_).symm
          obtain ⟨area, -, rfl⟩ := hnumbers
          dsimp only at hfirst hlast hwithin'
          exact covers_iff.2 ⟨hlast, by dsimp only; omega⟩
      | @operand first i m others values value raw hplace _ hassigns hfolds hform hformat =>
          rcases Nat.lt_or_eq_of_le hfirst with hlater | hsame
          · exact absurd (not_reaches_operand hplace.suffix hfolds hform hplace' hlater)
              (Nat.not_lt.2 hlast)
          · -- the operands are read from one place, to one end
            dsimp only at hsame
            subst hsame
            obtain ⟨hhead, rfl⟩ := List.cons.inj (eq_of_index_eq hplace.suffix hplace'.suffix)
            obtain rfl : first = first' := (Prod.mk.inj hhead).1
            have hends := hencloses.nested hencloses' hfirst hlast
            have hends' := hencloses'.nested hencloses (Nat.le_refl _) hwithin'
            have hpart : (first, i) :: others.take m = (first, i) :: others.take m' := by
              refine eq_of_getLast_eq ((pairwise_indexed tokens).sublist hplace.suffix.sublist)
                (List.take_prefix (m + 1) ((first, i) :: others))
                (List.take_prefix (m' + 1) ((first, i) :: others))
                (List.cons_ne_nil _ _) (List.cons_ne_nil _ _) (Nat.le_antisymm hends' hends)
            have htake : others.take m = others.take m' := (List.cons.inj hpart).2
            rw [← htake] at hassigns' hfolds'
            obtain rfl := numeral_eq_of_operand hassigns hassigns' hfolds hfolds' hformat hformat'
            simp only [htake]

end

/-! ### Edits of different tokens -/

/-- The edit replaces one token, or what begins two places behind a token of the row. -/
def Opens (row : List Indexed) (e : Edit) : Prop :=
  e.first = e.last ∨ ∃ x name first more, x :: name :: (first, e.first) :: more <:+ row

theorem replaceName_single (value : Number) (i : Nat) (span : Span) (table : SymbolTable) :
    Ends (some <$> replaceBy value i i span) table (fun edit _ => ∀ e ∈ edit, e.first = e.last)
      (fun _ _ => True) := by
  rw [Ends.map_iff]
  apply (replaceBy_ends value i i span table).mono
  · rintro e table' ⟨-, hfirst, hlast, -⟩ e' ⟨⟩
    rw [hfirst, hlast]
  · exact fun _ _ _ => trivial

theorem declareArea_single (coordinates : Nat) (rest : List Indexed) (table : SymbolTable) :
    Ends (declareArea coordinates rest) table (fun edit _ => ∀ e ∈ edit, e.first = e.last)
      (fun _ _ => True) := by
  unfold declareArea
  split
  · next name i others _ =>
    simp only [Ends.bind_iff, Ends.get_iff]
    split
    · simp
    simp only [Ends.bind_iff, Ends.modify_iff, Ends.get_iff]
    split
    · exact replaceName_single _ i _ _
    · simp
  · simp

theorem referArea_single (rest : List Indexed) (table : SymbolTable) :
    Ends (referArea rest) table (fun edit _ => ∀ e ∈ edit, e.first = e.last)
      (fun _ _ => True) := by
  unfold referArea
  split
  · next name i others =>
    split
    · simp
    simp only [Ends.bind_iff, Ends.get_iff]
    split
    · exact replaceName_single _ i _ _
    · split <;> simp
  · simp

theorem foldDeclaration_first (name : Token) (rest : List Indexed) (table : SymbolTable) :
    Ends (foldDeclaration name rest) table
      (fun edit _ => ∀ e ∈ edit, ∃ first more, rest = (first, e.first) :: more)
      (fun _ _ => True) := by
  unfold foldDeclaration
  split
  · simp
  next n hn =>
    simp only [Ends.bind_iff, Ends.get_iff, Ends.lift_iff, Resolving.evaluate_ends_iff]
    refine ⟨?_, fun _ _ => trivial⟩
    rintro ⟨⟩ -
    refine Ends.of_run ?_ fun _ _ _ => trivial
    intro value memo _
    split
    · next value first i more hpart _ =>
      split
      · simp
      · rw [Ends.map_iff]
        apply (replaceBy_ends value i _ _ _).mono
        · rintro e table' ⟨-, hfirst, -⟩ e' ⟨⟩
          obtain ⟨others, m, rfl, -, -⟩ := exists_of_take hpart
          rw [hfirst]
          exact ⟨first, others, rfl⟩
        · exact fun _ _ _ => trivial
    · simp

theorem editAt_opens (x : Indexed) (rest : List Indexed) (table : SymbolTable) :
    Ends (editAt x.1 rest) table
      (fun edit _ => ∀ e ∈ edit, e.first = e.last ∨
        ∃ name first more, rest = name :: (first, e.first) :: more) (fun _ _ => True) := by
  unfold editAt
  split
  · split
    · next name i rest =>
      split
      · apply (foldDeclaration_first name rest table).weaken
        intro edit _ hedit e he
        obtain ⟨first, more, rfl⟩ := hedit e he
        exact Or.inr ⟨_, first, more, rfl⟩
      · simp
    · simp
  split
  · simp
  split
  · exact (declareArea_single _ rest table).weaken fun _ _ h e he => Or.inl (h e he)
  split
  · exact (referArea_single rest table).weaken fun _ _ h e he => Or.inl (h e he)
  · simp

/-- Of two edits of a row one replaces a single token, or the second begins later. -/
def Staggered (e e' : Edit) : Prop := e.first = e.last ∨ e'.first = e'.last ∨ e.first < e'.first

theorem staggered_of_opens {name : Indexed} {first : Token} {more : List Indexed} {e e' : Edit}
    (hrow : (name :: (first, e.first) :: more).Pairwise fun x y => x.2 < y.2)
    (h : e'.Opens (name :: (first, e.first) :: more)) : e.Staggered e' := by
  obtain hone | ⟨x, name', first', more', hsuffix⟩ := h
  · exact Or.inr (Or.inl hone)
  · have hmem : (first', e'.first) ∈ more := by
      rcases List.suffix_cons_iff.1 hsuffix with heq | hsuffix
      · rw [← (List.cons.inj (List.cons.inj heq).2).2]
        exact List.mem_cons_self
      rcases List.suffix_cons_iff.1 hsuffix with heq | hsuffix
      · rw [← (List.cons.inj heq).2]
        simp
      · exact hsuffix.subset (by simp)
    exact Or.inr (Or.inr (List.rel_of_pairwise_cons (List.pairwise_cons.1 hrow).2 hmem))

theorem edits_staggered {row : List Indexed} (hrow : row.Pairwise fun x y => x.2 < y.2)
    (table : SymbolTable) :
    Ends (edits row) table (fun es _ => (∀ e ∈ es, e.Opens row) ∧ es.Pairwise Staggered)
      (fun _ _ => True) := by
  induction row generalizing table with
  | nil => simp [edits]
  | cons x rest ih =>
      have hrest := (List.pairwise_cons.1 hrow).2
      rw [edits]
      simp only [Ends.bind_iff, Ends.pure_iff]
      apply (editAt_opens x rest table).weaken
      intro here table₁ hhere
      apply (ih hrest table₁).weaken
      rintro later table₂ ⟨hopens, hlater⟩
      constructor
      · intro e he
        rcases List.mem_append.1 he with he | he
        · obtain hone | ⟨name, first, more, rfl⟩ := hhere e (Option.mem_toList.1 he)
          · exact Or.inl hone
          · exact Or.inr ⟨x, name, first, more, List.suffix_rfl⟩
        · obtain hone | ⟨y, name, first, more, hsuffix⟩ := hopens e he
          · exact Or.inl hone
          · exact Or.inr ⟨y, name, first, more, hsuffix.trans (List.suffix_cons x rest)⟩
      · refine List.pairwise_append.2 ⟨?_, hlater, ?_⟩
        · cases here <;> simp
        · intro e he e' he'
          obtain hone | ⟨name, first, more, rfl⟩ := hhere e (Option.mem_toList.1 he)
          · exact Or.inl hone
          · exact staggered_of_opens hrest (hopens e' he')

/-- The edits that a row calls for are one simultaneous substitution. -/
theorem Simultaneous.of_edits {tokens : List Token} {es : List Edit} {table : SymbolTable}
    (hfree : ∀ name ∈ table.areas, table.isConstant name = false)
    (hencloses : ∀ e ∈ es, e.Encloses tokens)
    (hedits : EditsOf (indexed tokens) (indexed tokens) es table)
    (hstaggered : es.Pairwise Staggered) : Simultaneous tokens es := by
  refine .of_apart (fun e he => (hencloses e he).within) (hstaggered.imp_of_mem ?_)
  intro e e' he he' hstagger
  by_cases hmeets : e.first ≤ e'.first ∧ e'.first ≤ e.last ∨ e'.first ≤ e.first ∧ e.first ≤ e'.last
  · have heq : e = e' := by
      have h := hedits.arises e he
      have h' := hedits.arises e' he'
      rcases hmeets with ⟨hfirst, hlast⟩ | ⟨hfirst, hlast⟩
      · exact h.eq_of_meets h' hfree (hencloses e he) (hencloses e' he') hfirst hlast
      · exact (h'.eq_of_meets h hfree (hencloses e' he') (hencloses e he) hfirst hlast).symm
    subst heq
    obtain hone | hone | hlt := hstagger
    · exact Or.inr (Or.inr ⟨rfl, hone⟩)
    · exact Or.inr (Or.inr ⟨rfl, hone⟩)
    · exact absurd hlt (Nat.lt_irrefl _)
  · rw [Apart]
    omega

end Edit

/-! ### Rows one after the other -/

/-- Rows with their names resolved, in the order of the script. -/
def resolveRows (rows : List (List Token)) : Resolving (List (List Token)) :=
  rows.mapM resolveTokens

theorem run_resolveRows_single {tokens out : List Token} {table table' : SymbolTable}
    (h : (resolveTokens tokens).run.run table = (.ok out, table')) :
    (resolveRows [tokens]).run.run table = (.ok [out], table') := by
  rw [resolveRows, List.mapM_cons, List.mapM_nil, Ends.run_bind, h]
  rfl

theorem run_resolveRows_append {rows rows' outs outs' : List (List Token)}
    {table table' table'' : SymbolTable}
    (h : (resolveRows rows).run.run table = (.ok outs, table'))
    (h' : (resolveRows rows').run.run table' = (.ok outs', table'')) :
    (resolveRows (rows ++ rows')).run.run table = (.ok (outs ++ outs'), table'') := by
  rw [resolveRows] at h h' ⊢
  rw [List.mapM_append, Ends.run_bind, h]
  dsimp only
  rw [Ends.run_bind, h']
  rfl

theorem resolveRows_courses (rows : List (List Token)) (table : SymbolTable) :
    Courses (resolveRows rows) table (areasIn table rows) fun _ _ => True := by
  induction rows generalizing table with
  | nil => exact .pure trivial
  | cons tokens rows ih =>
      have hnames : areasIn table (tokens :: rows) =
          areasIn table [tokens] ++ (areasIn table rows ++ []) := by
        rw [List.append_nil, ← areasIn_append]
        rfl
      rw [hnames, resolveRows, List.mapM_cons]
      refine (resolveTokens_edited tokens table).bind fun out table₁ hcourse => ?_
      rw [← areasIn_grow hcourse.grows]
      exact (ih table₁).bind fun outs table₂ _ => .pure fun _ _ => trivial

/-- What the edits do that a row calls for, on a table whose areas are no constants. -/
theorem simultaneous_of_run {tokens : List Token} {es : List Edit} {table table' : SymbolTable}
    (hsound : Sound table table.values)
    (hfree : ∀ name ∈ table.areas, table.isConstant name = false)
    (hrun : (edits (indexed tokens)).run.run table = (.ok es, table')) :
    Edit.Simultaneous tokens es := by
  obtain ⟨hcourse, hedits⟩ := (edits_courses List.suffix_rfl table).of_run_ok hrun
  refine .of_edits ?_ ((Edit.edits_encloses List.suffix_rfl table).of_run_ok hrun) (hedits hsound)
    ((Edit.edits_staggered (pairwise_indexed tokens) table).of_run_ok hrun).2
  intro name hname
  rw [hcourse.grows.isConstant]
  exact (hcourse.grows.free name hname).elim (hfree name) id

/-! ### The shape of a script -/

mutual

/-- A block without its tokens: what stands around them, with headers, markers and
arguments. -/
def shape : Node → Node
  | .run r => .run ⟨[], r.span⟩
  | .repeated args children openSpan span => .repeated args (shapes children) openSpan span
  | .call c => .call { c with body := c.body.map fun _ => [] }
  | .marker m span => .marker m span
  | .header h => .header h

/-- Blocks without their tokens. -/
def shapes : List Node → List Node
  | [] => []
  | n :: ns => shape n :: shapes ns

end

mutual

theorem resolveNode_shape (n : Node) (table : SymbolTable) :
    Ends (resolveNode n) table
      (fun out table' => shape out = shape n ∧
        (resolveRows (nodeGroups n)).run.run table = (.ok (nodeGroups out), table'))
      (fun _ _ => True) := by
  match n with
  | .run r =>
      rw [resolveNode]
      simp only [Ends.bind_iff, Ends.pure_iff]
      refine Ends.of_run (fun out table' hrun => ?_) fun _ _ _ => trivial
      exact ⟨rfl, run_resolveRows_single hrun⟩
  | .marker m span =>
      rw [resolveNode]
      exact ⟨rfl, rfl⟩
  | .header h =>
      rw [resolveNode]
      exact ⟨rfl, rfl⟩
  | .repeated args children openSpan span =>
      rw [resolveNode]
      simp only [Ends.bind_iff, Ends.pure_iff]
      apply (checkArguments_ends args table).mono
      · rintro u table₁ ⟨rfl, -⟩
        apply (resolveNodes_shape children table₁).weaken
        rintro out table₂ ⟨hshape, hrows⟩
        exact ⟨by rw [shape, shape, hshape], hrows⟩
      · exact fun _ _ _ => trivial
  | .call c =>
      rw [resolveNode.eq_def]
      simp only [Ends.bind_iff]
      apply (checkArguments_ends c.args table).mono
      · rintro u table₁ ⟨rfl, -⟩
        cases hbody : c.body with
        | none =>
            refine ⟨rfl, ?_⟩
            rw [nodeGroups, hbody]
            rfl
        | some body =>
            simp only [Ends.bind_iff, Ends.pure_iff]
            refine Ends.of_run (fun out table' hrun => ?_) fun _ _ _ => trivial
            refine ⟨by simp [shape, hbody], ?_⟩
            rw [nodeGroups, nodeGroups, hbody]
            exact run_resolveRows_single hrun
      · exact fun _ _ _ => trivial

/-- Blocks are resolved row by row and keep what stands around the rows. -/
theorem resolveNodes_shape (ns : List Node) (table : SymbolTable) :
    Ends (resolveNodes ns) table
      (fun out table' => shapes out = shapes ns ∧
        (resolveRows (groups ns)).run.run table = (.ok (groups out), table'))
      (fun _ _ => True) := by
  match ns with
  | [] =>
      rw [resolveNodes]
      exact ⟨rfl, rfl⟩
  | n :: ns =>
      rw [resolveNodes]
      simp only [Ends.bind_iff, Ends.pure_iff]
      apply (resolveNode_shape n table).weaken
      rintro out table₁ ⟨hshape, hrows⟩
      apply (resolveNodes_shape ns table₁).weaken
      rintro outs table₂ ⟨hshapes, hmore⟩
      refine ⟨by rw [shapes, shapes, hshape, hshapes], ?_⟩
      rw [groups, groups]
      exact run_resolveRows_append hrows hmore

end

end Resolve

open Resolve

/-- Each row of a script calls for edits that are one simultaneous substitution, on the
table that the rows before it leave, and is resolved by making them from the last to the
first.  A resolved script has its rows resolved in this way, one after the other, and is
otherwise as it was. -/
theorem Script.resolve_simultaneous {s : Script Node} {table : SymbolTable}
    (hfresh : table.Fresh) :
    (∀ before tokens later outs start es after, groups s.parts = before ++ tokens :: later →
      (resolveRows before).run.run (declare table s.parts) = (.ok outs, start) →
      (edits (indexed tokens)).run.run start = (.ok es, after) →
      Edit.Simultaneous tokens es ∧
        (resolveTokens tokens).run.run start = (.ok (Edit.backToFront es tokens), after)) ∧
    ∀ out last, s.resolve.run.run table = (.ok out, last) →
      (resolveRows (groups s.parts)).run.run (declare table s.parts) =
          (.ok (groups out.parts), last) ∧
        shapes out.parts = shapes s.parts ∧ out.span = s.span := by
  constructor
  · intro before tokens later outs start es after _ hbefore hrun
    have hcourse := ((resolveRows_courses before _).of_run_ok hbefore).1
    have hsimultaneous : Edit.Simultaneous tokens es := by
      refine simultaneous_of_run (hcourse.sound (s.sound_declare hfresh.values)) ?_ hrun
      intro name hname
      rw [hcourse.grows.isConstant]
      refine (hcourse.grows.free name hname).resolve_left ?_
      rw [declare_areas table s.parts, hfresh.areas]
      exact List.not_mem_nil
    refine ⟨hsimultaneous, ?_⟩
    rw [resolveTokens, Ends.run_bind, hrun, hsimultaneous.backToFront]
    rfl
  · intro out last hrun
    have hends : Ends s.resolve table
        (fun out last => (resolveRows (groups s.parts)).run.run (declare table s.parts) =
          (.ok (groups out.parts), last) ∧ shapes out.parts = shapes s.parts ∧ out.span = s.span)
        (fun _ _ => True) := by
      unfold Script.resolve
      simp only [Ends.bind_iff, Ends.modify_iff, Ends.pure_iff]
      apply (resolveNodes_shape s.parts _).weaken
      exact fun parts last h => ⟨h.2, h.1, trivial⟩
    exact hends.of_run_ok hrun

/-- An area that is declared and is the operand of a constant by the same token, and an
operand in parentheses, in a row before a repeated block. -/
def moor : Text :=
  ("actor_area LAKE\n#const actor_area LAKE\n#const X (2 + 3)\n#REPEAT(2)\n" ++
    "avoid_actor_area LAKE\n#END_REPEAT").toList

theorem Script.resolve_simultaneous_moor :
    ∃ s out last es after, ofSource moor = .ok s ∧ s.resolve.run.run {} = (.ok out, last) ∧
      (∃ e ∈ es, e.first < e.last) ∧ (∃ e, [e, e].Sublist es) ∧
      ∃ tokens later, groups s.parts = tokens :: later ∧
        (edits (indexed tokens)).run.run (declare {} s.parts) = (.ok es, after) ∧
        Edit.Simultaneous tokens es ∧
        (resolveTokens tokens).run.run (declare {} s.parts) =
          (.ok (Edit.backToFront es tokens), after) ∧
        (resolveRows (groups s.parts)).run.run (declare {} s.parts) =
          (.ok (groups out.parts), last) ∧ shapes out.parts = shapes s.parts := by
  have hruns : (ofSource moor).toOption.any (fun s =>
      (s.resolve.run.run {}).1.isOk && (groups s.parts).head?.any fun tokens =>
        ((edits (indexed tokens)).run.run (declare {} s.parts)).1.toOption.any
          fun (es : List Edit) => decide ((∃ e ∈ es, e.first < e.last) ∧
            ∃ e ∈ es, [e, e].Sublist es)) = true := by
    decide +kernel
  obtain ⟨s, hs, hruns⟩ := toOption_any_iff.1 hruns
  rw [Bool.and_eq_true, isOk_iff, Option.any_eq_true] at hruns
  obtain ⟨⟨out, hout⟩, tokens, htokens, hedits⟩ := hruns
  obtain ⟨es, hes, hmeet⟩ := toOption_any_iff.1 hedits
  obtain ⟨hwide, e, -, htwice⟩ := of_decide_eq_true hmeet
  obtain ⟨later, hlater⟩ := List.head?_eq_some_iff.1 htokens
  have hfresh : SymbolTable.Fresh {} := ⟨rfl, rfl, rfl⟩
  obtain ⟨hrow, hscript⟩ := resolve_simultaneous (s := s) hfresh
  obtain ⟨hsimultaneous, hresolved⟩ :=
    hrow [] tokens later [] _ es _ hlater rfl (Prod.ext hes rfl)
  obtain ⟨hrows, hshapes, -⟩ := hscript out _ (Prod.ext hout rfl)
  exact ⟨s, out, _, es, _, hs, Prod.ext hout rfl, hwide, ⟨e, htwice⟩, tokens, later, hlater,
    Prod.ext hes rfl, hsimultaneous, hresolved, hrows, hshapes⟩

end MapScript
