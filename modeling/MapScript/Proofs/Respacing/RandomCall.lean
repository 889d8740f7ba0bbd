import MapScript.Proofs.RandomCall
import MapScript.Proofs.Respacing.Placement

/-!
# Random calls in rows with other gaps

A random call begins where a parenthesis follows its name at once, so rows with gaps
in the same places have the same calls.  These are declared under the same names in
the same order, and the declarations have no gaps of the script in them.
-/

namespace MapScript

open Grammar

variable {k : Likeness}

/-- The group of parentheses in rows with other gaps. -/
theorem Group.readPart_row {ts ts' : List Token} (h : Row k ts ts') (depth : Nat) :
    Both (fun _ _ => True) (fun g g' => Row k g.inner g'.inner ∧ Token.Alike k g.closer g'.closer ∧
      Row k g.rest g'.rest) (readPart argumentList depth ts) (readPart argumentList depth ts') := by
  induction h generalizing depth with
  | nil => exact .error trivial
  | @token t t' ts ts' alike hsig hrest ih =>
      have hlater (d : Nat) : Both (fun _ _ => True)
          (fun g g' => Row k g.inner g'.inner ∧ Token.Alike k g.closer g'.closer ∧
            Row k g.rest g'.rest)
          ((readPart argumentList d ts).map (cons t)) ((readPart argumentList d ts').map (cons t')) :=
        (ih d).map fun _ _ hg => ⟨.token alike hsig hg.1, hg.2⟩
      cases hopener : t.isPunct argumentList.opener with
      | true =>
          rw [readPart_opener hopener, readPart_opener (alike.isPunct_eq _ ▸ hopener)]
          exact hlater _
      | false =>
          have hopener' := alike.isPunct_eq argumentList.opener ▸ hopener
          cases hcloses : t.isPunct argumentList.closer with
          | false =>
              rw [readPart_token hopener hcloses,
                readPart_token hopener' (alike.isPunct_eq _ ▸ hcloses)]
              exact hlater _
          | true =>
              have hcloses' := alike.isPunct_eq argumentList.closer ▸ hcloses
              cases depth with
              | zero =>
                  rw [readPart_closer_zero hcloses, readPart_closer_zero hcloses']
                  exact .ok ⟨.nil, alike, hrest⟩
              | succ depth =>
                  rw [readPart_closer_succ hcloses, readPart_closer_succ hcloses']
                  exact hlater _
  | @gap g g' ts ts' hgap _ ih =>
      have hbalanced {g : List Token} (hg : ∀ t ∈ g, t.isTrivia = true) :
          Balanced argumentList g :=
        balanced_of_kind argumentList_regular fun t ht => kind_of_isTrivia (hg t ht)
      rw [readPart_balanced (hbalanced hgap.trivia), readPart_balanced (hbalanced hgap.trivia')]
      exact (ih depth).map fun _ _ hg => ⟨.gap hgap hg.1, hg.2⟩

namespace RandomCall

/-- Random calls that differ in gaps and places. -/
structure Alike (k : Likeness) (c c' : RandomCall) : Prop where
  name : Token.Alike k c.name c'.name
  opening : Token.Alike k c.opening c'.opening
  inner : Row k c.group.inner c'.group.inner
  closer : Token.Alike k c.group.closer c'.group.closer
  rest : Row k c.group.rest c'.group.rest

theorem Alike.arguments {c c' : RandomCall} (h : c.Alike k c') :
    Row k c.arguments c'.arguments :=
  ((Row.single h.opening).append h.inner).append (.single h.closer)

theorem Alike.tokens {c c' : RandomCall} (h : c.Alike k c') : Row k c.tokens c'.tokens :=
  (Row.single h.name).append h.arguments

theorem read?_of_trivia {t : Token} (h : t.isTrivia = true) (ts : List Token) :
    read? (t :: ts) = none := by
  have hword : t.isWord "rnd".toList = false := by
    rw [Token.isWord, Bool.and_eq_false_iff, beq_eq_false_iff_ne]
    refine Or.inl fun hkind => ?_
    rw [Token.isTrivia, hkind] at h
    cases h
  cases ts with
  | nil => rfl
  | cons u ts => rw [read?, hword, Bool.false_and, if_neg (by simp)]

theorem read?_of_gap {t u : Token} (h : u.isTrivia = true) (ts : List Token) :
    read? (t :: u :: ts) = none := by
  rw [read?, isPunct_of_kind (kind_of_isTrivia h).1, Bool.and_false, if_neg (by simp)]

/-- A random call stands first in both rows or in neither. -/
theorem read?_alike {t t' : Token} {ts ts' : List Token} (ht : Token.Alike k t t')
    (h : Row k ts ts') : Option.Rel (Alike k) (read? (t :: ts)) (read? (t' :: ts')) := by
  rcases h.uncons with ⟨rfl, rfl⟩ | ⟨u, u', us, us', rfl, rfl, hu, -, hus⟩ |
      ⟨g, g', us, us', rfl, rfl, hgap, -⟩
  · exact .none
  · rw [read?, read?, ht.isWord_eq, hu.isPunct_eq]
    split
    · have hgroup := Group.readPart_row hus 0
      rw [Call.parens?_eq, Call.parens?_eq]
      generalize Group.readPart argumentList 0 us = x at hgroup
      generalize Group.readPart argumentList 0 us' = y at hgroup
      cases hgroup with
      | error _ => exact .none
      | ok hg => exact .some ⟨ht, hu, hg.1, hg.2.1, hg.2.2⟩
    · exact .none
  · have hnone {t : Token} {g us : List Token} (hne : g ≠ [])
        (htrivia : ∀ t ∈ g, t.isTrivia = true) : read? (t :: (g ++ us)) = none := by
      obtain ⟨u, g, rfl⟩ := List.exists_cons_of_ne_nil hne
      exact read?_of_gap (htrivia u (by simp)) _
    rw [hnone hgap.nonempty hgap.trivia, hnone hgap.nonempty' hgap.trivia']
    exact .none

end RandomCall

namespace Hoist

/-- States that differ in places only. -/
structure State.Alike (k : Likeness) (s s' : State) : Prop where
  used : s.used = s'.used
  counter : s.counter = s'.counter
  declarations :
    List.Forall₂ (List.Forall₂ (Token.Alike k)) s.declarations s'.declarations

/-- Passes that hand out names, over states that differ in places only. -/
def Parallel {α β : Type} (k : Likeness) (R : α → β → Prop) (x : Hoisting α) (y : Hoisting β) :
    Prop :=
  ∀ s s', State.Alike k s s' →
    Pass.Parallel k (fun a b => R a.1 b.1 ∧ State.Alike k a.2 b.2) (x.run s) (y.run s')

namespace Parallel

variable {α β α' β' : Type} {R : α → β → Prop} {Q : α' → β' → Prop}

theorem pure {a : α} {b : β} (h : R a b) :
    Parallel k R (pure a : Hoisting α) (pure b : Hoisting β) := fun _ _ hs => .pure ⟨h, hs⟩

theorem bind {x : Hoisting α} {y : Hoisting β} {f : α → Hoisting α'} {g : β → Hoisting β'}
    (h : Parallel k R x y) (hf : ∀ a b, R a b → Parallel k Q (f a) (g b)) :
    Parallel k Q (x >>= f) (y >>= g) := by
  intro s s' hs
  rw [StateT.run_bind, StateT.run_bind]
  exact (h s s' hs).bind fun a b hab => hf a.1 b.1 hab.1 a.2 b.2 hab.2

theorem lift {x : Pass α} {y : Pass β} (h : Pass.Parallel k R x y) :
    Parallel k R (liftM x : Hoisting α) (liftM y : Hoisting β) :=
  fun _ _ hs => h.bind fun _ _ hab => .pure ⟨hab, hs⟩

end Parallel

/-! ### Arguments of a call -/

theorem isConstant_of_trivia (table : SymbolTable) {t : Token} (h : t.isTrivia = true) :
    isConstant table t = false := by
  rw [isConstant, Bool.and_eq_false_iff, beq_eq_false_iff_ne]
  refine Or.inl fun hkind => ?_
  rw [Token.isTrivia, hkind] at h
  cases h

theorem isConstant_alike {table table' : SymbolTable} (htable : table.Alike k table')
    {t t' : Token} (ht : Token.Alike k t t') : isConstant table t = isConstant table' t' := by
  rw [isConstant, isConstant, ht.kind_eq, ht.raw_eq]
  have hlookup := htable.lookup t'.raw
  generalize table.constants.lookup t'.raw = found at hlookup
  generalize table'.constants.lookup t'.raw = found' at hlookup
  cases hlookup <;> rfl

theorem blocker?_trivia {g : List Token} (hg : ∀ t ∈ g, t.isTrivia = true) (ts : List Token) :
    blocker? (g ++ ts) = blocker? ts := by
  induction g with
  | nil => rfl
  | cons t g ih =>
      obtain ⟨ht, hg⟩ := List.forall_mem_cons.1 hg
      rw [List.cons_append, blocker?, ih hg]
      funext s
      show (if isConstant s.table t = true then _ else blocker? ts : Pass (Option Token)).run s = _
      rw [isConstant_of_trivia s.table ht, if_neg (by simp)]
      rfl

/-- Calls need the same constant without a single value, if one. -/
theorem blocker?_alike {ts ts' : List Token} (h : Row k ts ts') :
    Pass.Parallel k (Option.Rel (Token.Alike k)) (blocker? ts) (blocker? ts') := by
  induction h with
  | nil => exact .pure .none
  | token alike hsig _ ih =>
      rw [blocker?, blocker?]
      apply Together.get
      intro s s' hs
      rw [isConstant_alike hs.table alike]
      split
      · apply (Pass.fold_alike (.token alike hsig .nil)).bind
        rintro value _ rfl
        cases value with
        | none => exact .pure (.some alike)
        | some _ => exact ih
      · exact ih
  | gap hgap _ ih => rwa [blocker?_trivia hgap.trivia, blocker?_trivia hgap.trivia']

/-- A token of a call, as it stands in the declaration. -/
def written (t : Token) : Option Number → Pass Token
  | some v => Pass.ofFault (Resolve.numeral v t.span)
  | none => pure t

theorem foldArguments_cons (t : Token) (ts : List Token) :
    foldArguments (t :: ts) = do
      let value ← if isConstant (← get).table t then Pass.fold [t] else pure none
      let t' ← written t value
      return t' :: (← foldArguments ts) := by
  rw [foldArguments]
  refine bind_congr fun s => ?_
  dsimp only
  split
  · refine bind_congr fun value => ?_
    cases value <;> rfl
  · rfl

theorem foldArguments_trivia {g : List Token} (hg : ∀ t ∈ g, t.isTrivia = true)
    (ts : List Token) : foldArguments (g ++ ts) = (g ++ ·) <$> foldArguments ts := by
  induction g with
  | nil => simp
  | cons t g ih =>
      obtain ⟨ht, hg⟩ := List.forall_mem_cons.1 hg
      have hcons : (t :: g ++ · : List Token → List Token) <$> foldArguments ts =
          foldArguments (g ++ ts) >>= fun us => pure (t :: us) := by
        rw [ih hg, ← bind_pure_comp, ← bind_pure_comp, bind_assoc]
        simp
      rw [hcons, List.cons_append, foldArguments_cons]
      simp only [isConstant_of_trivia _ ht, Bool.false_eq_true, if_false, pure_bind, written]
      rfl

/-- Constants are replaced by the same values. -/
theorem foldArguments_alike {ts ts' : List Token} (h : Row k ts ts') :
    Pass.Parallel k (Row k) (foldArguments ts) (foldArguments ts') := by
  induction h with
  | nil => exact .pure .nil
  | @token t t' ts ts' alike hsig _ ih =>
      rw [foldArguments_cons, foldArguments_cons]
      have hwritten (value : Option Number) :
          Pass.Parallel k (Row k) (written t value >>= fun u => (u :: ·) <$> foldArguments ts)
            (written t' value >>= fun u => (u :: ·) <$> foldArguments ts') := by
        have htoken : Pass.Parallel k (Token.Alike k) (written t value) (written t' value) := by
          cases value with
          | none => exact .pure alike
          | some v => exact Pass.ofFault_both (Resolve.numeral_alike v alike.place)
        exact htoken.bind fun _ _ hu => ih.map fun _ _ hrow => (Row.single hu).append hrow
      simp only [bind_pure_comp]
      apply Together.get
      intro s s' hs
      rw [isConstant_alike hs.table alike]
      split
      · apply (Pass.fold_alike (.token alike hsig .nil)).bind
        rintro value _ rfl
        exact hwritten value
      · exact hwritten none
  | gap hgap _ ih =>
      rw [foldArguments_trivia hgap.trivia, foldArguments_trivia hgap.trivia']
      exact ih.map fun _ _ hrow => .gap hgap hrow

/-! ### Calls -/

theorem freshName_alike (stem : Text) {span span' : Span} (h : k.place span.start span'.start) :
    Parallel k Eq (freshName stem span) (freshName stem span') := by
  have hwarn (taken : List Text) : Parallel k (fun _ _ => True)
      (taken.forM fun name => (liftM (Pass.warn (.nameTaken name) span) : Hoisting Unit))
      (taken.forM fun name => (liftM (Pass.warn (.nameTaken name) span') : Hoisting Unit)) := by
    induction taken with
    | nil => exact .pure trivial
    | cons name taken ih =>
        simp only [List.forM_eq_forM, List.forM_cons] at ih ⊢
        exact (Parallel.lift (Pass.warn_alike _ h)).bind fun _ _ _ => ih
  intro s s' hs
  unfold freshName
  simp only [StateT.run_bind, StateT.run_get, pure_bind, ← hs.used, ← hs.counter]
  apply (hwarn _ s s' hs).bind
  rintro ⟨_, t⟩ ⟨_, t'⟩ ⟨-, -⟩
  exact .pure ⟨rfl, rfl, rfl, hs.declarations⟩

theorem declaration_alike (name : Text) {call call' : List Token} (h : Row k call call')
    {span span' : Span} (hplace : k.place span.start span'.start) :
    List.Forall₂ (Token.Alike k) (declaration name call span) (declaration name call' span') := by
  have hmade (kind : TokenKind) (raw : Text) :
      Token.Alike k (.made kind raw span) (.made kind raw span') :=
    Expansion.made_alike kind raw hplace
  unfold declaration
  refine List.rel_append (List.rel_append ?_ h.significant) (.cons (hmade _ _) .nil)
  exact .cons (hmade _ _) (.cons (hmade _ _) (.cons (hmade _ _) (.cons (hmade _ _) .nil)))

/-- A call is declared under the same name, or stays in both rows. -/
theorem hoistCall_alike (stem : Text) {c c' : RandomCall} (h : c.Alike k c') :
    Parallel k (Row k) (hoistCall stem c) (hoistCall stem c') := by
  unfold hoistCall
  apply (Parallel.lift (blocker?_alike h.arguments)).bind
  intro blocker blocker' hblocker
  cases hblocker with
  | some ht =>
      dsimp only
      rw [ht.raw_eq]
      apply (Parallel.lift (Pass.warn_alike _ ht.place)).bind
      rintro _ _ -
      exact .pure h.tokens
  | none =>
      apply (freshName_alike stem h.name.place).bind
      rintro name _ rfl
      apply (Parallel.lift (foldArguments_alike h.arguments)).bind
      intro args args' hargs s s' hs
      have hline := declaration_alike name ((Row.single h.name).append hargs) h.name.place
      exact .pure ⟨.single (Expansion.made_alike _ _ h.name.place), hs.used, hs.counter,
        .cons hline hs.declarations⟩

/-! ### Rows -/

theorem remember_alike {recent recent' : List Token} (h : List.Forall₂ (Token.Alike k) recent recent')
    {t t' : Token} (ht : Token.Alike k t t') :
    List.Forall₂ (Token.Alike k) (remember recent t) (remember recent' t') := by
  rw [remember, remember, ht.isTrivia_eq]
  split
  · exact h
  · exact List.forall₂_take 2 (.cons ht h)

theorem foldl_remember_trivia {g : List Token} (hg : ∀ t ∈ g, t.isTrivia = true)
    (recent : List Token) : g.foldl remember recent = recent := by
  induction g with
  | nil => rfl
  | cons t g ih =>
      obtain ⟨ht, hg⟩ := List.forall_mem_cons.1 hg
      rw [List.foldl_cons, remember, if_pos ht, ih hg]

theorem foldl_remember_alike {ts ts' : List Token} (hts : Row k ts ts')
    {recent recent' : List Token} (h : List.Forall₂ (Token.Alike k) recent recent') :
    List.Forall₂ (Token.Alike k) (ts.foldl remember recent) (ts'.foldl remember recent') := by
  induction hts generalizing recent recent' with
  | nil => exact h
  | token alike _ _ ih => exact ih (remember_alike h alike)
  | gap hgap _ ih =>
      rw [List.foldl_append, List.foldl_append, foldl_remember_trivia hgap.trivia,
        foldl_remember_trivia hgap.trivia']
      exact ih h

theorem afterConst_alike {recent recent' : List Token}
    (h : List.Forall₂ (Token.Alike k) recent recent') : afterConst recent = afterConst recent' := by
  cases h with
  | nil => rfl
  | cons hname hmore =>
      cases hmore with
      | nil => rfl
      | cons hdirective hmore =>
          cases hmore with
          | cons _ _ => rfl
          | nil =>
              rw [afterConst, afterConst, hname.kind_eq,
                Resolve.isConst_congr hdirective.lexeme]

theorem hoistTokens_trivia (stem : Text) (recent : List Token) {g : List Token}
    (hg : ∀ t ∈ g, t.isTrivia = true) (ts : List Token) :
    hoistTokens stem recent (g ++ ts) = (g ++ ·) <$> hoistTokens stem recent ts := by
  induction g with
  | nil => simp
  | cons t g ih =>
      obtain ⟨ht, hg⟩ := List.forall_mem_cons.1 hg
      rw [List.cons_append, hoistTokens_keep (Or.inr (RandomCall.read?_of_trivia ht _)), remember,
        if_pos ht, ih hg, ← bind_pure_comp, ← bind_pure_comp, bind_assoc]
      simp

/-- The same random calls are replaced in both rows. -/
theorem hoistTokens_alike (stem : Text) {ts ts' : List Token} (h : Row k ts ts')
    {recent recent' : List Token} (hrecent : List.Forall₂ (Token.Alike k) recent recent') :
    Parallel k (Row k) (hoistTokens stem recent ts) (hoistTokens stem recent' ts') := by
  induction hn : ts.length using Nat.strongRecOn generalizing ts ts' recent recent' with
  | _ n ih =>
      rcases h.uncons with ⟨rfl, rfl⟩ | ⟨t, t', us, us', rfl, rfl, ht, hsig, hus⟩ |
          ⟨g, g', us, us', rfl, rfl, hgap, hus⟩
      · rw [hoistTokens, hoistTokens]
        exact .pure .nil
      · rw [List.length_cons] at hn
        have hread := RandomCall.read?_alike ht hus
        have hkeep := (ih us.length (by omega) hus (remember_alike hrecent ht) rfl).bind
          fun later later' hrow => Parallel.pure (Row.token ht hsig hrow)
        cases hconst : afterConst recent with
        | true =>
            rw [hoistTokens_keep (Or.inl hconst),
              hoistTokens_keep (Or.inl (afterConst_alike hrecent ▸ hconst))]
            exact hkeep
        | false =>
            generalize hcall : RandomCall.read? (t :: us) = call at hread
            generalize hcall' : RandomCall.read? (t' :: us') = call' at hread
            cases hread with
            | none =>
                rw [hoistTokens_keep (Or.inr hcall), hoistTokens_keep (Or.inr hcall')]
                exact hkeep
            | some hc =>
                have hlt := RandomCall.length_rest_lt hcall
                rw [List.length_cons] at hlt
                rw [hoistTokens_call (by simp [hconst]) hcall,
                  hoistTokens_call (by simp [← afterConst_alike hrecent, hconst]) hcall']
                apply (hoistCall_alike stem hc).bind
                intro written written' hwritten
                apply (ih _ (by omega) hc.rest (foldl_remember_alike hwritten hrecent) rfl).bind
                exact fun _ _ hlater => .pure (hwritten.append hlater)
      · have hpos := List.length_pos_of_ne_nil hgap.nonempty
        rw [List.length_append] at hn
        rw [hoistTokens_trivia stem recent hgap.trivia, hoistTokens_trivia stem recent' hgap.trivia',
          ← bind_pure_comp, ← bind_pure_comp]
        exact (ih us.length (by omega) hus hrecent rfl).bind fun _ _ hrow =>
          .pure (.gap hgap hrow)

theorem hoistPieces_alike (stem : Text) {pieces pieces' : List Piece}
    (h : List.Forall₂ (Piece.Alike k) pieces pieces') :
    Parallel k (List.Forall₂ (Piece.Alike k)) (hoistPieces stem pieces)
      (hoistPieces stem pieces') := by
  induction h with
  | nil => exact .pure .nil
  | cons hpiece _ ih =>
      cases hpiece with
      | run hrow =>
          rw [hoistPieces, hoistPieces]
          apply (hoistTokens_alike stem hrow .nil).bind
          intro tokens tokens' htokens
          exact ih.bind fun _ _ hlater => .pure (.cons (.run htokens) hlater)
      | cut span span' => exact ih.bind fun _ _ hlater => .pure (.cons (.cut span span') hlater)
      | header hlines => exact ih.bind fun _ _ hlater => .pure (.cons (.header hlines) hlater)

theorem words_alike {pieces pieces' : List Piece}
    (h : List.Forall₂ (Piece.Alike k) pieces pieces') :
    pieces.flatMap words = pieces'.flatMap words := by
  have hrow {ts ts' : List Token} (h : Row k ts ts') :
      ((ts.filter fun t => t.kind == .word).map fun t => t.raw) =
        (ts'.filter fun t => t.kind == .word).map fun t => t.raw := by
    have hnone {g : List Token} (hg : ∀ t ∈ g, t.isTrivia = true) :
        g.filter (fun t => t.kind == .word) = [] := by
      rw [List.filter_eq_nil_iff]
      intro t ht hkind
      have htrivia := hg t ht
      rw [Token.isTrivia, eq_of_beq hkind] at htrivia
      cases htrivia
    induction h with
    | nil => rfl
    | token alike _ _ ih =>
        rw [List.filter_cons, List.filter_cons, alike.kind_eq]
        split
        · rw [List.map_cons, List.map_cons, alike.raw_eq, ih]
        · exact ih
    | gap hgap _ ih =>
        rw [List.filter_append, List.filter_append, hnone hgap.trivia, hnone hgap.trivia']
        exact ih
  induction h with
  | nil => rfl
  | cons hpiece _ ih =>
      rw [List.flatMap_cons, List.flatMap_cons, ih]
      cases hpiece with
      | run hpiece => exact congrArg (· ++ _) (hrow hpiece)
      | cut _ _ | header _ => rfl

end Hoist

/-- Random calls of scripts that are alike are declared alike. -/
theorem Script.hoist_alike (stem : Text) {s s' : Script Piece}
    (h : Script.Alike (List.Forall₂ (Piece.Alike k)) s s') :
    Pass.Parallel k (Script.Alike (List.Forall₂ (Piece.Alike k))) (s.hoist stem)
      (s'.hoist stem) := by
  unfold Script.hoist
  apply Together.get
  intro session session' hsession
  have hstart : Hoist.State.Alike k
      { used := session.table.names ++ s.parts.flatMap Hoist.words }
      { used := session'.table.names ++ s'.parts.flatMap Hoist.words } := by
    rw [hsession.table.names, Hoist.words_alike h.1]
    exact ⟨rfl, rfl, .nil⟩
  apply (Hoist.hoistPieces_alike stem h.1 _ _ hstart).bind
  rintro ⟨pieces, state⟩ ⟨pieces', state'⟩ ⟨hpieces, hstate⟩
  have hlines : List.Forall₂ (Token.Alike k) state.declarations.reverse.flatten
      state'.declarations.reverse.flatten := by
    have hreverse := List.rel_reverse hstate.declarations
    generalize state.declarations.reverse = lines at hreverse
    generalize state'.declarations.reverse = lines' at hreverse
    induction hreverse with
    | nil => exact .nil
    | cons hline _ ih => exact List.rel_append hline ih
  dsimp only
  generalize state.declarations.reverse.flatten = tokens at hlines
  generalize state'.declarations.reverse.flatten = tokens' at hlines
  cases hlines with
  | nil => exact .pure h
  | cons ht hts => exact .pure ⟨.cons (.run (.of_alike (.cons ht hts))) hpieces, h.2⟩

end MapScript
