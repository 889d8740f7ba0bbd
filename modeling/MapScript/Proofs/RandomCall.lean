import MapScript.RandomCall
import MapScript.Proofs.Expansion

/-!
# What hoisting keeps and makes

Every constant that a random call needs is settled, so moving the calls to the
front refuses no script.  Each declaration it makes is of a name that was not
used; the tokens it leaves are those of the script, numerals, new names and the
fixed ones of declarations.  A script that gets no declaration stays as it is.
-/

namespace MapScript

theorem Text.ofNat_injective {m n : Nat} (h : Text.ofNat m = Text.ofNat n) : m = n := by
  have hm := @Nat.ofDigitChars_ten_toDigits m
  have hn := @Nat.ofDigitChars_ten_toDigits n
  rw [show Nat.toDigits 10 m = Nat.toDigits 10 n from h, hn] at hm
  exact hm.symm

/-- The call and what follows it make up the tokens. -/
theorem RandomCall.tokens_append {ts : List Token} {c : RandomCall} (h : read? ts = some c) :
    ts = c.tokens ++ c.group.rest := by
  unfold read? at h
  split at h
  · next t u rest =>
    split at h
    · obtain ⟨g, hg, rfl⟩ := Option.map_eq_some_iff.1 h
      simp [RandomCall.tokens, RandomCall.arguments, Group.parens?_append hg]
    · simp at h
  · simp at h

namespace Hoist

open Resolve (AllTokens HoldsOfNumerals)

variable {α : Type} {s : Session} {E : Failure → Session → Prop}

@[simp] theorem lift_ends_iff {x : Pass α} {state : State} {Q : α × State → Session → Prop} :
    Ends ((liftM x : Hoisting α).run state) s Q E ↔ Ends x s (fun a s' => Q (a, state) s') E := by
  show Ends (x >>= fun a => pure (a, state)) s Q E ↔ _
  rw [Ends.bind_iff]
  rfl

theorem check_constant {table : SymbolTable} {t : Token} (h : isConstant table t = true) :
    Evaluation.check table [t] = .ok () := by
  simp only [isConstant, Bool.and_eq_true, beq_iff_eq] at h
  rw [Evaluation.check_ok_iff]
  intro ref href
  obtain rfl : ref = t := by simpa [Operand.references, h.1] using href
  rw [Evaluation.require_ok_iff]
  exact Or.inl (by simp [SymbolTable.isConstant, h.2])

theorem blocker?_ends (ts : List Token) {s : Session} (hs : s.Settled) :
    Ends (blocker? ts) s (fun _ s' => s.table.Extends s'.table) (fun e _ => e.Only []) := by
  induction ts generalizing s with
  | nil => exact .refl s.table
  | cons t ts ih =>
      rw [blocker?]
      simp only [Ends.bind_iff, Ends.get_iff]
      split
      · next hconstant =>
        rw [Ends.bind_iff]
        apply (Pass.fold_ends hs (check_constant hconstant) []).weaken
        intro value s₁ hs₁
        split
        · exact hs₁
        · apply (ih (hs.extend hs₁)).weaken
          intro t' s₂ hs₂
          exact hs₁.trans hs₂
      · exact ih hs

/-- Arguments keep their tokens but for constants, which become numerals. -/
theorem foldArguments_ends (ts : List Token) {s : Session} (hs : s.Settled) :
    Ends (foldArguments ts) s
      (fun out s' => s.table.Extends s'.table ∧
        ∀ P, HoldsOfNumerals P → (∀ t ∈ ts, P t) → ∀ t ∈ out, P t)
      (fun e _ => e.Only []) := by
  induction ts generalizing s with
  | nil => exact ⟨.refl s.table, fun P _ h => h⟩
  | cons t ts ih =>
      have hrest {t' : Token} (ht' : ∀ P, HoldsOfNumerals P → P t → P t') {s₁ : Session}
          (hs₁ : s.table.Extends s₁.table) :
          Ends (foldArguments ts) s₁
            (fun out s' => s.table.Extends s'.table ∧
              ∀ P, HoldsOfNumerals P → (∀ u ∈ t :: ts, P u) → ∀ u ∈ t' :: out, P u)
            (fun e _ => e.Only []) := by
        apply (ih (hs.extend hs₁)).weaken
        rintro out s₂ ⟨hs₂, hout⟩
        refine ⟨hs₁.trans hs₂, ?_⟩
        intro P hP hts
        rw [List.forall_mem_cons] at hts ⊢
        exact ⟨ht' P hP hts.1, hout P hP hts.2⟩
      rw [foldArguments]
      simp only [Ends.bind_iff, Ends.get_iff]
      split
      · next hconstant =>
        simp only [Ends.bind_iff]
        apply (Pass.fold_ends hs (check_constant hconstant) []).weaken
        intro value s₁ hs₁
        split
        · next v =>
          simp only [Ends.bind_iff, Ends.pure_iff]
          apply (Pass.ofFault_ends (Resolve.numeral_divides v t.span) s₁ []).weaken
          rintro t' s₂ ⟨rfl, ht'⟩
          obtain ⟨raw, hraw, rfl⟩ := Resolve.numeral_eq_ok ht'
          exact hrest (fun P hP _ => hP v raw t.span hraw) hs₁
        · simp only [Ends.bind_iff, Ends.pure_iff]
          exact hrest (fun P _ h => h) hs₁
      · simp only [Ends.bind_iff, Ends.pure_iff]
        exact hrest (fun P _ h => h) (.refl s.table)

/-- The number found is later than the counter, and its name is not used. -/
theorem freshNumber_spec (stem : Text) (counter : Nat) (used : List Text) :
    counter < (freshNumber stem counter used).1 ∧
      stem ++ Text.ofNat (freshNumber stem counter used).1 ∉ used := by
  fun_induction freshNumber stem counter used with
  | case1 counter used name hmem number taken hrest ih =>
      rw [hrest] at ih
      refine ⟨by omega, ?_⟩
      intro hused
      -- the erased name is that of an earlier number
      have hne : stem ++ Text.ofNat number ≠ name := by
        intro heq
        have := Text.ofNat_injective (List.append_cancel_left heq)
        omega
      exact ih.2 ((List.mem_erase_of_ne hne).2 hused)
  | case2 counter used name hmem => exact ⟨by omega, hmem⟩

/-- The state after some tokens are hoisted: each new declaration is of a name that
was not used before. -/
structure Progress (stem : Text) (state state' : State) : Prop where
  used : state.used ⊆ state'.used
  fresh : ∀ line ∈ state'.declarations, line ∈ state.declarations ∨
    ∃ n call span, stem ++ Text.ofNat n ∉ state.used ∧
      line = declaration (stem ++ Text.ofNat n) call span

theorem Progress.refl (stem : Text) (state : State) : Progress stem state state :=
  ⟨List.Subset.refl _, fun _ h => Or.inl h⟩

theorem Progress.trans {stem : Text} {a b c : State} (hab : Progress stem a b)
    (hbc : Progress stem b c) : Progress stem a c where
  used := fun _ h => hbc.used (hab.used h)
  fresh := by
    intro line hline
    rcases hbc.fresh line hline with hold | ⟨n, call, span, hfresh, hform⟩
    · exact hab.fresh line hold
    · exact Or.inr ⟨n, call, span, fun h => hfresh (hab.used h), hform⟩

/-- A property that new names have. -/
def HoldsOfNames (stem : Text) (P : Token → Prop) : Prop :=
  ∀ n span, P (.made .word (stem ++ Text.ofNat n) span)

/-- The tokens written for some are these or made, and so are those declared. -/
structure Rewrites (stem : Text) (ts : List Token) (state : State) (out : List Token)
    (state' : State) : Prop where
  progress : Progress stem state state'
  tokens : ∀ P, HoldsOfMade P → HoldsOfNames stem P → (∀ t ∈ ts, P t) →
    AllTokens P state.declarations → (∀ t ∈ out, P t) ∧ AllTokens P state'.declarations

theorem Rewrites.refl (stem : Text) (ts : List Token) (state : State) :
    Rewrites stem ts state ts state :=
  ⟨.refl stem state, fun _ _ _ hts hstate => ⟨hts, hstate⟩⟩

theorem Rewrites.append {stem : Text} {ts us out out' : List Token} {a b c : State}
    (h : Rewrites stem ts a out b) (h' : Rewrites stem us b out' c) :
    Rewrites stem (ts ++ us) a (out ++ out') c where
  progress := h.progress.trans h'.progress
  tokens := by
    intro P hP hnames hall hstate
    rw [List.forall_mem_append] at hall ⊢
    obtain ⟨hout, hb⟩ := h.tokens P hP hnames hall.1 hstate
    obtain ⟨hout', hc⟩ := h'.tokens P hP hnames hall.2 hb
    exact ⟨⟨hout, hout'⟩, hc⟩

theorem freshName_ends (stem : Text) (span : Span) (state : State) (s : Session) :
    Ends ((freshName stem span).run state) s
      (fun out s' => s'.table = s.table ∧ out.2.declarations = state.declarations ∧
        out.2.used = out.1 :: state.used ∧
        ∃ n, out.1 = stem ++ Text.ofNat n ∧ stem ++ Text.ofNat n ∉ state.used)
      E := by
  have hfresh := (freshNumber_spec stem state.counter state.used).2
  unfold freshName
  simp only [StateT.run_bind, StateT.run_get, StateT.run_set, StateT.run_pure, Ends.bind_iff,
    Ends.pure_iff]
  generalize (freshNumber stem state.counter state.used).2 = taken
  have hwarn : Ends ((taken.forM fun name =>
      (liftM (Pass.warn (.nameTaken name) span) : Hoisting Unit)).run state) s
      (fun _ s' => s'.table = s.table) E := by
    induction taken generalizing s with
    | nil => rfl
    | cons name taken ih =>
        rw [List.forM_eq_forM, List.forM_cons, StateT.run_bind, Ends.bind_iff, lift_ends_iff]
        exact ih _
  apply hwarn.weaken
  intro u s₁ hs₁
  exact ⟨hs₁, trivial, trivial, _, rfl, hfresh⟩

theorem declaration_all {stem : Text} {P : Token → Prop} (hP : HoldsOfMade P)
    (hnames : HoldsOfNames stem P) (n : Nat) {call : List Token} (hcall : ∀ t ∈ call, P t)
    (span : Span) : ∀ t ∈ declaration (stem ++ Text.ofNat n) call span, P t := by
  have hfixed (kind : TokenKind) (raw : String)
      (hmem : (⟨kind, raw.toList⟩ : Lexeme) ∈ fixedLexemes) : P (.made kind raw.toList span) :=
    hP.fixed _ hmem span
  have hblank : P (.made .blank [' '] span) := hfixed .blank " " (by decide)
  unfold declaration
  simp only [List.forall_mem_append, List.forall_mem_cons]
  refine ⟨⟨⟨hfixed _ _ (by decide), hblank, hnames n span, hblank, by simp⟩, ?_⟩,
    hfixed .newline "\n" (by decide), by simp⟩
  intro t ht
  exact hcall t (List.mem_filter.1 ht).1

/-- A random call is replaced by a new name, or stays. -/
theorem hoistCall_ends (stem : Text) (c : RandomCall) (state : State) {s : Session}
    (hs : s.Settled) :
    Ends ((hoistCall stem c).run state) s
      (fun out s' => s.table.Extends s'.table ∧ Rewrites stem c.tokens state out.1 out.2)
      (fun e _ => e.Only []) := by
  unfold hoistCall
  simp only [StateT.run_bind, Ends.bind_iff, lift_ends_iff]
  apply (blocker?_ends c.arguments hs).weaken
  intro blocker s₁ hs₁
  split
  · simp only [StateT.run_bind, Ends.bind_iff, lift_ends_iff, Pass.warn_ends_iff]
    exact ⟨hs₁, .refl stem c.tokens state⟩
  simp only [StateT.run_bind, Ends.bind_iff, lift_ends_iff]
  apply (freshName_ends stem c.name.span state s₁).weaken
  rintro ⟨name, state₁⟩ s₂ ⟨hs₂, hdeclarations, hused, n, rfl, hfresh⟩
  dsimp only at hdeclarations hused
  have hextends : s.table.Extends s₂.table := hs₂ ▸ hs₁
  apply (foldArguments_ends c.arguments (hs.extend hextends)).weaken
  rintro args s₃ ⟨hs₃, hargs⟩
  show s.table.Extends s₃.table ∧ Rewrites stem c.tokens state
    [.made .word (stem ++ Text.ofNat n) c.span]
    { state₁ with declarations :=
        declaration (stem ++ Text.ofNat n) (c.name :: args) c.name.span :: state₁.declarations }
  rw [hdeclarations]
  refine ⟨hextends.trans hs₃, ⟨?_, ?_⟩, ?_⟩
  · intro x hx
    rw [hused]
    exact List.mem_cons_of_mem _ hx
  · intro line hline
    rcases List.mem_cons.1 hline with rfl | hold
    · exact Or.inr ⟨n, _, _, hfresh, rfl⟩
    · exact Or.inl hold
  · intro P hP hnames hall hstate
    have hcall : ∀ t ∈ c.name :: args, P t := by
      have hall' : ∀ t ∈ c.name :: c.arguments, P t := hall
      rw [List.forall_mem_cons] at hall' ⊢
      exact ⟨hall'.1, hargs P hP.numerals hall'.2⟩
    refine ⟨?_, ?_⟩
    · intro t ht
      rw [List.mem_singleton.1 ht]
      exact hnames n c.span
    · exact List.forall_mem_cons.2 ⟨declaration_all hP hnames n hcall _, hstate⟩

theorem hoistTokens_keep {stem : Text} {recent : List Token} {t : Token} {ts : List Token}
    (h : afterConst recent = true ∨ RandomCall.read? (t :: ts) = none) :
    hoistTokens stem recent (t :: ts) = do
      let later ← hoistTokens stem (remember recent t) ts
      return t :: later := by
  rw [hoistTokens]
  by_cases hconst : afterConst recent = true
  · rw [if_pos hconst]
  · have hread := h.resolve_left hconst
    rw [if_neg hconst]
    split
    · rfl
    · next c hc =>
      rw [hread] at hc
      cases hc

theorem hoistTokens_call {stem : Text} {recent : List Token} {t : Token} {ts : List Token}
    {c : RandomCall} (hconst : ¬afterConst recent = true)
    (hread : RandomCall.read? (t :: ts) = some c) :
    hoistTokens stem recent (t :: ts) = do
      let written ← hoistCall stem c
      let later ← hoistTokens stem (written.foldl remember recent) c.group.rest
      return written ++ later := by
  rw [hoistTokens, if_neg hconst]
  split
  · next hnone =>
    rw [hread] at hnone
    cases hnone
  · next c' hc =>
    rw [hread] at hc
    cases hc
    rfl

/-- A row of tokens with its random calls replaced. -/
theorem hoistTokens_ends (stem : Text) (recent ts : List Token) (state : State) {s : Session}
    (hs : s.Settled) :
    Ends ((hoistTokens stem recent ts).run state) s
      (fun out s' => s.table.Extends s'.table ∧ Rewrites stem ts state out.1 out.2)
      (fun e _ => e.Only []) := by
  induction recent, ts using hoistTokens.induct stem generalizing state s with
  | case1 recent =>
      rw [hoistTokens]
      exact ⟨.refl s.table, .refl stem [] state⟩
  | case2 recent t ts hconst ih =>
      rw [hoistTokens_keep (Or.inl hconst)]
      simp only [StateT.run_bind, Ends.bind_iff]
      apply (ih state hs).weaken
      rintro ⟨later, state₁⟩ s₁ ⟨hs₁, hlater⟩
      exact ⟨hs₁, (Rewrites.refl stem [t] state).append hlater⟩
  | case3 recent t ts hconst hread ih =>
      rw [hoistTokens_keep (Or.inr hread)]
      simp only [StateT.run_bind, Ends.bind_iff]
      apply (ih state hs).weaken
      rintro ⟨later, state₁⟩ s₁ ⟨hs₁, hlater⟩
      exact ⟨hs₁, (Rewrites.refl stem [t] state).append hlater⟩
  | case4 recent t ts hconst c hread _ ih =>
      rw [hoistTokens_call hconst hread, RandomCall.tokens_append hread]
      simp only [StateT.run_bind, Ends.bind_iff]
      apply (hoistCall_ends stem c state hs).weaken
      rintro ⟨written, state₁⟩ s₁ ⟨hs₁, hwritten⟩
      apply (ih written state₁ (hs.extend hs₁)).weaken
      rintro ⟨later, state₂⟩ s₂ ⟨hs₂, hlater⟩
      exact ⟨hs₁.trans hs₂, hwritten.append hlater⟩

/-- The parts of a script with their random calls replaced: as for rows, part by
part. -/
structure RewritesParts (stem : Text) (parts : List Piece) (state : State) (out : List Piece)
    (state' : State) : Prop where
  progress : Progress stem state state'
  tokens : ∀ P, HoldsOfMade P → HoldsOfNames stem P → AllTokens P (parts.map Piece.tokens) →
    AllTokens P state.declarations →
      AllTokens P (out.map Piece.tokens) ∧ AllTokens P state'.declarations

theorem hoistPieces_ends (stem : Text) (parts : List Piece) (state : State) {s : Session}
    (hs : s.Settled) :
    Ends ((hoistPieces stem parts).run state) s
      (fun out s' => s.table.Extends s'.table ∧ RewritesParts stem parts state out.1 out.2)
      (fun e _ => e.Only []) := by
  induction parts generalizing state s with
  | nil => exact ⟨.refl s.table, .refl stem state, fun P _ _ hparts hstate => ⟨hparts, hstate⟩⟩
  | cons p rest ih =>
      have keep (hp : ∀ P, AllTokens P [p.tokens])
          (heq : hoistPieces stem (p :: rest) = do
            let later ← hoistPieces stem rest
            return p :: later) :
          Ends ((hoistPieces stem (p :: rest)).run state) s
            (fun out s' => s.table.Extends s'.table ∧
              RewritesParts stem (p :: rest) state out.1 out.2)
            (fun e _ => e.Only []) := by
        rw [heq]
        simp only [StateT.run_bind, Ends.bind_iff]
        apply (ih state hs).weaken
        rintro ⟨later, state₁⟩ s₁ ⟨hs₁, hlater⟩
        refine ⟨hs₁, hlater.progress, ?_⟩
        intro P hP hnames hparts hstate
        have hrest : AllTokens P (rest.map Piece.tokens) := (List.forall_mem_cons.1 hparts).2
        obtain ⟨hout, hdeclared⟩ := hlater.tokens P hP hnames hrest hstate
        exact ⟨List.forall_mem_cons.2 ⟨hp P _ (by simp), hout⟩, hdeclared⟩
      cases p with
      | cut span => exact keep (by simp [AllTokens, Piece.tokens]) rfl
      | header h => exact keep (by simp [AllTokens, Piece.tokens]) rfl
      | run r =>
          rw [hoistPieces]
          simp only [StateT.run_bind, Ends.bind_iff]
          apply (hoistTokens_ends stem [] r.tokens state hs).weaken
          rintro ⟨tokens, state₁⟩ s₁ ⟨hs₁, htokens⟩
          apply (ih state₁ (hs.extend hs₁)).weaken
          rintro ⟨later, state₂⟩ s₂ ⟨hs₂, hlater⟩
          refine ⟨hs₁.trans hs₂, htokens.progress.trans hlater.progress, ?_⟩
          intro P hP hnames hparts hstate
          obtain ⟨hrun, hrest⟩ := List.forall_mem_cons.1 hparts
          obtain ⟨hout, hdeclared⟩ := htokens.tokens P hP hnames hrun hstate
          obtain ⟨hlast, hdeclared⟩ := hlater.tokens P hP hnames hrest hdeclared
          exact ⟨List.forall_mem_cons.2 ⟨hout, hlast⟩, hdeclared⟩

end Hoist

/-- Hoisting refuses nothing.  It leaves a script as it is, or declares a name in
front of it that was not used. -/
theorem Script.hoist_ends (stem : Text) (script : Script Piece) {s : Session} (hs : s.Settled) :
    Ends (script.hoist stem) s
      (fun out _ =>
        (out = script ∨ ∃ n call span later whole parts, stem ++ Text.ofNat n ∉ s.table.names ∧
          out.parts =
            .run ⟨Hoist.declaration (stem ++ Text.ofNat n) call span ++ later, whole⟩ :: parts) ∧
        ∀ P, HoldsOfMade P → Hoist.HoldsOfNames stem P →
          Resolve.AllTokens P (script.parts.map Piece.tokens) →
          Resolve.AllTokens P (out.parts.map Piece.tokens))
      (fun e _ => e.Only []) := by
  unfold Script.hoist
  simp only [Ends.bind_iff, Ends.get_iff]
  apply (Hoist.hoistPieces_ends stem script.parts _ hs).weaken
  rintro ⟨pieces, state⟩ s₁ ⟨-, hrewrites⟩
  split
  · exact ⟨Or.inl rfl, fun P _ _ h => h⟩
  next hsome =>
    refine ⟨Or.inr ?_, ?_⟩
    · cases hlines : state.declarations.reverse with
      | nil => simp [hlines] at hsome
      | cons line lines =>
          have hmem : line ∈ state.declarations := by
            rw [← List.mem_reverse, hlines]
            simp
          rcases hrewrites.progress.fresh line hmem with hold | ⟨n, call, span, hfresh, rfl⟩
          · simp at hold
          · refine ⟨n, call, span, lines.flatten, _, pieces, ?_, rfl⟩
            intro hname
            exact hfresh (List.mem_append_left _ hname)
    · intro P hP hnames hparts
      obtain ⟨hpieces, hdeclared⟩ := hrewrites.tokens P hP hnames hparts (by simp [Resolve.AllTokens])
      refine List.forall_mem_cons.2 ⟨?_, hpieces⟩
      intro t ht
      obtain ⟨line, hline, ht⟩ := List.mem_flatten.1 ht
      exact hdeclared line (List.mem_reverse.1 hline) t ht

end MapScript
