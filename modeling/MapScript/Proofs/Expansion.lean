import MapScript.Placement
import MapScript.Proofs.Session

/-!
# What expansion keeps and makes

Expanding the blocks of a resolved script can only fail for what a call or a
repeated block asks of its arguments.  The tokens of the parts it leaves are those
of the blocks, numerals, and a few fixed ones that the lands and the copies of
objects are written with.
-/

namespace MapScript

/-- The lexemes that the passes write apart from numerals and new names. -/
def fixedLexemes : List Lexeme :=
  [⟨.word, "create_land".toList⟩, ⟨.word, "land_position".toList⟩, ⟨.punct, "\x7b".toList⟩,
    ⟨.punct, "\x7d".toList⟩, ⟨.word, "place_on_specific_land_id".toList⟩,
    ⟨.directive, "#const".toList⟩, ⟨.blank, " ".toList⟩, ⟨.newline, "\n".toList⟩]

/-- A property that every token made by the passes has, new names apart. -/
structure HoldsOfMade (P : Token → Prop) : Prop where
  numerals : Resolve.HoldsOfNumerals P
  integers : ∀ (n : Int) (span : Span), P (.made .number (Text.ofInt n) span)
  fixed : ∀ l ∈ fixedLexemes, ∀ span, P (.made l.kind l.raw span)

/-- The tokens of a leaf. -/
def Leaf.tokens : Leaf → List Token
  | .run r => r.tokens
  | .marker _ _ | .header _ => []

namespace Expansion

open Resolve (AllTokens groups nodeGroups argumentsIn nodeArguments)

theorem repeatCount_ends {args : List (List Token)} (openSpan : Span) {s : Session}
    (hs : s.Settled) (hargs : ∀ arg ∈ args, Evaluation.check s.table arg = .ok ()) :
    Ends (repeatCount args openSpan) s (fun _ s' => s.table.Extends s'.table)
      (fun e _ => e.Only [.argument]) := by
  unfold repeatCount
  split
  · next t ts =>
    rw [Ends.bind_iff]
    apply (Pass.fold_ends hs (hargs _ (by simp)) _).weaken
    intro value s₁ hs₁
    split
    · exact Failure.Only.refuse (List.mem_singleton.2 rfl)
    · exact hs₁
    · next count _ _ =>
      have hdivides : Divides (Number.writeInt count) := Number.format_divides (.int count)
      rw [Ends.bind_iff]
      apply (Pass.ofFault_ends hdivides s₁ _).weaken
      rintro raw s₂ ⟨rfl, -⟩
      exact hs₁
  · exact Failure.Only.refuse (List.mem_singleton.2 rfl)

theorem argumentValue_ends (c : Call) (parameter : Text) {arg : List Token} {s : Session}
    (hs : s.Settled) (harg : Evaluation.check s.table arg = .ok ()) :
    Ends (argumentValue c parameter arg) s (fun _ s' => s.table.Extends s'.table)
      (fun e _ => e.Only [.argument]) := by
  unfold argumentValue
  have hvalue : Ends (if arg.isEmpty then pure none else Pass.fold arg) s
      (fun _ s' => s.table.Extends s'.table) (fun e _ => e.Only [.argument]) := by
    split
    · exact .refl s.table
    · exact Pass.fold_ends hs harg _
  rw [Ends.bind_iff]
  apply hvalue.weaken
  intro value s₁ hs₁
  split
  · exact hs₁
  · exact Failure.Only.refuse (List.mem_singleton.2 rfl)

theorem positive?_pos {value : Number} {count : Int} (h : positive? value = some count) :
    1 ≤ count := by
  unfold positive? at h
  split at h
  · split at h
    · next hpos =>
      cases h
      exact hpos
    · simp at h
  · simp at h

theorem countValue_ends (c : Call) (parameter : Text) {arg : List Token} {s : Session}
    (hs : s.Settled) (harg : Evaluation.check s.table arg = .ok ()) :
    Ends (countValue c parameter arg) s (fun count s' => s.table.Extends s'.table ∧ 1 ≤ count)
      (fun e _ => e.Only [.argument]) := by
  unfold countValue
  rw [Ends.bind_iff]
  apply (argumentValue_ends c parameter hs harg).weaken
  intro value s₁ hs₁
  split
  · next count hcount => exact ⟨hs₁, positive?_pos hcount⟩
  · rw [Ends.bind_iff]
    apply (Pass.ofFault_ends (Number.format_divides value) s₁ _).weaken
    intro shown s₂ _
    exact Failure.Only.refuse (List.mem_singleton.2 rfl)

theorem argumentValues_ends (c : Call) (parameters : List Parameter) {args : List (List Token)}
    {s : Session} (hs : s.Settled)
    (hargs : ∀ arg ∈ args, Evaluation.check s.table arg = .ok ()) :
    Ends (argumentValues c parameters args) s (fun _ s' => s.table.Extends s'.table)
      (fun e _ => e.Only [.argument]) := by
  induction parameters generalizing args s with
  | nil =>
      rw [argumentValues]
      · exact .refl s.table
      · simp
  | cons p ps ih =>
      cases args with
      | nil => exact .refl s.table
      | cons arg args =>
          rw [argumentValues]
          simp only [Ends.bind_iff, Ends.pure_iff]
          apply (argumentValue_ends c p.name hs (hargs arg (by simp))).weaken
          intro value s₁ hs₁
          have hlater : ∀ a ∈ args, Evaluation.check s₁.table a = .ok () := by
            intro a ha
            exact hs₁.check (hargs a (by simp [ha]))
          apply (ih (hs.extend hs₁) hlater).weaken
          intro values s₂ hs₂
          exact hs₁.trans hs₂

theorem mem_stripTrivia {ts : List Token} {t : Token} (h : t ∈ stripTrivia ts) : t ∈ ts := by
  unfold stripTrivia at h
  have h₁ := (List.dropWhile_suffix _).subset (List.mem_reverse.1 h)
  exact (List.dropWhile_suffix _).subset (List.mem_reverse.1 h₁)

/-- The tokens of a land are those of its body, integers and fixed ones. -/
theorem landTokens_all {P : Token → Prop} (hP : HoldsOfMade P) {body : List Token}
    (hbody : ∀ t ∈ body, P t) (span : Span) (p : Point) : ∀ t ∈ landTokens span body p, P t := by
  have hfixed (kind : TokenKind) (raw : String) (h : (⟨kind, raw.toList⟩ : Lexeme) ∈ fixedLexemes) :
      P (.made kind raw.toList span) := hP.fixed _ h span
  have hspace := hfixed .blank " " (by decide)
  have hinner : ∀ t ∈ if (stripTrivia body).isEmpty then [] else
      (Token.made .blank " ".toList span) :: stripTrivia body, P t := by
    split
    · simp
    · intro t ht
      rcases List.mem_cons.1 ht with rfl | ht
      · exact hspace
      · exact hbody t (mem_stripTrivia ht)
  unfold landTokens
  simp only [List.forall_mem_append, List.forall_mem_cons]
  refine ⟨⟨⟨hfixed _ _ (by decide), hspace, hfixed _ _ (by decide),
    hspace, hfixed _ _ (by decide), hspace, hP.integers p.x span, hspace,
    hP.integers p.y span, by simp⟩, hinner⟩, hspace, hfixed _ _ (by decide),
    hfixed _ _ (by decide), by simp⟩

/-- The tokens of leaves are those of rows or made. -/
def Descend (rows : List (List Token)) (leaves : List Leaf) : Prop :=
  ∀ P, HoldsOfMade P → AllTokens P rows → AllTokens P (leaves.map Leaf.tokens)

theorem Descend.append {rows rows' : List (List Token)} {leaves leaves' : List Leaf}
    (h : Descend rows leaves) (h' : Descend rows' leaves') :
    Descend (rows ++ rows') (leaves ++ leaves') := by
  intro P hP hrows
  rw [AllTokens.append_iff] at hrows
  rw [List.map_append, AllTokens.append_iff]
  exact ⟨h P hP hrows.1, h' P hP hrows.2⟩

theorem Descend.copies {rows : List (List Token)} {body : List Leaf} (h : Descend rows body)
    (count : Nat) : Descend rows (copies count body) := by
  intro P hP hrows row hrow
  obtain ⟨leaf, hleaf, rfl⟩ := List.mem_map.1 hrow
  rw [copies_eq] at hleaf
  obtain ⟨copy, hcopy, hleaf⟩ := List.mem_flatten.1 hleaf
  rw [List.eq_of_mem_replicate hcopy] at hleaf
  exact h P hP hrows leaf.tokens (List.mem_map_of_mem hleaf)

theorem expandCall_ends (c : Call) {s : Session} (hs : s.Settled)
    (hargs : ∀ arg ∈ c.args, Evaluation.check s.table arg = .ok ()) :
    Ends (expandCall c) s
      (fun leaves s' => s.table.Extends s'.table ∧ Descend c.body.toList leaves)
      (fun e _ => e.Only [.argument]) := by
  unfold expandCall
  split
  · exact Failure.Only.refuse (List.mem_singleton.2 rfl)
  next pattern _ =>
    dsimp only
    split
    · exact Failure.Only.refuse (List.mem_singleton.2 rfl)
    split
    · next p ps arg args _ heq =>
      have harg : ∀ a ∈ arg :: args, Evaluation.check s.table a = .ok () := by
        rw [← heq]
        exact hargs
      simp only [Ends.bind_iff]
      apply (countValue_ends c p.name hs (harg arg (by simp))).weaken
      rintro count s₁ ⟨hs₁, hcount⟩
      have hlater : ∀ a ∈ args, Evaluation.check s₁.table a = .ok () := by
        intro a ha
        exact hs₁.check (harg a (by simp [ha]))
      apply (argumentValues_ends c ps (hs.extend hs₁) hlater).weaken
      intro values s₂ hs₂
      apply (Pass.ofFault_ends (pattern.points_divides hcount values) s₂ _).weaken
      rintro points s₃ ⟨rfl, -⟩
      refine ⟨hs₁.trans hs₂, ?_⟩
      intro P hP hbody row hrow
      have hall : ∀ t ∈ c.body.getD [], P t := by
        cases hb : c.body with
        | none => simp
        | some body => exact hbody body (by simp [hb])
      split at hrow
      · simp at hrow
      · rw [List.map_singleton, List.mem_singleton] at hrow
        rw [hrow]
        intro t ht
        obtain ⟨point, -, ht⟩ := List.mem_flatMap.1 ht
        exact landTokens_all hP hall c.span point t ht
    · exact Failure.Only.refuse (List.mem_singleton.2 rfl)

mutual

theorem expandNode_ends (n : Node) {s : Session} (hs : s.Settled)
    (hargs : ∀ arg ∈ nodeArguments n, Evaluation.check s.table arg = .ok ()) :
    Ends (expandNode n) s
      (fun leaves s' => s.table.Extends s'.table ∧ Descend (nodeGroups n) leaves)
      (fun e _ => e.Only [.argument]) := by
  match n with
  | .run r =>
      rw [expandNode]
      exact ⟨.refl s.table, fun P _ h => by simpa [nodeGroups, Leaf.tokens] using h⟩
  | .marker m span =>
      rw [expandNode]
      exact ⟨.refl s.table, fun P _ _ => by simp [AllTokens, Leaf.tokens]⟩
  | .header h =>
      rw [expandNode]
      exact ⟨.refl s.table, fun P _ _ => by simp [AllTokens, Leaf.tokens]⟩
  | .call c =>
      rw [expandNode, nodeGroups]
      exact expandCall_ends c hs hargs
  | .repeated args children openSpan span =>
      rw [nodeArguments, List.forall_mem_append] at hargs
      rw [expandNode, nodeGroups]
      simp only [Ends.bind_iff, Ends.pure_iff]
      apply (expandNodes_ends children hs hargs.2).weaken
      rintro body s₁ ⟨hs₁, hbody⟩
      have hcount : ∀ arg ∈ args, Evaluation.check s₁.table arg = .ok () := by
        intro arg harg
        exact hs₁.check (hargs.1 arg harg)
      apply (repeatCount_ends openSpan (hs.extend hs₁) hcount).weaken
      intro count s₂ hs₂
      exact ⟨hs₁.trans hs₂, hbody.copies count⟩

/-- Expanding the blocks of a resolved script fails for arguments only. -/
theorem expandNodes_ends (ns : List Node) {s : Session} (hs : s.Settled)
    (hargs : ∀ arg ∈ argumentsIn ns, Evaluation.check s.table arg = .ok ()) :
    Ends (expandNodes ns) s
      (fun leaves s' => s.table.Extends s'.table ∧ Descend (groups ns) leaves)
      (fun e _ => e.Only [.argument]) := by
  match ns with
  | [] =>
      rw [expandNodes]
      exact ⟨.refl s.table, fun P _ _ => by simp [AllTokens]⟩
  | n :: ns =>
      rw [argumentsIn, List.forall_mem_append] at hargs
      rw [expandNodes, groups]
      simp only [Ends.bind_iff, Ends.pure_iff]
      apply (expandNode_ends n hs hargs.1).weaken
      rintro leaves s₁ ⟨hs₁, hleaves⟩
      have hlater : ∀ arg ∈ argumentsIn ns, Evaluation.check s₁.table arg = .ok () := by
        intro arg harg
        exact hs₁.check (hargs.2 arg harg)
      apply (expandNodes_ends ns (hs.extend hs₁) hlater).weaken
      rintro more s₂ ⟨hs₂, hmore⟩
      exact ⟨hs₁.trans hs₂, hleaves.append hmore⟩

end

end Expansion

/-- The tokens of a part of an expanded script. -/
def Piece.tokens : Piece → List Token
  | .run r => r.tokens
  | .cut _ | .header _ => []

namespace Placement

open Resolve (AllTokens)

/-- A property of the token that is seen, or of those of the part. -/
def Item.All (P : Token → Prop) : Item → Prop
  | .token t => P t
  | .marker _ _ => True
  | .barrier p => ∀ t ∈ p.tokens, P t

/-- A property of what is placed. -/
def PlacedAll (P : Token → Prop) (placed : List Placed) : Prop :=
  ∀ x ∈ placed, match x with
    | .inl t => P t
    | .inr p => ∀ t ∈ p.tokens, P t

theorem PlacedAll.tokens {P : Token → Prop} {ts : List Token} (h : ∀ t ∈ ts, P t) :
    PlacedAll P (ts.map .inl) := by
  intro x hx
  obtain ⟨t, ht, rfl⟩ := List.mem_map.1 hx
  exact h t ht

theorem PlacedAll.append {P : Token → Prop} {xs ys : List Placed} (hx : PlacedAll P xs)
    (hy : PlacedAll P ys) : PlacedAll P (xs ++ ys) := List.forall_mem_append.2 ⟨hx, hy⟩

theorem before_delivers {P : Token → Prop} {front : List Placed}
    {later : Except Report (List Placed)} (hfront : PlacedAll P front)
    (h : Delivers .argument later (PlacedAll P)) :
    Delivers .argument (before front later) (PlacedAll P) :=
  h.map fun _ hlater => hfront.append hlater

/-- A property of all tokens of an open object. -/
def Object.All (P : Token → Prop) (o : Object) : Prop := ∀ t ∈ o.tokens, P t

theorem Object.All.push {P : Token → Prop} {o : Object} (h : o.All P) {t : Token} (ht : P t) :
    (o.push t).All P := by
  simp only [Object.All, Object.tokens, Object.push, List.mem_cons, List.mem_reverse] at h ⊢
  rintro u (rfl | rfl | hu)
  · exact h _ (Or.inl rfl)
  · exact ht
  · exact h u (Or.inr hu)

theorem Object.abandon_delivers {P : Token → Prop} {o : Object} (h : o.All P) :
    Delivers .argument o.abandon fun ts => ∀ t ∈ ts, P t := by
  unfold Object.abandon
  split
  · exact .ok h
  · exact .error rfl

theorem Object.close_all {P : Token → Prop} (hP : HoldsOfMade P) {o : Object} (h : o.All P)
    {closing : Token} (hclosing : P closing) : ∀ t ∈ o.close closing, P t := by
  unfold Object.close
  split
  · exact List.forall_mem_append.2 ⟨h, by simpa using hclosing⟩
  next m span _ =>
    intro t ht
    obtain ⟨i, -, ht⟩ := List.mem_flatMap.1 ht
    have hfixed (kind : TokenKind) (raw : String)
        (hmem : (⟨kind, raw.toList⟩ : Lexeme) ∈ fixedLexemes) : P (.made kind raw.toList span) :=
      hP.fixed _ hmem span
    have hnewline := hfixed .newline "\n" (by decide)
    have hblank := hfixed .blank " " (by decide)
    have hfront : ∀ u ∈ if 1 < i + 1 then [Token.made .newline "\n".toList span] else [], P u := by
      split
      · simpa using hnewline
      · simp
    have hcopy : ∀ u ∈ o.copy closing span (i + 1), P u := by
      unfold Object.copy
      simp only [List.forall_mem_append, List.forall_mem_cons]
      exact ⟨⟨hfront, h⟩, hblank, hfixed _ _ (by decide), hblank,
        hP.integers (.ofNat (i + 1)) span, hnewline, hclosing, by simp⟩
    exact hcopy t ht

/-- One item at a time: what is placed consists of tokens seen, integers and fixed
ones, whatever object is being read. -/
theorem place_delivers {P : Token → Prop} (hP : HoldsOfMade P) {row : List Item}
    (hrow : ∀ item ∈ row, item.All P) {object : Option Object}
    (hobject : ∀ o ∈ object, o.All P) : Delivers .argument (place object row) (PlacedAll P) := by
  induction row generalizing object with
  | nil =>
      cases object with
      | none => exact .ok (by simp [PlacedAll])
      | some o => exact (Object.abandon_delivers (hobject o rfl)).map fun ts hts => .tokens hts
  | cons item rest ih =>
      have hlater := @ih fun i hi => hrow i (by simp [hi])
      have hitem := hrow item (by simp)
      cases item with
      | token t =>
          replace hitem : P t := hitem
          cases object with
          | none =>
              rw [place]
              split
              · apply hlater
                rintro o ⟨⟩
                simpa [Object.All, Object.tokens] using hitem
              · have hfront : PlacedAll P [.inl t] := by simpa [PlacedAll] using hitem
                exact before_delivers hfront (hlater (by simp))
          | some o =>
              have ho := hobject o rfl
              rw [place]
              split
              · apply hlater
                rintro o' ⟨⟩
                exact ho.push hitem
              split
              · split
                · exact before_delivers (.tokens (o.close_all hP ho hitem)) (hlater (by simp))
                · apply hlater
                  rintro o' ⟨⟩
                  exact ho.push hitem
              · apply hlater
                rintro o' ⟨⟩
                exact ho.push hitem
      | marker m span =>
          cases object with
          | none =>
              rw [place]
              exact .error rfl
          | some o =>
              rw [place]
              split
              · apply hlater
                rintro o' ⟨⟩
                exact hobject o rfl
              · exact .error rfl
      | barrier p =>
          replace hitem : ∀ t ∈ p.tokens, P t := hitem
          have hbarrier : PlacedAll P [.inr p] := by simpa [PlacedAll] using hitem
          cases object with
          | none =>
              rw [place]
              exact before_delivers hbarrier (hlater (by simp))
          | some o =>
              have habandon := Object.abandon_delivers (hobject o rfl)
              rw [place]
              cases ha : o.abandon with
              | error r => exact .error (habandon.2 r ha)
              | ok ts =>
                  exact before_delivers ((PlacedAll.tokens (habandon.1 ts ha)).append hbarrier)
                    (hlater (by simp))

theorem flush_all {P : Token → Prop} {pending : List Token} (h : ∀ t ∈ pending, P t)
    {pieces : List Piece} (hpieces : AllTokens P (pieces.map Piece.tokens)) :
    AllTokens P ((flush pending pieces).map Piece.tokens) := by
  unfold flush
  cases hr : Run.ofTokens? pending.reverse with
  | none => exact hpieces
  | some r =>
      have htokens : r.tokens = pending.reverse := by
        cases hp : pending.reverse with
        | nil => simp [hp, Run.ofTokens?] at hr
        | cons t ts =>
            rw [hp, Run.ofTokens?] at hr
            cases hr
            rfl
      have hrun : ∀ t ∈ r.tokens, P t := by
        intro t ht
        rw [htokens, List.mem_reverse] at ht
        exact h t ht
      exact List.forall_mem_cons.2 ⟨hrun, hpieces⟩

theorem gather_all {P : Token → Prop} {placed : List Placed} (h : PlacedAll P placed)
    {pending : List Token} (hpending : ∀ t ∈ pending, P t) :
    AllTokens P ((gather pending placed).map Piece.tokens) := by
  induction placed generalizing pending with
  | nil => exact flush_all hpending (by simp [AllTokens])
  | cons x rest ih =>
      have hrest : PlacedAll P rest := fun y hy => h y (by simp [hy])
      have hx := h x (by simp)
      cases x with
      | inl t =>
          rw [gather]
          exact ih hrest (List.forall_mem_cons.2 ⟨hx, hpending⟩)
      | inr p =>
          rw [gather]
          apply flush_all hpending
          exact List.forall_mem_cons.2 ⟨hx, ih hrest (by simp)⟩

theorem items_all {P : Token → Prop} {leaf : Leaf} (h : ∀ t ∈ leaf.tokens, P t) :
    ∀ item ∈ items leaf, item.All P := by
  cases leaf with
  | run r =>
      intro item hitem
      obtain ⟨t, ht, rfl⟩ := List.mem_map.1 hitem
      exact h t ht
  | header header => simp [items, Item.All, Piece.tokens]
  | marker m span => cases m <;> simp [items, Item.All, Piece.tokens]

/-- The parts of an expanded script consist of the tokens of its leaves and made
ones. -/
theorem placeAll_delivers {P : Token → Prop} (hP : HoldsOfMade P) {leaves : List Leaf}
    (h : AllTokens P (leaves.map Leaf.tokens)) :
    Delivers .argument (placeAll leaves) fun pieces => AllTokens P (pieces.map Piece.tokens) := by
  have hleaf : ∀ leaf ∈ leaves, ∀ t ∈ leaf.tokens, P t :=
    fun leaf hleaf => h leaf.tokens (List.mem_map_of_mem hleaf)
  unfold placeAll
  split
  · have hitems : ∀ item ∈ leaves.flatMap items, item.All P := by
      intro item hitem
      obtain ⟨leaf, hmem, hitem⟩ := List.mem_flatMap.1 hitem
      exact items_all (hleaf leaf hmem) item hitem
    exact (place_delivers hP hitems (by simp)).map fun placed hplaced =>
      gather_all hplaced (by simp)
  · apply Delivers.ok
    intro row hrow
    obtain ⟨piece, hpiece, rfl⟩ := List.mem_map.1 hrow
    obtain ⟨leaf, hmem, hto⟩ := List.mem_filterMap.1 hpiece
    cases leaf with
    | run r =>
        cases hto
        exact hleaf _ hmem
    | header header =>
        cases hto
        simp [Piece.tokens]
    | marker m span =>
        cases m with
        | cut =>
            cases hto
            simp [Piece.tokens]
        | players m => simp [toPiece?] at hto

/-- Objects are refused for their markers only. -/
theorem kind_of_placeAll_error {leaves : List Leaf} {r : Report}
    (h : placeAll leaves = .error r) : r.cause.kind = .argument := by
  -- every property is as good as any other for the failures
  have htrivial : HoldsOfMade fun _ => True := ⟨by simp [Resolve.HoldsOfNumerals], by simp, by simp⟩
  have htokens : AllTokens (fun _ => True) (leaves.map Leaf.tokens) := by simp [AllTokens]
  exact (placeAll_delivers htrivial htokens).2 r h

end Placement

/-- Expanding a resolved script fails for arguments and markers only, and leaves the
tokens of its blocks and made ones. -/
theorem Script.expand_ends (script : Script Node) {s : Session} (hs : s.Settled)
    (hargs : ∀ arg ∈ Resolve.argumentsIn script.parts, Evaluation.check s.table arg = .ok ()) :
    Ends script.expand s
      (fun out s' => s.table.Extends s'.table ∧
        ∀ P, HoldsOfMade P → Resolve.AllTokens P (Resolve.groups script.parts) →
          Resolve.AllTokens P (out.parts.map Piece.tokens))
      (fun e _ => e.Only [.argument]) := by
  unfold Script.expand
  simp only [Ends.bind_iff, Pass.ofReport_ends_iff, Ends.pure_iff]
  apply (Expansion.expandNodes_ends script.parts hs hargs).weaken
  rintro leaves s₁ ⟨hs₁, hleaves⟩
  constructor
  · intro pieces hpieces
    refine ⟨hs₁, ?_⟩
    intro P hP hrows
    exact (Placement.placeAll_delivers hP (hleaves P hP hrows)).1 pieces hpieces
  · intro r hr
    simpa [Failure.Only] using Placement.kind_of_placeAll_error hr

end MapScript
