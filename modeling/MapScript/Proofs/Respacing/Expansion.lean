import MapScript.Placement
import MapScript.Proofs.Respacing.Resolve

/-!
# Expanding blocks with other gaps

Blocks that differ in their gaps are expanded to parts that differ so, or refused for
the same cause, with the same warnings: arguments have the same values, the tokens
that are made are the same, and an object ends where the other does.
-/

namespace MapScript

variable {k : Likeness}

/-! ### Sessions -/

/-- Sessions that differ in places only. -/
structure Session.Alike (k : Likeness) (s s' : Session) : Prop where
  table : s.table.Alike k s'.table
  warnings : List.Forall₂ (Warning.Alike k) s.warnings s'.warnings

namespace Pass

/-- Passes over sessions that differ in places only. -/
abbrev Parallel {α β : Type} (k : Likeness) (R : α → β → Prop) (x : Pass α) (y : Pass β) : Prop :=
  Together (Failure.Alike k) (Session.Alike k) R x y

variable {α β : Type} {R : α → β → Prop}

theorem run_onTable (f : Resolving α) (s : Session) :
    (onTable f).run.run s =
      ((f.run.run s.table).1, { s with table := (f.run.run s.table).2 }) := by
  have hget : (MonadStateOf.get : Pass Session).run.run s = (.ok s, s) := rfl
  unfold onTable
  rw [Ends.run_bind]
  dsimp only [get, getThe]
  rw [hget]
  dsimp only
  cases hran : f.run.run s.table with
  | mk result table => cases result <;> rfl

theorem onTable_alike {f : Resolving α} {g : Resolving β} (h : Resolving.Parallel k R f g) :
    Parallel k R (onTable f) (onTable g) := by
  intro s s' hs
  obtain ⟨hboth, htable⟩ := h _ _ hs.table
  rw [run_onTable, run_onTable]
  exact ⟨hboth, htable, hs.warnings⟩

/-- An argument has one value in both passes. -/
theorem fold_alike {arg arg' : List Token} (h : Argument k arg arg') :
    Parallel k Eq (fold arg) (fold arg') :=
  onTable_alike (Resolving.evaluate_alike fun _ _ htable =>
    Evaluation.fold_alike htable .nil h.references_alike h.fold_eq)

theorem warn_alike (cause : WarningCause) {span span' : Span}
    (h : k.place span.start span'.start) :
    Parallel k Eq (warn cause span) (warn cause span') := by
  intro s s' hs
  exact ⟨.ok rfl, hs.table, List.rel_append hs.warnings (.cons ⟨rfl, h⟩ .nil)⟩

theorem refuse_alike {cause cause' : Cause} {span span' : Span} (hcause : Cause.Alike k cause cause')
    (h : k.place span.start span'.start) :
    Parallel k R (refuse cause span) (refuse cause' span') :=
  .throw (.report ⟨hcause, h⟩)

theorem ofFault_both {x : Except Fault α} {y : Except Fault β} (h : Both Eq R x y) :
    Parallel k R (ofFault x) (ofFault y) := by
  cases h with
  | ok h => exact .pure h
  | error h =>
      rw [h]
      exact .throw (.fault _)

theorem ofFault_alike (x : Except Fault α) : Parallel k Eq (ofFault x) (ofFault x) := by
  cases x with
  | ok a => exact .pure rfl
  | error f => exact .throw (.fault f)

theorem ofReport_alike {x : Except Report α} {y : Except Report β}
    (h : Both (Report.Alike k) R x y) : Parallel k R (ofReport x) (ofReport y) := by
  cases h with
  | ok h => exact .pure h
  | error h => exact .throw (.report h)

end Pass

/-! ### Leaves -/

/-- Leaves that differ in gaps and places. -/
inductive Leaf.Alike (k : Likeness) : Leaf → Leaf → Prop
  | run {r r' : Run} (row : Row k r.tokens r'.tokens) : Alike k (.run r) (.run r')
  | marker (m : Marker) {span span' : Span} (place : k.place span.start span'.start) :
      Alike k (.marker m span) (.marker m span')
  | header {h h' : Header} (lines : h.lines = h'.lines) : Alike k (.header h) (.header h')

namespace Expansion

theorem repeatCount_alike {args args' : List (List Token)} {openSpan openSpan' : Span}
    (hargs : List.Forall₂ (Argument k) args args')
    (hplace : k.place openSpan.start openSpan'.start) :
    Pass.Parallel k Eq (repeatCount args openSpan) (repeatCount args' openSpan') := by
  have harity : Pass.Parallel k (R := (Eq : Nat → Nat → Prop))
      (Pass.refuse .repeatArity openSpan) (Pass.refuse .repeatArity openSpan') :=
    Pass.refuse_alike (.same _) hplace
  have hcount {t t' : Token} {ts ts' : List Token} (harg : Argument k (t :: ts) (t' :: ts')) 
      (ht : k.place t.span.start t'.span.start) :
      Pass.Parallel k Eq (repeatCount [t :: ts] openSpan) (repeatCount [t' :: ts'] openSpan') := by
    unfold repeatCount
    apply (Pass.fold_alike harg).bind
    rintro value _ rfl
    split
    · exact Pass.refuse_alike (.repeatCount harg.quote_rawText) ht
    · exact .pure rfl
    · apply (Pass.ofFault_alike _).bind
      rintro _ _ -
      apply (Pass.warn_alike _ hplace).bind
      rintro _ _ -
      exact .pure rfl
  cases hargs with
  | nil => exact harity
  | cons harg hmore =>
      cases hmore with
      | cons _ _ => cases harg <;> exact harity
      | nil =>
          cases harg with
          | nil => exact harity
          | token alike hsig hrest => exact hcount (.token alike hsig hrest) alike.place
          | header alike hkind htext htext' hquote hrest =>
              exact hcount (.header alike hkind htext htext' hquote hrest) alike.place

theorem argumentSpan_alike {arg arg' : List Token} (h : Argument k arg arg') {empty empty' : Span}
    (hempty : k.place empty.start empty'.start) :
    k.place (argumentSpan arg empty).start (argumentSpan arg' empty').start := by
  cases h with
  | nil => exact hempty
  | token alike _ _ | header alike _ _ _ _ _ => exact alike.place

section
variable {c c' : Call}

theorem argumentValue_alike (hname : c.name = c'.name) (hplace : k.place c.span.start c'.span.start)
    (parameter : Text) {arg arg' : List Token} (h : Argument k arg arg') :
    Pass.Parallel k Eq (argumentValue c parameter arg) (argumentValue c' parameter arg') := by
  have hvalue : Pass.Parallel k Eq (if arg.isEmpty then pure none else Pass.fold arg)
      (if arg'.isEmpty then pure none else Pass.fold arg') := by
    rw [← h.isEmpty_eq]
    split
    · exact .pure rfl
    · exact Pass.fold_alike h
  have hshown : k.quote (if arg.isEmpty then "<empty>".toList else Token.rawText arg)
      (if arg'.isEmpty then "<empty>".toList else Token.rawText arg') := by
    rw [← h.isEmpty_eq]
    split
    · exact k.quote_refl _
    · exact h.quote_rawText
  unfold argumentValue
  apply hvalue.bind
  rintro value _ rfl
  cases value with
  | some value => exact .pure rfl
  | none =>
      rw [hname]
      exact Pass.refuse_alike (.notNumeric _ _ hshown) (argumentSpan_alike h hplace)

theorem countValue_alike (hname : c.name = c'.name) (hplace : k.place c.span.start c'.span.start)
    (parameter : Text) {arg arg' : List Token} (h : Argument k arg arg') :
    Pass.Parallel k Eq (countValue c parameter arg) (countValue c' parameter arg') := by
  unfold countValue
  apply (argumentValue_alike hname hplace parameter h).bind
  rintro value _ rfl
  cases positive? value with
  | some count => exact .pure rfl
  | none =>
      apply (Pass.ofFault_alike _).bind
      rintro shown _ rfl
      rw [hname]
      exact Pass.refuse_alike (.same _) (argumentSpan_alike h hplace)

theorem argumentValues_alike (hname : c.name = c'.name)
    (hplace : k.place c.span.start c'.span.start) (parameters : List Parameter)
    {args args' : List (List Token)} (h : List.Forall₂ (Argument k) args args') :
    Pass.Parallel k Eq (argumentValues c parameters args) (argumentValues c' parameters args') := by
  induction h generalizing parameters with
  | nil =>
      rw [argumentValues.eq_def, argumentValues.eq_def]
      cases parameters <;> exact .pure rfl
  | cons harg _ ih =>
      cases parameters with
      | nil => exact .pure rfl
      | cons p ps =>
          rw [argumentValues, argumentValues]
          apply (argumentValue_alike hname hplace p.name harg).bind
          rintro value _ rfl
          apply (ih ps).bind
          rintro values _ rfl
          exact .pure rfl

end

theorem made_alike (kind : TokenKind) (raw : Text) {span span' : Span}
    (h : k.place span.start span'.start) :
    Token.Alike k (.made kind raw span) (.made kind raw span') := ⟨rfl, h⟩

theorem stripTrivia_row {ts ts' : List Token} (h : Row k ts ts') :
    Row k (stripTrivia ts) (stripTrivia ts') := h.dropWhile_trivia.reverse.dropWhile_trivia.reverse

theorem landTokens_row {span span' : Span} (hplace : k.place span.start span'.start)
    {content content' : List Token} (h : Row k content content') (p : Point) :
    Row k (landTokens span content p) (landTokens span' content' p) := by
  have hmade (kind : TokenKind) (raw : Text) :
      Token.Alike k (.made kind raw span) (.made kind raw span') := made_alike kind raw hplace
  have hinner := stripTrivia_row h
  unfold landTokens
  refine (Row.append (.of_alike ?_) ?_).append (.of_alike ?_)
  · repeat' first | exact .nil | refine .cons (hmade _ _) ?_
  · dsimp only
    rw [hinner.isEmpty_eq]
    split
    · exact .nil
    · exact (Row.single (hmade _ _)).append hinner
  · repeat' first | exact .nil | refine .cons (hmade _ _) ?_

theorem expandCall_alike {c c' : Call} (h : Call.Alike k c c') :
    Pass.Parallel k (List.Forall₂ (Leaf.Alike k)) (expandCall c) (expandCall c') := by
  have hargs := h.args
  have hplace := h.place
  have hrow : Row k (c.body.getD []) (c'.body.getD []) := by
    have hbody := h.body
    generalize c.body = content at hbody
    generalize c'.body = content' at hbody
    cases hbody with
    | none => exact .nil
    | some hrow => exact hrow
  unfold expandCall
  rw [← h.name]
  cases Pattern.ofName? c.name with
  | none => exact Pass.refuse_alike (.same _) hplace
  | some pattern =>
      have harity : Pass.Parallel k (R := List.Forall₂ (Leaf.Alike k))
          (Pass.refuse (.callArity c.name pattern.signature c.args.length) c.span)
          (Pass.refuse (.callArity c.name pattern.signature c'.args.length) c'.span) := by
        rw [hargs.length_eq]
        exact Pass.refuse_alike (.same _) hplace
      dsimp only
      rw [← hargs.length_eq] at harity ⊢
      split
      · exact harity
      cases pattern.parameters with
      | nil => exact harity
      | cons p ps =>
          revert harity
          generalize c.args = args at hargs
          generalize c'.args = args' at hargs
          intro harity
          cases hargs with
          | nil => exact harity
          | cons harg hmore =>
              apply (countValue_alike h.name hplace p.name harg).bind
              rintro count _ rfl
              apply (argumentValues_alike h.name hplace ps hmore).bind
              rintro values _ rfl
              apply (Pass.ofFault_alike _).bind
              rintro points _ rfl
              have htokens : Row k (points.flatMap (landTokens c.span (c.body.getD [])))
                  (points.flatMap (landTokens c'.span (c'.body.getD []))) := by
                induction points with
                | nil => exact .nil
                | cons point points ih =>
                    rw [List.flatMap_cons, List.flatMap_cons]
                    exact (landTokens_row hplace hrow point).append ih
              rw [htokens.isEmpty_eq]
              refine .pure ?_
              split
              · exact .nil
              · exact .cons (.run htokens) .nil

theorem copies_alike (count : Nat) {leaves leaves' : List Leaf}
    (h : List.Forall₂ (Leaf.Alike k) leaves leaves') :
    List.Forall₂ (Leaf.Alike k) (copies count leaves) (copies count leaves') := by
  rw [copies_eq, copies_eq]
  induction count with
  | zero => exact .nil
  | succ n ih =>
      rw [List.replicate_succ, List.replicate_succ, List.flatten_cons, List.flatten_cons]
      exact List.rel_append h ih

mutual

/-- A block is expanded to leaves that are alike. -/
theorem expandNode_alike : ∀ (n : Node) {n' : Node}, Node.Alike k n n' →
    Pass.Parallel k (List.Forall₂ (Leaf.Alike k)) (expandNode n) (expandNode n')
  | .run _, _, .run hrow => by
    rw [expandNode, expandNode]
    exact .pure (.cons (.run hrow) .nil)
  | .marker _ _, _, .marker m hplace => by
    rw [expandNode, expandNode]
    exact .pure (.cons (.marker m hplace) .nil)
  | .header _, _, .header hlines => by
    rw [expandNode, expandNode]
    exact .pure (.cons (.header hlines) .nil)
  | .call _, _, .call hcall => by
    rw [expandNode, expandNode]
    exact expandCall_alike hcall
  | .repeated _ children _ _, _, .repeated hargs hchildren hplace => by
    rw [expandNode, expandNode]
    apply (expandNodes_alike children hchildren).bind
    intro leaves leaves' hleaves
    apply (repeatCount_alike hargs hplace).bind
    rintro count _ rfl
    exact .pure (copies_alike count hleaves)

theorem expandNodes_alike : ∀ (ns : List Node) {ns' : List Node}, Node.AlikeAll k ns ns' →
    Pass.Parallel k (List.Forall₂ (Leaf.Alike k)) (expandNodes ns) (expandNodes ns')
  | [], _, .nil => by
    rw [expandNodes]
    exact .pure .nil
  | n :: ns, _, .cons hn hns => by
    rw [expandNodes, expandNodes]
    apply (expandNode_alike n hn).bind
    intro _ _ hhead
    exact (expandNodes_alike ns hns).bind fun _ _ htail => .pure (List.rel_append hhead htail)

end

end Expansion

end MapScript
