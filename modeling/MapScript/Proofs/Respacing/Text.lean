import MapScript.Preprocess
import MapScript.Proofs.Respacing.RandomCall

/-!
# The text of scripts with other gaps

What is written between two lexemes depends on whether there is a gap and whether it
breaks the line, so rows with other gaps have one compact text.  Put together with the
passes before: where the streams of two sources track each other, both come to the same
text or fail alike.
-/

namespace MapScript

variable {k : Likeness}

namespace Compact

theorem renderFrom_gap (keepLines : Bool) (j : Joint) {g : List Token}
    (hg : ∀ t ∈ g, t.isTrivia = true) (hne : g ≠ []) (ls : List Lexeme) :
    renderFrom keepLines j (g.map Token.toLexeme ++ ls) =
      renderFrom keepLines
        { j with gap := true, lineBreak := j.lineBreak || g.any Token.breaksLine } ls := by
  induction g generalizing j with
  | nil => exact absurd rfl hne
  | cons t g ih =>
      obtain ⟨ht, hg⟩ := List.forall_mem_cons.1 hg
      have hlexeme : t.toLexeme.isTrivia = true := ht
      rw [List.map_cons, List.cons_append, renderFrom, if_pos hlexeme]
      cases g with
      | nil => simp [Joint.widen, Token.breaksLine, Bool.or_assoc]
      | cons u g =>
          rw [ih (j.widen t.toLexeme) hg (by simp)]
          simp [Joint.widen, Token.breaksLine, Bool.or_assoc]

theorem renderFrom_alike (keepLines : Bool) {ts ts' : List Token} (h : Row k ts ts') (j : Joint) :
    renderFrom keepLines j (ts.map Token.toLexeme) =
      renderFrom keepLines j (ts'.map Token.toLexeme) := by
  induction h generalizing j with
  | nil => rfl
  | @token t t' ts ts' alike hsig _ ih =>
      have hscript : t'.toLexeme.isTrivia = false := by rwa [← alike.lexeme]
      rw [List.map_cons, List.map_cons, alike.lexeme, renderFrom, renderFrom, hscript,
        if_neg (by simp), if_neg (by simp)]
      dsimp only
      rw [ih]
  | gap hgap _ ih =>
      rw [List.map_append, List.map_append,
        renderFrom_gap keepLines j hgap.trivia hgap.nonempty,
        renderFrom_gap keepLines j hgap.trivia' hgap.nonempty', hgap.breaks, ih]

end Compact

/-- The tokens of a part that make the script text. -/
def Piece.textTokens : Piece → List Token
  | run r => r.tokens
  | _ => []

theorem Piece.lexemes_eq_map (p : Piece) : p.lexemes = p.textTokens.map Token.toLexeme := by
  cases p <;> rfl

theorem engineText_alike (keepLines : Bool) {pieces pieces' : List Piece}
    (h : List.Forall₂ (Piece.Alike k) pieces pieces') :
    engineText keepLines pieces = engineText keepLines pieces' := by
  have hlexemes (pieces : List Piece) : pieces.flatMap Piece.lexemes =
      (pieces.flatMap Piece.textTokens).map Token.toLexeme := by
    rw [List.map_flatMap]
    exact congrArg (pieces.flatMap ·) (funext Piece.lexemes_eq_map)
  have hrow : Row k (pieces.flatMap Piece.textTokens) (pieces'.flatMap Piece.textTokens) := by
    induction h with
    | nil => exact .nil
    | cons hpiece _ ih =>
        rw [List.flatMap_cons, List.flatMap_cons]
        cases hpiece with
        | run hrow => exact hrow.append ih
        | cut _ _ | header _ => exact ih
  have hheaders : pieces.flatMap Piece.headerLines = pieces'.flatMap Piece.headerLines := by
    clear hrow
    induction h with
    | nil => rfl
    | cons hpiece _ ih =>
        rw [List.flatMap_cons, List.flatMap_cons, ih]
        cases hpiece with
        | header hlines => rw [Piece.headerLines, Piece.headerLines, hlines]
        | run _ | cut _ _ => rfl
  unfold engineText
  rw [hheaders, hlexemes, hlexemes, Compact.render, Compact.render,
    Compact.renderFrom_alike keepLines hrow]

theorem Script.truncate_alike {s s' : Script Piece}
    (h : Script.Alike (List.Forall₂ (Piece.Alike k)) s s') :
    List.Forall₂ (Piece.Alike k) s.truncate.parts s'.truncate.parts := by
  obtain ⟨hparts, -⟩ := h
  unfold Script.truncate
  dsimp only
  generalize s.parts = parts at hparts
  generalize s'.parts = parts' at hparts
  induction hparts with
  | nil => exact .nil
  | cons hpiece _ ih =>
      cases hpiece with
      | run hrow => exact .cons (.run hrow) ih
      | header hlines => exact .cons (.header hlines) ih
      | cut _ _ => exact .nil

/-! ### Runs over two sources -/

namespace Preprocess

/-- Sources whose token streams track each other, or that are refused alike. -/
def Reading (k : Likeness) (source source' : Text) : Prop :=
  Both (Report.Alike k) (fun s s' => Tracks k s.tokens s'.tokens) (TokenStream.ofSource source)
    (TokenStream.ofSource source')

variable {source source' : Text}

theorem blocks_alike (h : Reading k source source') :
    Pass.Parallel k (Script.Alike (Node.AlikeAll k)) (blocks source) (blocks source') := by
  apply Pass.ofReport_alike
  unfold Script.ofSource
  unfold Reading at h
  generalize TokenStream.ofSource source = x at h
  generalize TokenStream.ofSource source' = y at h
  cases h with
  | ok h => exact Script.ofStream_alike h
  | error h => exact .error h

/-- The passes over both come to one text, or fail alike. -/
theorem text_alike (options : Options) (h : Reading k source source') :
    Pass.Parallel k Eq (text options source) (text options source') := by
  have hresolved : Pass.Parallel k (Script.Alike (Node.AlikeAll k)) (resolved source)
      (resolved source') :=
    (blocks_alike h).bind fun _ _ hscript => Pass.onTable_alike (Script.resolve_alike hscript)
  have hexpanded : Pass.Parallel k (Script.Alike (List.Forall₂ (Piece.Alike k)))
      (expanded source) (expanded source') :=
    hresolved.bind fun _ _ hscript => Script.expand_alike hscript
  have hhoisted : Pass.Parallel k (Script.Alike (List.Forall₂ (Piece.Alike k)))
      (hoisted options source) (hoisted options source') := by
    apply hexpanded.bind
    intro script script' hscript
    split
    · exact Script.hoist_alike options.stem hscript
    · exact .pure hscript
  have htruncated : Pass.Parallel k (fun s s' => List.Forall₂ (Piece.Alike k) s.parts s'.parts)
      (truncated options source) (truncated options source') :=
    hhoisted.bind fun _ _ hscript => .pure (Script.truncate_alike hscript)
  exact htruncated.bind fun _ _ hparts => .pure (engineText_alike options.keepLines hparts)

theorem runPass_alike (options : Options) (h : Reading k source source') :
    Both (Failure.Alike k) Eq (runPass options (text options source)).1
        (runPass options (text options source')).1 ∧
      List.Forall₂ (Warning.Alike k) (runPass options (text options source)).2.warnings
        (runPass options (text options source')).2.warnings := by
  have hstart : Session.Alike k (Session.start options) (Session.start options) :=
    ⟨.refl_of_constants rfl, .nil⟩
  obtain ⟨hboth, hsession⟩ := text_alike options h _ _ hstart
  exact ⟨hboth, hsession.warnings⟩

end Preprocess

end MapScript
