import MapScript.Preprocess
import MapScript.Proofs.Compact
import MapScript.Proofs.Outcome

/-!
# A cut script begins the whole

The names of hoisted calls are handed out over the whole script, the part behind
the first cut included, and a separator in compact text depends on what is written
before it only.  So a script that is hoisted and then cut is the beginning of the
one that is hoisted without its cuts: the same declarations, the first of its
header lines, the first of its text.
-/

namespace MapScript

namespace Piece

/-- Whether a part is written, and does not just say where the script ends. -/
def isWritten : Piece → Bool
  | .cut _ => false
  | _ => true

@[simp] theorem isWritten_run (r : Run) : (run r).isWritten = true := rfl

@[simp] theorem isWritten_cut (span : Span) : (cut span).isWritten = false := rfl

@[simp] theorem isWritten_header (h : Header) : (header h).isWritten = true := rfl

/-- What hoisting may make of a part: another row of tokens in the place of a run. -/
def HoistsTo : Piece → Piece → Prop
  | run r, run r' => r'.span = r.span
  | p, p' => p' = p

theorem HoistsTo.refl (p : Piece) : p.HoistsTo p := by
  cases p <;> rfl

theorem HoistsTo.isWritten_eq {p p' : Piece} (h : p.HoistsTo p') :
    p'.isWritten = p.isWritten := by
  cases p <;> cases p' <;> simp_all [HoistsTo]

theorem HoistsTo.takeWhile {parts parts' : List Piece} (h : List.Forall₂ HoistsTo parts parts') :
    List.Forall₂ HoistsTo (parts.takeWhile isWritten) (parts'.takeWhile isWritten) := by
  induction h with
  | nil => exact .nil
  | cons hp _ ih =>
      rw [List.takeWhile_cons, List.takeWhile_cons, hp.isWritten_eq]
      split
      · exact .cons hp ih
      · exact .nil

theorem HoistsTo.filter {parts parts' : List Piece} (h : List.Forall₂ HoistsTo parts parts') :
    List.Forall₂ HoistsTo (parts.filter isWritten) (parts'.filter isWritten) :=
  List.rel_filter (fun p p' hp => by simp [HoistsTo.isWritten_eq hp]) h

end Piece

/-- The script with nothing that cuts it. -/
def Script.withoutCuts (s : Script Piece) : Script Piece :=
  { s with parts := s.parts.filter Piece.isWritten }

theorem Script.parts_truncate (s : Script Piece) :
    s.truncate.parts = s.parts.takeWhile Piece.isWritten := rfl

/-! ### Prefixes -/

theorem Script.parts_truncate_prefix (s : Script Piece) :
    s.truncate.parts <+: s.withoutCuts.parts := by
  rw [parts_truncate, withoutCuts]
  induction s.parts with
  | nil => exact List.prefix_rfl
  | cons p rest ih =>
      cases hp : p.isWritten with
      | true => simpa [hp] using ih
      | false => simp [hp]

theorem Compact.render_isPrefix (keepLines : Bool) {ls ms : List Lexeme} (h : ls <+: ms) :
    render keepLines ls <+: render keepLines ms := by
  obtain ⟨later, rfl⟩ := h
  rw [render, render, renderFrom_append]
  exact List.prefix_append ..

/-! ### Hoisting, part by part -/

namespace Hoist

theorem hoistPieces_cons_of_ne_run (stem : Text) {p : Piece} (hp : ∀ r, p ≠ .run r)
    (rest : List Piece) :
    hoistPieces stem (p :: rest) = (fun later => p :: later) <$> hoistPieces stem rest := by
  cases p with
  | run r => exact absurd rfl (hp r)
  | cut span => rfl
  | header h => rfl

/-- Cuts have no part in hoisting. -/
theorem hoistPieces_filter (stem : Text) (parts : List Piece) :
    hoistPieces stem (parts.filter Piece.isWritten) =
      (fun out => out.filter Piece.isWritten) <$> hoistPieces stem parts := by
  induction parts with
  | nil => simp [hoistPieces]
  | cons p rest ih =>
      cases p with
      | run r =>
          rw [List.filter_cons_of_pos rfl, hoistPieces, hoistPieces, ih]
          simp [List.filter_cons]
      | cut span =>
          rw [List.filter_cons_of_neg (by simp), ih, hoistPieces_cons_of_ne_run stem (by simp)]
          simp
      | header h =>
          rw [List.filter_cons_of_pos rfl, hoistPieces_cons_of_ne_run stem (by simp),
            hoistPieces_cons_of_ne_run stem (by simp), ih]
          simp [List.filter_cons]

/-- Every part is hoisted in its place. -/
theorem hoistPieces_hoistsTo (stem : Text) (parts : List Piece) (state : State) (s : Session) :
    Ends ((hoistPieces stem parts).run state) s
      (fun out _ => List.Forall₂ Piece.HoistsTo parts out.1) (fun _ _ => True) := by
  induction parts generalizing state s with
  | nil => exact List.Forall₂.nil
  | cons p rest ih =>
      have keep (hp : ∀ r, p ≠ .run r) (hself : p.HoistsTo p) :
          Ends ((hoistPieces stem (p :: rest)).run state) s
            (fun out _ => List.Forall₂ Piece.HoistsTo (p :: rest) out.1) (fun _ _ => True) := by
        rw [hoistPieces_cons_of_ne_run stem hp, StateT.run_map, Ends.map_iff]
        exact (ih state s).weaken fun _ _ hlater => .cons hself hlater
      cases p with
      | cut span => exact keep (by simp) rfl
      | header h => exact keep (by simp) rfl
      | run r =>
          rw [hoistPieces]
          simp only [StateT.run_bind, Ends.bind_iff]
          refine Ends.of_run (fun tokens s₁ _ => ?_) fun _ _ _ => trivial
          exact (ih tokens.2 s₁).weaken fun _ _ hlater => .cons rfl hlater

end Hoist

namespace Script

theorem flatMap_words_withoutCuts (parts : List Piece) :
    (parts.filter Piece.isWritten).flatMap Hoist.words = parts.flatMap Hoist.words := by
  induction parts with
  | nil => rfl
  | cons p rest ih => cases p <;> simp [List.filter_cons, Hoist.words, ih]

/-- Hoisting a script without its cuts is hoisting the script and taking its cuts out. -/
theorem hoist_withoutCuts (stem : Text) (s : Script Piece) :
    s.withoutCuts.hoist stem = withoutCuts <$> s.hoist stem := by
  unfold hoist
  rw [map_bind]
  congr 1
  funext session
  dsimp only [withoutCuts]
  rw [flatMap_words_withoutCuts, Hoist.hoistPieces_filter, StateT.run_map, bind_map_left, map_bind]
  congr 1
  funext out
  dsimp only
  cases out.2.declarations.reverse.flatten with
  | nil => rfl
  | cons t ts => simp [withoutCuts, List.filter_cons]

/-- The parts of a hoisted script: the declarations, if there are any, and every part of
the script in its place. -/
theorem hoist_hoistsTo (stem : Text) (s : Script Piece) (session : Session) :
    Ends (s.hoist stem) session
      (fun out _ => ∃ declared parts, out.parts = declared ++ parts ∧
        declared.all Piece.isWritten = true ∧ List.Forall₂ Piece.HoistsTo s.parts parts)
      (fun _ _ => True) := by
  unfold hoist
  simp only [Ends.bind_iff, Ends.get_iff]
  apply (Hoist.hoistPieces_hoistsTo stem s.parts _ session).weaken
  rintro ⟨pieces, state⟩ s₁ hpieces
  split
  · refine ⟨[], s.parts, rfl, rfl, ?_⟩
    exact List.forall₂_same.2 fun p _ => .refl p
  · exact ⟨[_], pieces, rfl, rfl, hpieces⟩

/-- A script that is hoisted and then cut begins the same script hoisted without its cuts,
and where the one is not hoisted the other is not, for the same reason: both have the same
declarations in front and then their own parts, all header lines of the first begin those
of the second, and so does its text. -/
theorem hoist_truncate_begins (stem : Text) (keepLines : Bool) (s : Script Piece)
    (session : Session) :
    Ends (s.hoist stem) session
      (fun out later => ∃ whole declared first parts,
        (s.withoutCuts.hoist stem).run.run session = (.ok whole, later) ∧
        out.truncate.parts = declared ++ first ∧
        List.Forall₂ Piece.HoistsTo s.truncate.parts first ∧
        whole.parts = declared ++ parts ∧
        List.Forall₂ Piece.HoistsTo s.withoutCuts.parts parts ∧
        out.truncate.parts.flatMap Piece.headerLines <+: whole.parts.flatMap Piece.headerLines ∧
        Compact.render keepLines (out.truncate.parts.flatMap Piece.lexemes) <+:
          Compact.render keepLines (whole.parts.flatMap Piece.lexemes))
      (fun e later => (s.withoutCuts.hoist stem).run.run session = (.error e, later)) := by
  rw [hoist_withoutCuts]
  refine Ends.of_run (fun out later hrun => ?_) fun e later hrun => ?_
  · obtain ⟨declared, parts, hout, hdeclared, hparts⟩ :=
      (hoist_hoistsTo stem s session).of_run_ok hrun
    have hwritten : ∀ p ∈ declared, p.isWritten = true := List.all_eq_true.1 hdeclared
    have htruncate : out.truncate.parts = declared ++ parts.takeWhile Piece.isWritten := by
      rw [parts_truncate, hout, List.takeWhile_append_of_pos hwritten]
    have hwhole : out.withoutCuts.parts = declared ++ parts.filter Piece.isWritten := by
      rw [withoutCuts, hout, List.filter_append, List.filter_eq_self.2 hwritten]
    have hkept := out.parts_truncate_prefix
    refine ⟨out.withoutCuts, declared, _, _, ?_, htruncate, Piece.HoistsTo.takeWhile hparts, hwhole,
      Piece.HoistsTo.filter hparts, hkept.flatMap _, ?_⟩
    · rw [ExceptT.run_map, StateT.run_map, hrun]
      rfl
    · exact Compact.render_isPrefix keepLines (hkept.flatMap _)
  · rw [ExceptT.run_map, StateT.run_map, hrun]
    rfl

end Script

end MapScript
